import ConfigSandbox.Proofs.Grammar.Statements
import ConfigSandbox.Proofs.Submission.Forms
import ConfigSandbox.Proofs.Tree.Rebuilt
import ConfigSandbox.Tree.Parse

/-!
# Canonical text is read back

The text of a canonical expression is a phrase of the grammar, whatever stops it, and from its node the
expression is built. The induction is over the expression; the grammar's side of each case is about texts of
that form, and the tree's side about nodes of that form.
-/
namespace ConfigSandbox

open Peg (Phrase Item row pairText)

/-! ### Canonical parts -/

theorem allCanonical_iff {items : List Expr} : allCanonical items ↔ ∀ e ∈ items, e.isCanonical := by
  induction items with
  | nil => simp [allCanonical]
  | cons e rest ih => simp [allCanonical, ih]

/-- Canonical entries are pairs. -/
theorem exists_pairs {entries : List DictEntry} (h : entriesCanonical entries) :
    ∃ pairs : List (Expr × Expr), entries = pairs.map .ofPair ∧
      ∀ p ∈ pairs, p.1.isCanonical ∧ p.2.isCanonical := by
  induction entries with
  | nil => exact ⟨[], rfl, List.forall_mem_nil _⟩
  | cons entry rest ih =>
    cases entry with
    | unpack => cases h
    | pair key value =>
      simp only [entriesCanonical, Bool.and_eq_true] at h
      obtain ⟨pairs, rfl, hpairs⟩ := ih h.2
      exact ⟨(key, value) :: pairs, rfl, List.forall_mem_cons.mpr ⟨h.1, hpairs⟩⟩

theorem keywordsCanonical_iff {keywords : List Keyword} : keywordsCanonical keywords ↔
    ∀ k ∈ keywords, ∃ loc name value, k = .named loc name value ∧ isName name.toList ∧ value.isCanonical := by
  induction keywords with
  | nil => simp [keywordsCanonical]
  | cons k rest ih =>
    cases k with
    | unpack => simp [keywordsCanonical]
    | named loc name value => simp [keywordsCanonical, ih]

/-! ### Text of brackets -/

theorem commaSeparated_map {α : Type} (f : α → String) (xs : List α) :
    (Value.commaSeparated (xs.map f)).toList = row (fun x => (f x).toList) xs := by
  rw [Value.commaSeparated, String.toList_intercalate, List.map_map]
  rfl

theorem texts_eq_map (items : List Expr) : texts items = items.map Expr.text := by
  induction items with
  | nil => rfl
  | cons e rest ih => rw [texts, ih, List.map_cons]

theorem list_text (loc : Location) (items : List Expr) :
    (Expr.list loc items).text.toList = '[' :: (row (fun e => e.text.toList) items ++ [']']) := by
  rw [Expr.text, texts_eq_map]
  simp [commaSeparated_map]

theorem set_text (loc : Location) (items : List Expr) :
    (Expr.set loc items).text.toList = '\x7b' :: (row (fun e => e.text.toList) items ++ ['\x7d']) := by
  rw [Expr.text, texts_eq_map]
  simp [commaSeparated_map]

theorem entryTexts_pairs (pairs : List (Expr × Expr)) :
    entryTexts (pairs.map .ofPair) = pairs.map fun p => p.1.text ++ ": " ++ p.2.text := by
  induction pairs with
  | nil => rfl
  | cons p rest ih => rw [List.map_cons, DictEntry.ofPair, entryTexts, ih, List.map_cons]

theorem dict_text (loc : Location) (pairs : List (Expr × Expr)) :
    (Expr.dict loc (pairs.map .ofPair)).text.toList =
      '\x7b' :: (row (fun p => pairText p.1.text.toList p.2.text.toList) pairs ++ ['\x7d']) := by
  rw [Expr.text, entryTexts_pairs]
  simp [commaSeparated_map, pairText]

/-- What is written for an argument of a call. -/
def argumentText : Expr ⊕ Keyword → String
  | .inl e => e.text
  | .inr (.named _ name value) => name ++ "=" ++ value.text
  | .inr (.unpack _ value) => "**" ++ value.text

theorem keyword_text (loc : Location) (name : String) (value : Expr) :
    (argumentText (.inr (.named loc name value))).toList = name.toList ++ '=' :: value.text.toList := by
  simp [argumentText]

theorem arguments_text (args : List Expr) (keywords : List Keyword) :
    texts args ++ keywordTexts keywords = (arguments args keywords).map argumentText := by
  have hkeywords : keywordTexts keywords = keywords.map (argumentText ∘ .inr) := by
    induction keywords with
    | nil => rfl
    | cons k rest ih => cases k <;> simp [keywordTexts, ih, argumentText]
  rw [texts_eq_map, hkeywords, arguments, List.map_append, List.map_map, List.map_map]
  rfl

theorem call_text (loc floc : Location) (func : String) (args : List Expr) (keywords : List Keyword) :
    (Expr.call loc (.name floc func) args keywords).text.toList =
      func.toList ++ '(' :: (row (fun a => (argumentText a).toList) (arguments args keywords) ++ [')']) := by
  rw [Expr.text, arguments_text]
  simp [commaSeparated_map, Expr.text]

/-! ### Expressions -/

variable {e : Expr} {cs : List Char} {P : List Node → Prop}

theorem Peg.Phrase.mono {R S : Node → Prop} (h : Phrase cs R) (hRS : ∀ node, R node → S node) :
    Phrase cs S := by
  refine ⟨⟨h.opens, fun tail htail => (h.takes tail htail).mono ?_⟩, h.unnamed⟩
  rintro _ ⟨node, rfl, hnode⟩
  exact ⟨node, rfl, hRS node hnode⟩

theorem Peg.Phrase.built (h : Phrase cs (Peg.RowNode P))
    (hP : ∀ nodes, P nodes → Peg.Sole e.OperandFrom nodes) : Phrase cs e.BuiltFrom := by
  refine h.mono ?_
  rintro _ ⟨first, last, first', last', children, rfl, hchildren⟩
  exact .of_operand ⟨first, last, first', last', children, rfl, hP children hchildren⟩

theorem Constant.phrase (loc : Location) {value : Constant} (h : value.isCanonical) :
    Phrase value.text.toList (Expr.constant loc value).BuiltFrom := by
  have hword (word : String) (r : Rule) (hmem : (word, r) ∈ Peg.wordLiterals)
      (hr : r.isOperand ∧ ∀ limit depth first last,
        exprOf limit depth (.mk r first last []) = .ok (.constant (first.location last) value)) :
      Phrase word.toList (Expr.constant loc value).BuiltFrom := by
    refine (Peg.phrase_word hmem).built ?_
    rintro _ ⟨first, last, _, rfl, -, rfl⟩
    exact ⟨_, rfl, hr.1, fun limit depth _ => ⟨_, hr.2 limit depth first last, rfl⟩⟩
  cases value with
  | none => exact hword "None" .noneLiteral (by decide) ⟨rfl, fun _ _ _ _ => by rw [exprOf.eq_def]⟩
  | bool b =>
    cases b with
    | false => exact hword "False" .falseLiteral (by decide) ⟨rfl, fun _ _ _ _ => by rw [exprOf.eq_def]⟩
    | true => exact hword "True" .trueLiteral (by decide) ⟨rfl, fun _ _ _ _ => by rw [exprOf.eq_def]⟩
  | int n =>
    have hn : 0 ≤ n := by simpa [isCanonical] using h
    obtain ⟨k, -, -, htext⟩ := text_int hn
    have hdigits := @isDigit_of_mem_toDigits k
    obtain ⟨d, ds, hds⟩ := List.exists_cons_of_ne_nil (Nat.toDigits_ne_nil (b := 10) (n := k))
    rw [hds] at htext hdigits
    obtain ⟨hd, hmore⟩ := List.forall_mem_cons.mp hdigits
    have hphrase := Peg.phrase_integer hd hmore
    rw [← htext] at hphrase
    exact hphrase.built fun _ => operandFrom_int hn
  | str s =>
    have hquote := quoteFor_cases s.toList
    rw [text_str]
    exact (Peg.phrase_string hquote (quotable_flatMap_escapeChar hquote s.toList)).built
      fun _ => operandFrom_str (unescape_flatMap_escapeChar hquote s.toList)
  | float | bytes | ellipsis => cases h

theorem argument_item {a : Expr ⊕ Keyword}
    (h : match a with
      | .inl e => Phrase e.text.toList e.BuiltFrom
      | .inr k => ∃ loc name value, k = .named loc name value ∧ isName name.toList ∧
          Phrase value.text.toList value.BuiltFrom) :
    Item Peg.callArgument (argumentText a).toList (ArgumentFrom a) := by
  cases a with
  | inl e => exact h.argument
  | inr k =>
    obtain ⟨loc, name, value, rfl, hname, hvalue⟩ := h
    rw [keyword_text]
    exact Peg.keywordItem hname hvalue

theorem Expr.phrase (e : Expr) (h : e.isCanonical) : Phrase e.text.toList e.BuiltFrom := by
  induction e using Expr.induction_on_forms with
  | name loc id => exact (Peg.phrase_name h).built fun _ => operandFrom_name
  | constant loc value hvalue => exact Constant.phrase loc h
  | list loc items ih =>
    have hitems := allCanonical_iff.mp h
    rw [list_text]
    exact (Peg.phrase_list fun e he => ih e he (hitems e he)).built fun _ => operandFrom_list
  | set loc items ih =>
    simp only [isCanonical, Bool.and_eq_true, Bool.not_eq_true', List.isEmpty_eq_false_iff] at h
    obtain ⟨hne, hall⟩ := h
    have hitems := allCanonical_iff.mp hall
    rw [set_text]
    obtain ⟨first, rest, rfl⟩ := List.exists_cons_of_ne_nil hne
    exact (Peg.phrase_set fun e he => ih e he (hitems e he)).built fun _ => operandFrom_set hne
  | dict loc entries ih =>
    obtain ⟨pairs, rfl, hpairs⟩ := exists_pairs h
    rw [dict_text]
    refine (Peg.phrase_dict fun p hp => ?_).built fun _ => operandFrom_dict
    obtain ⟨hkey, hvalue⟩ := hpairs p hp
    obtain ⟨ihkey, ihvalue⟩ := ih p.1 p.2 (List.mem_map_of_mem hp)
    exact ⟨ihkey hkey, ihvalue hvalue⟩
  | call loc func args keywords ihargs ihkeywords =>
    cases func with
    | name floc func =>
      simp only [isCanonical, Bool.and_eq_true, decide_eq_true_eq] at h
      obtain ⟨⟨⟨hname, hargs⟩, hkeywords⟩, hnodup⟩ := h
      have hitems : ∀ a ∈ arguments args keywords,
          Item Peg.callArgument (argumentText a).toList (ArgumentFrom a) := by
        intro a ha
        refine argument_item ?_
        rcases List.mem_append.mp ha with ha | ha
        · obtain ⟨e, he, rfl⟩ := List.mem_map.mp ha
          exact ihargs e he (allCanonical_iff.mp hargs e he)
        · obtain ⟨k, hk, rfl⟩ := List.mem_map.mp ha
          obtain ⟨kloc, name, value, rfl, hname, hvalue⟩ := keywordsCanonical_iff.mp hkeywords k hk
          exact ⟨kloc, name, value, rfl, hname, ihkeywords _ hk hvalue⟩
      rw [call_text]
      exact (Peg.phrase_call hname hitems).mono fun _ => builtFrom_call hnodup
    | _ => cases h
  | refused e he =>
    cases e with
    | constant loc value => exact Constant.phrase loc h
    | name | list | set | dict | call => cases he
    | _ => cases h

/-! ### Statements -/

variable {limit : Nat} {node : Node} {nodes : List Node}

/-- From the node the statement is built where its brackets stay below the limit. -/
def Statement.BuiltFrom (s : Statement) (node : Node) : Prop :=
  node.rule ≠ .endOfInput ∧ ∀ limit, nestingIn s.kind.exprs < limit →
    ∃ s', statementOf limit node = .ok s' ∧ s'.shape = s.shape

theorem targetListOf_rebuilt {first last : Cursor} {child : Node} (hrule : child.rule = .conditional)
    (h : e.Rebuilt (exprOf limit 0 child)) : e.Rebuilt (targetListOf limit (.mk .targetList first last [child])) := by
  obtain ⟨e', hexpr, hshape⟩ := h
  refine ⟨e', ?_, hshape⟩
  have hitems : itemsOf limit 0 [child] = .ok [e'] := by
    rw [itemsOf, hrule, hexpr]
    rfl
  rw [targetListOf]
  dsimp only [Node.children]
  rw [hitems]
  dsimp only [bind, Except.bind, tupleUnlessSingle]
  rw [List.any_cons, hrule]
  rfl

theorem targetListOf_built (h : Peg.TargetNode e.BuiltFrom node) (hlimit : e.nesting < limit) :
    e.Rebuilt (targetListOf limit node) := by
  obtain ⟨first, last, child, rfl, hrule, hbuilt⟩ := h
  exact targetListOf_rebuilt hrule (hbuilt limit 0 (by omega))

theorem targetListOf_name {loc : Location} {id : String} (hlimit : 0 < limit)
    (h : Peg.TargetNode (Peg.RowNode (Peg.Single .identifier id.toList Peg.Silent)) node) :
    (Expr.name loc id).Rebuilt (targetListOf limit node) := by
  obtain ⟨first, last, child, rfl, f, l, f', l', children, rfl, hname⟩ := h
  have hchild : (Expr.name loc id).BuiltFrom (.mk .conditional f l [.mk .operation f' l' children]) :=
    .of_operand ⟨f, l, f', l', children, rfl, operandFrom_name hname⟩
  exact targetListOf_built ⟨first, last, _, rfl, hchild⟩ hlimit

theorem statementOf_assignment {loc tloc : Location} {id : String} {value : Expr} {first last : Cursor}
    {target source : Node} (htarget : (Expr.name tloc id).Rebuilt (targetListOf limit target))
    (hsource : value.Rebuilt (targetListOf limit source)) :
    ∃ s', statementOf limit (.mk .assignment first last [target, source]) = .ok s' ∧
      s'.shape = (Statement.mk loc (.assign [.name tloc id] value)).shape := by
  obtain ⟨t', htarget, htshape⟩ := htarget
  obtain ⟨v', hsource, hvshape⟩ := hsource
  refine ⟨⟨first.location last, .assign [t'] v'⟩, ?_, ?_⟩
  · rw [statementOf]
    dsimp only [Node.rule, Node.children, Node.loc]
    rw [List.mapM_cons, htarget, List.mapM_cons, hsource]
    rfl
  · simp only [Statement.shape, StatementKind.shape, shapes, htshape, hvshape]

theorem Peg.Line.mono {R S : Node → Prop} (h : Peg.Line cs R) (hRS : ∀ node, R node → S node) :
    Peg.Line cs S := by
  refine ⟨h.opens, h.unreserved, fun tail htail => (h.takes tail htail).mono ?_⟩
  rintro _ ⟨node, rfl, hnode⟩
  exact ⟨node, rfl, hRS node hnode⟩

theorem Statement.line_assignment {loc tloc : Location} {id : String} {value : Expr} (hid : isName id.toList)
    (hvalue : value.isCanonical) :
    Peg.Line (id ++ " = " ++ value.text).toList (Statement.mk loc (.assign [.name tloc id] value)).BuiltFrom := by
  have htext : (id ++ " = " ++ value.text).toList = id.toList ++ ' ' :: '=' :: ' ' :: value.text.toList := by
    simp
  rw [htext]
  refine (Peg.line_assignment hid (value.phrase hvalue).toItem).mono ?_
  rintro _ ⟨first, last, target, source, rfl, htarget, hsource⟩
  have hrule : Rule.assignment ≠ .endOfInput := by decide
  refine ⟨hrule, fun limit hlimit => ?_⟩
  simp only [StatementKind.exprs, List.singleton_append, nestingIn, Expr.nesting] at hlimit
  exact statementOf_assignment (targetListOf_name (Nat.zero_lt_of_lt hlimit) htarget)
    (targetListOf_built hsource (show value.nesting < limit by omega))

theorem Statement.line_call {loc : Location} {cloc floc : Location} {func : String} {args : List Expr}
    {keywords : List Keyword} (h : (Expr.call cloc (.name floc func) args keywords).isCanonical) :
    Peg.Line (Expr.call cloc (.name floc func) args keywords).text.toList
      (Statement.mk loc (.expr (.call cloc (.name floc func) args keywords))).BuiltFrom := by
  have hname : isName func.toList := by
    simp only [Expr.isCanonical, Bool.and_eq_true] at h
    exact h.1.1.1
  have hline := Peg.line_expression (Expr.phrase _ h).toItem fun tail _ => by
    rw [call_text, List.append_assoc]
    exact Peg.refuses_reservedStatement hname rfl
  refine hline.mono ?_
  rintro _ ⟨first, last, value, rfl, hvalue⟩
  have hrule : Rule.expressionStatement ≠ .endOfInput := by decide
  refine ⟨hrule, fun limit hlimit => ?_⟩
  simp only [StatementKind.exprs, nestingIn] at hlimit
  obtain ⟨e', hexpr, hshape⟩ := targetListOf_built hvalue
    (show (Expr.call cloc (.name floc func) args keywords).nesting < limit by omega)
  refine ⟨⟨first.location last, .expr e'⟩, ?_, ?_⟩
  · rw [statementOf]
    dsimp only [Node.rule, Node.children, Node.loc]
    rw [hexpr]
    rfl
  · simp only [Statement.shape, StatementKind.shape, hshape]

theorem Statement.line (s : Statement) (h : s.isCanonical) : Peg.Line s.text.toList s.BuiltFrom := by
  obtain ⟨loc, target, id, value, rfl, hid, hvalue⟩ | ⟨loc, cloc, floc, func, args, keywords, rfl, hcall⟩ :=
    isCanonical_cases h
  · exact line_assignment hid hvalue
  · exact line_call hcall

/-! ### Modules -/

theorem nestingIn_append (xs ys : List Expr) :
    nestingIn (xs ++ ys) = max (nestingIn xs) (nestingIn ys) := by
  induction xs with
  | nil => rw [List.nil_append, nestingIn, Nat.zero_max]
  | cons e rest ih => rw [List.cons_append, nestingIn, ih, nestingIn, Nat.max_assoc]

/-- From the node a statement of this shape is built. -/
def Statement.RebuiltAt (limit : Nat) (s : Statement) (node : Node) : Prop :=
  node.rule ≠ .endOfInput ∧ ∃ s', statementOf limit node = .ok s' ∧ s'.shape = s.shape

theorem statements_built {body : List Statement} (h : List.Forall₂ Statement.BuiltFrom body nodes)
    (hlimit : nestingIn (body.flatMap fun s => s.kind.exprs) < limit) :
    List.Forall₂ (Statement.RebuiltAt limit) body nodes := by
  induction h with
  | nil => exact .nil
  | @cons s node rest nodes hnode _ ih =>
    rw [List.flatMap_cons, nestingIn_append] at hlimit
    exact .cons ⟨hnode.1, hnode.2 limit (by omega)⟩ (ih (by omega))

theorem statements_rebuilt {body : List Statement} (h : List.Forall₂ (Statement.RebuiltAt limit) body nodes) :
    ∃ body', nodes.mapM (statementOf limit) = .ok body' ∧ body'.map Statement.shape = body.map Statement.shape := by
  induction h with
  | nil => exact ⟨[], rfl, rfl⟩
  | @cons s node rest nodes hnode _ ih =>
    obtain ⟨s', hs, hshape⟩ := hnode.2
    obtain ⟨rest', hrest, hshapes⟩ := ih
    refine ⟨s' :: rest', ?_, by rw [List.map_cons, List.map_cons, hshape, hshapes]⟩
    rw [List.mapM_cons, hs, hrest]
    rfl

variable {m : Module}

theorem Module.script_text (m : Module) :
    m.text.toList = Peg.script (fun s : Statement => s.text.toList) m.body := by
  rw [text, String.toList_intercalate, List.map_map]
  rfl

theorem moduleOf_rebuilt (h : Peg.ModuleNode (Statement.RebuiltAt limit) m.body node) :
    ∃ m', moduleOf limit node = .ok m' ∧ m'.shape = m.shape := by
  obtain ⟨first, last, statements, finish, rfl, hstatements, hfinish⟩ := h
  obtain ⟨body', hbody, hshapes⟩ := statements_rebuilt hstatements
  refine ⟨⟨body'⟩, ?_, congrArg Module.mk hshapes⟩
  have hrule : ∀ node ∈ statements, (node.rule != .endOfInput) = true :=
    forall_of_forall₂ (fun _ _ h => bne_iff_ne.mpr h.1) hstatements
  have hchildren : (statements ++ [finish]).filter (·.rule != .endOfInput) = statements := by
    rw [List.filter_append, List.filter_eq_self.mpr hrule, List.filter_singleton, hfinish]
    exact List.append_nil statements
  rw [moduleOf]
  dsimp only [Node.children]
  rw [hchildren, hbody]
  rfl

theorem moduleOf_built (h : Peg.ModuleNode Statement.BuiltFrom m.body node) (hlimit : m.nesting < limit) :
    ∃ m', moduleOf limit node = .ok m' ∧ m'.shape = m.shape := by
  obtain ⟨first, last, statements, finish, rfl, hstatements, hfinish⟩ := h
  exact moduleOf_rebuilt ⟨first, last, statements, finish, rfl, statements_built hstatements hlimit, hfinish⟩

theorem Peg.matchText_script {α : Type} {t : α → List Char} {Q : α → Node → Prop} {xs : List α}
    (h : ∀ x ∈ xs, Peg.Line (t x) (Q x)) : ∃ last node,
      (Rule.module.matchText (Peg.script t xs)).1 = .matched last [node] ∧ Peg.ModuleNode Q xs node := by
  have hrest : (Cursor.start (Peg.script t xs)).rest = Peg.script t xs ++ [] := (List.append_nil _).symm
  obtain ⟨last, _, hgives, -, node, rfl, hnode⟩ := Peg.takes_module h _ hrest
  exact ⟨last, node, Peg.matchText_of_gives hgives, hnode⟩

/-- The grammar reads canonical text, and from its node the module is built. -/
theorem Module.matchText_text (hm : m.isCanonical) : ∃ last node,
    (Rule.module.matchText m.text.toList).1 = .matched last [node] ∧
      Peg.ModuleNode Statement.BuiltFrom m.body node := by
  have hlines : ∀ s ∈ m.body, Peg.Line s.text.toList s.BuiltFrom :=
    fun s hs => s.line (List.all_eq_true.mp hm s hs)
  rw [script_text]
  exact Peg.matchText_script hlines

/-- A text is parsed if its brackets are within the limit, the grammar reads it and the module is built. -/
theorem Module.parse_of_matchText {source : String} {last : Cursor}
    (hdeep : (Nesting.ofText source.toList).deepest ≤ limit)
    (hmatch : (Rule.module.matchText source.toList).1 = .matched last [node]) (hm : moduleOf limit node = .ok m) :
    Module.parse limit source = .ok m := by
  rw [parse, if_neg (Nat.not_lt.mpr hdeep)]
  rcases houtcome : Rule.module.matchText source.toList with ⟨outcome, att⟩
  rw [houtcome] at hmatch
  subst hmatch
  exact hm

end ConfigSandbox
