import ConfigSandbox.Proofs.Tree.Constants
import ConfigSandbox.Tree.OfNode

/-!
# Trees that are built again

What is built from the nodes of a canonical text has the shape of the tree that was written. A row stands at
the depth of its brackets, and so much of the limit has to be left there.
-/
namespace ConfigSandbox

variable {limit depth : Nat} {e : Expr} {items : List Expr} {node : Node} {nodes : List Node}

/-- The result is the expression, up to locations. -/
def Expr.Rebuilt (e : Expr) (result : Except ParseError Expr) : Prop :=
  ∃ e', result = .ok e' ∧ e'.shape = e.shape

/-- From the node the expression is built where its brackets stay below the limit. -/
def Expr.BuiltFrom (e : Expr) (node : Node) : Prop :=
  node.rule = .conditional ∧ ∀ limit depth, depth + e.nesting < limit → e.Rebuilt (exprOf limit depth node)

/-! ### Rows -/

/-- Rules of operands whose nodes have no other part in a row. -/
def Rule.isOperand (r : Rule) : Bool :=
  r ∈ [.identifier, .integer, .strings, .trueLiteral, .falseLiteral, .noneLiteral, .paren, .list, .brace]

/-- From the node of an operand the expression is built; the row around it has been counted. -/
def Expr.OperandFrom (e : Expr) (node : Node) : Prop :=
  node.rule.isOperand ∧ ∀ limit depth, depth + e.nesting ≤ limit → e.Rebuilt (exprOf limit depth node)

theorem checkChain_of_not_nests (h : ∀ child ∈ nodes, child.rule.nests = false) :
    checkChain limit depth nodes = .ok () := by
  induction nodes with
  | nil => rfl
  | cons node rest ih =>
    obtain ⟨hnode, hrest⟩ := List.forall_mem_cons.mp h
    rw [checkChain, hnode]
    exact ih hrest

theorem exprOf_row {first last first' last' : Cursor} {pieces : List Piece} (hdepth : depth < limit)
    (hchain : ∀ child ∈ nodes, child.rule.nests = false)
    (hpieces : piecesOf limit (depth + 1) nodes = .ok pieces) (htree : Expr.ofPieces? pieces = some e) :
    exprOf limit depth (.mk .conditional first last [.mk .operation first' last' nodes]) = .ok e := by
  have hrow : exprOf limit depth (.mk .operation first' last' nodes) = .ok e := by
    rw [exprOf.eq_def]
    dsimp only
    rw [if_neg (by omega), checkChain_of_not_nests hchain, hpieces]
    dsimp only [bind, Except.bind]
    rw [htree]
  rw [exprOf.eq_def]
  exact hrow

theorem Rule.nests_of_isOperand {r : Rule} (h : r.isOperand) : r.nests = false := by
  cases r with
  | unary | binary => cases h
  | _ => rfl

theorem piecesOf_operand (hrule : node.rule.isOperand) (h : exprOf limit depth node = .ok e)
    {pieces : List Piece} (hrest : piecesOf limit depth nodes = .ok pieces) :
    piecesOf limit depth (node :: nodes) = .ok (.operand e :: pieces) := by
  rw [piecesOf.eq_def]
  dsimp only
  split
  case h_6 => rw [h, hrest]; rfl
  all_goals cases hrule

theorem Expr.BuiltFrom.of_operand (h : Peg.RowNode (Peg.Sole e.OperandFrom) node) : e.BuiltFrom node := by
  obtain ⟨first, last, first', last', _, rfl, operand, rfl, hrule, hbuilt⟩ := h
  refine ⟨rfl, fun limit depth hdepth => ?_⟩
  obtain ⟨e', hexpr, hshape⟩ := hbuilt limit (depth + 1) (by omega)
  refine ⟨e', ?_, hshape⟩
  refine exprOf_row (by omega) ?_ (piecesOf_operand hrule hexpr rfl) rfl
  simpa using Rule.nests_of_isOperand hrule

/-! ### Constants and names -/

theorem operandFrom_name {loc : Location} {id : String} (h : Peg.Single .identifier id.toList Peg.Silent nodes) :
    Peg.Sole (Expr.name loc id).OperandFrom nodes := by
  obtain ⟨first, last, _, rfl, hreads, rfl⟩ := h
  refine ⟨_, rfl, rfl, fun limit depth _ => ⟨.name (first.location last) id, ?_, rfl⟩⟩
  rw [exprOf.eq_def]
  dsimp only
  rw [hreads.textTo_eq, String.ofList_toList]

theorem operandFrom_int {loc : Location} {n : Int64} (hn : 0 ≤ n)
    (h : Peg.Single .integer (Constant.int n).text.toList Peg.Silent nodes) :
    Peg.Sole (Expr.constant loc (.int n)).OperandFrom nodes := by
  obtain ⟨first, last, _, rfl, hreads, rfl⟩ := h
  refine ⟨_, rfl, rfl, fun limit depth _ => ⟨.constant (first.location last) (.int n), ?_, rfl⟩⟩
  rw [exprOf.eq_def]
  dsimp only
  rw [hreads.textTo_eq, integerOfLiteral?_text hn]

theorem operandFrom_str {loc : Location} {s : String} {m : Char} {cs ds : List Char}
    (hread : unescape cs = .ok s.toList) (h : Peg.Single .strings ds (Peg.LiteralNode m cs) nodes) :
    Peg.Sole (Expr.constant loc (.str s)).OperandFrom nodes := by
  obtain ⟨first, last, literals, rfl, -, hliterals⟩ := h
  refine ⟨_, rfl, rfl, fun limit depth _ => ⟨.constant (first.location last) (.str s), ?_, rfl⟩⟩
  rw [exprOf.eq_def]
  dsimp only
  rw [stringsToExpr_literal _ hliterals hread, String.ofList_toList]

/-! ### Brackets -/

theorem forall_of_forall₂ {α : Type} {R : α → Node → Prop} {S : Node → Prop} {xs : List α}
    (hRS : ∀ x node, R x node → S node) (h : List.Forall₂ R xs nodes) : ∀ node ∈ nodes, S node := by
  induction h with
  | nil => exact List.forall_mem_nil _
  | cons hnode _ ih => exact List.forall_mem_cons.mpr ⟨hRS _ _ hnode, ih⟩

theorem isComprehension_of_rule {r : Rule} (h : ∀ node ∈ nodes, node.rule = r) (hr : r ≠ .comprehensionFor) :
    isComprehension nodes = false := by
  refine List.any_eq_false.mpr fun node hnode => ?_
  rw [h node hnode, beq_iff_eq]
  exact hr

theorem isComprehension_of_built (h : List.Forall₂ Expr.BuiltFrom items nodes) :
    isComprehension nodes = false :=
  isComprehension_of_rule (forall_of_forall₂ (fun _ _ h => h.1) h) (by decide)

theorem itemsOf_built (h : List.Forall₂ Expr.BuiltFrom items nodes) (hdepth : depth + nestingIn items < limit) :
    ∃ items', itemsOf limit depth nodes = .ok items' ∧ shapes items' = shapes items := by
  induction h with
  | nil => exact ⟨[], rfl, rfl⟩
  | @cons e node rest nodes hnode _ ih =>
    rw [nestingIn] at hdepth
    obtain ⟨e', hexpr, hshape⟩ := hnode.2 limit depth (by omega)
    obtain ⟨rest', hitems, hshapes⟩ := ih (by omega)
    refine ⟨e' :: rest', ?_, ?_⟩
    · rw [itemsOf, hnode.1, hexpr, hitems]
      rfl
    · rw [shapes, hshape, hshapes, shapes]

theorem operandFrom_list {loc : Location} {cs : List Char}
    (h : Peg.Single .list cs (List.Forall₂ Expr.BuiltFrom items) nodes) :
    Peg.Sole (Expr.list loc items).OperandFrom nodes := by
  obtain ⟨first, last, children, rfl, -, hchildren⟩ := h
  refine ⟨_, rfl, rfl, fun limit depth hdepth => ?_⟩
  rw [Expr.nesting] at hdepth
  obtain ⟨items', hitems, hshapes⟩ := itemsOf_built hchildren (show depth + nestingIn items < limit by omega)
  refine ⟨.list (first.location last) items', ?_, by rw [Expr.shape, Expr.shape, hshapes]⟩
  rw [exprOf.eq_def]
  dsimp only
  rw [isComprehension_of_built hchildren, hitems]
  rfl

theorem operandFrom_set {loc : Location} {cs : List Char} (hne : items ≠ [])
    (h : Peg.Single .brace cs (List.Forall₂ Expr.BuiltFrom items) nodes) :
    Peg.Sole (Expr.set loc items).OperandFrom nodes := by
  obtain ⟨first, last, children, rfl, -, hchildren⟩ := h
  refine ⟨_, rfl, rfl, fun limit depth hdepth => ?_⟩
  rw [Expr.nesting] at hdepth
  obtain ⟨items', hitems, hshapes⟩ := itemsOf_built hchildren (show depth + nestingIn items < limit by omega)
  have hset : beginsDict children = false := by
    cases hchildren with
    | nil => exact absurd rfl hne
    | cons hnode _ =>
      rw [beginsDict, hnode.1]
      rfl
  refine ⟨.set (first.location last) items', ?_, by rw [Expr.shape, Expr.shape, hshapes]⟩
  rw [exprOf.eq_def]
  dsimp only
  rw [isComprehension_of_built hchildren, hset, hitems]
  rfl

/-- The entry of a dict that a key and a value make. -/
def DictEntry.ofPair (p : Expr × Expr) : DictEntry := .pair p.1 p.2

/-- From the node the key and the value are built. -/
def PairFrom (p : Expr × Expr) : Node → Prop := Peg.PairNode p.1.BuiltFrom p.2.BuiltFrom

theorem entriesOf_built {pairs : List (Expr × Expr)} (h : List.Forall₂ PairFrom pairs nodes)
    (hdepth : depth + entryNesting (pairs.map .ofPair) < limit) :
    ∃ entries, entriesOf limit depth nodes = .ok entries ∧
      entryShapes entries = entryShapes (pairs.map .ofPair) := by
  induction h with
  | nil => exact ⟨[], rfl, rfl⟩
  | @cons p node rest nodes hnode _ ih =>
    rw [List.map_cons, DictEntry.ofPair, entryNesting] at hdepth
    obtain ⟨first, last, key, value, rfl, ⟨-, hkey⟩, -, hvalue⟩ := hnode
    obtain ⟨k', hk, hkshape⟩ := hkey limit depth (by omega)
    obtain ⟨v', hv, hvshape⟩ := hvalue limit depth (by omega)
    obtain ⟨rest', hentries, hshapes⟩ := ih (by omega)
    refine ⟨.pair k' v' :: rest', ?_, ?_⟩
    · rw [entriesOf.eq_def]
      dsimp only
      rw [hk, hv, hentries]
      rfl
    · rw [entryShapes, hkshape, hvshape, hshapes]
      rfl

theorem operandFrom_dict {loc : Location} {cs : List Char} {pairs : List (Expr × Expr)}
    (h : Peg.Single .brace cs (List.Forall₂ PairFrom pairs) nodes) :
    Peg.Sole (Expr.dict loc (pairs.map .ofPair)).OperandFrom nodes := by
  obtain ⟨first, last, children, rfl, -, hchildren⟩ := h
  refine ⟨_, rfl, rfl, fun limit depth hdepth => ?_⟩
  rw [Expr.nesting] at hdepth
  obtain ⟨entries, hentries, hshapes⟩ := entriesOf_built hchildren
    (show depth + entryNesting (pairs.map .ofPair) < limit by omega)
  have hrule : ∀ node ∈ children, node.rule = .dictItem := by
    refine forall_of_forall₂ (fun p node hnode => ?_) hchildren
    obtain ⟨_, _, _, _, rfl, -⟩ := hnode
    rfl
  have hdict : beginsDict children = true := by
    cases children with
    | nil => rfl
    | cons node rest =>
      rw [beginsDict, hrule node List.mem_cons_self]
      rfl
  refine ⟨.dict (first.location last) entries, ?_, by rw [Expr.shape, Expr.shape, hshapes]⟩
  rw [exprOf.eq_def]
  dsimp only
  rw [isComprehension_of_rule hrule (by decide), hdict, hentries]
  rfl

/-! ### Calls -/

/-- From the node the keyword is built. -/
def Keyword.BuiltFrom : Keyword → Node → Prop
  | .named _ name value => Peg.KeywordNode name.toList value.BuiltFrom
  | .unpack .. => fun _ => False

theorem argumentsOf_positional (h : List.Forall₂ Expr.BuiltFrom items nodes)
    (hdepth : depth + nestingIn items < limit) : ∃ items', shapes items' = shapes items ∧
      ∀ args more, argumentsOf limit depth args [] (nodes ++ more) =
        argumentsOf limit depth (args ++ items') [] more := by
  induction h with
  | nil => exact ⟨[], rfl, fun args more => by rw [List.append_nil, List.nil_append]⟩
  | @cons e node rest nodes hnode _ ih =>
    rw [nestingIn] at hdepth
    obtain ⟨hrule, hbuilt⟩ := hnode
    obtain ⟨e', hexpr, hshape⟩ := hbuilt limit depth (by omega)
    obtain ⟨rest', hshapes, hmore⟩ := ih (by omega)
    refine ⟨e' :: rest', by rw [shapes, shapes, hshape, hshapes], fun args more => ?_⟩
    obtain ⟨r, first, last, children⟩ := node
    obtain rfl : r = .conditional := hrule
    have hstep : argumentsOf limit depth args [] (.mk .conditional first last children :: (nodes ++ more)) =
        argumentsOf limit depth (args ++ [e']) [] (nodes ++ more) := by
      rw [argumentsOf.eq_def]
      dsimp only
      rw [hexpr]
      rfl
    rw [List.cons_append, hstep, hmore, List.append_assoc, List.singleton_append]

/-- No name is given twice. -/
theorem argumentsOf_keywords {keywords : List Keyword} (h : List.Forall₂ Keyword.BuiltFrom keywords nodes)
    (hdepth : depth + keywordNesting keywords < limit) (args : List Expr) (before : List Keyword)
    (hnames : (before.map Keyword.name? ++ keywords.map Keyword.name?).Nodup) :
    ∃ keywords', argumentsOf limit depth args before nodes = .ok (args, before ++ keywords') ∧
      keywordShapes keywords' = keywordShapes keywords := by
  induction h generalizing before with
  | nil => exact ⟨[], by rw [argumentsOf, List.append_nil], rfl⟩
  | @cons k node rest nodes hnode _ ih =>
    cases k with
    | unpack => cases hnode
    | named loc name value =>
      rw [keywordNesting] at hdepth
      obtain ⟨first, last, nameNode, valueNode, rfl, htext, -, hbuilt⟩ := hnode
      obtain ⟨v', hv, hshape⟩ := hbuilt limit depth (by omega)
      have hfresh : (before.any fun k => k.name? == some name) = false := by
        refine List.any_eq_false.mpr fun k hk => ?_
        rw [beq_iff_eq]
        intro hname
        refine (List.nodup_append.mp hnames).2.2 _ (List.mem_map_of_mem hk) (some name) ?_ hname
        exact List.mem_cons_self
      have hmore : ((before ++ [Keyword.named (first.location last) name v']).map Keyword.name? ++
          rest.map Keyword.name?).Nodup := by
        rw [List.map_append, List.append_assoc]
        exact hnames
      obtain ⟨rest', hargs, hshapes⟩ := ih (by omega) _ hmore
      refine ⟨.named (first.location last) name v' :: rest', ?_, ?_⟩
      · rw [argumentsOf.eq_def]
        dsimp only
        rw [htext, String.ofList_toList, hfresh, hv]
        rw [List.append_assoc] at hargs
        exact hargs
      · rw [keywordShapes, keywordShapes, hshape, hshapes]

theorem forall₂_split {α : Type} {R : α → Node → Prop} {xs ys : List α}
    (h : List.Forall₂ R (xs ++ ys) nodes) :
    ∃ us vs, nodes = us ++ vs ∧ List.Forall₂ R xs us ∧ List.Forall₂ R ys vs :=
  ⟨nodes.take xs.length, nodes.drop xs.length, (List.take_append_drop _ _).symm,
    (List.forall₂_take_append _ _ _ h.flip).flip, (List.forall₂_drop_append _ _ _ h.flip).flip⟩

/-- Positional arguments, then keywords. -/
def arguments (args : List Expr) (keywords : List Keyword) : List (Expr ⊕ Keyword) :=
  args.map .inl ++ keywords.map .inr

/-- From the node the argument is built. -/
def ArgumentFrom : Expr ⊕ Keyword → Node → Prop := Sum.elim Expr.BuiltFrom Keyword.BuiltFrom

theorem builtFrom_call {loc floc : Location} {func : String} {args : List Expr} {keywords : List Keyword}
    (hnames : (keywords.map Keyword.name?).Nodup)
    (h : Peg.RowNode (Peg.CallNodes func.toList (List.Forall₂ ArgumentFrom (arguments args keywords))) node) :
    (Expr.call loc (.name floc func) args keywords).BuiltFrom node := by
  obtain ⟨first, last, first', last', _, rfl, nameNode, f, l, children, rfl, hrule, hname, hchildren⟩ := h
  refine ⟨rfl, fun limit depth hdepth => ?_⟩
  rw [Expr.nesting] at hdepth
  obtain ⟨us, vs, rfl, hargs, hkeywords⟩ := forall₂_split hchildren
  rw [List.forall₂_map_left_iff] at hargs hkeywords
  obtain ⟨args', hshapes, hargs⟩ := argumentsOf_positional hargs
    (show depth + 1 + nestingIn args < limit by omega)
  obtain ⟨keywords', hkeywords, hkeywordShapes⟩ := argumentsOf_keywords hkeywords
    (show depth + 1 + keywordNesting keywords < limit by omega) args' [] hnames
  have harguments : argumentsOf limit (depth + 1) [] [] (us ++ vs) = .ok (args', keywords') := by
    rw [hargs]
    exact hkeywords
  obtain ⟨r, nfirst, nlast, nchildren⟩ := nameNode
  obtain rfl : r = .identifier := hrule
  have hfunc : exprOf limit (depth + 1) (.mk .identifier nfirst nlast nchildren) =
      .ok (.name (nfirst.location nlast) func) := by
    rw [exprOf.eq_def]
    dsimp only
    rw [show nfirst.textTo nlast = func.toList from hname, String.ofList_toList]
  have hcall : piecesOf limit (depth + 1) [.mk .call f l (us ++ vs)] =
      .ok [.trailer (f.location l) (.call args' keywords')] := by
    rw [piecesOf.eq_def]
    dsimp only
    rw [harguments]
    rfl
  refine ⟨.call ((nfirst.location nlast).through (f.location l)) (.name (nfirst.location nlast) func) args'
    keywords', exprOf_row (by omega) ?_ (piecesOf_operand rfl hfunc hcall) rfl, ?_⟩
  · simp [Node.rule, Rule.nests]
  · rw [Expr.shape, Expr.shape, hshapes, hkeywordShapes]
    rfl

end ConfigSandbox
