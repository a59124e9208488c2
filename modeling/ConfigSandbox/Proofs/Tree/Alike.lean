import ConfigSandbox.Proofs.Grammar.Pieces
import ConfigSandbox.Proofs.Tree.Contents
import ConfigSandbox.Proofs.Tree.Printed

/-!
# Trees of nodes that are alike

The builder looks at the rules of nodes and at the text of names, numbers and strings. Where both are the
same in two matches, the trees that are built have one shape.
-/
namespace ConfigSandbox

open Peg

/-! ### Results of one shape -/

/-- What the first result is, the second is as well, but for places. -/
def Keeps {α β : Type} (shape : α → β) (x x' : Except ParseError α) : Prop :=
  ∀ a, x = .ok a → ∃ a', x' = .ok a' ∧ shape a' = shape a

section Keeps

variable {α β γ δ : Type} {shape : α → β} {shape' : γ → δ} {x x' : Except ParseError α} {a a' : α}
  {f f' : α → Except ParseError γ}

theorem keeps_ok (h : shape a' = shape a) : Keeps shape (.ok a) (.ok a') := by
  rintro _ ⟨⟩
  exact ⟨a', rfl, h⟩

theorem keeps_error {e : ParseError} : Keeps shape (.error e) x' := nofun

theorem Keeps.bind (h : Keeps shape x x') (hf : ∀ a a', shape a' = shape a → Keeps shape' (f a) (f' a')) :
    Keeps shape' (x >>= f) (x' >>= f') := by
  cases x with
  | error e => exact keeps_error
  | ok a =>
    obtain ⟨a', rfl, ha⟩ := h a rfl
    exact hf a a' ha

end Keeps

/-! ### Nodes alike -/

variable {source : String} {limit depth : Nat} {r : Rule} {first last : Cursor} {node node' x : Node}
  {nodes nodes' children children' xs ys : List Node} {loc loc' : Location}

theorem Node.Alike.eq_mk (h : (Node.mk r first last children).Alike node') : ∃ first' last' children',
    node' = .mk r first' last' children' ∧ (r.isLexeme → first.textTo last = first'.textTo last') ∧
      AreAlike children children' := by
  obtain ⟨r', first', last', children'⟩ := node'
  obtain ⟨rfl, htext, hchildren⟩ := h
  exact ⟨first', last', children', rfl, htext, hchildren⟩

theorem Node.Alike.rule_eq (h : node.Alike node') : node.rule = node'.rule := by
  obtain ⟨r, first, last, children⟩ := node
  obtain ⟨first', last', children', rfl, -⟩ := h.eq_mk
  rfl

theorem Node.Alike.text_eq (h : node.Alike node') (hr : node.rule.isLexeme) : node.text = node'.text := by
  obtain ⟨r, first, last, children⟩ := node
  obtain ⟨first', last', children', rfl, htext, -⟩ := h.eq_mk
  exact htext hr

theorem AreAlike.eq_cons (h : AreAlike (x :: xs) ys) : ∃ y ys', ys = y :: ys' ∧ x.Alike y ∧ AreAlike xs ys' := by
  cases ys with
  | nil => exact h.elim
  | cons y ys => exact ⟨y, ys, rfl, h.1, h.2⟩

theorem AreAlike.eq_nil (h : AreAlike [] ys) : ys = [] := by
  cases ys with
  | nil => rfl
  | cons => exact h.elim

theorem AreAlike.eq_one (h : AreAlike [x] ys) : ∃ y, ys = [y] ∧ x.Alike y := by
  obtain ⟨y, ys, rfl, hx, hxs⟩ := h.eq_cons
  exact ⟨y, by rw [hxs.eq_nil], hx⟩

theorem AreAlike.eq_two {x' : Node} (h : AreAlike [x, x'] ys) :
    ∃ y y', ys = [y, y'] ∧ x.Alike y ∧ x'.Alike y' := by
  obtain ⟨y, ys, rfl, hx, hxs⟩ := h.eq_cons
  obtain ⟨y', rfl, hx'⟩ := hxs.eq_one
  exact ⟨y, y', rfl, hx, hx'⟩

theorem AreAlike.any_rule (h : AreAlike xs ys) (p : Rule → Bool) :
    (xs.any fun node => p node.rule) = ys.any fun node => p node.rule := by
  induction xs generalizing ys with
  | nil => rw [h.eq_nil]
  | cons x xs ih =>
    obtain ⟨y, ys, rfl, hx, hxs⟩ := h.eq_cons
    rw [List.any_cons, List.any_cons, ih hxs, hx.rule_eq]

theorem AreAlike.beginsDict_eq (h : AreAlike xs ys) : beginsDict xs = beginsDict ys := by
  cases xs with
  | nil => rw [h.eq_nil]
  | cons x xs =>
    obtain ⟨y, ys, rfl, hx, -⟩ := h.eq_cons
    rw [beginsDict, beginsDict, hx.rule_eq]

/-- Lexemes have the same texts. -/
theorem AreAlike.map_text (h : AreAlike xs ys) (hr : ∀ node ∈ xs, node.rule.isLexeme) :
    xs.map Node.text = ys.map Node.text := by
  induction xs generalizing ys with
  | nil => rw [h.eq_nil]
  | cons x xs ih =>
    obtain ⟨y, ys, rfl, hx, hxs⟩ := h.eq_cons
    obtain ⟨hlexeme, hr⟩ := List.forall_mem_cons.mp hr
    rw [List.map_cons, List.map_cons, hx.text_eq hlexeme, ih hxs hr]

theorem AreAlike.find_text (h : AreAlike xs ys) (hr : ∀ node ∈ xs, node.rule.isLexeme) (p : Rule → Bool) :
    (xs.find? fun node => p node.rule).map Node.text = (ys.find? fun node => p node.rule).map Node.text := by
  induction xs generalizing ys with
  | nil => rw [h.eq_nil]
  | cons x xs ih =>
    obtain ⟨y, ys, rfl, hx, hxs⟩ := h.eq_cons
    obtain ⟨hlexeme, hr⟩ := List.forall_mem_cons.mp hr
    rw [List.find?_cons, List.find?_cons, ← hx.rule_eq]
    cases p x.rule with
    | true => exact congrArg some (hx.text_eq hlexeme)
    | false => exact ih hxs hr

/-! ### Rows of operators -/

def Trailer.shape : Trailer → Trailer
  | call args keywords => .call (shapes args) (keywordShapes keywords)
  | subscript index => .subscript index.shape
  | member attr => .member attr

def Piece.shape : Piece → Piece
  | operand e => .operand e.shape
  | unary _ op => .unary .synthetic op
  | binary op => .binary op
  | trailer _ t => .trailer .synthetic t.shape

def Pending.shape : Pending → Pending
  | unary _ op => .unary .synthetic op
  | binary left op => .binary left.shape op

section Rows

variable {e e' : Expr} {stack stack' : List Pending} {pieces pieces' : List Piece}

theorem Trailer.shape_apply {t t' : Trailer} (ht : t'.shape = t.shape) (he : e'.shape = e.shape) :
    (t'.apply e' loc').shape = (t.apply e loc).shape := by
  cases t <;> cases t' <;> simp_all [Trailer.apply, Expr.shape, Trailer.shape]

theorem Pending.shape_close {p p' : Pending} (hp : p'.shape = p.shape) (he : e'.shape = e.shape) :
    (p'.close e').shape = (p.close e).shape := by
  cases p <;> cases p' <;> simp_all [Pending.shape, Pending.close, Expr.shape]

theorem Pending.endsBefore_shape (level : Nat) (p : Pending) : p.shape.endsBefore level = p.endsBefore level := by
  cases p <;> rfl

theorem shape_closeAll (hs : stack'.map Pending.shape = stack.map Pending.shape) (he : e'.shape = e.shape) :
    (closeAll e' stack').shape = (closeAll e stack).shape := by
  unfold closeAll
  induction stack generalizing stack' e e' with
  | nil =>
    rw [List.map_eq_nil_iff.mp hs]
    exact he
  | cons p stack ih =>
    obtain ⟨p', stack', rfl, hp, hs'⟩ := List.map_eq_cons_iff.mp hs
    rw [List.foldl_cons, List.foldl_cons]
    exact ih hs' (Pending.shape_close hp he)

theorem shape_closeFor (level : Nat) (hs : stack'.map Pending.shape = stack.map Pending.shape)
    (he : e'.shape = e.shape) : (closeFor level e' stack').1.shape = (closeFor level e stack).1.shape ∧
      (closeFor level e' stack').2.map Pending.shape = (closeFor level e stack).2.map Pending.shape := by
  induction stack generalizing stack' e e' with
  | nil =>
    rw [List.map_eq_nil_iff.mp hs]
    exact ⟨he, rfl⟩
  | cons p stack ih =>
    obtain ⟨p', stack', rfl, hp, hs'⟩ := List.map_eq_cons_iff.mp hs
    rw [closeFor, closeFor, ← p.endsBefore_shape, ← p'.endsBefore_shape, hp]
    split
    · exact ih hs' (Pending.shape_close hp he)
    · exact ⟨he, hs⟩

theorem Piece.eq_operand {p : Piece} (h : p.shape = (operand e).shape) :
    ∃ e', p = .operand e' ∧ e'.shape = e.shape := by
  cases p <;> simp_all [Piece.shape]

theorem Piece.eq_unary {p : Piece} {op : UnaryOp} (h : p.shape = (unary loc op).shape) :
    ∃ loc', p = .unary loc' op := by
  cases p <;> simp_all [Piece.shape]

theorem Piece.eq_binary {p : Piece} {op : BinaryOp} (h : p.shape = (binary op).shape) : p = .binary op := by
  cases p <;> simp_all [Piece.shape]

theorem Piece.eq_trailer {p : Piece} {t : Trailer} (h : p.shape = (trailer loc t).shape) :
    ∃ loc' t', p = .trailer loc' t' ∧ t'.shape = t.shape := by
  cases p <;> simp_all [Piece.shape]

/-- The tree of a row, before an operand and after one. -/
theorem shape_ofRow (hp : pieces'.map Piece.shape = pieces.map Piece.shape) :
    (∀ {stack stack' : List Pending} {tree : Expr}, stack'.map Pending.shape = stack.map Pending.shape →
      operandFirst stack pieces = some tree →
        ∃ tree', operandFirst stack' pieces' = some tree' ∧ tree'.shape = tree.shape) ∧
    ∀ {stack stack' : List Pending} {e e' tree : Expr}, stack'.map Pending.shape = stack.map Pending.shape →
      e'.shape = e.shape → operatorNext stack e pieces = some tree →
        ∃ tree', operatorNext stack' e' pieces' = some tree' ∧ tree'.shape = tree.shape := by
  induction pieces generalizing pieces' with
  | nil =>
    obtain rfl := List.map_eq_nil_iff.mp hp
    refine ⟨nofun, fun hs he h => ?_⟩
    cases h
    exact ⟨_, rfl, shape_closeAll hs he⟩
  | cons p pieces ih =>
    obtain ⟨p', pieces', rfl, hpiece, hp⟩ := List.map_eq_cons_iff.mp hp
    obtain ⟨hoperand, hoperator⟩ := ih hp
    cases p with
    | operand e =>
      obtain ⟨e', rfl, he⟩ := Piece.eq_operand hpiece
      exact ⟨fun hs h => hoperator hs he h, nofun⟩
    | unary loc op =>
      obtain ⟨loc', rfl⟩ := Piece.eq_unary hpiece
      refine ⟨fun hs h => hoperand ?_ h, nofun⟩
      rw [List.map_cons, List.map_cons, hs]
      rfl
    | binary op =>
      obtain rfl := Piece.eq_binary hpiece
      refine ⟨nofun, fun hs he h => ?_⟩
      obtain ⟨hleft, hstack⟩ := shape_closeFor op.level hs he
      refine hoperand ?_ h
      rw [List.map_cons, List.map_cons, hstack, Pending.shape, hleft]
      rfl
    | trailer loc t =>
      obtain ⟨loc', t', rfl, ht⟩ := Piece.eq_trailer hpiece
      exact ⟨nofun, fun hs he h => hoperator hs (Trailer.shape_apply ht he) h⟩

end Rows

/-! ### The builder -/

def DictEntry.shape : DictEntry → DictEntry
  | pair key value => .pair key.shape value.shape
  | unpack value => .unpack value.shape

theorem entryShapes_cons (entry : DictEntry) (entries : List DictEntry) :
    entryShapes (entry :: entries) = entry.shape :: entryShapes entries := by
  cases entry <;> rfl

/-- The parts of a slice without their places. -/
def partShapes (parts : List (SlicePart × Expr)) : List (SlicePart × Expr) :=
  parts.map fun part => (part.1, part.2.shape)

theorem partShape_lookup {parts parts' : List (SlicePart × Expr)} (h : partShapes parts' = partShapes parts)
    (part : SlicePart) : partShape (parts'.lookup part) = partShape (parts.lookup part) := by
  have hlookup (parts : List (SlicePart × Expr)) :
      partShape (parts.lookup part) = (partShapes parts).lookup part := by
    induction parts with
    | nil => rfl
    | cons p parts ih =>
      rw [partShapes, List.map_cons, List.lookup_cons, List.lookup_cons]
      cases part == p.1 with
      | true => rfl
      | false => exact ih
  rw [hlookup, hlookup, h]

theorem shapes_eq (items : List Expr) : shapes items = items.map Expr.shape := by
  induction items with
  | nil => rfl
  | cons e items ih => rw [shapes, ih, List.map_cons]

def Keyword.shape : Keyword → Keyword
  | named _ name value => .named .synthetic name value.shape
  | unpack _ value => .unpack .synthetic value.shape

theorem keywordShapes_eq (keywords : List Keyword) : keywordShapes keywords = keywords.map Keyword.shape := by
  induction keywords with
  | nil => rfl
  | cons keyword keywords ih => cases keyword <;> rw [keywordShapes, ih] <;> rfl

theorem keywordShapes_concat {keywords keywords' : List Keyword} {keyword keyword' : Keyword}
    (h : keywordShapes keywords' = keywordShapes keywords) (hk : keyword'.shape = keyword.shape) :
    keywordShapes (keywords' ++ [keyword']) = keywordShapes (keywords ++ [keyword]) := by
  rw [keywordShapes_eq, keywordShapes_eq] at h ⊢
  rw [List.map_append, List.map_append, h, List.map_singleton, List.map_singleton, hk]

theorem isEmpty_of_shapes {keywords keywords' : List Keyword}
    (h : keywordShapes keywords' = keywordShapes keywords) : keywords'.isEmpty = keywords.isEmpty := by
  rw [keywordShapes_eq, keywordShapes_eq] at h
  rw [← List.isEmpty_map (f := Keyword.shape), h, List.isEmpty_map]

theorem any_name_of_shapes {keywords keywords' : List Keyword} {name : String}
    (h : keywordShapes keywords' = keywordShapes keywords) :
    (keywords'.any fun k => k.name? == some name) = keywords.any fun k => k.name? == some name := by
  have hname (k : Keyword) : k.shape.name? = k.name? := by cases k <;> rfl
  have hany (ks : List Keyword) : (ks.any fun k => k.name? == some name) =
      (keywordShapes ks).any fun k => k.name? == some name := by
    rw [keywordShapes_eq, List.any_map]
    simp only [Function.comp_def, hname]
  rw [hany, h, ← hany]

/-- A node of a match from whose likes the same tree is built. -/
structure Node.Kept (source : String) (node : Node) : Prop where
  matched : node.Matched source
  builds : ∀ {node'}, node.Alike node' → ∀ limit depth,
    Keeps Expr.shape (exprOf limit depth node) (exprOf limit depth node')

theorem checkChain_keeps (h : AreAlike nodes nodes') :
    Keeps id (checkChain limit depth nodes) (checkChain limit depth nodes') := by
  induction nodes generalizing nodes' depth with
  | nil =>
    rw [h.eq_nil]
    exact keeps_ok rfl
  | cons node nodes ih =>
    obtain ⟨node', nodes', rfl, hnode, hnodes⟩ := h.eq_cons
    rw [checkChain, checkChain, hnode.rule_eq]
    split
    · split
      · exact keeps_error
      · exact ih hnodes
    · exact ih hnodes

theorem shape_tupleUnlessSingle {items items' : List Expr} (h : AreAlike children children')
    (hitems : shapes items' = shapes items) :
    (tupleUnlessSingle loc' children' items').shape = (tupleUnlessSingle loc children items).shape := by
  have hcomma := h.any_rule (· == .trailingComma)
  unfold tupleUnlessSingle
  rcases items with _ | ⟨e, _ | ⟨f, rest⟩⟩ <;> rcases items' with _ | ⟨e', _ | ⟨f', rest'⟩⟩ <;>
    simp only [shapes, List.cons.injEq, reduceCtorEq, and_false, and_true] at hitems
  · rfl
  · dsimp only
    rw [hcomma]
    split <;> simp [Expr.shape, shapes, hitems]
  · simp [Expr.shape, shapes, hitems]

theorem StringParts.shape_toExpr (parts : StringParts) : (parts.toExpr loc').shape = (parts.toExpr loc).shape := by
  unfold StringParts.toExpr
  split
  · rfl
  · split <;> rfl

theorem StringParts.addNode_keeps {parts : StringParts} (hm : node.Matched source)
    (hr : node.rule = .stringLiteral) (h : node.Alike node') :
    Keeps id (parts.addNode node) (parts.addNode node') := by
  obtain ⟨r, first, last, children⟩ := node
  cases hr
  obtain ⟨first', last', children', rfl, -, hchildren⟩ := h.eq_mk
  have hlexemes : ∀ r ∈ rulesIn Rule.stringLiteral.body, r.isLexeme := by decide
  have hfind := hchildren.find_text fun part hpart => hlexemes _ (hm.rule_mem part hpart)
  unfold StringParts.addNode
  dsimp only [Node.children]
  rw [hfind (· == .stringPrefix), hfind (· != .stringPrefix)]
  split
  · exact keeps_ok rfl
  · exact keeps_error

theorem stringsToExpr_keeps (hm : ∀ node ∈ nodes, node.Matched source)
    (hr : ∀ node ∈ nodes, node.rule = .stringLiteral) (h : AreAlike nodes nodes') :
    Keeps Expr.shape (stringsToExpr loc nodes) (stringsToExpr loc' nodes') := by
  have hfold (parts : StringParts) :
      Keeps id (nodes.foldlM StringParts.addNode parts) (nodes'.foldlM StringParts.addNode parts) := by
    induction nodes generalizing nodes' parts with
    | nil =>
      rw [h.eq_nil]
      exact keeps_ok rfl
    | cons node nodes ih =>
      obtain ⟨node', nodes', rfl, hnode, hnodes⟩ := h.eq_cons
      obtain ⟨hmatched, hm⟩ := List.forall_mem_cons.mp hm
      obtain ⟨hrule, hr⟩ := List.forall_mem_cons.mp hr
      rw [List.foldlM_cons, List.foldlM_cons]
      refine (StringParts.addNode_keeps hmatched hrule hnode).bind fun parts parts' hparts => ?_
      obtain rfl : parts' = parts := hparts
      exact ih hm hr hnodes parts'
  refine (hfold .none).bind fun parts parts' hparts => keeps_ok ?_
  obtain rfl : parts' = parts := hparts
  exact parts'.shape_toExpr

/-- An argument that is no keyword. -/
theorem argumentsOf_cons_positional {args : List Expr} {keywords : List Keyword} (hr : r ≠ .keywordArgument)
    (hr' : r ≠ .doubleStarred) : argumentsOf limit depth args keywords (.mk r first last children :: nodes) =
      if r != .starred && !keywords.isEmpty then .error ⟨.positionalAfterKeyword, first.location last⟩
      else (do
        argumentsOf limit depth (args ++ [← exprOf limit depth (.mk r first last children)]) keywords nodes) := by
  rw [argumentsOf.eq_def]
  cases r <;> first | rfl | exact absurd rfl hr | exact absurd rfl hr'

section Rows

variable (h : ∀ node ∈ nodes, node.All (Node.Kept source)) (halike : AreAlike nodes nodes')
include h halike

theorem itemsOf_keeps : Keeps shapes (itemsOf limit depth nodes) (itemsOf limit depth nodes') := by
  induction nodes generalizing nodes' with
  | nil =>
    rw [halike.eq_nil]
    exact keeps_ok rfl
  | cons node nodes ih =>
    obtain ⟨hnode, hnodes⟩ := List.forall_mem_cons.mp h
    obtain ⟨node', nodes', rfl, halike, hmore⟩ := halike.eq_cons
    rw [itemsOf, itemsOf, halike.rule_eq]
    split
    · exact ih hnodes hmore
    · refine (hnode.here.builds halike limit depth).bind fun e e' he => ?_
      refine (ih hnodes hmore).bind fun items items' hitems => keeps_ok ?_
      rw [shapes, shapes, he, hitems]

theorem entriesOf_keeps : Keeps entryShapes (entriesOf limit depth nodes) (entriesOf limit depth nodes') := by
  induction nodes generalizing nodes' with
  | nil =>
    rw [halike.eq_nil]
    exact keeps_ok rfl
  | cons node nodes ih =>
    obtain ⟨hnode, hnodes⟩ := List.forall_mem_cons.mp h
    obtain ⟨node', nodes', rfl, halike, hmore⟩ := halike.eq_cons
    obtain ⟨r, first, last, children⟩ := node
    obtain ⟨first', last', children', rfl, -, hchildren⟩ := halike.eq_mk
    have hparts := hnode.parts
    have hrest {entry entry' : DictEntry} (hentry : entry'.shape = entry.shape) :
        Keeps entryShapes (entriesOf limit depth nodes >>= fun entries => .ok (entry :: entries))
          (entriesOf limit depth nodes' >>= fun entries => .ok (entry' :: entries)) := by
      refine (ih hnodes hmore).bind fun entries entries' hentries => keeps_ok ?_
      rw [entryShapes_cons, entryShapes_cons, hentry, hentries]
    rw [entriesOf.eq_def, entriesOf.eq_def limit depth (_ :: nodes')]
    cases r with
    | dictItem =>
      obtain ⟨key, value, rfl, -⟩ := exists_pair hnode.here.matched
      obtain ⟨key', value', rfl, hkey, hvalue⟩ := hchildren.eq_two
      refine ((hparts key (by simp)).here.builds hkey limit depth).bind fun k k' hk => ?_
      refine ((hparts value (by simp)).here.builds hvalue limit depth).bind fun v v' hv => hrest ?_
      rw [DictEntry.shape, DictEntry.shape, hk, hv]
    | dictUnpack =>
      obtain ⟨value, rfl, -⟩ := exists_operation hnode.here.matched (by simp)
      obtain ⟨value', rfl, hvalue⟩ := hchildren.eq_one
      refine ((hparts value (by simp)).here.builds hvalue limit depth).bind fun v v' hv => hrest ?_
      rw [DictEntry.shape, DictEntry.shape, hv]
    | _ => exact keeps_error

theorem slicePartsOf_keeps : Keeps partShapes (slicePartsOf limit depth nodes) (slicePartsOf limit depth nodes') := by
  induction nodes generalizing nodes' with
  | nil =>
    rw [halike.eq_nil]
    exact keeps_ok rfl
  | cons node nodes ih =>
    obtain ⟨hnode, hnodes⟩ := List.forall_mem_cons.mp h
    obtain ⟨node', nodes', rfl, halike, hmore⟩ := halike.eq_cons
    obtain ⟨r, first, last, children⟩ := node
    obtain ⟨first', last', children', rfl, -, hchildren⟩ := halike.eq_mk
    rw [slicePartsOf.eq_def, slicePartsOf.eq_def limit depth (_ :: nodes')]
    cases r with
    | slicePart part =>
      obtain ⟨value, rfl, -⟩ := exists_slicePart hnode.here.matched
      obtain ⟨value', rfl, hvalue⟩ := hchildren.eq_one
      refine ((hnode.parts value (by simp)).here.builds hvalue limit depth).bind fun v v' hv => ?_
      refine (ih hnodes hmore).bind fun parts parts' hparts => keeps_ok ?_
      rw [partShapes, List.map_cons, hv]
      exact congrArg _ hparts
    | _ => exact keeps_error

theorem argumentsOf_keeps {args args' : List Expr} {keywords keywords' : List Keyword}
    (hargs : shapes args' = shapes args) (hkeywords : keywordShapes keywords' = keywordShapes keywords) :
    Keeps (fun read => (shapes read.1, keywordShapes read.2)) (argumentsOf limit depth args keywords nodes)
      (argumentsOf limit depth args' keywords' nodes') := by
  induction nodes generalizing nodes' args args' keywords keywords' with
  | nil =>
    rw [halike.eq_nil]
    exact keeps_ok (by rw [hargs, hkeywords])
  | cons node nodes ih =>
    obtain ⟨hnode, hnodes⟩ := List.forall_mem_cons.mp h
    obtain ⟨node', nodes', rfl, halike, hmore⟩ := halike.eq_cons
    obtain ⟨r, first, last, children⟩ := node
    have hbuilds := hnode.here.builds halike limit depth
    obtain ⟨first', last', children', rfl, -, hchildren⟩ := halike.eq_mk
    by_cases hr : r = .keywordArgument
    · subst hr
      obtain ⟨name, value, rfl, hname, -⟩ := exists_keyword hnode.here.matched
      obtain ⟨name', value', rfl, halike, hvalue⟩ := hchildren.eq_two
      rw [argumentsOf, argumentsOf, halike.text_eq (by rw [hname]; rfl)]
      dsimp only
      rw [any_name_of_shapes hkeywords]
      split
      · exact keeps_error
      · refine ((hnode.parts value (by simp)).here.builds hvalue limit depth).bind fun v v' hv => ?_
        exact ih hnodes hmore hargs (keywordShapes_concat hkeywords (by rw [Keyword.shape, Keyword.shape, hv]))
    by_cases hr' : r = .doubleStarred
    · subst hr'
      obtain ⟨value, rfl, -⟩ := exists_operation hnode.here.matched (by simp)
      obtain ⟨value', rfl, hvalue⟩ := hchildren.eq_one
      rw [argumentsOf, argumentsOf]
      refine ((hnode.parts value (by simp)).here.builds hvalue limit depth).bind fun v v' hv => ?_
      exact ih hnodes hmore hargs (keywordShapes_concat hkeywords (by rw [Keyword.shape, Keyword.shape, hv]))
    rw [argumentsOf_cons_positional hr hr', argumentsOf_cons_positional hr hr', isEmpty_of_shapes hkeywords]
    split
    · exact keeps_error
    · refine hbuilds.bind fun e e' he => ih hnodes hmore ?_ hkeywords
      rw [shapes_eq, shapes_eq] at hargs ⊢
      simp only [List.map_append, List.map_cons, hargs, he]

theorem piecesOf_keeps : Keeps (List.map Piece.shape) (piecesOf limit depth nodes) (piecesOf limit depth nodes') := by
  induction nodes generalizing nodes' with
  | nil =>
    rw [halike.eq_nil]
    exact keeps_ok rfl
  | cons node nodes ih =>
    obtain ⟨hnode, hnodes⟩ := List.forall_mem_cons.mp h
    obtain ⟨node', nodes', rfl, halike, hmore⟩ := halike.eq_cons
    obtain ⟨r, first, last, children⟩ := node
    have hbuilds := hnode.here.builds halike limit depth
    have hmatched := hnode.here.matched
    obtain ⟨first', last', children', rfl, -, hchildren⟩ := halike.eq_mk
    have hrest {p p' : Piece} (hp : p'.shape = p.shape) : Keeps (List.map Piece.shape)
        (piecesOf limit depth nodes >>= fun pieces => .ok (p :: pieces))
        (piecesOf limit depth nodes' >>= fun pieces => .ok (p' :: pieces)) := by
      refine (ih hnodes hmore).bind fun pieces pieces' hpieces => keeps_ok ?_
      rw [List.map_cons, List.map_cons, hp, hpieces]
    rw [piecesOf.eq_def, piecesOf.eq_def limit depth (_ :: nodes')]
    cases r with
    | unary op | binary op => exact hrest rfl
    | call =>
      refine Keeps.bind (argumentsOf_keeps hnode.parts hchildren rfl rfl) fun read read' hread => hrest ?_
      rw [Prod.mk.injEq] at hread
      simp only [Piece.shape, Trailer.shape, hread]
    | subscript =>
      refine Keeps.bind (itemsOf_keeps hnode.parts hchildren) fun items items' hitems => hrest ?_
      have hindex : (tupleUnlessSingle (first'.location last') children' items').shape =
        (tupleUnlessSingle (first.location last) children items).shape := shape_tupleUnlessSingle hchildren hitems
      simp only [Piece.shape, Trailer.shape, hindex]
    | member =>
      have hlexemes : ∀ r ∈ rulesIn Rule.member.body, r.isLexeme := by decide
      obtain ⟨name, rfl, -⟩ := exists_member hmatched
      obtain ⟨name', rfl, hname⟩ := hchildren.eq_one
      refine hrest ?_
      rw [hname.text_eq (hlexemes _ (hmatched.rule_mem name (by simp)))]
      rfl
    | _ => exact hbuilds.bind fun e e' he => hrest (congrArg Piece.operand he)

end Rows

theorem exprOf_kept (hm : (Node.mk r first last children).Matched source)
    (h : ∀ child ∈ children, child.All (Node.Kept source)) : (Node.mk r first last children).Kept source := by
  refine ⟨hm, fun halike limit depth => ?_⟩
  obtain ⟨first', last', children', rfl, htext, hchildren⟩ := halike.eq_mk
  have hchild {child child' : Node} (hc : child ∈ children) (h' : child.Alike child') :
      Keeps Expr.shape (exprOf limit depth child) (exprOf limit depth child') :=
    (h child hc).here.builds h' limit depth
  have hcomprehension : isComprehension children = isComprehension children' :=
    hchildren.any_rule (· == .comprehensionFor)
  rw [exprOf.eq_def, exprOf.eq_def limit depth (.mk r first' last' children')]
  cases r with
  | operation =>
    dsimp only
    split
    · exact keeps_error
    · refine (checkChain_keeps hchildren).bind fun _ _ _ => ?_
      refine (piecesOf_keeps h hchildren).bind fun pieces pieces' hpieces => ?_
      intro e he
      split at he
      · rename_i tree htree
        cases he
        obtain ⟨e', htree', hshape⟩ := (shape_ofRow hpieces).1 rfl htree
        rw [Expr.ofPieces?, htree']
        exact ⟨e', rfl, hshape⟩
      · cases he
  | conditional =>
    obtain ⟨body, -, rfl | ⟨ifWord, test, elseWord, orelse, rfl, -⟩⟩ := exists_conditional hm
    · obtain ⟨body', rfl, hbody⟩ := hchildren.eq_one
      exact hchild (by simp) hbody
    · obtain ⟨body', _, rfl, hbody, hchildren⟩ := hchildren.eq_cons
      obtain ⟨ifWord', _, rfl, -, hchildren⟩ := hchildren.eq_cons
      obtain ⟨test', _, rfl, htest, hchildren⟩ := hchildren.eq_cons
      obtain ⟨elseWord', orelse', rfl, -, horelse⟩ := hchildren.eq_two
      refine (hchild (by simp) hbody).bind fun b b' hb => ?_
      refine (hchild (by simp) htest).bind fun t t' ht => ?_
      refine (hchild (by simp) horelse).bind fun e e' he => keeps_ok ?_
      simp only [Expr.shape, hb, ht, he]
  | lambda =>
    obtain ⟨word, body, -, -, rfl | ⟨params, rfl, hparams⟩⟩ := exists_lambda hm
    · obtain ⟨word', body', rfl, -, hbody⟩ := hchildren.eq_two
      refine (hchild (by simp) hbody).bind fun b b' hb => keeps_ok ?_
      simp only [Expr.shape, hb]
    · obtain ⟨word', _, rfl, -, hchildren⟩ := hchildren.eq_cons
      obtain ⟨params', body', rfl, halike, hbody⟩ := hchildren.eq_two
      obtain ⟨r, pf, pl, names⟩ := params
      cases hparams
      obtain ⟨pf', pl', names', rfl, -, hnames⟩ := halike.eq_mk
      have hlexemes : ∀ r ∈ rulesIn Rule.lambdaParameters.body, r.isLexeme := by decide
      have hmatched := (h (.mk .lambdaParameters pf pl names) (by simp)).here.matched
      have htexts := hnames.map_text fun name hname => hlexemes _ (hmatched.rule_mem name hname)
      refine (hchild (by simp) hbody).bind fun b b' hb => keeps_ok ?_
      have hstrings := congrArg (List.map String.ofList) htexts
      rw [List.map_map, List.map_map] at hstrings
      simp only [Expr.shape, hb]
      exact congrArg (Expr.lambda .synthetic · b.shape) hstrings.symm
  | starred =>
    obtain ⟨value, rfl, -⟩ := exists_operation hm (by simp)
    obtain ⟨value', rfl, hvalue⟩ := hchildren.eq_one
    refine (hchild (by simp) hvalue).bind fun v v' hv => keeps_ok ?_
    simp only [Expr.shape, hv]
  | slice =>
    refine (slicePartsOf_keeps h hchildren).bind fun parts parts' hparts => keeps_ok ?_
    simp only [Expr.shape, partShape_lookup hparts]
  | identifier =>
    dsimp only
    rw [htext rfl]
    exact keeps_ok rfl
  | integer | float =>
    dsimp only
    rw [htext rfl]
    split
    · exact keeps_ok rfl
    · exact keeps_error
  | trueLiteral | falseLiteral | noneLiteral | ellipsis => exact keeps_ok rfl
  | strings =>
    have hrules : ∀ r ∈ rulesIn Rule.strings.body, r = .stringLiteral := by decide
    exact stringsToExpr_keeps hm.parts (fun child hc => hrules _ (hm.rule_mem child hc)) hchildren
  | paren =>
    dsimp only
    rw [hcomprehension]
    split
    · exact keeps_ok rfl
    · exact (itemsOf_keeps h hchildren).bind fun items items' hitems =>
        keeps_ok (shape_tupleUnlessSingle hchildren hitems)
  | list =>
    dsimp only
    rw [hcomprehension]
    split
    · exact keeps_ok rfl
    · refine (itemsOf_keeps h hchildren).bind fun items items' hitems => keeps_ok ?_
      simp only [Expr.shape, hitems]
  | brace =>
    dsimp only
    rw [hcomprehension, hchildren.beginsDict_eq]
    split
    · exact keeps_ok rfl
    split
    · refine (entriesOf_keeps h hchildren).bind fun entries entries' hentries => keeps_ok ?_
      simp only [Expr.shape, hentries]
    · refine (itemsOf_keeps h hchildren).bind fun items items' hitems => keeps_ok ?_
      simp only [Expr.shape, hitems]
  | _ => exact keeps_error

theorem Node.Matched.kept (h : node.Matched source) : node.All (Node.Kept source) :=
  h.all fun _ _ _ _ => exprOf_kept

/-! ### Statements and texts -/

variable {α β : Type}

theorem targetListOf_keeps (hm : node.Matched source) (h : node.Alike node') :
    Keeps Expr.shape (targetListOf limit node) (targetListOf limit node') := by
  obtain ⟨r, first, last, children⟩ := node
  obtain ⟨first', last', children', rfl, -, hchildren⟩ := h.eq_mk
  have hitems : Keeps shapes (itemsOf limit 0 children) (itemsOf limit 0 children') :=
    itemsOf_keeps (fun child hc => (hm.parts child hc).kept) hchildren
  exact hitems.bind fun items items' hitems => keeps_ok (shape_tupleUnlessSingle hchildren hitems)

theorem mapM_keeps {f : Node → Except ParseError α} {shape : α → β}
    (hf : ∀ {node node'}, node.Matched source → node.Alike node' → Keeps shape (f node) (f node'))
    (hm : ∀ node ∈ nodes, node.Matched source) (h : AreAlike nodes nodes') :
    Keeps (List.map shape) (nodes.mapM f) (nodes'.mapM f) := by
  induction nodes generalizing nodes' with
  | nil =>
    rw [h.eq_nil]
    exact keeps_ok rfl
  | cons node nodes ih =>
    obtain ⟨node', nodes', rfl, hnode, hnodes⟩ := h.eq_cons
    obtain ⟨hmatched, hm⟩ := List.forall_mem_cons.mp hm
    rw [List.mapM_cons, List.mapM_cons]
    refine (hf hmatched hnode).bind fun a a' ha => ?_
    refine (ih hm hnodes).bind fun as as' has => keeps_ok ?_
    rw [List.map_cons, List.map_cons, ha, has]

theorem statementOf_keeps (hm : node.Matched source) (h : node.Alike node') :
    Keeps Statement.shape (statementOf limit node) (statementOf limit node') := by
  obtain ⟨r, first, last, children⟩ := node
  obtain ⟨first', last', children', rfl, -, hchildren⟩ := h.eq_mk
  have hexpr {child child' : Node} (hc : child ∈ children) (h' : child.Alike child') :
      Keeps Expr.shape (exprOf limit 0 child) (exprOf limit 0 child') :=
    (hm.parts child hc).kept.here.builds h' limit 0
  have hlist {child child' : Node} (hc : child ∈ children) (h' : child.Alike child') :
      Keeps Expr.shape (targetListOf limit child) (targetListOf limit child') :=
    targetListOf_keeps (hm.parts child hc) h'
  have hrow := hm.row
  unfold statementOf
  dsimp only [Node.rule, Node.children]
  cases r with
  | assignment =>
    refine (mapM_keeps targetListOf_keeps hm.parts hchildren).bind fun exprs exprs' hexprs => ?_
    have hlast : exprs'.getLast?.map Expr.shape = exprs.getLast?.map Expr.shape := by
      rw [← List.getLast?_map, hexprs, List.getLast?_map]
    have htargets : shapes exprs'.dropLast = shapes exprs.dropLast := by
      rw [shapes_eq, shapes_eq, List.map_dropLast, hexprs, ← List.map_dropLast]
    cases hvalue : exprs.getLast? with
    | none => exact keeps_error
    | some value =>
      rw [hvalue] at hlast
      obtain ⟨value', hvalue', hshape⟩ := Option.map_eq_some_iff.mp hlast
      rw [hvalue']
      refine keeps_ok ?_
      simp only [Statement.shape, StatementKind.shape, htargets, hshape]
  | augmentedAssignment =>
    simp only [Rule.body, rows_tokens_cons, rows_tokens_one, rows_rule] at hrow
    obtain ⟨target, rest, rfl, -, hrest⟩ := hrow.first
    obtain ⟨op, rest, rfl, hop, hrest⟩ := hrest.first
    obtain ⟨value, rfl, -⟩ := hrest.one
    obtain ⟨target', _, rfl, htarget, hchildren⟩ := hchildren.eq_cons
    obtain ⟨op', value', rfl, halike, hvalue⟩ := hchildren.eq_two
    refine (hlist (by simp) htarget).bind fun t t' ht => ?_
    refine (hlist (by simp) hvalue).bind fun v v' hv => keeps_ok ?_
    rw [halike.text_eq (by rw [List.mem_singleton.mp hop]; rfl)]
    simp only [Statement.shape, StatementKind.shape, ht, hv]
  | annotatedAssignment =>
    rcases children with _ | ⟨target, _ | ⟨label, _ | ⟨value, _ | ⟨more, rest⟩⟩⟩⟩
    · exact keeps_error
    · exact keeps_error
    · obtain ⟨target', label', rfl, htarget, hlabel⟩ := hchildren.eq_two
      refine (hexpr (by simp) htarget).bind fun t t' ht => ?_
      refine (hexpr (by simp) hlabel).bind fun l l' hl => keeps_ok ?_
      simp only [Statement.shape, StatementKind.shape, partShape, ht, hl]
    · obtain ⟨target', _, rfl, htarget, hchildren⟩ := hchildren.eq_cons
      obtain ⟨label', value', rfl, hlabel, hvalue⟩ := hchildren.eq_two
      refine (hexpr (by simp) htarget).bind fun t t' ht => ?_
      refine (hexpr (by simp) hlabel).bind fun l l' hl => ?_
      refine (hlist (by simp) hvalue).bind fun v v' hv => keeps_ok ?_
      simp only [Statement.shape, StatementKind.shape, partShape, ht, hl, hv]
    · exact keeps_error
  | expressionStatement =>
    obtain ⟨value, rfl, -⟩ := Row.one hrow
    obtain ⟨value', rfl, hvalue⟩ := hchildren.eq_one
    refine (hlist (by simp) hvalue).bind fun v v' hv => keeps_ok ?_
    simp only [Statement.shape, StatementKind.shape, hv]
  | reservedStatement =>
    obtain ⟨word, rest, rfl, hword, -⟩ := hrow.first
    obtain ⟨word', _, rfl, halike, -⟩ := hchildren.eq_cons
    refine keeps_ok ?_
    rw [halike.text_eq (by rw [List.mem_singleton.mp hword]; rfl)]
    rfl
  | _ => exact keeps_error

theorem AreAlike.filter_rule (h : AreAlike xs ys) (p : Rule → Bool) :
    AreAlike (xs.filter fun node => p node.rule) (ys.filter fun node => p node.rule) := by
  induction xs generalizing ys with
  | nil =>
    rw [h.eq_nil]
    trivial
  | cons x xs ih =>
    obtain ⟨y, ys, rfl, hx, hxs⟩ := h.eq_cons
    rw [List.filter_cons, List.filter_cons, hx.rule_eq]
    split
    · exact ⟨hx, ih hxs⟩
    · exact ih hxs

/-- From a match that is like another the same tree is built, but for places. -/
theorem moduleOf_keeps (hm : node.Matched source) (h : node.Alike node') :
    Keeps Module.shape (moduleOf limit node) (moduleOf limit node') := by
  obtain ⟨r, first, last, children⟩ := node
  obtain ⟨first', last', children', rfl, -, hchildren⟩ := h.eq_mk
  have hstatements := hchildren.filter_rule (· != .endOfInput)
  have hmatched (child : Node) (hc : child ∈ children.filter (·.rule != .endOfInput)) : child.Matched source :=
    hm.parts child (List.mem_filter.mp hc).1
  refine (mapM_keeps statementOf_keeps hmatched hstatements).bind fun body body' hbody => keeps_ok ?_
  exact congrArg Module.mk hbody

end ConfigSandbox
