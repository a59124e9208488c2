import Mathlib.Data.List.Basic
import Mathlib.Data.List.Pairwise
import ConfigSandbox.Proofs.Grammar.Matched
import ConfigSandbox.Proofs.Tree.Outline
import ConfigSandbox.Tree.OfNode

/-!
# Trees stand where their text stands

From a match to a tree: every construct covers the text it was read from, or the part of it between its
first and its last operand. What is refused is refused at a place in the text. The nodes need not be those
of a particular rule for this, it is enough that they come one after another.
-/
namespace ConfigSandbox

/-- A computation that may fail meets one condition if it does and another if it does not. -/
def Meets {ε α : Type} (E : ε → Prop) (A : α → Prop) : Except ε α → Prop
  | .ok a => A a
  | .error e => E e

namespace Meets

variable {ε α β : Type} {E : ε → Prop} {A : α → Prop} {B : β → Prop}

theorem bind {x : Except ε α} {f : α → Except ε β} (hx : Meets E A x)
    (hf : ∀ a, A a → Meets E B (f a)) : Meets E B (x >>= f) := by
  cases x with
  | ok a => exact hf a hx
  | error e => exact hx

theorem imp {A' : α → Prop} {x : Except ε α} (h : Meets E A x) (ha : ∀ a, A a → A' a) :
    Meets E A' x := by
  cases x with
  | ok a => exact ha a h
  | error e => exact h

theorem mapError {E' : ε → Prop} {x : Except ε α} (h : Meets E A x) (he : ∀ e, E e → E' e) :
    Meets E' A x := by
  cases x with
  | ok a => exact h
  | error e => exact he e h

theorem ok {x : Except ε α} {a : α} (h : Meets E A x) (hx : x = .ok a) : A a := by
  rw [hx] at h
  exact h

theorem error {x : Except ε α} {e : ε} (h : Meets E A x) (hx : x = .error e) : E e := by
  rw [hx] at h
  exact h

end Meets

section Map

variable {ε α β : Type} {x : Except ε α} {f : α → β}

theorem exists_of_map_eq_ok {b : β} (h : x.map f = .ok b) : ∃ a, x = .ok a ∧ f a = b := by
  cases x with
  | ok a => exact ⟨a, rfl, Except.ok.inj h⟩
  | error e => cases h

theorem eq_error_of_map {e : ε} (h : x.map f = .error e) : x = .error e := by
  cases x with
  | ok a => cases h
  | error e' => exact congrArg Except.error (Except.error.inj h)

end Map

/-- The error stands at a place in the text. -/
def ParseError.Placed (source : String) (e : ParseError) : Prop := e.loc.Fits source

variable {source : String} {loc : Location} {first last : Cursor} {r : Rule}
  {children nodes : List Node} {e left : Expr} {items : List Expr} {lo mid hi : Nat}

theorem Expr.outline_of_leaf {kind : NodeKind} (h : e.outline = .mk kind loc []) (hfits : loc.Fits source)
    (hname : ∀ id, kind = .expr (some id) → loc.span.text source = id) :
    Apart source loc.span.start [e.outline] loc.span.stop := by
  rw [h]
  exact .node hfits hname (.nil hfits.start_le_stop) (Nat.le_refl _) (Nat.le_refl _)

/-- An expression that is no name, with its parts inside its place. -/
theorem Expr.outline_of_parts {parts : List Outline} (h : e.outline = .mk (.expr none) loc parts)
    (hfits : loc.Fits source) (hparts : Apart source loc.span.start parts loc.span.stop) :
    Apart source loc.span.start [e.outline] loc.span.stop := by
  rw [h]
  exact .node hfits (fun id hid => by cases hid) hparts (Nat.le_refl _) (Nat.le_refl _)

theorem tupleUnlessSingle_in (hfits : loc.Fits source)
    (h : Apart source loc.span.start (outlines items) loc.span.stop) :
    Apart source loc.span.start [(tupleUnlessSingle loc children items).outline] loc.span.stop := by
  unfold tupleUnlessSingle
  split
  · split
    · exact Expr.outline_of_parts rfl hfits h
    · exact h
  · exact Expr.outline_of_parts rfl hfits h

/-! ### Rows of operators -/

namespace Trailer

def outlines : Trailer → List Outline
  | call args keywords => ConfigSandbox.outlines args ++ keywordOutlines keywords
  | subscript index => [index.outline]
  | member _ => []

theorem outline_apply (t : Trailer) (e : Expr) (loc : Location) : (t.apply e loc).outline =
    .mk (.expr none) (e.loc.through loc) (e.outline :: t.outlines) := by
  cases t <;> rfl

/-- The trailer stands between two offsets, and what it contains stands inside it. -/
structure In (source : String) (lo hi : Nat) (loc : Location) (t : Trailer) : Prop where
  fits : loc.Fits source
  after : lo ≤ loc.span.start
  before : loc.span.stop ≤ hi
  inside : Apart source loc.span.start t.outlines loc.span.stop

theorem In.apply {t : Trailer} (h : t.In source mid hi loc) (he : Apart source lo [e.outline] mid) :
    Apart source lo [(t.apply e loc).outline] hi := by
  obtain ⟨hexact, hfits, hlo, hmid⟩ := he.expr
  have hordered := hfits.start_le_stop
  have hordered' := h.fits.start_le_stop
  have hafter := h.after
  have hhead : Apart source e.loc.span.start [e.outline] loc.span.start :=
    .of_expr hexact (Nat.le_refl _) (by omega)
  rw [outline_apply]
  refine .node (Location.through_fits hfits h.fits (by omega)) (fun id hid => by cases hid) ?_ hlo h.before
  exact hhead.append h.inside

end Trailer

namespace Pending

/-- What waits for its right operand stands between two offsets. -/
def In (source : String) (lo hi : Nat) : Pending → Prop
  | unary loc _ => loc.Fits source ∧ lo ≤ loc.span.start ∧ loc.span.stop ≤ hi
  | binary left _ => Apart source lo [left.outline] hi

theorem In.close {p : Pending} (h : p.In source lo mid) (he : Apart source mid [e.outline] hi) :
    Apart source lo [(p.close e).outline] hi := by
  obtain ⟨hexact, hfits, hmid, hhi⟩ := he.expr
  have hordered := hfits.start_le_stop
  have hright : Apart source mid [e.outline] e.loc.span.stop := .of_expr hexact hmid (Nat.le_refl _)
  cases p with
  | unary loc op =>
    obtain ⟨hloc, hlo, hstop⟩ := h
    have hordered' := hloc.start_le_stop
    refine .node (Location.through_fits hloc hfits (by omega)) (fun id hid => by cases hid) ?_ hlo hhi
    exact hright.widen (Nat.le_trans hordered' hstop) (Nat.le_refl _)
  | binary left op =>
    obtain ⟨hexact', hfits', hlo, hstop⟩ := Apart.expr h
    have hordered' := hfits'.start_le_stop
    have hleft : Apart source left.loc.span.start [left.outline] mid :=
      .of_expr hexact' (Nat.le_refl _) hstop
    refine .node (Location.through_fits hfits' hfits (by omega)) (fun id hid => by cases hid) ?_ hlo hhi
    exact hleft.append hright

end Pending

/-- A stack of operators, the innermost first and the outermost nearest to the start of the text. -/
inductive Stacked (source : String) (lo : Nat) : List Pending → Nat → Prop
  | nil {hi : Nat} (h : lo ≤ hi) : Stacked source lo [] hi
  | cons {p : Pending} {rest : List Pending} {mid hi : Nat} (outer : Stacked source lo rest mid)
      (inner : p.In source mid hi) : Stacked source lo (p :: rest) hi

variable {stack : List Pending}

theorem Stacked.unary {op : UnaryOp} (hs : Stacked source lo stack mid)
    (h : loc.Fits source ∧ mid ≤ loc.span.start ∧ loc.span.stop ≤ hi) :
    Stacked source lo (.unary loc op :: stack) hi := .cons hs h

theorem Stacked.binary {op : BinaryOp} (hs : Stacked source lo stack mid)
    (h : Apart source mid [left.outline] hi) : Stacked source lo (.binary left op :: stack) hi :=
  .cons hs h

theorem Stacked.closeFor (level : Nat) (hs : Stacked source lo stack mid)
    (he : Apart source mid [e.outline] hi) : ∃ mid', Stacked source lo (closeFor level e stack).2 mid' ∧
      Apart source mid' [(closeFor level e stack).1.outline] hi := by
  induction hs generalizing e with
  | nil h => exact ⟨_, .nil h, he⟩
  | cons outer inner ih =>
    rw [ConfigSandbox.closeFor]
    split
    · exact ih (inner.close he)
    · exact ⟨_, .cons outer inner, he⟩

theorem Stacked.closeAll (hs : Stacked source lo stack mid) (he : Apart source mid [e.outline] hi) :
    Apart source lo [(closeAll e stack).outline] hi := by
  induction hs generalizing e with
  | nil h => exact he.widen h (Nat.le_refl _)
  | cons outer inner ih => exact ih (inner.close he)

/-- A piece of a row stands between two offsets. -/
def Piece.In (source : String) (lo hi : Nat) : Piece → Prop
  | operand e => Apart source lo [e.outline] hi
  | unary loc _ => loc.Fits source ∧ lo ≤ loc.span.start ∧ loc.span.stop ≤ hi
  | binary _ => lo ≤ hi
  | trailer loc t => t.In source lo hi loc

/-- The pieces of a row, one after another. -/
inductive PiecesIn (source : String) : Nat → List Piece → Nat → Prop
  | nil {lo hi : Nat} (h : lo ≤ hi) : PiecesIn source lo [] hi
  | cons {p : Piece} {rest : List Piece} {lo mid hi : Nat} (here : p.In source lo mid)
      (after : PiecesIn source mid rest hi) : PiecesIn source lo (p :: rest) hi

theorem pieces_in {pieces : List Piece} :
    (∀ stack mid result, Stacked source lo stack mid → PiecesIn source mid pieces hi →
      operandFirst stack pieces = some result → Apart source lo [result.outline] hi) ∧
    (∀ stack mid mid' e result, Stacked source lo stack mid → Apart source mid [e.outline] mid' →
      PiecesIn source mid' pieces hi → operatorNext stack e pieces = some result →
      Apart source lo [result.outline] hi) := by
  -- the two readers call each other, so both are followed along the row at once
  induction pieces with
  | nil =>
    refine ⟨fun stack mid result _ _ h => ?_, fun stack mid mid' e result hs he hp h => ?_⟩
    · cases h
    · cases h
      cases hp with
      | nil hle => exact (hs.closeAll he).widen (Nat.le_refl _) hle
  | cons p rest ih =>
    obtain ⟨ihoperand, ihoperator⟩ := ih
    refine ⟨fun stack mid result hs hp h => ?_, fun stack mid mid' e result hs he hp h => ?_⟩
    · cases hp with
      | cons here hrest =>
        cases p with
        | operand e => exact ihoperator stack _ _ e result hs here hrest h
        | unary loc op => exact ihoperand _ _ result (hs.unary here) hrest h
        | binary | trailer => cases h
    · cases hp with
      | cons here hrest =>
        cases p with
        | trailer loc t => exact ihoperator stack _ _ _ result hs (here.apply he) hrest h
        | binary op =>
          obtain ⟨mid'', hstack, hleft⟩ := hs.closeFor op.level (he.widen (Nat.le_refl _) here)
          exact ihoperand _ _ result (hstack.binary hleft) hrest h
        | operand | unary => cases h

theorem ofPieces_in {pieces : List Piece} (h : PiecesIn source lo pieces hi) {result : Expr}
    (hr : Expr.ofPieces? pieces = some result) : Apart source lo [result.outline] hi :=
  pieces_in.1 [] lo result (.nil (Nat.le_refl _)) h hr

/-! ### Nodes -/

/-- The tree of a node, however deep it may be, stands where the node does. -/
structure Node.Located (source : String) (node : Node) : Prop where
  matched : node.Matched source
  builds : ∀ limit depth, Meets (·.Placed source)
    (fun e => Apart source node.loc.span.start [e.outline] node.loc.span.stop) (exprOf limit depth node)

variable {limit depth : Nat} {node : Node}

/-- The first of several nodes, and what is left to the others. -/
theorem Strung.located (hs : Strung lo (node :: nodes) hi) (h : node.All (Node.Located source)) :
    Meets (·.Placed source) (fun e => Apart source lo [e.outline] node.loc.span.stop)
      (exprOf limit depth node) ∧ Strung node.loc.span.stop nodes hi := by
  obtain ⟨before, after⟩ := hs.of_cons
  exact ⟨(h.here.builds limit depth).imp fun e he => he.widen before (Nat.le_refl _), after⟩

theorem Strung.located_last (hs : Strung lo [node] hi) (h : node.All (Node.Located source)) :
    Meets (·.Placed source) (fun e => Apart source lo [e.outline] hi) (exprOf limit depth node) := by
  obtain ⟨hnode, hend⟩ := hs.located h
  exact hnode.imp fun e he => he.widen (Nat.le_refl _) hend.le

theorem checkChain_located (h : ∀ node ∈ nodes, node.Matched source) (depth : Nat) :
    Meets (·.Placed source) (fun _ => True) (checkChain limit depth nodes) := by
  induction nodes generalizing depth with
  | nil => trivial
  | cons node rest ih =>
    obtain ⟨hnode, hrest⟩ := List.forall_mem_cons.mp h
    rw [checkChain]
    split
    · split
      · exact hnode.loc_fits
      · exact ih hrest _
    · exact ih hrest _

theorem stringsToExpr_located (h : ∀ node ∈ nodes, node.Matched source) :
    Meets (·.Placed source) (fun e => e.outline = .mk (.expr none) loc []) (stringsToExpr loc nodes) := by
  have hparts (parts : StringParts) :
      Meets (·.Placed source) (fun _ => True) (nodes.foldlM StringParts.addNode parts) := by
    induction nodes generalizing parts with
    | nil => trivial
    | cons node rest ih =>
      obtain ⟨hnode, hrest⟩ := List.forall_mem_cons.mp h
      rw [List.foldlM_cons]
      refine Meets.bind (A := fun _ => True) ?_ fun parts _ => ih hrest parts
      unfold StringParts.addNode
      dsimp only
      split
      · trivial
      · exact hnode.loc_fits
  refine (hparts .none).bind fun parts _ => ?_
  change (parts.toExpr loc).outline = _
  unfold StringParts.toExpr
  split
  · rfl
  · split <;> rfl

theorem itemsOf_located (hs : Strung lo nodes hi) (h : ∀ node ∈ nodes, node.All (Node.Located source)) :
    Meets (·.Placed source) (fun items => Apart source lo (outlines items) hi)
      (itemsOf limit depth nodes) := by
  induction nodes generalizing lo with
  | nil => exact .nil hs.le
  | cons node rest ih =>
    obtain ⟨hnode, hrest⟩ := List.forall_mem_cons.mp h
    rw [itemsOf]
    split
    · exact ih (hs.tail) hrest
    · obtain ⟨hitem, hs⟩ := hs.located hnode
      refine hitem.bind fun item hitem => (ih hs hrest).bind fun items hitems => ?_
      exact hitem.append hitems

theorem entryOutlines_cons (entry : DictEntry) (entries : List DictEntry) :
    entryOutlines (entry :: entries) = entryOutlines [entry] ++ entryOutlines entries := by
  cases entry <;> rfl

theorem entriesOf_located (hs : Strung lo nodes hi) (h : ∀ node ∈ nodes, node.All (Node.Located source)) :
    Meets (·.Placed source) (fun entries => Apart source lo (entryOutlines entries) hi)
      (entriesOf limit depth nodes) := by
  induction nodes generalizing lo with
  | nil => exact .nil hs.le
  | cons node rest ih =>
    obtain ⟨hnode, hrest⟩ := List.forall_mem_cons.mp h
    obtain ⟨r, first, last, children⟩ := node
    obtain ⟨before, after⟩ := hs.of_cons
    have hchildren := hnode.here.matched.strung.widen before
    have hmore (entry : DictEntry) (hentry : Apart source lo (entryOutlines [entry]) last.offset) :
        Meets (·.Placed source) (fun entries => Apart source lo (entryOutlines entries) hi)
          (entriesOf limit depth rest >>= fun entries => .ok (entry :: entries)) := by
      refine (ih after hrest).bind fun entries hentries => ?_
      change Apart source lo (entryOutlines (entry :: entries)) hi
      rw [entryOutlines_cons]
      exact hentry.append hentries
    rw [entriesOf.eq_def]
    dsimp only
    split
    · rename_i key value
      obtain ⟨hkey, hvalue⟩ := List.forall_mem_cons.mp hnode.parts
      obtain ⟨hk, hchildren⟩ := hchildren.located hkey
      refine hk.bind fun k hk => (hchildren.located_last (hvalue _ List.mem_cons_self)).bind fun v hv => ?_
      exact hmore (.pair k v) (hk.append hv)
    · rename_i value
      refine (hchildren.located_last (hnode.parts _ List.mem_cons_self)).bind fun v hv => ?_
      exact hmore (.unpack v) hv
    · exact hnode.here.matched.loc_fits

theorem slicePartsOf_located (hs : Strung lo nodes hi) (h : ∀ node ∈ nodes, node.All (Node.Located source)) :
    Meets (·.Placed source) (fun parts => Apart source lo (parts.map fun part => part.2.outline) hi)
      (slicePartsOf limit depth nodes) := by
  induction nodes generalizing lo with
  | nil => exact .nil hs.le
  | cons node rest ih =>
    obtain ⟨hnode, hrest⟩ := List.forall_mem_cons.mp h
    obtain ⟨r, first, last, children⟩ := node
    obtain ⟨before, after⟩ := hs.of_cons
    have hchildren := hnode.here.matched.strung.widen before
    rw [slicePartsOf.eq_def]
    dsimp only
    split
    · rename_i part value
      refine (hchildren.located_last (hnode.parts _ List.mem_cons_self)).bind fun v hv => ?_
      exact (ih after hrest).bind fun parts hparts => hv.append hparts
    · exact hnode.here.matched.loc_fits

/-- Of the places of a slice each takes one part at most, so none is taken twice. -/
theorem lookup_in {parts : List (SlicePart × Expr)} {a b c : SlicePart}
    (h : Apart source lo (parts.map fun part => part.2.outline) hi) (hab : a ≠ b) (hac : a ≠ c)
    (hbc : b ≠ c) : Apart source lo (partOutline (parts.lookup a) ++ partOutline (parts.lookup b) ++
      partOutline (parts.lookup c)) hi := by
  have hmem (k : SlicePart) : ∀ o ∈ partOutline (parts.lookup k), ∃ e, (k, e) ∈ parts ∧ o = e.outline := by
    intro o ho
    cases hk : parts.lookup k with
    | none =>
      rw [hk, partOutline] at ho
      exact absurd ho List.not_mem_nil
    | some e =>
      rw [hk, partOutline] at ho
      obtain ⟨before, after, rfl, -⟩ := List.lookup_eq_some_iff.mp hk
      exact ⟨e, List.mem_append_right _ List.mem_cons_self, List.mem_singleton.mp ho⟩
  have hone (k : SlicePart) : Apart source lo (partOutline (parts.lookup k)) hi := by
    refine ⟨h.le, fun o ho => ?_, fun o ho => ?_, ?_⟩
    · obtain ⟨e, he, rfl⟩ := hmem k o ho
      exact h.exact _ (List.mem_map_of_mem he)
    · obtain ⟨e, he, rfl⟩ := hmem k o ho
      exact h.inside _ (List.mem_map_of_mem he)
    · cases parts.lookup k with
      | none => exact .nil
      | some e => exact List.pairwise_singleton _ _
  have htwo {k k' : SlicePart} (hne : k ≠ k') : ∀ o ∈ partOutline (parts.lookup k),
      ∀ o' ∈ partOutline (parts.lookup k'), o.loc.span.Disjoint o'.loc.span := by
    intro o ho o' ho'
    obtain ⟨e, he, rfl⟩ := hmem k o ho
    obtain ⟨e', he', rfl⟩ := hmem k' o' ho'
    have hsymm : Std.Symm fun p q : SlicePart × Expr =>
        p.2.outline.loc.span.Disjoint q.2.outline.loc.span := ⟨fun p q hpq => hpq.symm⟩
    exact (List.pairwise_map.mp h.apart).forall he he' fun heq => hne (congrArg Prod.fst heq)
  refine ((hone a).join (hone b) (htwo hab)).join (hone c) ?_
  exact List.forall_mem_append.mpr ⟨htwo hac, htwo hbc⟩

/-- The outlines of what has been read of a call. -/
def argumentOutlines (args : List Expr) (keywords : List Keyword) : List Outline :=
  outlines args ++ keywordOutlines keywords

theorem argumentOutlines_snoc (args : List Expr) (keywords : List Keyword) (e : Expr) :
    (argumentOutlines args keywords ++ [e.outline]).Perm (argumentOutlines (args ++ [e]) keywords) := by
  have hsnoc : outlines (args ++ [e]) = outlines args ++ [e.outline] := by simp [outlines_eq_map]
  rw [argumentOutlines, argumentOutlines, hsnoc, List.append_assoc, List.append_assoc]
  exact List.perm_append_comm.append_left _

theorem argumentOutlines_keyword {args : List Expr} {keywords : List Keyword} {k : Keyword} {o : Outline}
    (ho : keywordOutlines [k] = [o]) :
    argumentOutlines args (keywords ++ [k]) = argumentOutlines args keywords ++ [o] := by
  rw [argumentOutlines, argumentOutlines, keywordOutlines_append, ho, List.append_assoc]

theorem argumentsOf_located {args : List Expr} {keywords : List Keyword}
    (hread : Apart source lo (argumentOutlines args keywords) mid) (hs : Strung mid nodes hi)
    (h : ∀ node ∈ nodes, node.All (Node.Located source)) :
    Meets (·.Placed source) (fun read => Apart source lo (argumentOutlines read.1 read.2) hi)
      (argumentsOf limit depth args keywords nodes) := by
  induction nodes generalizing mid args keywords with
  | nil => exact hread.widen (Nat.le_refl _) hs.le
  | cons node rest ih =>
    obtain ⟨hnode, hrest⟩ := List.forall_mem_cons.mp h
    have hfits := hnode.here.matched.loc_fits
    obtain ⟨before, after⟩ := hs.of_cons
    have hkeyword {k : Keyword} {v : Expr} (hk : keywordOutlines [k] = [.mk .keyword node.loc [v.outline]])
        (hv : Apart source node.loc.span.start [v.outline] node.loc.span.stop) :
        Apart source lo (argumentOutlines args (keywords ++ [k])) node.loc.span.stop := by
      rw [argumentOutlines_keyword hk]
      exact hread.append (.node hfits (fun id hid => by cases hid) hv before (Nat.le_refl _))
    have hpositional : Meets (·.Placed source) (fun read => Apart source lo (argumentOutlines read.1 read.2) hi)
        (exprOf limit depth node >>= fun e => argumentsOf limit depth (args ++ [e]) keywords rest) := by
      obtain ⟨he, -⟩ := hs.located hnode
      refine he.bind fun e he => ih ?_ after hrest
      exact (hread.append he).perm (argumentOutlines_snoc args keywords e)
    rw [argumentsOf.eq_def]
    dsimp only
    split
    · rename_i first last name value
      obtain ⟨-, hvalue⟩ := List.forall_mem_cons.mp hnode.parts
      split
      · exact hfits
      · have hstrung := hnode.here.matched.strung.tail
        refine (hstrung.located_last (hvalue _ List.mem_cons_self)).bind fun v hv => ?_
        exact ih (hkeyword rfl hv) after hrest
    · rename_i first last value
      have hstrung := hnode.here.matched.strung
      refine (hstrung.located_last (hnode.parts _ List.mem_cons_self)).bind fun v hv => ?_
      exact ih (hkeyword rfl hv) after hrest
    · split
      · exact hfits
      · exact hpositional

theorem piecesOf_located (hs : Strung lo nodes hi) (h : ∀ node ∈ nodes, node.All (Node.Located source)) :
    Meets (·.Placed source) (fun pieces => PiecesIn source lo pieces hi) (piecesOf limit depth nodes) := by
  induction nodes generalizing lo with
  | nil => exact .nil hs.le
  | cons node rest ih =>
    obtain ⟨hnode, hrest⟩ := List.forall_mem_cons.mp h
    have hfits := hnode.here.matched.loc_fits
    obtain ⟨before, after⟩ := hs.of_cons
    have hmore (p : Piece) (hp : p.In source lo node.loc.span.stop) :
        Meets (·.Placed source) (fun pieces => PiecesIn source lo pieces hi)
          (piecesOf limit depth rest >>= fun pieces => .ok (p :: pieces)) :=
      (ih after hrest).bind fun pieces hpieces => .cons hp hpieces
    rw [piecesOf.eq_def]
    dsimp only
    split
    · exact hmore _ ⟨hfits, before, Nat.le_refl _⟩
    · exact hmore _ (Nat.le_trans before hfits.start_le_stop)
    · rename_i first last children
      have hnone : Apart source first.offset (argumentOutlines [] []) first.offset := .nil (Nat.le_refl _)
      refine (argumentsOf_located hnone hnode.here.matched.strung hnode.parts).bind fun read hread => ?_
      exact hmore _ ⟨hfits, before, Nat.le_refl _, hread⟩
    · rename_i first last children
      refine (itemsOf_located hnode.here.matched.strung hnode.parts).bind fun items hitems => ?_
      exact hmore _ ⟨hfits, before, Nat.le_refl _, tupleUnlessSingle_in hfits hitems⟩
    · exact hmore _ ⟨hfits, before, Nat.le_refl _, .nil hfits.start_le_stop⟩
    · obtain ⟨he, -⟩ := hs.located hnode
      exact he.bind fun e he => hmore _ he

/-! ### Whole trees -/

theorem exprOf_located (hm : (Node.mk r first last children).Matched source)
    (h : ∀ node ∈ children, node.All (Node.Located source)) :
    (Node.mk r first last children).Located source := by
  have hfits := hm.loc_fits
  have hs := hm.strung
  have hmatched : ∀ node ∈ children, node.Matched source := hm.parts
  have hleaf {e : Expr} (he : e.outline = .mk (.expr none) (first.location last) []) :=
    Expr.outline_of_parts he hfits (.nil hfits.start_le_stop)
  refine ⟨hm, fun limit depth => ?_⟩
  rw [exprOf.eq_def]
  dsimp only
  cases r with
  | operation =>
    dsimp only
    split
    · exact hfits
    · refine (checkChain_located hmatched _).bind fun _ _ => ?_
      refine (piecesOf_located hs h).bind fun pieces hpieces => ?_
      split
      · rename_i e he
        exact ofPieces_in hpieces he
      · exact hfits
  | conditional =>
    dsimp only
    split
    · rename_i body
      exact hs.located_last (h _ List.mem_cons_self)
    · simp only [List.forall_mem_cons] at h
      obtain ⟨hbody, -, htest, -, horelse, -⟩ := h
      obtain ⟨hb, hs⟩ := hs.located hbody
      obtain ⟨ht, hs⟩ := hs.tail.located htest
      refine hb.bind fun body hbody => ht.bind fun test htest =>
        (hs.tail.located_last horelse).bind fun orelse horelse => ?_
      have hparts := hbody.append (htest.append horelse)
      exact Expr.outline_of_parts rfl hfits (hparts.perm (.swap _ _ _))
    · exact hfits
  | lambda =>
    dsimp only
    split
    · simp only [List.forall_mem_cons] at h
      refine (hs.tail.located_last h.2.1).bind fun body hbody => ?_
      exact Expr.outline_of_parts rfl hfits hbody
    · simp only [List.forall_mem_cons] at h
      refine (hs.tail.tail.located_last h.2.2.1).bind fun body hbody => ?_
      exact Expr.outline_of_parts rfl hfits hbody
    · exact hfits
  | starred =>
    dsimp only
    split
    · rename_i value
      refine (hs.located_last (h _ List.mem_cons_self)).bind fun v hv => ?_
      exact Expr.outline_of_parts rfl hfits hv
    · exact hfits
  | slice =>
    refine (slicePartsOf_located hs h).bind fun parts hparts => ?_
    exact Expr.outline_of_parts rfl hfits (lookup_in hparts (by decide) (by decide) (by decide))
  | identifier =>
    refine Expr.outline_of_leaf rfl hfits fun id hid => ?_
    cases hid
    exact Cursor.text_location hm.start
  | integer | float =>
    dsimp only
    split
    · exact hleaf rfl
    · exact hfits
  | trueLiteral | falseLiteral | noneLiteral | ellipsis => exact hleaf rfl
  | strings => exact (stringsToExpr_located hmatched).imp fun e he => hleaf he
  | paren =>
    dsimp only
    split
    · exact hleaf rfl
    · exact (itemsOf_located hs h).bind fun items hitems => tupleUnlessSingle_in hfits hitems
  | list =>
    dsimp only
    split
    · exact hleaf rfl
    · exact (itemsOf_located hs h).bind fun items hitems => Expr.outline_of_parts rfl hfits hitems
  | brace =>
    dsimp only
    split
    · exact hleaf rfl
    · split
      · exact (entriesOf_located hs h).bind fun entries hentries =>
          Expr.outline_of_parts rfl hfits hentries
      · exact (itemsOf_located hs h).bind fun items hitems => Expr.outline_of_parts rfl hfits hitems
  | _ => exact hfits

theorem Node.Matched.located {node : Node} (h : node.Matched source) : node.All (Node.Located source) :=
  h.all fun _ _ _ _ => exprOf_located

theorem targetListOf_located (h : node.Matched source) : Meets (·.Placed source)
    (fun e => Apart source node.loc.span.start [e.outline] node.loc.span.stop) (targetListOf limit node) := by
  obtain ⟨r, first, last, children⟩ := node
  refine (itemsOf_located h.strung fun node hn => (h.parts node hn).located).bind fun items hitems => ?_
  exact tupleUnlessSingle_in h.loc_fits hitems

theorem Strung.target (hs : Strung lo (node :: nodes) hi) (h : node.Matched source) :
    Meets (·.Placed source) (fun e => Apart source lo [e.outline] node.loc.span.stop)
      (targetListOf limit node) ∧ Strung node.loc.span.stop nodes hi := by
  obtain ⟨before, after⟩ := hs.of_cons
  exact ⟨(targetListOf_located h).imp fun e he => he.widen before (Nat.le_refl _), after⟩

theorem Strung.target_last (hs : Strung lo [node] hi) (h : node.Matched source) :
    Meets (·.Placed source) (fun e => Apart source lo [e.outline] hi) (targetListOf limit node) := by
  obtain ⟨htarget, hend⟩ := hs.target h
  exact htarget.imp fun e he => he.widen (Nat.le_refl _) hend.le

theorem targetLists_located (hs : Strung lo nodes hi) (h : ∀ node ∈ nodes, node.Matched source) :
    Meets (·.Placed source) (fun exprs => Apart source lo (outlines exprs) hi)
      (nodes.mapM (targetListOf limit)) := by
  induction nodes generalizing lo with
  | nil => exact .nil hs.le
  | cons node rest ih =>
    obtain ⟨hnode, hrest⟩ := List.forall_mem_cons.mp h
    obtain ⟨htarget, after⟩ := hs.target hnode
    rw [List.mapM_cons]
    exact htarget.bind fun e he => (ih after hrest).bind fun exprs hexprs => he.append hexprs

theorem statementOf_located (h : node.Matched source) : Meets (·.Placed source)
    (fun s => Apart source node.loc.span.start [s.outline] node.loc.span.stop) (statementOf limit node) := by
  have hfits := h.loc_fits
  have hstatement {s : Statement} (hloc : s.loc = node.loc)
      (hparts : Apart source node.loc.span.start (outlines s.kind.exprs) node.loc.span.stop) :
      Apart source node.loc.span.start [s.outline] node.loc.span.stop := by
    rw [Statement.outline, hloc]
    exact .node hfits (fun id hid => by cases hid) hparts (Nat.le_refl _) (Nat.le_refl _)
  obtain ⟨r, first, last, children⟩ := node
  have hs := h.strung
  have hparts : ∀ node ∈ children, node.Matched source := h.parts
  unfold statementOf
  dsimp only [Node.rule, Node.children]
  split
  · refine (targetLists_located hs hparts).bind fun exprs hexprs => ?_
    split
    · rename_i value hvalue
      refine hstatement rfl ?_
      change Apart source first.offset (outlines (exprs.dropLast ++ [value])) last.offset
      rw [List.dropLast_append_getLast? value hvalue]
      exact hexprs
    · exact hfits
  · simp only [List.forall_mem_cons] at hparts
    obtain ⟨htarget, hs⟩ := hs.target hparts.1
    refine htarget.bind fun target htarget => (hs.tail.target_last hparts.2.2.1).bind fun v hv => ?_
    exact hstatement rfl (htarget.append hv)
  · simp only [List.forall_mem_cons] at hparts
    obtain ⟨htarget, hs⟩ := hs.located hparts.1.located
    refine htarget.bind fun target htarget => (hs.located_last hparts.2.1.located).bind fun a ha => ?_
    exact hstatement rfl (htarget.append ha)
  · simp only [List.forall_mem_cons] at hparts
    obtain ⟨htarget, hs⟩ := hs.located hparts.1.located
    obtain ⟨hsecond, hs⟩ := hs.located hparts.2.1.located
    refine htarget.bind fun target htarget => hsecond.bind fun a ha =>
      (hs.target_last hparts.2.2.1).bind fun v hv => ?_
    exact hstatement rfl (htarget.append (ha.append hv))
  · refine (hs.target_last (hparts _ List.mem_cons_self)).bind fun v hv => ?_
    exact hstatement rfl hv
  · exact hstatement rfl (.nil hfits.start_le_stop)
  · exact hfits

theorem statements_located (hs : Strung lo nodes hi) (h : ∀ node ∈ nodes, node.Matched source) :
    Meets (·.Placed source) (fun body => Apart source lo (body.map Statement.outline) hi)
      (nodes.mapM (statementOf limit)) := by
  induction nodes generalizing lo with
  | nil => exact .nil hs.le
  | cons node rest ih =>
    obtain ⟨hnode, hrest⟩ := List.forall_mem_cons.mp h
    obtain ⟨before, after⟩ := hs.of_cons
    rw [List.mapM_cons]
    refine (statementOf_located hnode).bind fun s hs => (ih after hrest).bind fun body hbody => ?_
    exact (hs.widen before (Nat.le_refl _)).append hbody

/-- The end of the text has no statement of its own. -/
theorem moduleOf_located (h : node.Matched source) : Meets (·.Placed source)
    (fun m => Apart source node.loc.span.start m.outlines node.loc.span.stop) (moduleOf limit node) := by
  obtain ⟨r, first, last, children⟩ := node
  refine (statements_located (h.strung.filter _) fun child hchild => ?_).bind fun body hbody => hbody
  exact h.parts child (List.mem_of_mem_filter hchild)

end ConfigSandbox
