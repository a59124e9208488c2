import ConfigSandbox.Proofs.Source.Fits
import ConfigSandbox.Tree.Basic

/-!
# Outlines of trees

An outline keeps of a tree where its nodes stand, which of them are expressions, and the names. It is what
a reader sees who is led through the source by locations. Entries of a dict have no location of their own,
so keys and values are parts of the dict.
-/
namespace ConfigSandbox

inductive NodeKind where
  | statement
  | keyword
  /-- An expression, and the name if it is nothing but one. -/
  | expr (name : Option String)
deriving DecidableEq, Repr

inductive Outline where
  | mk (kind : NodeKind) (loc : Location) (parts : List Outline)

namespace Outline

def kind : Outline → NodeKind
  | mk kind _ _ => kind

def loc : Outline → Location
  | mk _ loc _ => loc

end Outline

mutual

def Expr.outline : Expr → Outline
  | .name loc id => .mk (.expr (some id)) loc []
  | .constant loc _ | .comprehension loc _ | .formatStr loc _ => .mk (.expr none) loc []
  | .list loc items | .tuple loc items | .set loc items => .mk (.expr none) loc (outlines items)
  | .dict loc entries => .mk (.expr none) loc (entryOutlines entries)
  | .call loc func args keywords =>
    .mk (.expr none) loc (func.outline :: (outlines args ++ keywordOutlines keywords))
  | .member loc value _ | .starred loc value => .mk (.expr none) loc [value.outline]
  | .subscript loc value index => .mk (.expr none) loc [value.outline, index.outline]
  | .slice loc lower upper step =>
    .mk (.expr none) loc (partOutline lower ++ partOutline upper ++ partOutline step)
  | .binary loc _ left right => .mk (.expr none) loc [left.outline, right.outline]
  | .unary loc _ operand => .mk (.expr none) loc [operand.outline]
  | .conditional loc test body orelse =>
    .mk (.expr none) loc [test.outline, body.outline, orelse.outline]
  | .lambda loc _ body => .mk (.expr none) loc [body.outline]

def outlines : List Expr → List Outline
  | [] => []
  | e :: rest => e.outline :: outlines rest

def entryOutlines : List DictEntry → List Outline
  | [] => []
  | .pair key value :: rest => key.outline :: value.outline :: entryOutlines rest
  | .unpack value :: rest => value.outline :: entryOutlines rest

def keywordOutlines : List Keyword → List Outline
  | [] => []
  | .named loc _ value :: rest | .unpack loc value :: rest =>
    .mk .keyword loc [value.outline] :: keywordOutlines rest

def partOutline : Option Expr → List Outline
  | none => []
  | some e => [e.outline]

end

theorem outlines_eq_map (items : List Expr) : outlines items = items.map Expr.outline := by
  induction items with
  | nil => rfl
  | cons e rest ih => rw [outlines, ih, List.map_cons]

theorem keywordOutlines_append (xs ys : List Keyword) :
    keywordOutlines (xs ++ ys) = keywordOutlines xs ++ keywordOutlines ys := by
  induction xs with
  | nil => rfl
  | cons k rest ih => cases k <;> simp [keywordOutlines, ih]

/-- The expressions of a statement, in source order. -/
def StatementKind.exprs : StatementKind → List Expr
  | .assign targets value => targets ++ [value]
  | .augAssign target _ value => [target, value]
  | .annAssign target annotation value => target :: annotation :: value.toList
  | .expr value => [value]
  | .reserved _ => []

/-- The expressions that are no part of another, in source order. -/
def Module.exprs (m : Module) : List Expr := m.body.flatMap fun s => s.kind.exprs

def Statement.outline (s : Statement) : Outline := .mk .statement s.loc (outlines s.kind.exprs)

def Module.outlines (m : Module) : List Outline := m.body.map Statement.outline

theorem Expr.outline_loc (e : Expr) : e.outline.loc = e.loc := by
  cases e <;> rfl

/-! ### Nodes of an outline -/

mutual

/-- An outline and all below it. -/
def Outline.nodes : Outline → List Outline
  | .mk kind loc parts => .mk kind loc parts :: nodesIn parts

def nodesIn : List Outline → List Outline
  | [] => []
  | o :: rest => o.nodes ++ nodesIn rest

end

theorem Outline.self_mem_nodes (o : Outline) : o ∈ o.nodes := by
  cases o
  exact List.mem_cons_self

theorem mem_nodesIn {o : Outline} {parts : List Outline} :
    o ∈ nodesIn parts ↔ ∃ p ∈ parts, o ∈ p.nodes := by
  induction parts with
  | nil => simp [nodesIn]
  | cons p rest ih => simp [nodesIn, ih]

theorem Outline.nodes_of_part {kind : NodeKind} {loc : Location} {parts : List Outline} {o p : Outline}
    (hp : p ∈ parts) (ho : o ∈ p.nodes) : o ∈ (Outline.mk kind loc parts).nodes :=
  List.mem_cons_of_mem _ (mem_nodesIn.mpr ⟨p, hp, ho⟩)

theorem mem_outlines {e : Expr} {items : List Expr} (h : e ∈ items) : e.outline ∈ outlines items := by
  rw [outlines_eq_map]
  exact List.mem_map_of_mem h

theorem mem_entryOutlines_pair {k v : Expr} {entries : List DictEntry} (h : .pair k v ∈ entries) :
    k.outline ∈ entryOutlines entries ∧ v.outline ∈ entryOutlines entries := by
  induction entries with
  | nil => cases h
  | cons entry rest ih =>
    rcases List.mem_cons.mp h with rfl | hrest
    · simp [entryOutlines]
    · cases entry <;> simp [entryOutlines, ih hrest]

theorem mem_entryOutlines_unpack {v : Expr} {entries : List DictEntry} (h : .unpack v ∈ entries) :
    v.outline ∈ entryOutlines entries := by
  induction entries with
  | nil => cases h
  | cons entry rest ih =>
    rcases List.mem_cons.mp h with rfl | hrest
    · simp [entryOutlines]
    · cases entry <;> simp [entryOutlines, ih hrest]

theorem mem_keywordOutlines {k : Keyword} {keywords : List Keyword} (h : k ∈ keywords) :
    .mk .keyword k.loc [k.value.outline] ∈ keywordOutlines keywords := by
  induction keywords with
  | nil => cases h
  | cons keyword rest ih =>
    rcases List.mem_cons.mp h with rfl | hrest
    · cases k <;> simp [keywordOutlines, Keyword.loc, Keyword.value]
    · cases keyword <;> simp [keywordOutlines, ih hrest]

section Call

variable {func : Expr} {args : List Expr} {keywords : List Keyword}

theorem mem_callOutlines_argument {e : Expr} (h : e ∈ args) :
    e.outline ∈ func.outline :: (outlines args ++ keywordOutlines keywords) :=
  List.mem_cons_of_mem _ (List.mem_append_left _ (mem_outlines h))

theorem mem_callOutlines_keyword {k : Keyword} (h : k ∈ keywords) : .mk .keyword k.loc [k.value.outline] ∈
    func.outline :: (outlines args ++ keywordOutlines keywords) :=
  List.mem_cons_of_mem _ (List.mem_append_right _ (mem_keywordOutlines h))

end Call

/-! ### Exact outlines -/

/-- One of the two ends before the other begins. -/
def Span.Disjoint (a b : Span) : Prop := a.stop ≤ b.start ∨ b.stop ≤ a.start

theorem Span.Disjoint.symm {a b : Span} (h : a.Disjoint b) : b.Disjoint a := Or.symm h

/-- Hereditarily: the place fits the text, a name is spelled there, and the parts lie inside, apart from
each other. -/
inductive Outline.Exact (source : String) : Outline → Prop
  | mk {kind : NodeKind} {loc : Location} {parts : List Outline} (fits : loc.Fits source)
      (spelled : ∀ id, kind = .expr (some id) → loc.span.text source = id)
      (inside : ∀ p ∈ parts, loc.span.start ≤ p.loc.span.start ∧ p.loc.span.stop ≤ loc.span.stop)
      (apart : parts.Pairwise fun p q => p.loc.span.Disjoint q.loc.span)
      (exact : ∀ p ∈ parts, Exact source p) : Exact source (.mk kind loc parts)

variable {source : String} {o : Outline} {xs ys parts : List Outline} {lo lo' mid hi hi' : Nat}

theorem Outline.Exact.fits (h : o.Exact source) : o.loc.Fits source := by
  cases h with
  | mk fits => exact fits

theorem Outline.Exact.of_mem_nodes {p : Outline} (h : o.Exact source) (hp : p ∈ o.nodes) :
    p.Exact source := by
  induction h with
  | mk fits spelled inside apart exact ih =>
    rw [Outline.nodes, List.mem_cons] at hp
    rcases hp with rfl | hp
    · exact .mk fits spelled inside apart exact
    · obtain ⟨q, hq, hp⟩ := mem_nodesIn.mp hp
      exact ih q hq hp

/-- Exact outlines between two offsets, apart from each other. -/
structure Apart (source : String) (lo : Nat) (parts : List Outline) (hi : Nat) : Prop where
  le : lo ≤ hi
  exact : ∀ p ∈ parts, p.Exact source
  inside : ∀ p ∈ parts, lo ≤ p.loc.span.start ∧ p.loc.span.stop ≤ hi
  apart : parts.Pairwise fun p q => p.loc.span.Disjoint q.loc.span

namespace Apart

theorem nil (h : lo ≤ hi) : Apart source lo [] hi :=
  ⟨h, fun _ hp => absurd hp List.not_mem_nil, fun _ hp => absurd hp List.not_mem_nil, .nil⟩

theorem single (h : o.Exact source) (hlo : lo ≤ o.loc.span.start) (hhi : o.loc.span.stop ≤ hi) :
    Apart source lo [o] hi := by
  have hle := h.fits.start_le_stop
  exact ⟨by omega, List.forall_mem_singleton.mpr h, List.forall_mem_singleton.mpr ⟨hlo, hhi⟩,
    List.pairwise_singleton _ _⟩

theorem of_expr {e : Expr} (h : e.outline.Exact source) (hlo : lo ≤ e.loc.span.start)
    (hhi : e.loc.span.stop ≤ hi) : Apart source lo [e.outline] hi := by
  rw [← e.outline_loc] at hlo hhi
  exact single h hlo hhi

theorem expr {e : Expr} (h : Apart source lo [e.outline] hi) : e.outline.Exact source ∧
    e.loc.Fits source ∧ lo ≤ e.loc.span.start ∧ e.loc.span.stop ≤ hi := by
  have hexact := h.exact e.outline List.mem_cons_self
  have hinside := h.inside e.outline List.mem_cons_self
  have hfits := hexact.fits
  rw [e.outline_loc] at hinside hfits
  exact ⟨hexact, hfits, hinside⟩

theorem widen (h : Apart source lo parts hi) (hlo : lo' ≤ lo) (hhi : hi ≤ hi') :
    Apart source lo' parts hi' := by
  have hle := h.le
  refine ⟨by omega, h.exact, fun p hp => ?_, h.apart⟩
  have hin := h.inside p hp
  omega

theorem join (h : Apart source lo xs hi) (h' : Apart source lo ys hi)
    (hxy : ∀ p ∈ xs, ∀ q ∈ ys, p.loc.span.Disjoint q.loc.span) : Apart source lo (xs ++ ys) hi :=
  ⟨h.le, List.forall_mem_append.mpr ⟨h.exact, h'.exact⟩,
    List.forall_mem_append.mpr ⟨h.inside, h'.inside⟩, List.pairwise_append.mpr ⟨h.apart, h'.apart, hxy⟩⟩

theorem append (h : Apart source lo xs mid) (h' : Apart source mid ys hi) :
    Apart source lo (xs ++ ys) hi := by
  refine (h.widen (Nat.le_refl _) h'.le).join (h'.widen h.le (Nat.le_refl _)) fun p hp q hq => Or.inl ?_
  exact Nat.le_trans (h.inside p hp).2 (h'.inside q hq).1

/-- The order in which outlines are listed does not matter. -/
theorem perm (h : Apart source lo xs hi) (hp : xs.Perm ys) : Apart source lo ys hi :=
  ⟨h.le, fun p hm => h.exact p (hp.mem_iff.mpr hm), fun p hm => h.inside p (hp.mem_iff.mpr hm),
    hp.pairwise h.apart fun h => h.symm⟩

/-- What lies apart inside a place that fits is a node there. -/
theorem node {kind : NodeKind} {loc : Location} (hfits : loc.Fits source)
    (hkind : ∀ id, kind = .expr (some id) → loc.span.text source = id)
    (h : Apart source loc.span.start parts loc.span.stop) (hlo : lo ≤ loc.span.start)
    (hhi : loc.span.stop ≤ hi) : Apart source lo [.mk kind loc parts] hi :=
  single (.mk hfits hkind h.inside h.apart h.exact) hlo hhi

end Apart
end ConfigSandbox
