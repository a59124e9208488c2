import ConfigSandbox.Proofs.Tree.Levels

/-!
# How tall trees are

The height of a tree is bounded by the limit where all that nests is counted, and only there: a row of
operators that associate to the left, trailers one after another, conditionals and lambdas make trees of any
height under any limit.
-/
namespace ConfigSandbox

def NodeKind.weight : NodeKind → Nat
  | .expr _ => 1
  | .statement | .keyword => 0

mutual

/-- The number of expressions on the longest way down. -/
def Outline.height : Outline → Nat
  | .mk kind _ parts => kind.weight + heightIn parts

def heightIn : List Outline → Nat
  | [] => 0
  | o :: rest => max o.height (heightIn rest)

end

theorem heightIn_append (xs ys : List Outline) : heightIn (xs ++ ys) = max (heightIn xs) (heightIn ys) := by
  induction xs with
  | nil => simp [heightIn]
  | cons o rest ih => rw [List.cons_append, heightIn, ih, heightIn, Nat.max_assoc]

/-! ### Trees that are counted in full -/

/-- An expression without parts. -/
def Expr.isLeaf : Expr → Bool
  | .name .. | .constant .. | .comprehension .. | .formatStr .. => true
  | _ => false

mutual

/-- Whether everything that lies in something else is counted: it stands in brackets of its own or, where
chains are admitted, behind an operator that nests. -/
def Expr.isCounted (chains : Bool) : Expr → Bool
  | .name .. | .constant .. | .comprehension .. | .formatStr .. => true
  | .list _ items | .tuple _ items | .set _ items => areCounted chains items
  | .dict _ entries => entriesCounted chains entries
  | .call _ func args keywords =>
    func.isLeaf && !(args.isEmpty && keywords.isEmpty) && areCounted chains args &&
      keywordsCounted chains keywords
  | .subscript _ value index => value.isLeaf && index.tupleLevel == 0 && index.isCounted chains
  | .binary _ op left right =>
    chains && op.isRightAssociative && left.isCounted chains && right.isCounted chains
  | .unary _ _ operand => chains && operand.isCounted chains
  | .member .. | .slice .. | .conditional .. | .lambda .. | .starred .. => false

def areCounted (chains : Bool) : List Expr → Bool
  | [] => true
  | e :: rest => e.isCounted chains && areCounted chains rest

def entriesCounted (chains : Bool) : List DictEntry → Bool
  | [] => true
  | .pair key value :: rest =>
    key.isCounted chains && value.isCounted chains && entriesCounted chains rest
  | .unpack value :: rest => value.isCounted chains && entriesCounted chains rest

def keywordsCounted (chains : Bool) : List Keyword → Bool
  | [] => true
  | .named _ _ value :: rest | .unpack _ value :: rest =>
    value.isCounted chains && keywordsCounted chains rest

end

variable {chains : Bool} {e : Expr}

theorem Expr.height_pos (e : Expr) : 1 ≤ e.outline.height := by
  cases e <;> exact Nat.le_add_right 1 _

theorem Expr.height_of_isLeaf (h : e.isLeaf) : e.outline.height = 1 := by
  cases e with
  | name | constant | comprehension | formatStr => rfl
  | _ => cases h

theorem callOutlines_height_pos {args : List Expr} {keywords : List Keyword}
    (h : !(args.isEmpty && keywords.isEmpty)) :
    1 ≤ max (heightIn (outlines args)) (heightIn (keywordOutlines keywords)) := by
  cases args with
  | cons e rest =>
    have hpos := e.height_pos
    rw [outlines, heightIn]
    omega
  | nil =>
    cases keywords with
    | nil => cases h
    | cons k rest =>
      cases k with
      | named loc name value | unpack loc value =>
        have hpos := value.height_pos
        simp only [keywordOutlines, heightIn, Outline.height]
        omega

mutual

theorem Expr.height_le_levels : ∀ e : Expr, e.isCounted chains → e.outline.height ≤ e.levels chains.toNat
  | .name .., _ | .constant .., _ | .comprehension .., _ | .formatStr .., _ => Nat.le_refl 1
  | .list _ items, h | .tuple _ items, h | .set _ items, h =>
    Nat.add_le_add_left (height_le_levelsIn items h) 1
  | .dict _ entries, h => Nat.add_le_add_left (height_le_entryLevels entries h) 1
  | .call _ func args keywords, h => by
    simp only [Expr.isCounted, Bool.and_eq_true] at h
    obtain ⟨⟨⟨hfunc, hsome⟩, hargs⟩, hkeywords⟩ := h
    have hleaf := Expr.height_of_isLeaf hfunc
    have hpos := callOutlines_height_pos hsome
    have hargs := height_le_levelsIn args hargs
    have hkeywords := height_le_keywordLevels keywords hkeywords
    simp only [Expr.outline, Outline.height, heightIn, heightIn_append, NodeKind.weight, Expr.levels]
    omega
  | .subscript _ value index, h => by
    simp only [Expr.isCounted, Bool.and_eq_true, beq_iff_eq] at h
    obtain ⟨⟨hvalue, htuple⟩, hindex⟩ := h
    have hleaf := Expr.height_of_isLeaf hvalue
    have hpos := index.height_pos
    have hindex := Expr.height_le_levels index hindex
    simp only [Expr.outline, Outline.height, heightIn, NodeKind.weight, Expr.levels]
    omega
  | .binary _ op left right, h => by
    simp only [Expr.isCounted, Bool.and_eq_true] at h
    obtain ⟨⟨⟨hchains, hop⟩, hleft⟩, hright⟩ := h
    have hleft := Expr.height_le_levels left hleft
    have hright := Expr.height_le_levels right hright
    simp only [Expr.outline, Outline.height, heightIn, NodeKind.weight, Expr.levels, BinaryOp.nesting, hop,
      hchains, Bool.toNat_true, if_true] at *
    omega
  | .unary _ _ operand, h => by
    simp only [Expr.isCounted, Bool.and_eq_true] at h
    obtain ⟨hchains, hoperand⟩ := h
    have hoperand := Expr.height_le_levels operand hoperand
    simp only [Expr.outline, Outline.height, heightIn, NodeKind.weight, Expr.levels, hchains,
      Bool.toNat_true] at *
    omega

theorem height_le_levelsIn : ∀ items : List Expr, areCounted chains items →
    heightIn (outlines items) ≤ levelsIn chains.toNat items
  | [], _ => Nat.le_refl 0
  | e :: rest, h => by
    rw [areCounted, Bool.and_eq_true] at h
    have he := Expr.height_le_levels e h.1
    have hrest := height_le_levelsIn rest h.2
    simp only [outlines, heightIn, levelsIn]
    omega

theorem height_le_entryLevels : ∀ entries : List DictEntry, entriesCounted chains entries →
    heightIn (entryOutlines entries) ≤ entryLevels chains.toNat entries
  | [], _ => Nat.le_refl 0
  | .pair key value :: rest, h => by
    rw [entriesCounted, Bool.and_eq_true, Bool.and_eq_true] at h
    have hkey := Expr.height_le_levels key h.1.1
    have hvalue := Expr.height_le_levels value h.1.2
    have hrest := height_le_entryLevels rest h.2
    simp only [entryOutlines, heightIn, entryLevels]
    omega
  | .unpack value :: rest, h => by
    rw [entriesCounted, Bool.and_eq_true] at h
    have hvalue := Expr.height_le_levels value h.1
    have hrest := height_le_entryLevels rest h.2
    simp only [entryOutlines, heightIn, entryLevels]
    omega

theorem height_le_keywordLevels : ∀ keywords : List Keyword, keywordsCounted chains keywords →
    heightIn (keywordOutlines keywords) ≤ keywordLevels chains.toNat keywords
  | [], _ => Nat.le_refl 0
  | .named _ _ value :: rest, h | .unpack _ value :: rest, h => by
    rw [keywordsCounted, Bool.and_eq_true] at h
    have hvalue := Expr.height_le_levels value h.1
    have hrest := height_le_keywordLevels rest h.2
    simp only [keywordOutlines, heightIn, Outline.height, NodeKind.weight, keywordLevels]
    omega

end

/-! ### Under the limit -/

namespace Module

/-- The limit bounds the brackets around each leaf. With the operators that nest it is one less for each
bracket further in, since these are counted in their own row only. Where nothing else nests, this bounds the
height. -/
theorem height_le_limit {limit : Nat} {source : String} {m : Module}
    (h : Module.parse limit source = .ok m) {e : Expr} (he : e ∈ m.exprs) :
    e.bareLevels 0 ≤ limit ∧ e.bareLevels 1 ≤ limit * (limit + 1) / 2 ∧
      (e.tupleLevel = 0 → (e.isCounted false → e.outline.height ≤ limit) ∧
        (e.isCounted true → e.outline.height ≤ limit * (limit + 1) / 2)) := by
  have hbrackets : e.bareLevels 0 ≤ limit := parse_levels budget_id h he
  have hchains : e.bareLevels 1 ≤ limit * (limit + 1) / 2 :=
    parse_levels (B := fun n => n * (n + 1) / 2) budget_triangle h he
  refine ⟨hbrackets, hchains, fun htuple => ?_⟩
  rw [Expr.bareLevels, htuple] at hbrackets hchains
  exact ⟨fun hc => Nat.le_trans (e.height_le_levels hc) hbrackets,
    fun hc => Nat.le_trans (e.height_le_levels hc) hchains⟩

/-- Two prefixes, one in a list behind them and none in the list in that: as tall as three levels allow. -/
theorem height_le_limit_prefixes :
    let source := "x = --[-[y]]\nz = f([y])"
    ∃ m tall low, Module.parse 3 source = .ok m ∧ tall ∈ m.exprs ∧ tall.tupleLevel = 0 ∧
      tall.isCounted true ∧ tall.outline.height = 6 ∧ tall.outline.height ≤ 3 * (3 + 1) / 2 ∧
      low ∈ m.exprs ∧ low.tupleLevel = 0 ∧ low.isCounted false ∧ low.outline.height = 3 ∧
      low.outline.height ≤ 3 := by
  intro source
  have htest : ((Module.parse 3 source).map fun m => m.exprs.map fun e =>
      (e.tupleLevel, e.isCounted false, e.isCounted true, e.outline.height)) =
      .ok [(0, true, true, 1), (0, false, true, 6), (0, true, true, 1), (0, true, true, 3)] := by
    decide +kernel
  obtain ⟨m, hm, hexprs⟩ := exists_of_map_eq_ok htest
  have hmem {x : Nat × Bool × Bool × Nat} (hx : x ∈ [(0, true, true, 1), (0, false, true, 6),
      (0, true, true, 1), (0, true, true, 3)]) := List.mem_map.mp (hexprs.symm ▸ hx)
  obtain ⟨tall, htall, hfacts⟩ := hmem (x := (0, false, true, 6)) (by decide)
  obtain ⟨low, hlow, hfacts'⟩ := hmem (x := (0, true, true, 3)) (by decide)
  simp only [Prod.mk.injEq] at hfacts hfacts'
  obtain ⟨htuple, -, hcounted, hheight⟩ := hfacts
  obtain ⟨htuple', hcounted', -, hheight'⟩ := hfacts'
  exact ⟨m, tall, low, hm, htall, htuple, hcounted, hheight,
    ((height_le_limit hm htall).2.2 htuple).2 hcounted, hlow, htuple', hcounted', hheight',
    ((height_le_limit hm hlow).2.2 htuple').1 hcounted'⟩

/-- Prefixes before a bracket are forgotten inside of it. Rows that associate to the left, trailers,
conditionals and lambdas are not counted at all. -/
theorem limit_lt_height :
    let heights (limit : Nat) (source : String) := (Module.parse limit source).map fun m =>
      m.exprs.map fun e => e.outline.height
    heights 4 "x = --(--y)" = .ok [1, 5] ∧
      heights 1 "x = a + b + c" = .ok [1, 3] ∧ heights 1 "x = a.b.c" = .ok [1, 3] ∧
      heights 2 "x = f(a)(b)" = .ok [1, 3] ∧ heights 1 "x = a if b else c if d else e" = .ok [1, 3] ∧
      heights 1 "x = lambda: lambda: a" = .ok [1, 3] := by
  decide +kernel

end Module
end ConfigSandbox
