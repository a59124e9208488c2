import ConfigSandbox.Proofs.Number.Binary64
import ConfigSandbox.Proofs.Value.WellFormed

/-!
# Equal numbers

Two numbers are equal if they have the same value. An integer is compared with a double after rounding it,
so there is one more case: an integer that no double stands for equals the double that it is rounded to, and
other integers may be rounded to the same. Wherever this does not happen, equality is of the values.
-/
namespace ConfigSandbox

/-- What a number stands for. -/
inductive Quantity where
  | finite (r : ℚ)
  | infinite (negative : Bool)

namespace Binary64

/-- The quantity, unless the double is no number. -/
def quantity? (x : Binary64) : Option Quantity :=
  if x.isNaN then none
  else if x.isInfinite then some (.infinite x.isNegative)
  else some (.finite x.value)

variable {x y : Binary64} {r : ℚ} {n : Int64}

theorem quantity?_eq_finite : x.quantity? = some (.finite r) ↔ x.isFinite ∧ x.value = r := by
  unfold quantity? isNaN isInfinite isFinite
  split
  · simp_all
    omega
  split
  · simp_all
  · simp_all
    omega

theorem ordinal_eq_iff_of_isInfinite (hx : x.isInfinite) (hy : y.isInfinite) :
    x.ordinal = y.ordinal ↔ x.isNegative = y.isNegative := by
  rw [isInfinite, decide_eq_true_iff] at hx hy
  have hpos : 0 < infinityMagnitude := by decide
  rw [ordinal, ordinal, hx, hy]
  cases x.isNegative <;> cases y.isNegative <;> simp <;> omega

theorem ordinal_ne_of_isInfinite (hx : x.isInfinite) (hy : ¬ y.isInfinite) : x.ordinal ≠ y.ordinal := by
  rw [isInfinite, decide_eq_true_iff, ← natAbs_ordinal] at hx hy
  intro h
  exact hy (h ▸ hx)

theorem equals_iff_quantity : x.equals y ↔ ∃ q, x.quantity? = some q ∧ y.quantity? = some q := by
  rw [equals_iff]
  unfold quantity?
  cases hx : x.isNaN <;> cases hy : y.isNaN <;> simp only [reduceCtorEq, ↓reduceIte, false_and, and_false,
    exists_false, true_and, Bool.false_eq_true]
  by_cases hx : x.isInfinite <;> by_cases hy : y.isInfinite
  · simp [hx, hy, ordinal_eq_iff_of_isInfinite hx hy, eq_comm]
  · simp [hx, hy, ordinal_ne_of_isInfinite hx hy]
  · simp [hx, hy, (ordinal_ne_of_isInfinite hy hx).symm]
  · simp [hx, hy, ← value_eq_iff, eq_comm]

theorem natAbs_toInt_le (n : Int64) : n.toInt.natAbs ≤ 2 ^ 63 := by
  have hlow := n.le_toInt
  have hhigh := n.toInt_lt
  omega

/-- The double that an integer is rounded to has its value, if any double has. -/
theorem isNearest_iff : x.IsNearest r ↔ x.quantity? = some (.finite r) ∨ x.IsNearest r ∧ ¬ IsExact r := by
  rw [quantity?_eq_finite]
  by_cases hexact : IsExact r
  · constructor
    · intro h
      exact Or.inl ⟨h.1, (hexact.isNearest_iff h.1).mp h⟩
    · rintro (⟨hx, hvalue⟩ | h)
      · exact (hexact.isNearest_iff hx).mpr hvalue
      · exact h.1
  · constructor
    · intro h
      exact Or.inr ⟨h, hexact⟩
    · rintro (⟨hx, hvalue⟩ | h)
      · exact absurd ⟨x, hx, hvalue⟩ hexact
      · exact h.1

end Binary64

namespace Value

def isNumber (a : Value) : Bool := a.integer?.isSome || a.float?.isSome

def quantity? : Value → Option Quantity
  | float x => x.quantity?
  | other => other.integer?.map fun n => .finite n.toInt

def SameQuantity (a b : Value) : Prop := ∃ q, a.quantity? = some q ∧ b.quantity? = some q

/-- The first is an integer that no double stands for, the other the double that it is rounded to. -/
def IsRoundedTo (a b : Value) : Prop :=
  ∃ n x, a.integer? = some n ∧ b = float x ∧ x.IsNearest n.toInt ∧ ¬ Binary64.IsExact n.toInt

variable {a b c : Value} {x y : Binary64} {m n : Int64}

theorem quantity?_of_integer (h : a.integer? = some n) : a.quantity? = some (.finite n.toInt) := by
  cases a <;> cases h <;> rfl

theorem isNumber_iff : a.isNumber ↔ (∃ n, a.integer? = some n) ∨ ∃ x, a = float x := by
  cases a <;> simp [isNumber, integer?, float?]

theorem isHashable_of_isNumber (h : a.isNumber) : a.isHashable := by
  cases a <;> first | rfl | cases h

/-! ### Which numbers are equal -/

theorem integer_equals_iff (ha : a.integer? = some m) (hb : b.integer? = some n) : a.equals b ↔ m = n := by
  cases a <;> cases ha <;> cases b <;> cases hb <;> simp [equals, scalarEquals, integer?]

theorem integer_equals_float_iff (ha : a.integer? = some n) : a.equals (float x) ↔ x.IsNearest n.toInt := by
  rw [← Binary64.ofInt_equals_iff (Binary64.natAbs_toInt_le n)]
  cases a <;> cases ha <;> simp [equals, scalarEquals, integer?]

theorem float_equals_float_iff : (float x).equals (float y) ↔ SameQuantity (float x) (float y) := by
  have hscalar : (float x).equals (float y) = x.equals y := by simp [equals, scalarEquals]
  rw [hscalar]
  exact Binary64.equals_iff_quantity

theorem isNumber_of_equals (ha : a.isNumber) (h : a.equals b) : b.isNumber := by
  cases a <;> cases ha <;> cases b <;> first | rfl | simp [equals, scalarEquals, integer?] at h

theorem not_float_isRoundedTo : ¬ (float x).IsRoundedTo b := by
  rintro ⟨n, y, hn, -⟩
  cases hn

theorem not_isRoundedTo_of_integer (hb : b.integer? = some n) : ¬ a.IsRoundedTo b := by
  rintro ⟨m, y, -, rfl, -⟩
  cases hb

theorem SameQuantity.symm (h : SameQuantity a b) : SameQuantity b a := by
  obtain ⟨q, ha, hb⟩ := h
  exact ⟨q, hb, ha⟩

theorem SameQuantity.trans (h : SameQuantity a b) (h' : SameQuantity b c) : SameQuantity a c := by
  obtain ⟨q, ha, hb⟩ := h
  obtain ⟨q', hb', hc⟩ := h'
  obtain rfl : q = q' := Option.some.inj (hb.symm.trans hb')
  exact ⟨q, ha, hc⟩

theorem sameQuantity_integers_iff (ha : a.integer? = some m) (hb : b.integer? = some n) : SameQuantity a b ↔ m = n := by
  rw [SameQuantity, quantity?_of_integer ha, quantity?_of_integer hb]
  constructor
  · rintro ⟨q, h, h'⟩
    have heq := h.trans h'.symm
    simpa only [Option.some.injEq, Quantity.finite.injEq, Int.cast_inj, Int64.toInt_inj] using heq
  · rintro rfl
    exact ⟨_, rfl, rfl⟩

theorem equals_float_iff (ha : a.integer? = some n) :
    a.equals (float x) ↔ SameQuantity a (float x) ∨ a.IsRoundedTo (float x) := by
  have hsame : SameQuantity a (float x) ↔ x.quantity? = some (.finite n.toInt) := by
    rw [SameQuantity, quantity?_of_integer ha]
    exact ⟨fun ⟨_, h, h'⟩ => h ▸ h', fun h => ⟨_, rfl, h⟩⟩
  have hrounded : a.IsRoundedTo (float x) ↔ x.IsNearest n.toInt ∧ ¬ Binary64.IsExact n.toInt := by
    constructor
    · rintro ⟨m, y, hm, heq, h⟩
      cases heq
      cases ha.symm.trans hm
      exact h
    · intro h
      exact ⟨n, x, ha, rfl, h⟩
  rw [integer_equals_float_iff ha, Binary64.isNearest_iff, hsame, hrounded]

/-- Numbers are equal if they have the same value, or if one is an integer that is rounded to the other. -/
theorem equals_iff (ha : a.isNumber) (hb : b.isNumber) :
    a.equals b ↔ SameQuantity a b ∨ a.IsRoundedTo b ∨ b.IsRoundedTo a := by
  rcases isNumber_iff.mp ha with ⟨m, hm⟩ | ⟨x, rfl⟩ <;> rcases isNumber_iff.mp hb with ⟨n, hn⟩ | ⟨y, rfl⟩
  · simp [integer_equals_iff hm hn, sameQuantity_integers_iff hm hn, not_isRoundedTo_of_integer hm,
      not_isRoundedTo_of_integer hn]
  · simp [equals_float_iff hm, not_float_isRoundedTo]
  · rw [equals_comm _ _ (isHashable_of_isNumber ha), equals_float_iff hn]
    simp only [not_float_isRoundedTo, false_or]
    exact or_congr_left ⟨SameQuantity.symm, SameQuantity.symm⟩
  · simp [float_equals_float_iff, not_float_isRoundedTo]

/-! ### Chains of equal numbers -/

/-- An integer of the same value is rounded alike, and no double has that value. -/
theorem IsRoundedTo.of_sameQuantity (ha : a.isNumber) (h : SameQuantity a b) (hbc : b.IsRoundedTo c) :
    a.IsRoundedTo c := by
  obtain ⟨n, x, hb, rfl, hnearest, hexact⟩ := hbc
  rcases isNumber_iff.mp ha with ⟨m, hm⟩ | ⟨y, rfl⟩
  · obtain rfl := (sameQuantity_integers_iff hm hb).mp h
    exact ⟨m, x, hm, rfl, hnearest, hexact⟩
  · obtain ⟨q, hy, hq⟩ := h
    cases (quantity?_of_integer hb).symm.trans hq
    exact absurd ⟨y, Binary64.quantity?_eq_finite.mp hy⟩ hexact

/-- Both doubles that an integer is rounded to have one value. -/
theorem IsRoundedTo.sameQuantity (h : b.IsRoundedTo a) (h' : b.IsRoundedTo c) : SameQuantity a c := by
  obtain ⟨n, x, hn, rfl, hx, -⟩ := h
  obtain ⟨m, y, hm, rfl, hy, -⟩ := h'
  cases hn.symm.trans hm
  have hvalue : x.value = y.value := Binary64.value_eq_iff.mpr (hx.ordinal_eq hy)
  exact ⟨_, Binary64.quantity?_eq_finite.mpr ⟨hx.1, rfl⟩, Binary64.quantity?_eq_finite.mpr ⟨hy.1, hvalue.symm⟩⟩

/-- A chain breaks only at a double that an integer was rounded to. -/
theorem equals_trans (ha : a.isNumber) (hab : a.equals b) (hbc : b.equals c) :
    a.equals c ∨ a.IsRoundedTo b ∨ c.IsRoundedTo b := by
  have hb := isNumber_of_equals ha hab
  have hc := isNumber_of_equals hb hbc
  rw [equals_iff ha hc]
  rcases (equals_iff ha hb).mp hab with hab | hab | hba
  · rcases (equals_iff hb hc).mp hbc with hbc | hbc | hcb
    · exact Or.inl (Or.inl (hab.trans hbc))
    · exact Or.inl (Or.inr (Or.inl (hbc.of_sameQuantity ha hab)))
    · exact Or.inr (Or.inr hcb)
  · exact Or.inr (Or.inl hab)
  · rcases (equals_iff hb hc).mp hbc with hbc | hbc | hcb
    · exact Or.inl (Or.inr (Or.inr (hba.of_sameQuantity hc hbc.symm)))
    · exact Or.inl (Or.inl (hba.sameQuantity hbc))
    · exact Or.inr (Or.inr hcb)

/-! ### Sets of numbers -/

theorem subset_foldl_addItem {kept items : List Value} : kept ⊆ items.foldl addItem kept := by
  induction items generalizing kept with
  | nil => exact List.Subset.refl kept
  | cons item rest ih =>
    refine List.Subset.trans ?_ ih
    unfold addItem
    split
    · exact List.Subset.refl kept
    · exact List.subset_append_left kept [item]

/-- What is not kept equals something kept. -/
theorem mem_or_exists_equals (kept : List Value) {items : List Value} (ha : a ∈ items) :
    a ∈ items.foldl addItem kept ∨ ∃ b ∈ items.foldl addItem kept, b.equals a := by
  induction items generalizing kept with
  | nil => cases ha
  | cons item rest ih =>
    rcases List.mem_cons.mp ha with rfl | ha
    · rw [List.foldl_cons, addItem]
      split
      · rename_i hoccurs
        rw [occursIn_eq_any, List.any_eq_true] at hoccurs
        obtain ⟨b, hb, hequals⟩ := hoccurs
        exact Or.inr ⟨b, subset_foldl_addItem hb, hequals⟩
      · exact Or.inl (subset_foldl_addItem (List.mem_append_right kept List.mem_cons_self))
    · exact ih _ ha

theorem IsRoundedTo.lt_natAbs (hn : a.integer? = some n) (h : a.IsRoundedTo b) : 2 ^ 53 < n.toInt.natAbs := by
  obtain ⟨m, x, hm, -, -, hexact⟩ := h
  cases hn.symm.trans hm
  exact not_le.mp fun hle => hexact (Binary64.isExact_intCast hle)

/-- Integers and doubles are compared by value, equality of numbers goes through, and a set has the value of
each number that it was given; unless an integer of more than fifty-three bits that no double stands for was
rounded to the nearest one. -/
theorem numbers_equal_or_rounded (n : Int64) (x : Binary64) (a b c : Value) (items : List Value) :
    (x.isFinite → ((int n).equals (float x) ↔ x.value = n.toInt ∨ (int n).IsRoundedTo (float x))) ∧
    (a.isNumber → a.equals b → b.equals c → a.equals c ∨ a.IsRoundedTo b ∨ c.IsRoundedTo b) ∧
    (a.isNumber → a ∈ items → ∃ kept, setOf items = .set kept ∧
      (a ∈ kept ∨ ∃ b ∈ kept, SameQuantity b a ∨ b.IsRoundedTo a ∨ a.IsRoundedTo b)) ∧
    (a.integer? = some n → a.IsRoundedTo b → 2 ^ 53 < n.toInt.natAbs) := by
  refine ⟨fun hx => ?_, equals_trans, fun hnumber ha => ⟨_, rfl, ?_⟩, IsRoundedTo.lt_natAbs⟩
  · rw [equals_float_iff rfl]
    refine or_congr_left ⟨?_, fun h => ⟨_, rfl, Binary64.quantity?_eq_finite.mpr ⟨hx, h⟩⟩⟩
    rintro ⟨q, hn, hq⟩
    cases hn
    exact (Binary64.quantity?_eq_finite.mp hq).2
  · rcases mem_or_exists_equals [] ha with hkept | ⟨b, hb, hequals⟩
    · exact Or.inl hkept
    · have hcomm : a.equals b = b.equals a := equals_comm a b (isHashable_of_isNumber hnumber)
      have hb' : b.isNumber := isNumber_of_equals hnumber (hcomm.trans hequals)
      exact Or.inr ⟨b, hb, (equals_iff hb' hnumber).mp hequals⟩

/-- A truth value, a double and an integer in a chain, and a set to which the same number is given twice. -/
theorem numbers_equal_or_rounded_small :
    let one : Binary64 := ⟨0x3FF0000000000000⟩
    let three : Binary64 := ⟨0x4008000000000000⟩
    three.isFinite ∧ three.value = 3 ∧ (bool true).equals (float one) ∧ (bool true).equals (int 1) ∧
      setOf [int 3, float three] = .set [int 3] ∧ SameQuantity (int 3) (float three) := by
  intro one three
  have hnot (a b : Value) (n : Int64) (hn : a.integer? = some n) (hle : n.toInt.natAbs ≤ 2 ^ 53) :
      ¬ a.IsRoundedTo b :=
    fun h => absurd ((numbers_equal_or_rounded n one a b b []).2.2.2 hn h) (not_lt.mpr hle)
  have hfinite : three.isFinite := by decide +kernel
  have hthree : (int 3).equals (float three) = true := by decide +kernel
  have hone : (bool true).equals (float one) = true := by decide +kernel
  have hkept : setOf [int 3, float three] = .set [int 3] := by simp [setOf, addItem, occursIn, hthree]
  obtain ⟨hvalue, -, hset, -⟩ :=
    numbers_equal_or_rounded 3 three (float three) (int 3) (int 3) [int 3, float three]
  have hsame : three.value = (3 : Int64).toInt :=
    ((hvalue hfinite).mp hthree).resolve_right (hnot _ _ 3 rfl (by decide))
  have hchain := (numbers_equal_or_rounded 1 one (bool true) (float one) (int 1) []).2.1 rfl hone (by decide +kernel)
  obtain ⟨kept, hkept', hfound⟩ := hset rfl (by simp)
  obtain rfl : kept = [int 3] := set.inj (hkept'.symm.trans hkept)
  refine ⟨hfinite, hsame.trans rfl, hone, ?_, hkept, ?_⟩
  · exact hchain.resolve_right fun h => h.elim (hnot _ _ 1 rfl (by decide)) (hnot _ _ 1 rfl (by decide))
  · rcases hfound with hmem | ⟨b, hb, h⟩
    · simp at hmem
    · obtain rfl := List.mem_singleton.mp hb
      exact h.resolve_right fun h => h.elim (hnot _ _ 3 rfl (by decide)) not_float_isRoundedTo

/-- Two integers equal the same double, and a set loses one of the values. -/
theorem rounded_integer_equals :
    let x : Binary64 := ⟨0x4340000000000000⟩
    x.isFinite ∧ x.value = 9007199254740992 ∧ (int 9007199254740993).equals (float x) ∧
      (float x).equals (int 9007199254740992) ∧ ¬ (int 9007199254740993).equals (int 9007199254740992) ∧
      setOf [int 9007199254740993, float x] = .set [int 9007199254740993] := by
  intro x
  have hequals : (int 9007199254740993).equals (float x) = true := by decide +kernel
  refine ⟨by decide +kernel, ?_, hequals, by decide +kernel, by decide +kernel, ?_⟩
  · have hnegative : x.isNegative = false := by decide
    have hsignificand : x.significand = 2 ^ 52 := by decide
    have hexponent : x.exponent = 1 := by decide
    rw [Binary64.value, hnegative, hsignificand, hexponent]
    norm_num
  · simp [setOf, addItem, occursIn, hequals]

end Value
end ConfigSandbox
