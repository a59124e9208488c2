import ConfigSandbox.Number.Binary64
import Mathlib.Algebra.Order.Field.Power
import Mathlib.Algebra.Order.Field.Rat
import Mathlib.Order.Monotone.Basic
import Mathlib.Tactic.FieldSimp
import Mathlib.Tactic.Linarith
import Mathlib.Tactic.NormNum
import Mathlib.Tactic.Positivity
import Mathlib.Tactic.Ring

/-!
# Rounding to doubles

A finite double stands for its significand times a power of two. The next magnitude is one more in the last
place, so magnitudes are in the order of what they stand for; with the sign they count the finite doubles
through, with one zero for the two. The magnitude that `nearest` computes is closest to the fraction: the
quotient is rounded in units of the last place, and finer magnitudes lie below a fraction whose last place is
coarser. No other finite double is closest with an even significand, since neighbours differ in parity.
-/
namespace ConfigSandbox.Binary64

/-- The rational that a finite number stands for. -/
def value (x : Binary64) : ℚ := (if x.isNegative then -1 else 1) * (x.significand * 2 ^ x.exponent)

/-- No finite number is closer to the rational, and if another one is as close, then this one is even. -/
def IsNearest (x : Binary64) (r : ℚ) : Prop :=
  x.isFinite ∧ ∀ y : Binary64, y.isFinite → |x.value - r| ≤ |y.value - r| ∧
    (|x.value - r| = |y.value - r| → y.value ≠ x.value → 2 ∣ x.significand)

variable {x y : Binary64} {r t : ℚ} {e f m s d num den : Nat}

/-! ### Magnitudes in order -/

/-- What a magnitude stands for. -/
def size (m : Nat) : ℚ :=
  (if m < leadingBit then m else m % leadingBit + leadingBit : Nat) *
    2 ^ ((max (m / leadingBit) 1 : Nat) - 1075 : Int)

theorem size_zero : size 0 = 0 := by simp [size, leadingBit]

/-- Counted in units of the last place. A significand that is just out of range stands for the first of the
next places. -/
theorem size_place (hs : s ≤ 2 * leadingBit) (h : e = 0 ∨ leadingBit ≤ s) :
    size (e * leadingBit + s) = s * 2 ^ ((e : Int) - 1074) := by
  rcases Nat.lt_or_ge s leadingBit with hlow | hlow
  · obtain rfl : e = 0 := by omega
    have hdiv : (0 * leadingBit + s) / leadingBit = 0 := by
      unfold leadingBit at *
      omega
    rw [size, hdiv, Nat.zero_mul, Nat.zero_add, if_pos hlow]
    norm_num
  rcases Nat.lt_or_ge s (2 * leadingBit) with hhigh | hhigh
  · have hdiv : (e * leadingBit + s) / leadingBit = e + 1 := by
      unfold leadingBit at *
      omega
    have hmod : (e * leadingBit + s) % leadingBit + leadingBit = s := by
      unfold leadingBit at *
      omega
    have hplace : ((max (e + 1) 1 : Nat) - 1075 : Int) = e - 1074 := by omega
    have hnot : ¬ e * leadingBit + s < leadingBit := by omega
    rw [size, hdiv, hmod, hplace, if_neg hnot]
  · obtain rfl : s = 2 * leadingBit := le_antisymm hs hhigh
    have hdiv : (e * leadingBit + 2 * leadingBit) / leadingBit = e + 2 := by
      unfold leadingBit
      omega
    have hmod : (e * leadingBit + 2 * leadingBit) % leadingBit + leadingBit = leadingBit := by
      unfold leadingBit
      omega
    have hplace : ((max (e + 2) 1 : Nat) - 1075 : Int) = e - 1074 + 1 := by omega
    have hnot : ¬ e * leadingBit + 2 * leadingBit < leadingBit := by omega
    rw [size, hdiv, hmod, hplace, if_neg hnot, zpow_add_one₀ two_ne_zero]
    push_cast
    ring

theorem exists_place (m : Nat) :
    ∃ e s, m = e * leadingBit + s ∧ s < 2 * leadingBit ∧ (e = 0 ∨ leadingBit ≤ s) := by
  rcases Nat.lt_or_ge m leadingBit with h | h
  · exact ⟨0, m, by omega, by omega, Or.inl rfl⟩
  · refine ⟨m / leadingBit - 1, m % leadingBit + leadingBit, ?_, ?_, Or.inr (Nat.le_add_left _ _)⟩ <;>
    · unfold leadingBit at *
      omega

theorem size_lt_succ (m : Nat) : size m < size (m + 1) := by
  obtain ⟨e, s, rfl, hs, h⟩ := exists_place m
  rw [Nat.add_assoc, size_place hs.le h, size_place hs (h.imp_right fun h => Nat.le_succ_of_le h)]
  push_cast
  have hunit : (0 : ℚ) < 2 ^ ((e : Int) - 1074) := by positivity
  linarith

theorem size_strictMono : StrictMono size := strictMono_nat_of_lt_succ size_lt_succ

/-! ### Numbers in order -/

/-- The place of a number among the finite ones, counted from zero. -/
def ordinal (x : Binary64) : Int := if x.isNegative then -x.magnitude else x.magnitude

/-- What the number at a place stands for. -/
def valueAt (k : Int) : ℚ := k.sign * size k.natAbs

theorem valueAt_neg (k : Int) : valueAt (-k) = -valueAt k := by simp [valueAt]

theorem valueAt_natCast (m : Nat) : valueAt m = size m := by
  cases m with
  | zero => simp [valueAt, size_zero]
  | succ m =>
    rw [valueAt, Int.natAbs_natCast, Int.sign_natCast_of_ne_zero (Nat.succ_ne_zero m), Int.cast_one, one_mul]

theorem valueAt_lt_succ (k : Int) : valueAt k < valueAt (k + 1) := by
  cases k with
  | ofNat m => exact_mod_cast (valueAt_natCast m).trans_lt ((size_lt_succ m).trans_eq (valueAt_natCast _).symm)
  | negSucc m =>
    have hnext : Int.negSucc m + 1 = -(m : Int) := by omega
    have hhere : Int.negSucc m = -((m + 1 : Nat) : Int) := rfl
    rw [hnext, hhere, valueAt_neg, valueAt_neg, valueAt_natCast, valueAt_natCast, neg_lt_neg_iff]
    exact size_lt_succ m

theorem valueAt_lt {j k : Int} (h : j < k) : valueAt j < valueAt k :=
  strictMono_int_of_lt_succ valueAt_lt_succ h

theorem valueAt_inj {j k : Int} : valueAt j = valueAt k ↔ j = k :=
  (strictMono_int_of_lt_succ valueAt_lt_succ).injective.eq_iff

theorem value_eq_valueAt (x : Binary64) : x.value = valueAt x.ordinal := by
  have hsize : (x.significand * 2 ^ x.exponent : ℚ) = size x.magnitude := rfl
  rw [value, ordinal, hsize]
  split
  · rw [valueAt_neg, valueAt_natCast, neg_one_mul]
  · rw [valueAt_natCast, one_mul]

theorem value_eq_iff : x.value = y.value ↔ x.ordinal = y.ordinal := by
  rw [value_eq_valueAt, value_eq_valueAt, valueAt_inj]

theorem value_lt (h : x.ordinal < y.ordinal) : x.value < y.value := by
  rw [value_eq_valueAt, value_eq_valueAt]
  exact valueAt_lt h

theorem natAbs_ordinal (x : Binary64) : x.ordinal.natAbs = x.magnitude := by
  unfold ordinal
  split <;> simp

theorem isFinite_iff : x.isFinite ↔ x.ordinal.natAbs < infinityMagnitude := by
  rw [natAbs_ordinal, isFinite, decide_eq_true_iff]

theorem two_dvd_significand : 2 ∣ x.significand ↔ 2 ∣ x.ordinal := by
  have hordinal : 2 ∣ x.ordinal ↔ 2 ∣ x.magnitude := by
    rw [← natAbs_ordinal]
    omega
  rw [hordinal, significand]
  split
  · rfl
  · unfold leadingBit
    omega

theorem magnitude_ofMagnitude (negative : Bool) (h : m < signBit) : (ofMagnitude negative m).magnitude = m := by
  unfold magnitude ofMagnitude signBit at *
  cases negative <;> simp <;> omega

theorem isNegative_ofMagnitude (negative : Bool) (h : m < signBit) :
    (ofMagnitude negative m).isNegative = negative := by
  unfold isNegative ofMagnitude signBit at *
  cases negative <;> simp <;> omega

theorem ordinal_ofMagnitude (negative : Bool) (h : m < signBit) :
    (ofMagnitude negative m).ordinal = if negative then -(m : Int) else m := by
  rw [ordinal, isNegative_ofMagnitude negative h, magnitude_ofMagnitude negative h]

theorem exists_ordinal {k : Int} (h : k.natAbs < infinityMagnitude) : ∃ x : Binary64, x.ordinal = k := by
  have hlt : k.natAbs < signBit := Nat.lt_trans h (by decide)
  refine ⟨ofMagnitude (k < 0) k.natAbs, ?_⟩
  rw [ordinal_ofMagnitude _ hlt]
  split <;> rename_i hsign <;> rw [decide_eq_true_iff] at hsign <;> omega

theorem bits_eq_iff : x.bits = y.bits ↔ x.isNegative = y.isNegative ∧ x.magnitude = y.magnitude := by
  have hx : x.bits.toNat < 2 * signBit := x.bits.toNat_lt
  have hy : y.bits.toNat < 2 * signBit := y.bits.toNat_lt
  rw [← UInt64.toNat_inj]
  unfold isNegative magnitude
  rw [Bool.eq_iff_iff, decide_eq_true_iff, decide_eq_true_iff]
  unfold signBit at *
  omega

/-- Equality is of the places of two numbers. -/
theorem equals_iff : x.equals y ↔ x.isNaN = false ∧ y.isNaN = false ∧ x.ordinal = y.ordinal := by
  have hplaces : (x.isNegative = y.isNegative ∧ x.magnitude = y.magnitude ∨ x.magnitude = 0 ∧ y.magnitude = 0) ↔
      x.ordinal = y.ordinal := by
    unfold ordinal
    cases x.isNegative <;> cases y.isNegative <;> simp <;> omega
  rw [← hplaces, ← bits_eq_iff]
  simp [equals, and_assoc]

/-! ### Rounding a fraction -/

/-- A natural number that is closest to a rational, and even if another one is as close. -/
def IsRounded (d : Nat) (t : ℚ) : Prop := |t - d| ≤ 1 / 2 ∧ (|t - d| = 1 / 2 → 2 ∣ d)

theorem isRounded_divNearest (num : Nat) (hden : 0 < den) : IsRounded (divNearest num den) (num / den) := by
  have hpos : (0 : ℚ) < den := by exact_mod_cast hden
  have hsplit : (num : ℚ) / den = (num / den : Nat) + (num % den : Nat) / den := by
    have hnum : (num : ℚ) = den * (num / den : Nat) + (num % den : Nat) := by
      exact_mod_cast (Nat.div_add_mod num den).symm
    rw [div_eq_iff hpos.ne', hnum]
    field_simp
  have hbelow : 2 * (num % den) < den ↔ (num % den : Nat) / (den : ℚ) < 1 / 2 := by
    rw [div_lt_iff₀ hpos, ← Nat.cast_lt (α := ℚ)]
    push_cast
    constructor <;> intro h <;> linarith
  have habove : den < 2 * (num % den) ↔ 1 / 2 < (num % den : Nat) / (den : ℚ) := by
    rw [lt_div_iff₀ hpos, ← Nat.cast_lt (α := ℚ)]
    push_cast
    constructor <;> intro h <;> linarith
  have hnonneg : 0 ≤ (num % den : Nat) / (den : ℚ) := by positivity
  have hlt : (num % den : Nat) / (den : ℚ) < 1 := by
    rw [div_lt_one hpos]
    exact_mod_cast Nat.mod_lt num hden
  rw [divNearest, hsplit]
  simp only [hbelow, habove]
  generalize (num % den : Nat) / (den : ℚ) = rest at hnonneg hlt
  generalize num / den = quotient
  split
  · rename_i hrest
    have hdist : |(quotient : ℚ) + rest - quotient| = rest := by rw [add_sub_cancel_left, abs_of_nonneg hnonneg]
    exact ⟨hdist.trans_le hrest.le, fun h => absurd (hdist.symm.trans h) hrest.ne⟩
  split
  · rename_i hrest
    have hdist : |(quotient : ℚ) + rest - (quotient + 1 : Nat)| = 1 - rest := by
      rw [Nat.cast_add_one, add_sub_add_left_eq_sub, abs_sub_comm, abs_of_pos (by linarith)]
    exact ⟨by linarith, fun h => by linarith⟩
  · obtain rfl : rest = 1 / 2 := by linarith
    rcases Nat.mod_two_eq_zero_or_one quotient with hparity | hparity <;> rw [hparity]
    · refine ⟨by norm_num, fun _ => ?_⟩
      omega
    · refine ⟨by norm_num, fun _ => ?_⟩
      omega

/-- Other natural numbers are not closer. -/
theorem IsRounded.closest (h : IsRounded d t) (k : Nat) :
    |t - d| ≤ |t - k| ∧ (|t - d| = |t - k| → k ≠ d → 2 ∣ d) := by
  rcases eq_or_ne k d with rfl | hne
  · exact ⟨le_rfl, fun _ h => absurd rfl h⟩
  have hapart : (1 : ℚ) ≤ |(k : ℚ) - d| := by
    have hint : (1 : Int) ≤ |(k : Int) - d| := Int.one_le_abs (by omega)
    exact_mod_cast hint
  have htriangle : |(k : ℚ) - d| ≤ |t - d| + |t - k| := by
    rw [abs_sub_comm t k, add_comm]
    exact abs_sub_le _ _ _
  have hhalf := h.1
  exact ⟨by linarith, fun heq _ => h.2 (by linarith)⟩

/-- Numbers that are bounds before rounding are bounds afterwards. -/
theorem IsRounded.le {k : Nat} (h : IsRounded d t) (ht : t < k) : d ≤ k := by
  have hd : (d : ℚ) < k + 1 := by linarith [(abs_le.mp h.1).1]
  exact_mod_cast Nat.le_of_lt_succ (by exact_mod_cast hd)

theorem IsRounded.ge {k : Nat} (h : IsRounded d t) (ht : k ≤ t) : k ≤ d := by
  have hd : (k : ℚ) < d + 1 := by linarith [(abs_le.mp h.1).2]
  exact_mod_cast Nat.le_of_lt_succ (by exact_mod_cast hd)

/-! ### Fractions and powers of two -/

theorem twoTo_pos (e : Int) : 0 < twoTo e := Nat.two_pow_pos _

theorem twoTo_div (e : Int) : (twoTo e : ℚ) / twoTo (-e) = 2 ^ e := by
  unfold twoTo
  rcases le_total 0 e with h | h
  · have hneg : (-e).toNat = 0 := by omega
    rw [hneg]
    obtain ⟨n, rfl⟩ := Int.eq_ofNat_of_zero_le h
    simp
  · have hpos : e.toNat = 0 := by omega
    rw [hpos]
    obtain ⟨n, hn⟩ := Int.eq_ofNat_of_zero_le (Int.neg_nonneg_of_nonpos h)
    obtain rfl : e = -n := by omega
    simp

theorem log2Ratio_spec (hnum : 0 < num) (hden : 0 < den) :
    2 ^ log2Ratio num den ≤ (num / den : ℚ) ∧ (num / den : ℚ) < 2 ^ (log2Ratio num den + 1) := by
  have hpos : (0 : ℚ) < den := by exact_mod_cast hden
  have htest : den * twoTo (num.log2 - den.log2 : Int) ≤ num * twoTo (-(num.log2 - den.log2 : Int)) ↔
      (2 : ℚ) ^ (num.log2 - den.log2 : Int) ≤ num / den := by
    rw [← twoTo_div, div_le_div_iff₀ (by exact_mod_cast twoTo_pos _) hpos, mul_comm den]
    exact_mod_cast Iff.rfl
  have hlow : (2 : ℚ) ^ (num.log2 - den.log2 - 1 : Int) ≤ num / den := by
    have hnumLow : (2 ^ num.log2 : ℚ) ≤ num := by exact_mod_cast Nat.log2_self_le hnum.ne'
    have hdenHigh : (den : ℚ) ≤ 2 ^ (den.log2 + 1) := by exact_mod_cast Nat.lt_log2_self.le
    calc (2 : ℚ) ^ (num.log2 - den.log2 - 1 : Int) = 2 ^ num.log2 / 2 ^ (den.log2 + 1) := by
          rw [sub_sub, zpow_sub₀ two_ne_zero]
          norm_cast
      _ ≤ num / den := by gcongr
  have hhigh : (num / den : ℚ) < 2 ^ (num.log2 - den.log2 + 1 : Int) := by
    have hnumHigh : (num : ℚ) < 2 ^ (num.log2 + 1) := by exact_mod_cast Nat.lt_log2_self
    have hdenLow : (2 ^ den.log2 : ℚ) ≤ den := by exact_mod_cast Nat.log2_self_le hden.ne'
    calc (num / den : ℚ) < 2 ^ (num.log2 + 1) / 2 ^ den.log2 := by gcongr
      _ = 2 ^ (num.log2 - den.log2 + 1 : Int) := by
          rw [sub_add_eq_add_sub, zpow_sub₀ two_ne_zero]
          norm_cast
  unfold log2Ratio
  dsimp only
  split
  · rename_i h
    exact ⟨htest.mp h, hhigh⟩
  · rename_i h
    rw [sub_add_cancel]
    exact ⟨hlow, not_le.mp fun hle => h (htest.mpr hle)⟩

/-- The fraction is rounded in units of the last place of the magnitudes that it lies among. -/
theorem nearest_spec (num : Nat) (hden : 0 < den) :
    ∃ e d : Nat, nearest num den = min (e * leadingBit + d) infinityMagnitude ∧
      IsRounded d (num / den / 2 ^ ((e : Int) - 1074)) ∧
      (num / den / 2 ^ ((e : Int) - 1074) : ℚ) < (2 * leadingBit : Nat) ∧
      (e = 0 ∨ (leadingBit : ℚ) ≤ num / den / 2 ^ ((e : Int) - 1074)) := by
  rcases Nat.eq_zero_or_pos num with rfl | hnum
  · refine ⟨0, 0, by simp [nearest], ?_, ?_, Or.inl rfl⟩ <;> simp [IsRounded, leadingBit]
  obtain ⟨hlow, hhigh⟩ := log2Ratio_spec hnum hden
  have hplace : (((max (log2Ratio num den - 52) (-1074) + 1074).toNat : Int) - 1074) =
      max (log2Ratio num den - 52) (-1074) := by omega
  rw [nearest, if_neg hnum.ne']
  refine ⟨_, _, rfl, ?_⟩
  rw [hplace]
  generalize hq : max (log2Ratio num den - 52) (-1074) = q
  have hunit : (0 : ℚ) < 2 ^ q := by positivity
  refine ⟨?_, ?_, ?_⟩
  · have hscaled : (num / den / 2 ^ q : ℚ) = (num * twoTo (-q) : Nat) / (den * twoTo q : Nat) := by
      rw [← twoTo_div]
      push_cast
      rw [div_div_div_eq]
    rw [hscaled]
    exact isRounded_divNearest _ (Nat.mul_pos hden (twoTo_pos q))
  · have hle : (2 : ℚ) ^ (log2Ratio num den + 1) ≤ 2 ^ (53 + q) := zpow_le_zpow_right₀ one_le_two (by omega)
    rw [div_lt_iff₀ hunit]
    calc (num / den : ℚ) < 2 ^ (log2Ratio num den + 1) := hhigh
      _ ≤ 2 ^ (53 : Int) * 2 ^ q := hle.trans_eq (zpow_add₀ two_ne_zero _ _)
      _ = (2 * leadingBit : Nat) * 2 ^ q := by norm_num [leadingBit]
  · rcases le_or_gt (log2Ratio num den - 52) (-1074) with hsmall | hlarge
    · exact Or.inl (by omega)
    · have hlog : log2Ratio num den = 52 + q := by omega
      rw [hlog, zpow_add₀ two_ne_zero] at hlow
      rw [le_div_iff₀ hunit]
      exact Or.inr (hlow.trans_eq' (by norm_num [leadingBit]))

theorem abs_sub_mul {a b u : ℚ} (hu : 0 < u) : |a * u - b * u| = |b - a| * u := by
  rw [← sub_mul, abs_mul, abs_of_pos hu, abs_sub_comm]

/-- Magnitudes that are counted in finer places lie below the fraction, and a whole number of its places lies
in between. -/
theorem IsRounded.closer_of_finer (h : IsRounded d t) (ht : leadingBit ≤ t) (hs : s < 2 * leadingBit) (hfiner : f < e) :
    |t - d| * 2 ^ ((e : Int) - 1074) < |s * 2 ^ ((f : Int) - 1074) - t * 2 ^ ((e : Int) - 1074)| := by
  have hunit : (0 : ℚ) < 2 ^ ((e : Int) - 1074) := by positivity
  have hbelow : s * 2 ^ ((f : Int) - 1074) < (leadingBit : ℚ) * 2 ^ ((e : Int) - 1074) := by
    calc (s : ℚ) * 2 ^ ((f : Int) - 1074) < (2 * leadingBit : Nat) * 2 ^ ((f : Int) - 1074) := by gcongr
      _ = leadingBit * 2 ^ ((f : Int) - 1074 + 1) := by
          rw [zpow_add_one₀ two_ne_zero]
          push_cast
          ring
      _ ≤ leadingBit * 2 ^ ((e : Int) - 1074) := by
          gcongr
          · exact one_le_two
          · omega
  have hscaled : leadingBit * 2 ^ ((e : Int) - 1074) ≤ t * 2 ^ ((e : Int) - 1074) := by gcongr
  calc |t - d| * 2 ^ ((e : Int) - 1074) ≤ |t - leadingBit| * 2 ^ ((e : Int) - 1074) :=
        mul_le_mul_of_nonneg_right (h.closest leadingBit).1 hunit.le
    _ = t * 2 ^ ((e : Int) - 1074) - leadingBit * 2 ^ ((e : Int) - 1074) := by
        rw [abs_of_nonneg (by linarith), sub_mul]
    _ < t * 2 ^ ((e : Int) - 1074) - s * 2 ^ ((f : Int) - 1074) := by linarith
    _ = |s * 2 ^ ((f : Int) - 1074) - t * 2 ^ ((e : Int) - 1074)| := by
        rw [abs_sub_comm, abs_of_pos (by linarith)]

/-- Magnitudes that are counted in coarser places are whole numbers of places. -/
theorem place_of_coarser (s : Nat) (hcoarser : e ≤ f) :
    (s : ℚ) * 2 ^ ((f : Int) - 1074) = (s * 2 ^ (f - e) : Nat) * 2 ^ ((e : Int) - 1074) := by
  have hplace : ((f : Int) - 1074) = (f - e : Nat) + ((e : Int) - 1074) := by omega
  rw [hplace, zpow_add₀ two_ne_zero, zpow_natCast]
  push_cast
  ring

/-- No magnitude is closer to the fraction than the one it is rounded to, and if another one is as close, then
this one is even. -/
theorem nearest_closest (hden : 0 < den) (hfinite : nearest num den < infinityMagnitude) (m : Nat) :
    |size (nearest num den) - num / den| ≤ |size m - num / den| ∧
      (|size (nearest num den) - num / den| = |size m - num / den| → m ≠ nearest num den → 2 ∣ nearest num den) := by
  obtain ⟨e, d, hnearest, hrounded, hlt, hge⟩ := nearest_spec num hden
  have hunit : (0 : ℚ) < 2 ^ ((e : Int) - 1074) := by positivity
  have hsize := size_place (hrounded.le hlt) (hge.imp_right hrounded.ge)
  obtain ⟨f, s, hm, hs, hs'⟩ := exists_place m
  have hother : size m = s * 2 ^ ((f : Int) - 1074) := hm ▸ size_place hs.le hs'
  have hkept : nearest num den = e * leadingBit + d := by omega
  have hfraction := (div_eq_iff hunit.ne').mp (rfl : (num / den / 2 ^ ((e : Int) - 1074) : ℚ) = _)
  generalize (num / den / 2 ^ ((e : Int) - 1074) : ℚ) = t at hrounded hlt hge hfraction
  rw [hkept, hsize, hfraction, abs_sub_mul hunit]
  rcases Nat.lt_or_ge f e with hfiner | hcoarser
  · have hcloser := hrounded.closer_of_finer (hge.resolve_left (by omega)) hs hfiner
    rw [← hother] at hcloser
    exact ⟨hcloser.le, fun h => absurd h hcloser.ne⟩
  · have hmultiple := hother.trans (place_of_coarser s hcoarser)
    obtain ⟨hle, htie⟩ := hrounded.closest (s * 2 ^ (f - e))
    rw [hmultiple, abs_sub_mul hunit]
    refine ⟨mul_le_mul_of_nonneg_right hle hunit.le, fun heq hne => ?_⟩
    have hne' : s * 2 ^ (f - e) ≠ d := by
      intro hsame
      rw [hsame, ← hsize] at hmultiple
      exact hne (size_strictMono.injective hmultiple)
    have heven : 2 ∣ d := htie (mul_right_cancel₀ hunit.ne' heq) hne'
    unfold leadingBit
    omega

/-! ### The nearest number -/

variable {k : Int}

/-- No place is closer to the rational, and if another one is as close, then this one is even. -/
def IsClosest (k : Int) (r : ℚ) : Prop :=
  ∀ j : Int, |valueAt k - r| ≤ |valueAt j - r| ∧ (|valueAt k - r| = |valueAt j - r| → j ≠ k → 2 ∣ k)

theorem IsClosest.neg (h : IsClosest k r) : IsClosest (-k) (-r) := by
  intro j
  obtain ⟨hle, htie⟩ := h (-j)
  have hdist : ∀ i : Int, |valueAt (-i) - r| = |valueAt i - -r| := by
    intro i
    rw [valueAt_neg, ← abs_neg, neg_sub, sub_neg_eq_add, sub_neg_eq_add, add_comm]
  rw [hdist j, ← neg_neg k, hdist (-k)] at hle htie
  exact ⟨hle, fun heq hne => (Int.dvd_neg (b := k)).mpr (neg_neg k ▸ htie heq (by omega))⟩

theorem isClosest_nearest (hden : 0 < den) (hfinite : nearest num den < infinityMagnitude) :
    IsClosest (nearest num den) (num / den) := by
  intro j
  rw [valueAt_natCast]
  rcases le_or_gt 0 j with hj | hj
  · obtain ⟨m, rfl⟩ := Int.eq_ofNat_of_zero_le hj
    obtain ⟨hle, htie⟩ := nearest_closest hden hfinite m
    rw [valueAt_natCast]
    exact ⟨hle, fun heq hne => by exact_mod_cast htie heq (by exact_mod_cast hne)⟩
  · -- zero is closer than a number below it
    have hneg : valueAt j < 0 := (valueAt_lt hj).trans_eq (by simp [valueAt])
    have hpos : (0 : ℚ) ≤ num / den := by positivity
    have hcloser : |size (nearest num den) - num / den| < |valueAt j - num / den| := by
      calc |size (nearest num den) - num / den| ≤ |size 0 - num / den| := (nearest_closest hden hfinite 0).1
        _ = num / den := by rw [size_zero, zero_sub, abs_neg, abs_of_nonneg hpos]
        _ < num / den - valueAt j := by linarith
        _ = |valueAt j - num / den| := by rw [abs_sub_comm, abs_of_pos (by linarith)]
    exact ⟨hcloser.le, fun h => absurd h hcloser.ne⟩

theorem IsClosest.isNearest (h : IsClosest x.ordinal r) (hx : x.isFinite) : x.IsNearest r := by
  refine ⟨hx, fun y _ => ?_⟩
  obtain ⟨hle, htie⟩ := h y.ordinal
  rw [ne_eq, value_eq_iff, value_eq_valueAt, value_eq_valueAt, two_dvd_significand]
  exact ⟨hle, htie⟩

theorem IsNearest.of_ordinal_eq (h : x.IsNearest r) (hxy : x.ordinal = y.ordinal) : y.IsNearest r := by
  obtain ⟨hx, hall⟩ := h
  rw [isFinite_iff, hxy, ← isFinite_iff] at hx
  rw [value_eq_iff.mpr hxy, two_dvd_significand, hxy, ← two_dvd_significand] at hall
  exact ⟨hx, hall⟩

/-- Two finite numbers that are no neighbours have another one in between. -/
theorem exists_between (hx : x.isFinite) (hy : y.isFinite) (h : x.ordinal + 1 < y.ordinal) :
    ∃ z : Binary64, z.isFinite ∧ x.value < z.value ∧ z.value < y.value := by
  rw [isFinite_iff] at hx hy
  have hfinite : (x.ordinal + 1).natAbs < infinityMagnitude := by omega
  obtain ⟨z, hz⟩ := exists_ordinal hfinite
  exact ⟨z, isFinite_iff.mpr (hz ▸ hfinite), value_lt (by omega), value_lt (by omega)⟩

/-- Between two different numbers that are as close to a rational lies a closer one, or one of them is odd. -/
theorem IsNearest.not_ordinal_lt (hx : x.IsNearest r) (hy : y.IsNearest r) : ¬ x.ordinal < y.ordinal := by
  intro hlt
  have hvalue : x.value < y.value := value_lt hlt
  have htie : |x.value - r| = |y.value - r| := le_antisymm (hx.2 y hy.1).1 (hy.2 x hx.1).1
  have hevenx : 2 ∣ x.ordinal := two_dvd_significand.mp ((hx.2 y hy.1).2 htie hvalue.ne')
  have heveny : 2 ∣ y.ordinal := two_dvd_significand.mp ((hy.2 x hx.1).2 htie.symm hvalue.ne)
  have hmiddle : x.value + y.value = 2 * r := by
    rcases abs_eq_abs.mp htie with h | h
    · exact absurd (sub_left_injective h) hvalue.ne
    · linarith
  obtain ⟨z, hz, habove, hbelow⟩ := exists_between hx.1 hy.1 (by omega)
  have hcloser : |z.value - r| < |x.value - r| := by
    rw [abs_sub_comm x.value, abs_of_pos (by linarith : 0 < r - x.value), abs_lt]
    constructor <;> linarith
  exact absurd (hx.2 z hz).1 (not_le.mpr hcloser)

theorem IsNearest.ordinal_eq (hx : x.IsNearest r) (hy : y.IsNearest r) : x.ordinal = y.ordinal :=
  le_antisymm (not_lt.mp (hy.not_ordinal_lt hx)) (not_lt.mp (hx.not_ordinal_lt hy))

/-! ### Integers -/

/-- The integers of sixty-four bits are far from being infinite. -/
theorem nearest_one_lt (hnum : num ≤ 2 ^ 63) : nearest num 1 < infinityMagnitude := by
  obtain ⟨e, d, hnearest, hrounded, hlt, hge⟩ := nearest_spec num Nat.one_pos
  have hd : d ≤ 2 * leadingBit := hrounded.le hlt
  have he : e ≤ 1085 := by
    rcases hge with rfl | hge
    · omega
    · by_contra hlarge
      have hpow : (2 : ℚ) ^ (12 : Int) ≤ 2 ^ ((e : Int) - 1074) := zpow_le_zpow_right₀ one_le_two (by omega)
      have hnum' : (num : ℚ) ≤ 2 ^ 63 := by exact_mod_cast hnum
      rw [Nat.cast_one, div_one, le_div_iff₀ (by positivity)] at hge
      have hle : (leadingBit : ℚ) * 2 ^ (12 : Int) ≤ 2 ^ 63 := by
        calc (leadingBit : ℚ) * 2 ^ (12 : Int) ≤ leadingBit * 2 ^ ((e : Int) - 1074) := by gcongr
          _ ≤ 2 ^ 63 := hge.trans hnum'
      norm_num [leadingBit] at hle
  unfold infinityMagnitude leadingBit at *
  omega

theorem isNearest_ofInt {n : Int} (hn : n.natAbs ≤ 2 ^ 63) : (ofInt n).IsNearest n := by
  have hfinite := nearest_one_lt hn
  have hordinal := ordinal_ofMagnitude (n < 0) (Nat.lt_trans hfinite (by decide))
  have hclosest := isClosest_nearest Nat.one_pos hfinite
  rw [Nat.cast_one, div_one] at hclosest
  refine IsClosest.isNearest ?_ ?_
  · rw [ofInt, hordinal]
    split
    · rename_i hsign
      rw [decide_eq_true_iff] at hsign
      have habs : n = -(n.natAbs : Int) := by omega
      rw [habs, Int.cast_neg, Int.cast_natCast, Int.natAbs_neg, Int.natAbs_natCast]
      exact hclosest.neg
    · rename_i hsign
      rw [decide_eq_true_iff] at hsign
      have habs : n = (n.natAbs : Int) := by omega
      rw [habs, Int.cast_natCast, Int.natAbs_natCast]
      exact hclosest
  · rw [isFinite_iff, ofInt, hordinal]
    split
    · rwa [Int.natAbs_neg, Int.natAbs_natCast]
    · rwa [Int.natAbs_natCast]

theorem isNaN_eq_false (h : x.isFinite) : x.isNaN = false := by
  unfold isFinite isNaN at *
  rw [decide_eq_true_iff] at h
  rw [decide_eq_false_iff_not]
  omega

/-- An integer equals the doubles that it rounds to. -/
theorem ofInt_equals_iff {n : Int} (hn : n.natAbs ≤ 2 ^ 63) : (ofInt n).equals x ↔ x.IsNearest n := by
  have hnearest := isNearest_ofInt hn
  rw [equals_iff]
  constructor
  · rintro ⟨-, -, hordinal⟩
    exact hnearest.of_ordinal_eq hordinal
  · intro h
    exact ⟨isNaN_eq_false hnearest.1, isNaN_eq_false h.1, hnearest.ordinal_eq h⟩

/-- Whether some double stands for the rational. -/
def IsExact (r : ℚ) : Prop := ∃ x : Binary64, x.isFinite ∧ x.value = r

theorem IsExact.isNearest_iff (h : IsExact r) (hx : x.isFinite) : x.IsNearest r ↔ x.value = r := by
  constructor
  · intro hnearest
    obtain ⟨y, hy, rfl⟩ := h
    have hle := (hnearest.2 y hy).1
    rw [sub_self, abs_zero, abs_nonpos_iff, sub_eq_zero] at hle
    exact hle
  · rintro rfl
    refine ⟨hx, fun y _ => ?_⟩
    rw [sub_self, abs_zero]
    exact ⟨abs_nonneg _, fun heq hne => absurd (sub_eq_zero.mp (abs_eq_zero.mp heq.symm)) hne⟩

/-- The significand has room for it. -/
theorem exists_size (hm : m ≤ 2 * leadingBit) : ∃ k < infinityMagnitude, size k = m := by
  rcases Nat.eq_zero_or_pos m with rfl | hpos
  · exact ⟨0, by decide, by rw [size_zero, Nat.cast_zero]⟩
  rcases Nat.eq_or_lt_of_le hm with rfl | hm
  · refine ⟨1074 * leadingBit + 2 * leadingBit, by decide, ?_⟩
    rw [size_place le_rfl (Or.inr (by decide))]
    simp
  have hlog : m.log2 < 53 := (Nat.log2_lt hpos.ne').mpr hm
  have hsplit : m.log2 + (52 - m.log2) = 52 := by omega
  have hlow : leadingBit ≤ m * 2 ^ (52 - m.log2) := by
    calc leadingBit = 2 ^ m.log2 * 2 ^ (52 - m.log2) := by rw [← Nat.pow_add, hsplit, leadingBit]
      _ ≤ m * 2 ^ (52 - m.log2) := Nat.mul_le_mul_right _ (Nat.log2_self_le hpos.ne')
  have hhigh : m * 2 ^ (52 - m.log2) ≤ 2 * leadingBit := by
    calc m * 2 ^ (52 - m.log2) ≤ 2 ^ (m.log2 + 1) * 2 ^ (52 - m.log2) :=
          Nat.mul_le_mul_right _ Nat.lt_log2_self.le
      _ = 2 * leadingBit := by rw [Nat.pow_succ, Nat.mul_right_comm, ← Nat.pow_add, hsplit, leadingBit]
  refine ⟨(1022 + m.log2) * leadingBit + m * 2 ^ (52 - m.log2), ?_, ?_⟩
  · unfold infinityMagnitude
    unfold leadingBit at *
    omega
  · have hplace : ((1022 + m.log2 : Nat) : Int) - 1074 = -(52 - m.log2 : Nat) := by omega
    rw [size_place hhigh (Or.inr hlow), hplace, zpow_neg, zpow_natCast, Nat.cast_mul, Nat.cast_pow,
      Nat.cast_ofNat, mul_inv_cancel_right₀ (by positivity)]

/-- Integers of up to fifty-three bits are doubles. -/
theorem isExact_intCast {n : Int} (hn : n.natAbs ≤ 2 * leadingBit) : IsExact n := by
  obtain ⟨m, hlt, hsize⟩ := exists_size hn
  rcases n.natAbs_eq with h | h
  · obtain ⟨x, hx⟩ := exists_ordinal (k := m) (by omega)
    refine ⟨x, isFinite_iff.mpr (by omega), ?_⟩
    rw [value_eq_valueAt, hx, valueAt_natCast, hsize, h, Int.natAbs_natCast, Int.cast_natCast]
  · obtain ⟨x, hx⟩ := exists_ordinal (k := -m) (by omega)
    refine ⟨x, isFinite_iff.mpr (by omega), ?_⟩
    rw [value_eq_valueAt, hx, valueAt_neg, valueAt_natCast, hsize, h, Int.natAbs_neg, Int.natAbs_natCast,
      Int.cast_neg, Int.cast_natCast]

end ConfigSandbox.Binary64
