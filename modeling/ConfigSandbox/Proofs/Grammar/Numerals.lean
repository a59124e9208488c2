import ConfigSandbox.Proofs.Grammar.Lexical
import Mathlib.Data.Nat.Digits.Defs

/-!
# How numbers are written

What the rule for integers reads is a zero, a letter for the base and digits of that base, or decimal digits;
an underscore may stand before every digit but the first of a decimal number. What the rule for floats reads has
decimal digits before a point or after it, and perhaps an exponent. Digits are told by their place in the row of
sixteen, whichever case they are in.
-/
namespace ConfigSandbox

variable {c : Char} {base : Nat}

/-- The number that a digit stands for; sixteen for what is no digit. -/
def placeOf (c : Char) : Nat := "0123456789abcdef".toList.idxOf c.toLower

/-- The number that digits write in a base. -/
def positional (base : Nat) (digits : List Char) : Nat := Nat.ofDigits base (digits.reverse.map placeOf)

/-- Digits of a base with underscores before some of them, and the digits alone. -/
inductive Grouped (base : Nat) : List Char → List Char → Prop
  | nil : Grouped base [] []
  | plain {c : Char} {text digits : List Char} (hc : placeOf c < base) (h : Grouped base text digits) :
      Grouped base (c :: text) (c :: digits)
  | split {c : Char} {text digits : List Char} (hc : placeOf c < base) (h : Grouped base text digits) :
      Grouped base ('_' :: c :: text) (c :: digits)

/-- A base, the digits of a number in that base, and a way to write it. -/
inductive IntegerText : Nat → List Char → List Char → Prop
  | decimal {c : Char} {text digits : List Char} (hc : placeOf c < 10) (h : Grouped 10 text digits) :
      IntegerText 10 (c :: digits) (c :: text)
  | based {letter : Char} {base : Nat} {text digits : List Char}
      (hbase : (letter.toLower, base) ∈ [('x', 16), ('o', 8), ('b', 2)]) (h : Grouped base text digits)
      (hne : digits ≠ []) : IntegerText base digits ('0' :: letter :: text)

/-- Decimal digits, with underscores between them, or nothing. -/
def IsDigits (text : List Char) : Prop := text = [] ∨ ∃ digits, IntegerText 10 digits text

/-- Nothing, or a letter, perhaps a sign, and digits. -/
inductive ExponentText : List Char → Prop
  | nil : ExponentText []
  | mk {letter : Char} {sign text : List Char} {digits : List Char} (hletter : letter.toLower = 'e')
      (hsign : sign ∈ [[], ['+'], ['-']]) (hdigits : IntegerText 10 digits text) :
      ExponentText (letter :: (sign ++ text))

/-- Digits before a point or after it, and an exponent; without a point before the exponent. -/
inductive FloatText : List Char → Prop
  | pointed {whole fraction exponent : List Char} (hwhole : IsDigits whole) (hfraction : IsDigits fraction)
      (hne : whole ≠ [] ∨ fraction ≠ []) (hexponent : ExponentText exponent) :
      FloatText (whole ++ '.' :: (fraction ++ exponent))
  | scaled {whole exponent : List Char} (hwhole : IsDigits whole) (hne : whole ≠ [])
      (hexponent : ExponentText exponent) : FloatText (whole ++ exponent)

theorem IntegerText.ne_nil {digits text : List Char} (h : IntegerText base digits text) : text ≠ [] := by
  cases h <;> exact List.cons_ne_nil _ _

/-! ### Digits -/

/-- What holds of every character below 128 holds of this one if it is below. -/
theorem ascii_forall {P : Char → Prop} (hall : ∀ n < 128, P (Char.ofNat n)) (hc : c.toNat < 128) : P c :=
  Char.ofNat_toNat c ▸ hall c.toNat hc

/-- The classes of digits and their bases. -/
def digitClasses : List (CharClass × Nat) := [(.decimal, 10), (.hexadecimal, 16), (.octal, 8), (.binary, 2)]

theorem ascii_of_holds {cls : CharClass} (h : (cls, base) ∈ digitClasses) (hc : cls.holds c) : c.toNat < 128 := by
  have hlt {d : Char} (hle : c ≤ d) (hd : d.toNat < 128) : c.toNat < 128 := Nat.lt_of_le_of_lt hle hd
  simp only [digitClasses, List.mem_cons, Prod.mk.injEq, List.not_mem_nil, or_false] at h
  rcases h with ⟨rfl, -⟩ | ⟨rfl, -⟩ | ⟨rfl, -⟩ | ⟨rfl, -⟩ <;>
    simp only [CharClass.holds, isHexDigit, isOctalDigit, Char.isDigit, Bool.or_eq_true, Bool.and_eq_true,
      decide_eq_true_eq, beq_iff_eq] at hc
  · exact hlt hc.2 (by decide)
  · rcases hc with (hc | hc) | hc <;> exact hlt hc.2 (by decide)
  · exact hlt hc.2 (by decide)
  · rcases hc with rfl | rfl <;> decide

theorem placeOf_lt {cls : CharClass} (h : (cls, base) ∈ digitClasses) (hc : cls.holds c) : placeOf c < base :=
  ascii_forall (P := fun c => ∀ entry ∈ digitClasses, entry.1.holds c → placeOf c < entry.2) (by decide)
    (ascii_of_holds h hc) (cls, base) h hc

namespace Peg

variable {cur last : Cursor} {nodes : List Node} {cls : CharClass}

theorem Gives.one_reads (h : Gives (.one cls) cur (some (last, nodes))) : ∃ c, cls.holds c ∧ cur.Reads [c] last := by
  cases h with
  | one h =>
    obtain ⟨c, hc, hrest, hlast⟩ := Cursor.reads_of_one? h
    exact ⟨c, hc, .char hrest (hlast ▸ .nothing _)⟩

theorem Gives.letter_reads {l : Char} (h : Gives (.textAnyCase [l]) cur (some (last, nodes))) :
    ∃ c, c.toLower = l ∧ cur.Reads [c] last := by
  cases h with
  | textAnyCase h =>
    rw [Cursor.text?] at h
    split at h
    · rename_i next hnext
      cases h
      obtain ⟨c, hc, hrest, hlast⟩ := Cursor.reads_of_one? hnext
      exact ⟨c, eq_of_beq hc, .char hrest (hlast ▸ .nothing _)⟩
    · cases h

/-- A digit, perhaps behind an underscore. -/
theorem Gives.underscored (h : Gives (chain [opt (lit "_"), .one cls]) cur (some (last, nodes))) :
    ∃ c, cls.holds c ∧ (cur.Reads [c] last ∨ cur.Reads ['_', c] last) := by
  have h : Gives (.seq (.alt (.text ['_']) .empty) (.one cls)) cur (some (last, nodes)) := h
  obtain ⟨mid, _, _, hmark, hone, -⟩ := h.of_seq
  obtain ⟨c, hc, hreads⟩ := hone.one_reads
  refine ⟨c, hc, ?_⟩
  cases hmark with
  | alt hmark => exact Or.inr (hmark.text_reads.append hreads)
  | orElse _ hempty =>
    cases hempty
    exact Or.inl hreads

theorem Gives.grouped (base : Nat) (hcls : (cls, base) ∈ digitClasses)
    (h : Gives (.star (chain [opt (lit "_"), .one cls])) cur (some (last, nodes))) :
    ∃ text digits, Grouped base text digits ∧ cur.Reads text last := by
  let P (cur last : Cursor) := ∃ text digits, Grouped base text digits ∧ cur.Reads text last
  refine star_induction (P := P) (fun cur _ => ⟨[], [], .nil, .nothing cur⟩) ?_ h
  rintro cur mid last xs hfirst ⟨text, digits, hgrouped, hreads⟩
  obtain ⟨c, hc, hone | hone⟩ := hfirst.underscored
  · exact ⟨c :: text, c :: digits, .plain (placeOf_lt hcls hc) hgrouped, hone.append hreads⟩
  · exact ⟨'_' :: c :: text, c :: digits, .split (placeOf_lt hcls hc) hgrouped, hone.append hreads⟩

theorem Gives.based (base : Nat) {l : Char} (hcls : (cls, base) ∈ digitClasses)
    (hl : (l, base) ∈ [('x', 16), ('o', 8), ('b', 2)])
    (h : Gives (chain [lit "0", .textAnyCase [l], chain [opt (lit "_"), .one cls],
      .star (chain [opt (lit "_"), .one cls])]) cur (some (last, nodes))) :
    ∃ text digits, IntegerText base digits text ∧ cur.Reads text last := by
  obtain ⟨_, _, _, hzero, h, -⟩ := h.of_seq
  obtain ⟨_, _, _, hletter, h, -⟩ := h.of_seq
  obtain ⟨_, _, _, hfirst, hmore, -⟩ := h.of_seq
  obtain ⟨c, rfl, hread⟩ := hletter.letter_reads
  obtain ⟨text, digits, hgrouped, hreads⟩ := hmore.grouped base hcls
  have hstart := hzero.text_reads.append hread
  obtain ⟨d, hd, hone | hone⟩ := hfirst.underscored
  · exact ⟨_, _, .based hl (.plain (placeOf_lt hcls hd) hgrouped) (List.cons_ne_nil d digits),
      hstart.append (hone.append hreads)⟩
  · exact ⟨_, _, .based hl (.split (placeOf_lt hcls hd) hgrouped) (List.cons_ne_nil d digits),
      hstart.append (hone.append hreads)⟩

theorem Gives.digits (h : Gives digits cur (some (last, nodes))) :
    ∃ text digits, IntegerText 10 digits text ∧ cur.Reads text last := by
  obtain ⟨_, _, _, hfirst, hmore, -⟩ := h.of_seq
  obtain ⟨c, hc, hone⟩ := hfirst.one_reads
  obtain ⟨text, digits, hgrouped, hreads⟩ := hmore.grouped 10 (by decide)
  exact ⟨c :: text, c :: digits, .decimal (placeOf_lt (by decide) hc) hgrouped, hone.append hreads⟩

/-- Where the rule for integers matches, it has read an integer, and its node has no others below it. -/
theorem Gives.integer (h : Gives (.rule .integer) cur (some (last, nodes))) :
    nodes = [.mk .integer cur last []] ∧ ∃ base digits, IntegerText base digits (cur.textTo last) := by
  obtain ⟨children, hbody, rfl⟩ := h.of_rule
  obtain rfl : children = [] := hbody.nodes_eq_nil (by decide)
  refine ⟨rfl, ?_⟩
  have htext {base : Nat} (hread : ∃ text digits, IntegerText base digits text ∧ cur.Reads text last) :
      ∃ base digits, IntegerText base digits (cur.textTo last) := by
    obtain ⟨text, digits, hwritten, hreads⟩ := hread
    exact ⟨base, digits, hreads.textTo_eq ▸ hwritten⟩
  obtain ⟨mid, _, _, hnumber, hend, -⟩ := hbody.of_seq
  cases hend
  cases hnumber with
  | alt h => exact htext (Gives.based 16 (by decide) (by decide) h)
  | orElse _ h =>
    cases h with
    | alt h => exact htext (Gives.based 8 (by decide) (by decide) h)
    | orElse _ h =>
      cases h with
      | alt h => exact htext (Gives.based 2 (by decide) (by decide) h)
      | orElse _ h => exact htext h.digits

/-! ### Floats -/

theorem Gives.of_opt {e : Peg} (h : Gives (opt e) cur (some (last, nodes))) :
    Gives e cur (some (last, nodes)) ∨ last = cur := by
  cases h with
  | alt h => exact Or.inl h
  | orElse _ h =>
    cases h
    exact Or.inr rfl

theorem Gives.exponent (h : Gives exponent cur (some (last, nodes))) :
    ∃ text, ExponentText text ∧ cur.Reads text last := by
  obtain ⟨_, _, _, hletter, h, -⟩ := h.of_seq
  obtain ⟨_, _, _, hsign, hdigits, -⟩ := h.of_seq
  obtain ⟨letter, hlower, hread⟩ := hletter.letter_reads
  obtain ⟨text, digits, hwritten, hreads⟩ := hdigits.digits
  obtain ⟨sign, hmem, hsigned⟩ : ∃ sign ∈ [[], ['+'], ['-']], Cursor.Reads _ sign _ := by
    rcases hsign.of_opt with hsign | rfl
    · cases hsign with
      | alt hsign => exact ⟨['+'], by simp, hsign.text_reads⟩
      | orElse _ hsign => exact ⟨['-'], by simp, hsign.text_reads⟩
    · exact ⟨[], by simp, .nothing _⟩
  exact ⟨_, .mk hlower hmem hwritten, hread.append (hsigned.append hreads)⟩

theorem Gives.optExponent (h : Gives (opt Peg.exponent) cur (some (last, nodes))) :
    ∃ text, ExponentText text ∧ cur.Reads text last := by
  rcases h.of_opt with h | rfl
  · exact h.exponent
  · exact ⟨[], .nil, .nothing _⟩

theorem Gives.optDigits (h : Gives (opt Peg.digits) cur (some (last, nodes))) :
    ∃ text, IsDigits text ∧ cur.Reads text last := by
  rcases h.of_opt with h | rfl
  · obtain ⟨text, digits, hwritten, hreads⟩ := h.digits
    exact ⟨text, Or.inr ⟨digits, hwritten⟩, hreads⟩
  · exact ⟨[], Or.inl rfl, .nothing _⟩

theorem Gives.float (h : Gives (.rule .float) cur (some (last, nodes))) : FloatText (cur.textTo last) := by
  obtain ⟨children, hbody, rfl⟩ := h.of_rule
  obtain ⟨mid, _, _, hnumber, hend, -⟩ := hbody.of_seq
  cases hend
  have htext (hread : ∃ text, FloatText text ∧ cur.Reads text last) : FloatText (cur.textTo last) := by
    obtain ⟨text, hwritten, hreads⟩ := hread
    exact hreads.textTo_eq ▸ hwritten
  refine htext ?_
  cases hnumber with
  | alt h =>
    obtain ⟨_, _, _, hwhole, h, -⟩ := h.of_seq
    obtain ⟨_, _, _, hpoint, h, -⟩ := h.of_seq
    obtain ⟨_, _, _, hfraction, hexponent, -⟩ := h.of_seq
    obtain ⟨whole, digits, hwhole, hfirst⟩ := hwhole.digits
    obtain ⟨fraction, hfraction, hsecond⟩ := hfraction.optDigits
    obtain ⟨exponent, hexponent, hthird⟩ := hexponent.optExponent
    exact ⟨_, .pointed (Or.inr ⟨digits, hwhole⟩) hfraction (Or.inl hwhole.ne_nil) hexponent,
      hfirst.append (hpoint.text_reads.append (hsecond.append hthird))⟩
  | orElse _ h =>
    cases h with
    | alt h =>
      obtain ⟨_, _, _, hpoint, h, -⟩ := h.of_seq
      obtain ⟨_, _, _, hfraction, hexponent, -⟩ := h.of_seq
      obtain ⟨fraction, digits, hfraction, hfirst⟩ := hfraction.digits
      obtain ⟨exponent, hexponent, hsecond⟩ := hexponent.optExponent
      exact ⟨_, .pointed (Or.inl rfl) (Or.inr ⟨digits, hfraction⟩) (Or.inr hfraction.ne_nil) hexponent,
        hpoint.text_reads.append (hfirst.append hsecond)⟩
    | orElse _ h =>
      obtain ⟨_, _, _, hwhole, hexponent, -⟩ := h.of_seq
      obtain ⟨whole, digits, hwhole, hfirst⟩ := hwhole.digits
      obtain ⟨exponent, hexponent, hsecond⟩ := hexponent.exponent
      exact ⟨_, .scaled (Or.inr ⟨digits, hwhole⟩) hwhole.ne_nil hexponent, hfirst.append hsecond⟩

end Peg
end ConfigSandbox
