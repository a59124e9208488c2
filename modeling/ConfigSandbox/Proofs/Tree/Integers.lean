import ConfigSandbox.Proofs.Grammar.Numerals
import ConfigSandbox.Proofs.Tree.Constants
import ConfigSandbox.Proofs.Tree.Readable
import Mathlib.Data.List.Induction

/-!
# Integers are read for what they are, or refused

An integer is read as the number that its digits write, if that number fits in 64 bits with a sign. If it does
not, and the integer is not a part of a comprehension, the text has no tree; and where a text is refused for a
number, it is for such an integer.
-/
namespace ConfigSandbox

open Peg

/-! ### Digits -/

variable {base : Nat} {c : Char} {text digits : List Char}

theorem ascii_of_toLower (h : c.toLower.toNat < 128) : c.toNat < 128 := by
  unfold Char.toLower at h
  split at h
  · rename_i hupper
    exact Nat.lt_of_le_of_lt hupper.2 (by decide)
  · exact h

theorem ascii_of_placeOf (hc : placeOf c < 16) : c.toNat < 128 := by
  have hlower : "0123456789abcdef".toList.all (·.toNat < 128) := by decide
  exact ascii_of_toLower (of_decide_eq_true (List.all_eq_true.mp hlower _ (List.idxOf_lt_length_iff.mp hc)))

theorem digitValue_eq_placeOf (hc : placeOf c < 16) : digitValue c = placeOf c :=
  ascii_forall (P := fun c => placeOf c < 16 → digitValue c = placeOf c) (by decide)
    (ascii_of_placeOf hc) hc

theorem isDigit_of_placeOf (hc : placeOf c < 10) : c.isDigit :=
  ascii_forall (P := fun c => placeOf c < 10 → c.isDigit) (by decide) (ascii_of_placeOf (by omega)) hc

theorem digitsValue_eq_positional (hdigits : ∀ c ∈ digits, placeOf c < 16) :
    digitsValue base digits = positional base digits := by
  induction digits using List.reverseRecOn with
  | nil => rfl
  | append_singleton digits c ih =>
    obtain ⟨hfront, hlast⟩ := List.forall_mem_append.mp hdigits
    have hc := hlast c (List.mem_singleton_self c)
    have ih := ih hfront
    rw [digitsValue] at ih
    rw [digitsValue, List.foldl_concat, ih, positional, positional, List.reverse_concat, List.map_cons,
      Nat.ofDigits_cons, digitValue_eq_placeOf hc, Nat.mul_comm, Nat.add_comm]

theorem Grouped.placeOf_lt (h : Grouped base text digits) : ∀ c ∈ digits, placeOf c < base := by
  induction h with
  | nil => exact List.forall_mem_nil _
  | plain hc _ ih | split hc _ ih => exact List.forall_mem_cons.mpr ⟨hc, ih⟩

theorem withoutUnderscores_cons (hc : placeOf c < 16) :
    withoutUnderscores (c :: text) = c :: withoutUnderscores text := by
  refine List.filter_cons_of_pos (bne_iff_ne.mpr ?_)
  rintro rfl
  exact absurd hc (by decide)

theorem Grouped.withoutUnderscores_eq (hbase : base ≤ 16) (h : Grouped base text digits) :
    withoutUnderscores text = digits := by
  induction h with
  | nil => rfl
  | plain hc _ ih => rw [withoutUnderscores_cons (by omega), ih]
  | @split c text digits hc _ ih =>
    have hmark : withoutUnderscores ('_' :: c :: text) = withoutUnderscores (c :: text) := rfl
    rw [hmark, withoutUnderscores_cons (by omega), ih]

theorem letter_cases {letter : Char} (h : (letter.toLower, base) ∈ [('x', 16), ('o', 8), ('b', 2)]) :
    (letter, base) ∈ [('x', 16), ('X', 16), ('o', 8), ('O', 8), ('b', 2), ('B', 2)] := by
  have hlower : ∀ entry ∈ [('x', 16), ('o', 8), ('b', 2)], entry.1.toNat < 128 := by decide
  have hbase : base ∈ [16, 8, 2] := List.mem_map_of_mem (f := Prod.snd) h
  exact ascii_forall (P := fun c => ∀ base ∈ [16, 8, 2], (c.toLower, base) ∈ [('x', 16), ('o', 8), ('b', 2)] →
    (c, base) ∈ [('x', 16), ('X', 16), ('o', 8), ('O', 8), ('b', 2), ('B', 2)]) (by decide)
    (ascii_of_toLower (hlower _ h)) base hbase h

theorem IntegerText.splitBase_eq (h : IntegerText base digits text) :
    splitBase (withoutUnderscores text) = (base, digits) := by
  cases h with
  | @decimal c text digits hc h =>
    rw [withoutUnderscores_cons (by omega), h.withoutUnderscores_eq (by omega)]
    exact splitBase_of_digits
      (List.forall_mem_cons.mpr ⟨isDigit_of_placeOf hc, fun c hc => isDigit_of_placeOf (h.placeOf_lt c hc)⟩)
  | @based letter _ text _ hbase h _ =>
    have hletter := letter_cases hbase
    simp only [List.mem_cons, Prod.mk.injEq, List.not_mem_nil, or_false] at hletter
    have hplain : withoutUnderscores ('0' :: letter :: text) = '0' :: letter :: digits := by
      rcases hletter with ⟨rfl, rfl⟩ | ⟨rfl, rfl⟩ | ⟨rfl, rfl⟩ | ⟨rfl, rfl⟩ | ⟨rfl, rfl⟩ | ⟨rfl, rfl⟩ <;>
        exact congrArg (fun ds => '0' :: _ :: ds) (h.withoutUnderscores_eq (by omega))
    rw [hplain]
    rcases hletter with ⟨rfl, rfl⟩ | ⟨rfl, rfl⟩ | ⟨rfl, rfl⟩ | ⟨rfl, rfl⟩ | ⟨rfl, rfl⟩ | ⟨rfl, rfl⟩ <;> rfl

theorem IntegerText.placeOf_lt (h : IntegerText base digits text) : ∀ c ∈ digits, placeOf c < 16 := by
  cases h with
  | decimal hc h =>
    exact List.forall_mem_cons.mpr ⟨by omega, fun c hc => Nat.lt_trans (h.placeOf_lt c hc) (by decide)⟩
  | based hbase h _ =>
    have hle : ∀ entry ∈ [('x', 16), ('o', 8), ('b', 2)], entry.2 ≤ 16 := by decide
    exact fun c hc => Nat.lt_of_lt_of_le (h.placeOf_lt c hc) (hle _ hbase)

/-- The greatest integer with a sign in 64 bits. -/
def greatestInteger : Nat := 9223372036854775807

/-- An integer is what its digits write, and is there if it fits. -/
theorem integerOfLiteral?_eq (h : IntegerText base digits text) : integerOfLiteral? text =
    if positional base digits ≤ greatestInteger then some (Int64.ofNat (positional base digits)) else none := by
  rw [integerOfLiteral?, h.splitBase_eq]
  dsimp only
  rw [digitsValue_eq_positional h.placeOf_lt]
  rfl

theorem integerOfLiteral?_eq_some_iff (h : IntegerText base digits text) (n : Int64) :
    integerOfLiteral? text = some n ↔
      positional base digits ≤ greatestInteger ∧ n.toInt = positional base digits := by
  rw [integerOfLiteral?_eq h]
  split
  · rename_i hfits
    have hvalue : (Int64.ofNat (positional base digits)).toInt = positional base digits :=
      Int64.toInt_ofNat_of_lt (Nat.lt_of_le_of_lt hfits (by decide))
    rw [Option.some.injEq, and_iff_right hfits, ← hvalue, Int64.toInt_inj]
    exact eq_comm
  · rename_i hlarge
    simp [hlarge]

/-! ### Floats have values -/

theorem IntegerText.decimal_eq (h : IntegerText 10 digits text) :
    withoutUnderscores text = digits ∧ digits ≠ [] ∧ ∀ c ∈ digits, c.isDigit := by
  cases h with
  | @decimal c text digits hc h =>
    refine ⟨?_, List.cons_ne_nil _ _, List.forall_mem_cons.mpr
      ⟨isDigit_of_placeOf hc, fun c hc => isDigit_of_placeOf (h.placeOf_lt c hc)⟩⟩
    rw [withoutUnderscores_cons (by omega), h.withoutUnderscores_eq (by omega)]
  | based hbase => simp at hbase

theorem IsDigits.decimal_eq (h : IsDigits text) :
    ∃ digits, withoutUnderscores text = digits ∧ (text ≠ [] → digits ≠ []) ∧ ∀ c ∈ digits, c.isDigit := by
  rcases h with rfl | ⟨digits, h⟩
  · exact ⟨[], rfl, fun h => absurd rfl h, List.forall_mem_nil _⟩
  · obtain ⟨hplain, hne, hdigits⟩ := h.decimal_eq
    exact ⟨digits, hplain, fun _ => hne, hdigits⟩

theorem takeWhile_digits {rest : List Char} (hdigits : ∀ c ∈ digits, c.isDigit)
    (hrest : ∀ c ∈ rest.head?, c.isDigit = false) :
    (digits ++ rest).takeWhile Char.isDigit = digits ∧ (digits ++ rest).dropWhile Char.isDigit = rest := by
  rw [List.takeWhile_append_of_pos hdigits, List.dropWhile_append_of_pos hdigits]
  cases rest with
  | nil => simp
  | cons c rest =>
    have hc : c.isDigit = false := hrest c rfl
    simp [hc]

theorem exponent?_isSome {sign : List Char} (hsign : sign ∈ [[], ['+'], ['-']]) (hne : digits ≠ [])
    (hdigits : ∀ c ∈ digits, c.isDigit) : (Decimal.exponent? (sign ++ digits)).isSome := by
  have hempty : digits.isEmpty = false := List.isEmpty_eq_false_iff.mpr hne
  have hall : digits.all Char.isDigit = true := List.all_eq_true.mpr hdigits
  simp only [List.mem_cons, List.not_mem_nil, or_false] at hsign
  rcases hsign with rfl | rfl | rfl
  · obtain _ | ⟨d, ds⟩ := digits
    · exact absurd rfl hne
    · -- a digit is no sign
      have hd := hdigits d List.mem_cons_self
      have hminus : d ≠ '-' := by rintro rfl; cases hd
      have hplus : d ≠ '+' := by rintro rfl; cases hd
      simpa [Decimal.exponent?, hminus, hplus] using hdigits
  · simp [Decimal.exponent?, hempty, hall]
  · simp [Decimal.exponent?, hempty, hall]

/-- An exponent without its underscores. -/
theorem ExponentText.plain (h : ExponentText text) : withoutUnderscores text = [] ∨
    ∃ letter more, (letter = 'e' ∨ letter = 'E') ∧ withoutUnderscores text = letter :: more ∧
      (Decimal.exponent? more).isSome := by
  cases h with
  | nil => exact Or.inl rfl
  | @mk letter sign text digits hletter hsign hdigits =>
    obtain ⟨hplain, hne, hdigits⟩ := hdigits.decimal_eq
    have hcase : letter = 'e' ∨ letter = 'E' :=
      ascii_forall (P := fun c => c.toLower = 'e' → c = 'e' ∨ c = 'E') (by decide)
        (ascii_of_toLower (by rw [hletter]; decide)) hletter
    refine Or.inr ⟨letter, sign ++ digits, hcase, ?_, exponent?_isSome hsign hne hdigits⟩
    have hsigns : withoutUnderscores sign = sign := by
      simp only [List.mem_cons, List.not_mem_nil, or_false] at hsign
      rcases hsign with rfl | rfl | rfl <;> rfl
    rw [← hplain]
    nth_rewrite 2 [← hsigns]
    rw [withoutUnderscores, withoutUnderscores, withoutUnderscores, ← List.filter_append]
    rcases hcase with rfl | rfl <;> rfl

theorem decimal_isSome {whole fraction rest : List Char} (hwhole : ∀ c ∈ whole, c.isDigit)
    (hfraction : ∀ c ∈ fraction, c.isDigit) (hrest : rest = [] ∨
      ∃ letter more, (letter = 'e' ∨ letter = 'E') ∧ rest = letter :: more ∧ (Decimal.exponent? more).isSome) :
    (whole ≠ [] ∨ fraction ≠ [] → (Decimal.ofText? (whole ++ '.' :: (fraction ++ rest))).isSome) ∧
      (whole ≠ [] → (Decimal.ofText? (whole ++ rest)).isSome) := by
  have hhead : ∀ c ∈ rest.head?, c.isDigit = false := by
    rcases hrest with rfl | ⟨letter, more, rfl | rfl, rfl, -⟩ <;> simp
  have hpoint : ∀ c ∈ ('.' :: (fraction ++ rest)).head?, c.isDigit = false := by simp
  obtain ⟨htake, hdrop⟩ := takeWhile_digits hwhole hpoint
  obtain ⟨htake', hdrop'⟩ := takeWhile_digits hfraction hhead
  obtain ⟨htake'', hdrop''⟩ := takeWhile_digits hwhole hhead
  constructor
  · intro hne
    rw [Decimal.ofText?, htake, hdrop]
    simp only [htake', hdrop']
    rw [if_neg (by simpa [Decidable.imp_iff_not_or] using hne)]
    rcases hrest with rfl | ⟨letter, more, rfl | rfl, rfl, hmore⟩
    · rfl
    · simpa using hmore
    · simpa using hmore
  · intro hne
    rw [Decimal.ofText?, htake'', hdrop'']
    rcases hrest with rfl | ⟨letter, more, rfl | rfl, rfl, hmore⟩
    · simp [hne]
    · simpa [hne] using hmore
    · simpa [hne] using hmore

theorem binary64_isSome {cs : List Char} (hsign : ∀ c ∈ cs.head?, c ≠ '-' ∧ c ≠ '+')
    (h : (Decimal.ofText? cs).isSome) : (Binary64.ofText? cs).isSome := by
  unfold Binary64.ofText?
  split
  · exact absurd rfl (hsign '-' rfl).1
  · exact absurd rfl (hsign '+' rfl).2
  · change (if String.ofList (cs.map Char.toLower) = "nan" then _ else if _ then _ else
      (Decimal.ofText? cs).map _).isSome = true
    split
    · rfl
    · split
      · rfl
      · rwa [Option.isSome_map]

/-- Every float has a value: it may be infinite, but it is there. -/
theorem floatOfLiteral?_isSome (h : FloatText text) : (floatOfLiteral? text).isSome := by
  have hdigit {c : Char} (hc : c.isDigit) : c ≠ '-' ∧ c ≠ '+' := by constructor <;> rintro rfl <;> cases hc
  have hhead {digits rest : List Char} (hdigits : ∀ c ∈ digits, c.isDigit)
      (hrest : ∀ c ∈ rest.head?, c ≠ '-' ∧ c ≠ '+') : ∀ c ∈ (digits ++ rest).head?, c ≠ '-' ∧ c ≠ '+' := by
    cases digits with
    | nil => exact hrest
    | cons d ds =>
      intro c hc
      cases hc
      exact hdigit (hdigits d List.mem_cons_self)
  cases h with
  | @pointed whole fraction exponent hwhole hfraction hne hexponent =>
    obtain ⟨ds, hds, hwholeNe, hwhole⟩ := hwhole.decimal_eq
    obtain ⟨es, hes, hfractionNe, hfraction⟩ := hfraction.decimal_eq
    have hplain : withoutUnderscores (whole ++ '.' :: (fraction ++ exponent)) =
        ds ++ '.' :: (es ++ withoutUnderscores exponent) := by
      rw [← hds, ← hes]
      simp [withoutUnderscores]
    rw [floatOfLiteral?, hplain]
    exact binary64_isSome (hhead hwhole (by simp))
      ((decimal_isSome hwhole hfraction hexponent.plain).1 (hne.imp hwholeNe hfractionNe))
  | @scaled whole exponent hwhole hne hexponent =>
    obtain ⟨ds, hds, hwholeNe, hwhole⟩ := hwhole.decimal_eq
    have hplain : withoutUnderscores (whole ++ exponent) = ds ++ withoutUnderscores exponent := by
      rw [← hds]
      simp [withoutUnderscores]
    rw [floatOfLiteral?, hplain]
    refine binary64_isSome (hhead hwhole ?_)
      ((decimal_isSome hwhole (List.forall_mem_nil _) hexponent.plain).2 (hwholeNe hne))
    rcases hexponent.plain with hnil | ⟨letter, more, rfl | rfl, hcons, -⟩
    · simp [hnil]
    · simp [hcons]
    · simp [hcons]

/-! ### Texts -/

variable {source : String} {limit : Nat} {r : Rule} {cur first last : Cursor} {node root part : Node}
  {nodes children : List Node}

theorem Node.StandsIn.matched (h : part.StandsIn node) (hm : node.Matched source) : part.Matched source := by
  induction h with
  | here => exact hm
  | inside _ hmem _ ih => exact ih (hm.parts _ hmem)

theorem Node.Matched.gives (h : (Node.mk r first last children).Matched source) :
    Gives (.rule r) first (some (last, [.mk r first last children])) := by
  cases h with
  | mk body => exact .rule body

/-- An integer whose number does not fit is all that can be wrong with a number. -/
theorem Node.Matched.isUnreadable_iff (h : part.Matched source) : part.isUnreadable ↔
    ∃ first last base digits, part = .mk .integer first last [] ∧
      IntegerText base digits (first.textTo last) ∧ greatestInteger < positional base digits := by
  obtain ⟨r, first, last, children⟩ := part
  constructor
  · intro hfault
    cases r with
    | integer =>
      obtain ⟨hnodes, base, digits, hwritten⟩ := h.gives.integer
      cases hnodes
      rw [Node.isUnreadable, integerOfLiteral?_eq hwritten] at hfault
      refine ⟨first, last, base, digits, rfl, hwritten, ?_⟩
      by_contra hfits
      rw [if_pos (Nat.not_lt.mp hfits)] at hfault
      cases hfault
    | float =>
      have hvalue := floatOfLiteral?_isSome h.gives.float
      rw [Node.isUnreadable, Option.isNone_iff_eq_none] at hfault
      rw [hfault] at hvalue
      cases hvalue
    | _ => cases hfault
  · rintro ⟨f, l, base, digits, heq, hwritten, hlarge⟩
    cases heq
    rw [Node.isUnreadable, integerOfLiteral?_eq hwritten, if_neg (Nat.not_le.mpr hlarge)]
    rfl

theorem exprOf_integer {base : Nat} {digits : List Char} (h : IntegerText base digits (cur.textTo last))
    (limit depth : Nat) : exprOf limit depth (.mk .integer cur last []) =
      if positional base digits ≤ greatestInteger then
        .ok (.constant (cur.location last) (.int (Int64.ofNat (positional base digits))))
      else .error ⟨.invalidNumber (String.ofList (cur.textTo last)), cur.location last⟩ := by
  rw [exprOf, integerOfLiteral?_eq h]
  by_cases hfits : positional base digits ≤ greatestInteger
  · rw [if_pos hfits, if_pos hfits]
  · rw [if_neg hfits, if_neg hfits]

/-- Where a match ends. -/
def Match.last? : Match → Option Cursor
  | .matched last _ => some last
  | .failed | .outOfFuel => none

theorem gives_of_last? {r : Rule} {cs : List Char} {last : Cursor} (h : (r.matchText cs).1.last? = some last) :
    ∃ nodes, Gives (.rule r) (.start cs) (some (last, nodes)) := by
  rcases hmatch : r.matchText cs with ⟨⟨found, nodes⟩ | _ | _, att⟩ <;> rw [hmatch] at h <;> cases h
  exact ⟨nodes, gives_of_matchText hmatch⟩

/-- Whatever the rule for integers reads is digits in a base. Their number is the integer if it fits in 64 bits
with a sign; if not, the builder complains of a number at this place, whatever the limit. Of a text that the
grammar accepts, no tree is built if an integer that does not fit stands outside of comprehensions. If there would
be a tree with `None` in the place of such integers, the text is refused for one of them, so for the only one if
there are no more; and a complaint of a number is about one of them in any case. -/
theorem integers_denote :
    (∀ (cur last : Cursor) (nodes : List Node), Gives (.rule .integer) cur (some (last, nodes)) →
      nodes = [.mk .integer cur last []] ∧ ∃ base digits, IntegerText base digits (cur.textTo last) ∧
        (∀ n : Int64, integerOfLiteral? (cur.textTo last) = some n ↔
          positional base digits ≤ greatestInteger ∧ n.toInt = positional base digits) ∧
        ∀ limit depth, exprOf limit depth (.mk .integer cur last []) =
          if positional base digits ≤ greatestInteger then
            .ok (.constant (cur.location last) (.int (Int64.ofNat (positional base digits))))
          else .error ⟨.invalidNumber (String.ofList (cur.textTo last)), cur.location last⟩) ∧
    ∀ (source : String) (root : Node), nodesOf source.toList = some [root] →
      (∀ first last children base digits, (Node.mk .integer first last children).StandsIn root →
        IntegerText base digits (first.textTo last) → greatestInteger < positional base digits →
        ∀ limit, (∃ e, Module.parse limit source = .error e) ∧
          ∀ m, (Nesting.ofText source.toList).deepest ≤ limit → moduleOf limit root.readable = .ok m →
            ∃ first last base digits, (Node.mk .integer first last []).StandsIn root ∧
              IntegerText base digits (first.textTo last) ∧ greatestInteger < positional base digits ∧
              Module.parse limit source =
                .error ⟨.invalidNumber (String.ofList (first.textTo last)), first.location last⟩) ∧
      ∀ limit text loc, Module.parse limit source = .error ⟨.invalidNumber text, loc⟩ →
        ∃ first last base digits, (Node.mk .integer first last []).StandsIn root ∧
          IntegerText base digits (first.textTo last) ∧ greatestInteger < positional base digits ∧
          text = String.ofList (first.textTo last) ∧ loc = first.location last := by
  constructor
  · intro cur last nodes h
    obtain ⟨hnodes, base, digits, hwritten⟩ := h.integer
    exact ⟨hnodes, base, digits, hwritten, integerOfLiteral?_eq_some_iff hwritten, exprOf_integer hwritten⟩
  · intro source root hroot
    have hmatched := matched_of_nodesOf hroot
    have hplace {part : Node} (hfaulty : root.Faulty part) : ∃ first last base digits,
        part = .mk .integer first last [] ∧ (Node.mk .integer first last []).StandsIn root ∧
          IntegerText base digits (first.textTo last) ∧ greatestInteger < positional base digits := by
      obtain ⟨hstands, hfault⟩ := hfaulty
      obtain ⟨first, last, base, digits, rfl, hwritten, hlarge⟩ :=
        (hstands.matched hmatched).isUnreadable_iff.mp hfault
      exact ⟨first, last, base, digits, rfl, hstands, hwritten, hlarge⟩
    constructor
    · intro first last children base digits hstands hwritten hlarge limit
      have hpart := hstands.matched hmatched
      cases (hpart.gives.integer).1
      have hfaulty : root.Faulty (.mk .integer first last []) :=
        ⟨hstands, hpart.isUnreadable_iff.mpr ⟨first, last, base, digits, rfl, hwritten, hlarge⟩⟩
      cases hparse : Module.parse limit source with
      | error e =>
        refine ⟨⟨e, rfl⟩, fun m hnesting hbuilt => ?_⟩
        obtain ⟨part, hfaulty, rfl⟩ := Module.parse_of_readable hroot hnesting hbuilt hparse
        obtain ⟨first, last, base, digits, rfl, hstands, hwritten, hlarge⟩ := hplace hfaulty
        exact ⟨first, last, base, digits, hstands, hwritten, hlarge, rfl⟩
      | ok m => exact absurd hfaulty (Meets.ok (Module.parse_finds limit hroot) hparse _)
    · intro limit text loc hparse
      obtain ⟨part, hfaulty, htext, hloc⟩ := Meets.error (Module.parse_finds limit hroot) hparse text rfl
      obtain ⟨first, last, base, digits, rfl, hstands, hwritten, hlarge⟩ := hplace hfaulty
      exact ⟨first, last, base, digits, hstands, hwritten, hlarge, htext, hloc⟩

/-- Hexadecimal digits in both cases and an underscore; and the least integer that does not fit, with which nothing
else is wrong. -/
theorem integers_denote_bounds :
    let cs := "0X7f_Ff".toList
    let source := "x = 9223372036854775808"
    (∃ last, Gives (.rule .integer) (.start cs) (some (last, [.mk .integer (.start cs) last []])) ∧
      ∃ base digits, IntegerText base digits cs ∧ positional base digits = 0x7FFF) ∧
    ∃ root, nodesOf source.toList = some [root] ∧
      Module.parse 9 source = .error ⟨.invalidNumber "9223372036854775808", ⟨1, ⟨4, 23⟩⟩⟩ ∧
      (∃ m, (Nesting.ofText source.toList).deepest ≤ 9 ∧ moduleOf 9 root.readable = .ok m) ∧
      (∃ first last, (Node.mk .integer first last []).StandsIn root ∧
        String.ofList (first.textTo last) = "9223372036854775808" ∧ Module.parse 9 source =
          .error ⟨.invalidNumber (String.ofList (first.textTo last)), first.location last⟩) ∧
      ∀ limit, ∃ e, Module.parse limit source = .error e := by
  intro cs source
  constructor
  · have hlast : (Rule.integer.matchText cs).1.last? = some ⟨7, 1, []⟩ := by decide +kernel
    obtain ⟨nodes, hgives⟩ := gives_of_last? hlast
    obtain ⟨rfl, base, digits, hwritten, hvalue, -⟩ := integers_denote.1 _ _ _ hgives
    have htext : (Cursor.start cs).textTo ⟨7, 1, []⟩ = cs := by decide +kernel
    rw [htext] at hwritten hvalue
    have hread : integerOfLiteral? cs = some 0x7FFF := by decide +kernel
    refine ⟨_, hgives, base, digits, hwritten, ?_⟩
    have hn : (positional base digits : Int) = 0x7FFF := ((hvalue _).mp hread).2.symm.trans (by decide)
    exact_mod_cast hn
  · have hsome : (nodesOf source.toList).isSome := by decide +kernel
    obtain ⟨nodes, hnodes⟩ := Option.isSome_iff_exists.mp hsome
    obtain ⟨last, children, rfl, -⟩ := module_of_nodesOf hnodes
    have hparse : Module.parse 9 source = .error ⟨.invalidNumber "9223372036854775808", ⟨1, ⟨4, 23⟩⟩⟩ := by
      have htest : (Module.parse 9 source).map (fun _ => ()) =
          .error ⟨.invalidNumber "9223372036854775808", ⟨1, ⟨4, 23⟩⟩⟩ := by decide +kernel
      cases h : Module.parse 9 source with
      | ok m =>
        rw [h] at htest
        cases htest
      | error e =>
        rw [h] at htest
        cases htest
        rfl
    have hnesting : (Nesting.ofText source.toList).deepest ≤ 9 := by decide +kernel
    have htest : (nodesOf source.toList).map (fun nodes => (nodes.map fun node =>
        (moduleOf 9 node.readable).map fun _ => ())) = some [.ok ()] := by decide +kernel
    rw [hnodes, Option.map_some, Option.some.injEq, List.map_singleton, List.singleton_inj] at htest
    obtain ⟨m, hbuilt, -⟩ := exists_of_map_eq_ok htest
    obtain ⟨hrefused, hblamed⟩ := integers_denote.2 source _ hnodes
    obtain ⟨f, l, base, digits, hstands, hwritten, hlarge, -⟩ := hblamed 9 _ _ hparse
    have hall := hrefused f l [] base digits hstands hwritten hlarge
    obtain ⟨f', l', -, -, hstands', -, -, hplace⟩ := (hall 9).2 m hnesting hbuilt
    have htext : String.ofList (f'.textTo l') = "9223372036854775808" := by
      have hsame := hparse.symm.trans hplace
      rw [Except.error.injEq, ParseError.mk.injEq, ParseFault.invalidNumber.injEq] at hsame
      exact hsame.1.symm
    exact ⟨_, hnodes, hparse, ⟨m, hnesting, hbuilt⟩, ⟨f', l', hstands', htext, hplace⟩, fun limit => (hall limit).1⟩

mutual

/-- The node and all nodes below it. -/
def Node.parts : Node → List Node
  | .mk r first last children => .mk r first last children :: partsOf children

def partsOf : List Node → List Node
  | [] => []
  | node :: rest => node.parts ++ partsOf rest

end

/-- In a comprehension an integer that does not fit is matched, and nobody complains. -/
theorem integer_in_comprehension :
    let source := "x = [9223372036854775808 for a in b]"
    (∃ root, nodesOf source.toList = some [root] ∧ ∃ part ∈ root.parts, part.rule = .integer ∧
      part.text = "9223372036854775808".toList ∧ integerOfLiteral? part.text = none) ∧
    ∃ m, Module.parse 200 source = .ok m := by
  intro source
  constructor
  · have hsome : (nodesOf source.toList).isSome := by decide +kernel
    obtain ⟨nodes, hnodes⟩ := Option.isSome_iff_exists.mp hsome
    obtain ⟨last, children, rfl, -⟩ := module_of_nodesOf hnodes
    have htest : (nodesOf source.toList).map (fun nodes => (partsOf nodes).any fun part =>
        part.rule == .integer && part.text == "9223372036854775808".toList) = some true := by decide +kernel
    rw [hnodes, Option.map_some, Option.some.injEq, List.any_eq_true] at htest
    obtain ⟨part, hmem, hpart⟩ := htest
    rw [Bool.and_eq_true, beq_iff_eq, beq_iff_eq] at hpart
    rw [partsOf, partsOf, List.append_nil] at hmem
    refine ⟨_, hnodes, part, hmem, hpart.1, hpart.2, ?_⟩
    rw [hpart.2]
    decide +kernel
  · have htest : (Module.parse 200 source).map (fun _ => ()) = .ok () := by decide +kernel
    obtain ⟨m, hm, -⟩ := exists_of_map_eq_ok htest
    exact ⟨m, hm⟩

end ConfigSandbox
