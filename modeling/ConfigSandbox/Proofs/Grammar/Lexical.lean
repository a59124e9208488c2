import Mathlib.Logic.Relation
import ConfigSandbox.Proofs.Grammar.Gives

/-!
# Line ends, comments and the text between quotes

Which characters these expressions can have read, and what stands where they stop.
-/
namespace ConfigSandbox
namespace Peg

variable {cur mid last : Cursor} {nodes : List Node} {cs : List Char} {c m : Char}

theorem Gives.text_reads (h : Gives (.text cs) cur (some (last, nodes))) : cur.Reads cs last := by
  cases h with
  | text h => exact Cursor.reads_of_text h

theorem Gives.not_prefix (h : Gives (.text cs) cur none) : ¬ cs <+: cur.rest := by
  cases h with
  | noText h => exact Cursor.not_prefix_of_text? h

theorem Gives.char (h : Gives (.text [c]) cur (some (last, nodes))) :
    ∃ rest, cur.rest = c :: rest ∧ last = cur.past c rest := h.text_reads.one

theorem Gives.any (h : Gives (.one .any) cur (some (last, nodes))) :
    ∃ c rest, cur.rest = c :: rest ∧ last = cur.past c rest := by
  cases h with
  | one h =>
    obtain ⟨c, -, hc, hlast⟩ := Cursor.reads_of_one? h
    exact ⟨c, _, hc, hlast⟩

/-- Any character can be read, so there is none. -/
theorem Gives.not_any (h : Gives (.one .any) cur none) : cur.rest = [] := by
  cases h with
  | noOne h =>
    cases hr : cur.rest with
    | nil => rfl
    | cons c rest =>
      rw [Cursor.one?, hr] at h
      cases h

/-! ### Lines -/

theorem Gives.not_newline (h : Gives newline cur none) {rest : List Char} (hc : cur.rest = c :: rest) :
    c ≠ '\n' ∧ c ≠ '\r' := by
  have h : Gives (.alt (.text ['\n']) (.alt (.text ['\r', '\n']) (.text ['\r']))) cur none := h
  cases h with
  | orElse hfeed h =>
    cases h with
    | orElse _ hreturn =>
      refine ⟨?_, ?_⟩ <;> rintro rfl
      · exact hfeed.not_prefix (hc ▸ List.prefix_append ['\n'] rest)
      · exact hreturn.not_prefix (hc ▸ List.prefix_append ['\r'] rest)

theorem Gives.newline (h : Gives newline cur (some (last, nodes))) :
    ∃ rest, cur.rest = '\n' :: rest ∨ cur.rest = '\r' :: rest := by
  have h : Gives (.alt (.text ['\n']) (.alt (.text ['\r', '\n']) (.text ['\r']))) cur
    (some (last, nodes)) := h
  cases h with
  | alt h =>
    obtain ⟨rest, hrest, -⟩ := h.char
    exact ⟨rest, Or.inl hrest⟩
  | orElse _ h =>
    cases h with
    | alt h =>
      exact ⟨_, Or.inr h.text_reads.rest_eq⟩
    | orElse _ h =>
      obtain ⟨rest, hrest, -⟩ := h.char
      exact ⟨rest, Or.inr hrest⟩

/-- From the first position to the second there is no line feed, and a line or the text ends there. -/
structure ReadsLine (cur last : Cursor) : Prop where
  reads : ∃ cs, cur.Reads cs last ∧ '\n' ∉ cs
  ends : last.rest = [] ∨ ∃ rest, last.rest = '\n' :: rest ∨ last.rest = '\r' :: rest

theorem Gives.restOfLine (h : Gives restOfLine cur (some (last, nodes))) : ReadsLine cur last := by
  have h : Gives (.star (.seq (.absent Peg.newline) (.one .any))) cur (some (last, nodes)) := h
  refine star_induction ?_ ?_ h
  · intro cur hstop
    refine ⟨⟨[], .nothing cur, List.not_mem_nil⟩, ?_⟩
    obtain hfail | ⟨mid, xs, hmatch, hstuck⟩ := hstop
    · cases hfail with
      | noFirst hline =>
        cases hline with
        | present hline => exact Or.inr hline.newline
      | noSecond hline hany =>
        cases hline
        exact Or.inl hany.not_any
    · cases hmatch with
      | seq hline hany =>
        cases hline
        obtain ⟨c, rest, -, rfl⟩ := hany.any
        rw [Cursor.offset_past] at hstuck
        exact absurd (Nat.lt_add_of_pos_right c.utf8Size_pos) hstuck
  · rintro cur mid last xs hmatch ⟨⟨cs, hreads, hfeed⟩, hend⟩
    cases hmatch with
    | seq hline hany =>
      cases hline with
      | absent hline =>
        obtain ⟨c, rest, hc, rfl⟩ := hany.any
        refine ⟨⟨c :: cs, .char hc hreads, ?_⟩, hend⟩
        rw [List.mem_cons, not_or]
        exact ⟨fun hcn => (hline.not_newline hc).1 hcn.symm, hfeed⟩

/-! ### Strings -/

/-- A backslash and the character it hides. -/
theorem Gives.escape (h : Gives (.seq (.text ['\\']) (.one .any)) cur (some (last, nodes))) :
    ∃ c rest, cur.rest = '\\' :: c :: rest ∧ last = (cur.past '\\' (c :: rest)).past c rest := by
  cases h with
  | seq hslash hany =>
    obtain ⟨more, hmore, rfl⟩ := hslash.char
    obtain ⟨c, rest, hc, rfl⟩ := hany.any
    obtain rfl : more = c :: rest := hc
    exact ⟨c, rest, hmore, rfl⟩

/-- A backslash that hides nothing ends the text. -/
theorem Gives.not_escape (h : Gives (.seq (.text ['\\']) (.one .any)) cur none) {rest : List Char}
    (hc : cur.rest = c :: rest) (hne : rest ≠ []) : c ≠ '\\' := by
  rintro rfl
  cases h with
  | noFirst hslash => exact hslash.not_prefix (hc ▸ List.prefix_append ['\\'] rest)
  | noSecond hslash hany =>
    obtain ⟨more, hmore, rfl⟩ := hslash.char
    obtain rfl : rest = more := by simpa [hc] using hmore
    exact hne hany.not_any

/-- What a text in such quotes is made of: a backslash and the character it hides, or one character
that ends neither the text nor, inside single quotes, the line. A backslash may stand alone only where
nothing follows. -/
def ReadsUnit (m : Char) (triple : Bool) (cur last : Cursor) : Prop :=
  (∃ c rest, cur.rest = '\\' :: c :: rest ∧ last = (cur.past '\\' (c :: rest)).past c rest) ∨
  ∃ c rest, cur.rest = c :: rest ∧ last = cur.past c rest ∧ (rest ≠ [] → c ≠ '\\') ∧
    (c = m → triple ∧ ¬ [m, m] <+: rest) ∧ (c = '\n' → triple)

def quotedUnit (m : Char) : Peg :=
  .alt (.seq (.text ['\\']) (.one .any)) (.seq (.absent (.alt (.text [m]) newline)) (.one .any))

def tripledUnit (m : Char) : Peg :=
  .seq (.absent (.text [m, m, m])) (.alt (.seq (.text ['\\']) (.one .any)) (.one .any))

theorem Gives.quotedUnit (h : Gives (quotedUnit m) cur (some (last, nodes))) :
    ReadsUnit m false cur last := by
  cases h with
  | alt h => exact Or.inl h.escape
  | orElse hescape h =>
    cases h with
    | seq hstop hany =>
      cases hstop with
      | absent hstop =>
        obtain ⟨c, rest, hc, rfl⟩ := hany.any
        refine Or.inr ⟨c, rest, hc, rfl, hescape.not_escape hc, ?_, ?_⟩
        · rintro rfl
          cases hstop with
          | orElse hmark _ => exact absurd (hc ▸ List.prefix_append [c] rest) hmark.not_prefix
        · rintro rfl
          cases hstop with
          | orElse _ hline => exact absurd rfl (hline.not_newline hc).1

theorem Gives.tripledUnit (h : Gives (tripledUnit m) cur (some (last, nodes))) :
    ReadsUnit m true cur last := by
  cases h with
  | seq hstop h =>
    cases hstop with
    | absent hstop =>
      cases h with
      | alt h => exact Or.inl h.escape
      | orElse hescape hany =>
        obtain ⟨c, rest, hc, rfl⟩ := hany.any
        refine Or.inr ⟨c, rest, hc, rfl, hescape.not_escape hc, ?_, fun _ => rfl⟩
        rintro rfl
        refine ⟨rfl, fun hthree => hstop.not_prefix ?_⟩
        rw [hc]
        exact (List.cons_prefix_cons).mpr ⟨rfl, hthree⟩

end Peg

namespace Quoting

/-- The character that a quote is made of. -/
def char : Quoting → Char
  | tripleDouble | double => '"'
  | tripleSingle | single => '\''

def isTriple : Quoting → Bool
  | tripleDouble | tripleSingle => true
  | double | single => false

/-- The characters of a quote. -/
def marks (q : Quoting) : List Char := if q.isTriple then [q.char, q.char, q.char] else [q.char]

end Quoting

namespace Peg

theorem quoted_eq (q : Quoting) :
    quoted q = .seq (.text q.marks) (.seq (.rule (.stringContent q)) (.text q.marks)) := by
  cases q <;> rfl

/-- The text between quotes is read unit by unit. -/
theorem Gives.quotedContent {q : Quoting} (h : Gives (quotedContent q) cur (some (last, nodes))) :
    Relation.ReflTransGen (ReadsUnit q.char q.isTriple) cur last := by
  obtain ⟨u, hu, hunit⟩ : ∃ u, Peg.quotedContent q = .star u ∧ ∀ cur mid xs,
      Gives u cur (some (mid, xs)) → ReadsUnit q.char q.isTriple cur mid := by
    cases q
    · exact ⟨Peg.tripledUnit '"', rfl, fun _ _ _ => Gives.tripledUnit⟩
    · exact ⟨Peg.tripledUnit '\'', rfl, fun _ _ _ => Gives.tripledUnit⟩
    · exact ⟨Peg.quotedUnit '"', rfl, fun _ _ _ => Gives.quotedUnit⟩
    · exact ⟨Peg.quotedUnit '\'', rfl, fun _ _ _ => Gives.quotedUnit⟩
  rw [hu] at h
  exact star_induction (fun _ _ => .refl) (fun _ _ _ _ he hs => .head (hunit _ _ _ he) hs) h

end Peg
end ConfigSandbox
