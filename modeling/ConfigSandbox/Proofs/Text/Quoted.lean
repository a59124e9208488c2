import ConfigSandbox.Text.Quoted

/-!
# What is written between quotes is read back

Each character is written so that reading takes exactly what was written for it and gives the character
again. What is written never ends the text early: neither the quote nor the end of a line stands in it
without a backslash before it.
-/
namespace ConfigSandbox

variable {q c : Char} {cs rest out more : List Char} {n : Nat}

/-! ### Escapes -/

theorem unescape_plain (hc : c ≠ '\\') : unescape (c :: rest) = (unescape rest).map (c :: ·) := by
  rw [unescape, if_neg hc]
  cases unescape rest <;> rfl

theorem unescape_escape (h : readEscape rest = .ok (out, more)) :
    unescape ('\\' :: rest) = (unescape more).map (out ++ ·) := by
  rw [unescape, if_pos rfl]
  split
  · rename_i fault hfault
    rw [h] at hfault
    cases hfault
  · rename_i out' more' hok
    rw [h] at hok
    cases hok
    dsimp only
    cases unescape more <;> rfl

/-- Two digits write a number below 256, and so do four. -/
theorem paddedDigits_hex {width : Nat} (hwidth : width = 2 ∨ width = 4) (hn : n < 256) :
    (paddedDigits 16 width n).length = width ∧ (paddedDigits 16 width n).all isHexDigit ∧
      digitsValue 16 (paddedDigits 16 width n) = n := by
  have hall : ∀ width ∈ [2, 4], ∀ n < 256, (paddedDigits 16 width n).length = width ∧
      (paddedDigits 16 width n).all isHexDigit ∧ digitsValue 16 (paddedDigits 16 width n) = n := by
    decide +kernel
  exact hall width (by simpa using hwidth) n hn

theorem hexEscape_paddedDigits {width : Nat} (hwidth : width = 2 ∨ width = 4) (hn : n < 256) :
    hexEscape width (paddedDigits 16 width n ++ rest) = .ok ([Char.ofNat n], rest) := by
  obtain ⟨hlength, hdigits, hvalue⟩ := paddedDigits_hex hwidth hn
  have hvalid : n.isValidChar := Or.inl (by omega)
  rw [hexEscape, List.take_left' hlength, List.drop_left' hlength]
  simp only [hlength, hdigits, hvalue, hvalid, and_self, if_true]

theorem unescape_escapeChar (hq : q = '"' ∨ q = '\'') (c : Char) (rest : List Char) :
    unescape (escapeChar q c ++ rest) = (unescape rest).map (c :: ·) := by
  have hhex (letter : Char) (width : Nat) (hletter : letter = 'x' ∧ width = 2 ∨ letter = 'u' ∧ width = 4)
      (hc : c.toNat < 256) :
      unescape ('\\' :: letter :: paddedDigits 16 width c.toNat ++ rest) = (unescape rest).map (c :: ·) := by
    have hread : readEscape (letter :: paddedDigits 16 width c.toNat ++ rest) = .ok ([c], rest) := by
      obtain ⟨rfl, rfl⟩ | ⟨rfl, rfl⟩ := hletter
      · refine (hexEscape_paddedDigits (Or.inl rfl) hc).trans ?_
        rw [Char.ofNat_toNat]
      · refine (hexEscape_paddedDigits (Or.inr rfl) hc).trans ?_
        rw [Char.ofNat_toNat]
    exact unescape_escape hread
  unfold escapeChar
  split
  · rename_i hc
    have hread : readEscape (c :: rest) = .ok ([c], rest) := by
      simp only [Bool.or_eq_true, decide_eq_true_eq] at hc
      rcases hc with rfl | rfl
      · rcases hq with rfl | rfl <;> rfl
      · rfl
    exact unescape_escape hread
  split
  · subst c
    have hread : readEscape ('n' :: rest) = .ok (['\n'], rest) := rfl
    exact unescape_escape hread
  split
  · subst c
    have hread : readEscape ('r' :: rest) = .ok (['\r'], rest) := rfl
    exact unescape_escape hread
  split
  · subst c
    have hread : readEscape ('t' :: rest) = .ok (['\t'], rest) := rfl
    exact unescape_escape hread
  split
  · rename_i hc
    refine hhex 'x' 2 (Or.inl ⟨rfl, rfl⟩) ?_
    simp only [Bool.or_eq_true, decide_eq_true_eq] at hc
    omega
  split
  · rename_i hc
    refine hhex 'u' 4 (Or.inr ⟨rfl, rfl⟩) ?_
    simp only [Bool.and_eq_true, decide_eq_true_eq] at hc
    omega
  · rename_i hc _ _ _ _ _
    refine unescape_plain ?_
    rintro rfl
    simp at hc

theorem unescape_flatMap_escapeChar (hq : q = '"' ∨ q = '\'') (cs : List Char) :
    unescape (cs.flatMap (escapeChar q)) = .ok cs := by
  induction cs with
  | nil => rw [List.flatMap_nil, unescape]
  | cons c cs ih =>
    rw [List.flatMap_cons, unescape_escapeChar hq, ih]
    rfl

/-! ### What is written -/

/-- What may stand between two such quotes on one line. -/
inductive Quotable (q : Char) : List Char → Prop
  | nil : Quotable q []
  | escape (c : Char) {cs : List Char} (h : Quotable q cs) : Quotable q ('\\' :: c :: cs)
  | plain {c : Char} {cs : List Char} (hc : c ≠ q ∧ c ≠ '\\' ∧ c ≠ '\n' ∧ c ≠ '\r') (h : Quotable q cs) :
      Quotable q (c :: cs)

theorem Quotable.append (h : Quotable q cs) (h' : Quotable q rest) : Quotable q (cs ++ rest) := by
  induction h with
  | nil => exact h'
  | escape c _ ih => exact .escape c ih
  | plain hc _ ih => exact .plain hc ih

theorem quotable_of_hex (hq : q = '"' ∨ q = '\'') (h : cs.all isHexDigit) : Quotable q cs := by
  induction cs with
  | nil => exact .nil
  | cons c cs ih =>
    rw [List.all_cons, Bool.and_eq_true] at h
    refine .plain ?_ (ih h.2)
    have hc := h.1
    refine ⟨?_, ?_, ?_, ?_⟩
    · rintro rfl
      rcases hq with rfl | rfl <;> cases hc
    all_goals
      rintro rfl
      cases hc

theorem quotable_escapeChar (hq : q = '"' ∨ q = '\'') (c : Char) : Quotable q (escapeChar q c) := by
  have hhex {width : Nat} (hwidth : width = 2 ∨ width = 4) (letter : Char) (hc : c.toNat < 256) :
      Quotable q ('\\' :: letter :: paddedDigits 16 width c.toNat) :=
    .escape letter (quotable_of_hex hq (paddedDigits_hex hwidth hc).2.1)
  unfold escapeChar
  split
  · exact .escape c .nil
  split
  · exact .escape 'n' .nil
  split
  · exact .escape 'r' .nil
  split
  · exact .escape 't' .nil
  split
  · rename_i hc
    refine hhex (Or.inl rfl) 'x' ?_
    simp only [Bool.or_eq_true, decide_eq_true_eq] at hc
    omega
  split
  · rename_i hc
    refine hhex (Or.inr rfl) 'u' ?_
    simp only [Bool.and_eq_true, decide_eq_true_eq] at hc
    omega
  · rename_i hmark hfeed hreturn _ _ _
    simp only [Bool.or_eq_true, decide_eq_true_eq, not_or] at hmark
    exact .plain ⟨hmark.1, hmark.2, hfeed, hreturn⟩ .nil

theorem quotable_flatMap_escapeChar (hq : q = '"' ∨ q = '\'') (cs : List Char) :
    Quotable q (cs.flatMap (escapeChar q)) := by
  induction cs with
  | nil => exact .nil
  | cons c cs ih => exact (quotable_escapeChar hq c).append ih

/-- The quotes around a text are no part of three in a row: the text does not begin with one, and none follows
the last. -/
theorem Quotable.not_prefix {tail : List Char} (hq : q = '"' ∨ q = '\'') (h : Quotable q cs)
    (htail : tail.head? ≠ some q) : ¬ [q, q] <+: cs ++ q :: tail := by
  intro hprefix
  cases h with
  | nil =>
    rw [List.nil_append, List.cons_prefix_cons] at hprefix
    obtain ⟨-, rest, rfl⟩ := hprefix
    exact htail rfl
  | escape c h =>
    rw [List.cons_append, List.cons_prefix_cons] at hprefix
    rcases hq with rfl | rfl <;> exact absurd hprefix.1 (by decide)
  | plain hc h =>
    rw [List.cons_append, List.cons_prefix_cons] at hprefix
    exact hc.1 hprefix.1.symm

/-- The quote that is written around a text is one of the two. -/
theorem quoteFor_cases (cs : List Char) : quoteFor cs = '"' ∨ quoteFor cs = '\'' := by
  unfold quoteFor
  split
  · exact Or.inl rfl
  · exact Or.inr rfl

end ConfigSandbox
