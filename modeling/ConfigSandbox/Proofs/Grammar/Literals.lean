import ConfigSandbox.Proofs.Grammar.Words
import ConfigSandbox.Proofs.Text.Quoted

/-!
# Literals

A literal is read to its end where a bracket closes, a comma, a colon or a line end follows, or nothing. The
grammar tries other literals first: the digits of an integer begin a float, and the quote of a string may
be the first of three.
-/
namespace ConfigSandbox.Peg

variable {cs ds text tail : List Char} {e : Peg} {c d m : Char}

/-! ### First characters -/

/-- What may follow an expression directly: one of these characters, or nothing. -/
def stops : List (Option Char) :=
  [none, some '\n', some ',', some ')', some ']', some '\x7d', some ':']

def Stops (tail : List Char) : Prop := tail.head? ∈ stops

theorem Stops.breaksWord (h : Stops tail) : breaksWord tail := by
  have hall : ∀ head ∈ stops, head.all fun c => !Identifier.isContinue c && !Nesting.isMark c := by
    decide
  exact hall _ h

/-! ### Integers -/

def digitHeads : List (Option Char) := "0123456789".toList.map some

theorem mem_digitHeads (hc : c.isDigit) : some c ∈ digitHeads := by
  have hrange : 48 ≤ c.toNat ∧ c.toNat ≤ 57 := by
    simp only [Char.isDigit, Bool.and_eq_true, decide_eq_true_eq, UInt32.le_iff_toNat_le, ge_iff_le] at hc
    exact hc
  have hall : ∀ n < 58, 48 ≤ n → some (Char.ofNat n) ∈ digitHeads := by decide
  rw [← Char.ofNat_toNat c]
  exact hall c.toNat (by omega) hrange.1

/-- Where digits stand, or what follows them. -/
theorem head_of_digits (hds : ∀ c ∈ ds, c.isDigit) (h : Stops tail) :
    (ds ++ tail).head? ∈ digitHeads ++ stops := by
  cases ds with
  | nil => exact List.mem_append_right digitHeads h
  | cons c ds => exact List.mem_append_left stops (mem_digitHeads (hds c List.mem_cons_self))

theorem takes_digits (hd : d.isDigit) (hds : ∀ c ∈ ds, c.isDigit) (h : Stops tail) :
    Takes digits (d :: ds) tail Silent := by
  have hmore : Takes (.star (chain [opt (lit "_"), .one .decimal])) ds tail Silent := by
    induction ds with
    | nil => exact (skips_at stops h (by decide)).takes
    | cons c ds ih =>
      obtain ⟨hc, hds⟩ := List.forall_mem_cons.mp hds
      have hplain : Refuses (lit "_") (c :: (ds ++ tail)) :=
        refuses_at digitHeads (mem_digitHeads hc) (by decide)
      have hone : CharClass.decimal.holds c := hc
      have hfirst : Takes (chain [opt (lit "_"), .one .decimal]) [c] (ds ++ tail) Silent :=
        (Takes.one hone).past hplain.opt
      exact hfirst.star_silent (List.cons_ne_nil c []) (ih hds)
  have hone : CharClass.decimal.holds d := hd
  exact hmore.after (Takes.one hone)

/-- Neither a point nor an exponent follows. -/
theorem refuses_float (hd : d.isDigit) (hds : ∀ c ∈ ds, c.isDigit) (h : Stops tail) :
    Refuses (.rule .float) (d :: ds ++ tail) := by
  have hpoint : Refuses (lit ".") (d :: ds ++ tail) :=
    refuses_at digitHeads (mem_digitHeads hd) (by decide)
  refine Refuses.rule (Refuses.seq (.alt ?_ (.alt hpoint.seq ?_)))
  · exact (Refuses.seq (refuses_at stops h (by decide))).after (takes_digits hd hds h)
  · exact (refuses_at stops h (by decide)).after (takes_digits hd hds h)

/-- A base would be named after a zero. -/
theorem refuses_based {letter : String} {next : Peg} (hletter : letter ∈ ["x", "o", "b"]) (hd : d.isDigit)
    (hds : ∀ c ∈ ds, c.isDigit) (h : Stops tail) :
    Refuses (.seq (lit "0") (.seq (litAnyCase letter) next)) (d :: ds ++ tail) := by
  by_cases hzero : d = '0'
  · subst hzero
    have hnext : Refuses (litAnyCase letter) (ds ++ tail) := by
      refine refuses_at _ (head_of_digits hds h) ?_
      revert letter
      decide
    have hone : Takes (lit "0") ['0'] (ds ++ tail) Silent := Takes.lit
    exact hnext.seq.after hone
  · exact (refuses_lit (Ne.symm hzero)).seq

theorem takes_integer (hd : d.isDigit) (hds : ∀ c ∈ ds, c.isDigit) (h : Stops tail) :
    Takes (.rule .integer) (d :: ds) tail (Single .integer (d :: ds) Silent) := by
  refine Takes.rule (Takes.before ?_ (skips_wordEnd h.breaksWord))
  refine Takes.orElse (.orElse (.orElse (takes_digits hd hds h) ?_) ?_) ?_
  all_goals exact refuses_based (by decide) hd hds h

/-! ### Strings -/

theorem refuses_newline (h : c ≠ '\n' ∧ c ≠ '\r') : Refuses newline (c :: text) :=
  (refuses_lit h.1.symm).alt ((refuses_lit h.2.symm).alt (refuses_lit h.2.symm))

theorem takes_content (hm : m = '"' ∨ m = '\'') (h : Quotable m cs) :
    Takes (.star (quotedUnit m)) cs (m :: tail) Silent := by
  have hslash : m ≠ '\\' := by rcases hm with rfl | rfl <;> decide
  induction h with
  | nil =>
    have hend : Refuses (.absent (.alt (.text [m]) newline)) (m :: tail) := by
      intro cur hrest
      have hone : Takes (.alt (.text [m]) newline) [m] tail Silent := Takes.lit.alt
      obtain ⟨last, nodes, hgives, -⟩ := hone cur hrest
      exact .present hgives
    exact ((refuses_lit hslash.symm).seq.alt hend.seq).star.takes
  | @escape c cs _ ih =>
    have hback : Takes (.text ['\\']) ['\\'] ([c] ++ (cs ++ m :: tail)) Silent := Takes.lit
    have hunit : Takes (quotedUnit m) ['\\', c] (cs ++ m :: tail) Silent := ((Takes.one rfl).after hback).alt
    exact hunit.star_silent (List.cons_ne_nil _ _) ih
  | @plain c cs hc _ ih =>
    obtain ⟨hmark, hback, hline⟩ := hc
    have hgoes : Skips (.absent (.alt (.text [m]) newline)) (c :: (cs ++ m :: tail)) := fun cur hrest =>
      .absent (((refuses_lit hmark.symm).alt (refuses_newline hline)) cur hrest)
    have hunit : Takes (quotedUnit m) [c] (cs ++ m :: tail) Silent :=
      ((Takes.one rfl).past hgoes).orElse (refuses_lit hback.symm).seq
    exact hunit.star_silent (List.cons_ne_nil _ _) ih

/-- Not three quotes stand here: the text does not begin with the quote, and none follows the string. -/
theorem refuses_three (hm : m = '"' ∨ m = '\'') (h : Quotable m cs) (htail : Stops tail) :
    Refuses (.text [m, m, m]) (m :: (cs ++ [m]) ++ tail) := by
  have hend : tail.head? ≠ some m := by
    intro hmark
    have hnot : some m ∉ stops := by rcases hm with rfl | rfl <;> decide
    exact hnot (hmark ▸ htail)
  refine Refuses.lit fun hprefix => ?_
  rw [List.cons_append, List.cons_prefix_cons, List.append_assoc] at hprefix
  exact h.not_prefix hm hend hprefix.2

/-- The quoting that a string on one line has. -/
def quotingOf (m : Char) : Quoting := if m = '"' then .double else .single

/-- The content of a string ends before the quote. -/
theorem takes_stringContent (hm : m = '"' ∨ m = '\'') (h : Quotable m cs) :
    Takes (.rule (.stringContent (quotingOf m))) cs (m :: tail)
      (Single (.stringContent (quotingOf m)) cs Silent) := by
  refine Takes.rule ?_
  rcases hm with rfl | rfl
  · exact takes_content (Or.inl rfl) h
  · exact takes_content (Or.inr rfl) h

theorem takes_quoted (hm : m = '"' ∨ m = '\'') (h : Quotable m cs) :
    Takes (quoted (quotingOf m)) (m :: (cs ++ [m])) tail (Single (.stringContent (quotingOf m)) cs Silent) := by
  have hmark : Takes (.text [m]) [m] (cs ++ [m] ++ tail) Silent := Takes.lit
  have hend : Takes (.text [m]) [m] tail Silent := Takes.lit
  have hquoted : Takes (.seq (.text [m]) (.seq (.rule (.stringContent (quotingOf m))) (.text [m])))
      (m :: (cs ++ [m])) tail (Single (.stringContent (quotingOf m)) cs Silent) :=
    ((takes_stringContent hm h).close hend).after hmark
  rw [quoted_eq]
  rcases hm with rfl | rfl <;> exact hquoted

/-- The node of a string literal without a prefix. -/
def LiteralNode (m : Char) (cs : List Char) : List Node → Prop :=
  Single .stringLiteral (m :: (cs ++ [m])) (Single (.stringContent (quotingOf m)) cs Silent)

theorem takes_strings (hm : m = '"' ∨ m = '\'') (h : Quotable m cs) (htail : Stops tail) :
    Takes (.rule .strings) (m :: (cs ++ [m])) tail (Single .strings (m :: (cs ++ [m])) (LiteralNode m cs)) := by
  have hprefix : Skips (opt (.rule .stringPrefix)) (m :: (cs ++ [m]) ++ tail) :=
    skips_at [some '"', some '\''] (by simpa using hm) (by decide)
  have hliteral : Takes (.rule .stringLiteral) (m :: (cs ++ [m])) tail (LiteralNode m cs) := by
    refine Takes.rule (Takes.past ?_ hprefix)
    have hquoted : Takes (quoted (quotingOf m)) (m :: (cs ++ [m])) tail _ := takes_quoted hm h
    have hthree := refuses_three hm h htail
    rcases hm with rfl | rfl
    · refine Takes.orElse (.orElse (.alt hquoted) ?_) hthree.seq
      exact (refuses_lit (by decide)).seq
    · refine Takes.orElse (.orElse (.orElse hquoted ?_) hthree.seq) ?_
      · exact (refuses_lit (by decide)).seq
      · exact (refuses_lit (by decide)).seq
  refine Takes.rule (hliteral.before ?_)
  exact skips_at stops htail (by decide)

/-! ### Words -/

/-- A word that is a literal is no name. -/
theorem refuses_identifier {word : String} (hword : word ∈ ["None", "True", "False"])
    (hb : breaksWord tail) : Refuses (.rule .identifier) (word.toList ++ tail) := by
  have hchoice : Takes (choice (reservedWords.map lit)) word.toList tail Silent := by
    have hone : Takes (lit word) word.toList tail Silent := Takes.lit
    simp only [List.mem_cons, List.not_mem_nil, or_false] at hword
    rcases hword with rfl | rfl | rfl
    · exact .orElse (.alt hone) (refuses_lit (by decide))
    · exact .orElse (.orElse (.alt hone) (refuses_lit (by decide))) (refuses_lit (by decide))
    · exact .alt hone
  have hreserved : Takes (.seq (choice (reservedWords.map lit)) (.absent (.one .identContinue)))
      word.toList tail Silent := hchoice.before (skips_wordEnd hb)
  refine Refuses.rule (Refuses.seq fun cur hrest => ?_)
  obtain ⟨last, nodes, hgives, -⟩ := hreserved cur hrest
  exact .present hgives

end ConfigSandbox.Peg
