import ConfigSandbox.Proofs.Grammar.Lexical
import ConfigSandbox.Proofs.Grammar.Takes
import ConfigSandbox.Proofs.Tree.Nesting

/-!
# Names and reserved words

A word ends where no character follows that could continue it. The grammar has reserved words looked for at
many places, and each of them is found to be another word only after it has been read. The letters before a
string literal begin a word too, but then a quote follows.
-/
namespace ConfigSandbox

/-- Whether the text can follow a word: neither does it go on, nor is it the quote of a string. -/
def breaksWord (tail : List Char) : Bool :=
  tail.head?.all fun c => !Identifier.isContinue c && !Nesting.isMark c

/-- Whether a word can begin with the character. -/
def opensWord (c : Char) : Bool := Identifier.isStart c || c == '_'

def isWord : List Char → Bool
  | [] => false
  | c :: cs => opensWord c && cs.all Identifier.isContinue

/-- Whether a text is a name: a word that is not reserved. -/
def isName (cs : List Char) : Bool := isWord cs && !Peg.reservedWords.any fun word => word.toList == cs

theorem isContinue_of_opensWord {c : Char} (h : opensWord c) : Identifier.isContinue c := by
  simp only [opensWord, Bool.or_eq_true, beq_iff_eq] at h
  rcases h with h | rfl
  · exact Identifier.isContinue_of_isStart h
  · rfl

theorem isContinue_of_isWord {cs : List Char} (h : isWord cs) : ∀ c ∈ cs, Identifier.isContinue c := by
  cases cs with
  | nil => cases h
  | cons c cs =>
    simp only [isWord, Bool.and_eq_true, List.all_eq_true] at h
    exact List.forall_mem_cons.mpr ⟨isContinue_of_opensWord h.1, h.2⟩

theorem isWord_of_isName {cs : List Char} (h : isName cs) : isWord cs := ((Bool.and_eq_true _ _).mp h).1

theorem ne_reserved_of_isName {cs : List Char} (h : isName cs) :
    ∀ word ∈ Peg.reservedWords, word.toList ≠ cs := by
  have hnone := ((Bool.and_eq_true _ _).mp h).2
  simpa using hnone

namespace Peg

variable {w tail : List Char} {v : List Char} {cur mid last : Cursor} {nodes : List Node}

/-! ### Where a word ends -/

/-- Characters that could be read of a word are some of the word. -/
theorem prefix_of_word {more : List Char} (hv : ∀ c ∈ v, Identifier.isContinue c) (hb : breaksWord tail)
    (h : w ++ tail = v ++ more) : ∃ left, w = v ++ left ∧ more = left ++ tail := by
  rcases List.append_eq_append_iff.mp h with ⟨left, hleft, htail⟩ | ⟨left, hleft, hmore⟩
  · cases left with
    | nil => exact ⟨[], by simpa using hleft.symm, by simpa using htail.symm⟩
    | cons c left =>
      have hc := hv c (hleft ▸ List.mem_append_right w List.mem_cons_self)
      rw [htail] at hb
      simp [breaksWord, hc] at hb
  · exact ⟨left, hleft, hmore⟩

/-- Where a word has been read and does not go on, it is the whole word that stood there. -/
theorem word_of_end (hw : ∀ c ∈ w, Identifier.isContinue c) (hv : ∀ c ∈ v, Identifier.isContinue c)
    (hb : breaksWord tail) (hrest : cur.rest = w ++ tail) (hreads : cur.Reads v mid)
    (hend : Gives (.one .identContinue) mid none) : v = w := by
  rw [hreads.rest_eq] at hrest
  obtain ⟨left, rfl, hleft⟩ := prefix_of_word hv hb hrest.symm
  cases left with
  | nil => exact (List.append_nil v).symm
  | cons c left =>
    have hc := hw c (List.mem_append_right v List.mem_cons_self)
    cases hend with
    | noOne h =>
      rw [Cursor.one?, hleft] at h
      simp [CharClass.holds, hc] at h

/-- An expression that reads one of some words. -/
def ReadsWord (e : Peg) (words : List String) : Prop :=
  ∀ cur last nodes, Gives e cur (some (last, nodes)) → ∃ word ∈ words, cur.Reads word.toList last

theorem readsWord_lit (word : String) : ReadsWord (lit word) [word] :=
  fun _ _ _ h => ⟨word, List.mem_cons_self, h.text_reads⟩

theorem readsWord_choice (words : List String) : ReadsWord (choice (words.map lit)) words := by
  intro cur last nodes h
  match words with
  | [] => cases h with
    | absent h => cases h
  | [word] => exact readsWord_lit word cur last nodes h
  | word :: next :: rest =>
    cases h with
    | alt h => exact ⟨word, List.mem_cons_self, Gives.text_reads h⟩
    | orElse _ h =>
      obtain ⟨found, hmem, hreads⟩ := readsWord_choice (next :: rest) _ _ _ h
      exact ⟨found, List.mem_cons_of_mem word hmem, hreads⟩

theorem ReadsWord.rule {r : Rule} {words : List String} (h : ReadsWord r.body words) :
    ReadsWord (.rule r) words := by
  intro cur last nodes hgives
  obtain ⟨xs, hbody, -⟩ := hgives.of_rule
  exact h cur last xs hbody

theorem isContinue_of_mem_reservedWords : ∀ word ∈ reservedWords, ∀ c ∈ word.toList,
    Identifier.isContinue c := by
  have hall : reservedWords.all fun word => word.toList.all Identifier.isContinue := by decide
  exact fun word hword => List.all_eq_true.mp (List.all_eq_true.mp hall word hword)

/-- An expression that matches only where no word goes on. -/
def EndsWord (e : Peg) : Prop :=
  ∀ cur last nodes, Gives e cur (some (last, nodes)) → Gives (.one .identContinue) cur none

theorem endsWord_absent : EndsWord (.absent (.one .identContinue)) := by
  intro cur last nodes h
  cases h with
  | absent h => exact h

theorem EndsWord.seq {a b : Peg} (h : EndsWord a) : EndsWord (.seq a b) := by
  intro cur last nodes hgives
  obtain ⟨mid, xs, ys, hfirst, -, -⟩ := hgives.of_seq
  exact h cur mid xs hfirst

/-- Another word than those that are looked for is not found to be one of them. -/
theorem refuses_words {e f : Peg} {words : List String} (he : ReadsWord e words) (hf : EndsWord f)
    (hwords : ∀ word ∈ words, word ∈ reservedWords) (hw : ∀ c ∈ w, Identifier.isContinue c)
    (hb : breaksWord tail) (hne : ∀ word ∈ words, word.toList ≠ w) :
    Refuses (.seq e f) (w ++ tail) := by
  refine .of_not fun cur last nodes hrest h => ?_
  obtain ⟨mid, xs, ys, hfirst, hsecond, -⟩ := h.of_seq
  obtain ⟨word, hmem, hreads⟩ := he cur mid xs hfirst
  refine hne word hmem ?_
  exact word_of_end hw (isContinue_of_mem_reservedWords word (hwords word hmem)) hb hrest hreads
    (hf mid last ys hsecond)

theorem skips_wordEnd (hb : breaksWord tail) : Skips (.absent (.one .identContinue)) tail := by
  intro cur hrest
  refine .absent (.noOne (one?_eq_none fun c hc => ?_))
  rw [hrest] at hc
  rw [breaksWord, hc] at hb
  simpa [CharClass.holds] using (Bool.and_eq_true _ _).mp hb |>.1

/-- A reserved word is found where it stands. -/
theorem takes_word (word : String) (hb : breaksWord tail) :
    Takes (chain [lit word, .absent (.one .identContinue)]) word.toList tail Silent :=
  Takes.lit.before (skips_wordEnd hb)

theorem refuses_word {word : String} (hword : word ∈ reservedWords)
    (hw : ∀ c ∈ w, Identifier.isContinue c) (hb : breaksWord tail) (hne : word.toList ≠ w) :
    Refuses (chain [lit word, .absent (.one .identContinue)]) (w ++ tail) :=
  refuses_words (readsWord_lit word) endsWord_absent (by simpa using hword) hw hb (by simpa using hne)

/-! ### Names -/

/-- A character class is read as long as it goes on. -/
theorem takes_star_one {cls : CharClass} {cs : List Char} (hcs : ∀ c ∈ cs, cls.holds c)
    (htail : ∀ c ∈ tail.head?, cls.holds c = false) : Takes (.star (.one cls)) cs tail Silent := by
  induction cs with
  | nil =>
    have hstop : Refuses (.one cls) tail := fun cur hrest => .noOne (one?_eq_none (hrest ▸ htail))
    exact hstop.star.takes
  | cons c cs ih =>
    obtain ⟨hc, hcs⟩ := List.forall_mem_cons.mp hcs
    exact (Takes.one hc).star_silent (List.cons_ne_nil c []) (ih hcs)

theorem takes_identifier (hw : isName w) (hb : breaksWord tail) :
    Takes (.rule .identifier) w tail (Single .identifier w Silent) := by
  have hcontinue := isContinue_of_isWord (isWord_of_isName hw)
  have hreserved : Refuses (chain [choice (reservedWords.map lit), .absent (.one .identContinue)])
      (w ++ tail) :=
    refuses_words (readsWord_choice reservedWords) endsWord_absent (fun _ h => h) hcontinue hb
      (ne_reserved_of_isName hw)
  refine Takes.rule ?_
  show Takes (.seq (.absent (chain [choice (reservedWords.map lit), .absent (.one .identContinue)]))
    (.seq (choice [.one .identStart, lit "_"]) (.star (.one .identContinue)))) w tail Silent
  refine Takes.past ?_ fun cur hrest => .absent (hreserved cur hrest)
  cases w with
  | nil => cases hw
  | cons c cs =>
    have hopens : opensWord c := ((Bool.and_eq_true _ _).mp (isWord_of_isName hw)).1
    have hstart : Takes (choice [.one .identStart, lit "_"]) [c] (cs ++ tail) Silent := by
      by_cases hc : Identifier.isStart c
      · have hholds : CharClass.identStart.holds c := hc
        exact (Takes.one hholds).alt
      · obtain rfl : c = '_' := by simpa [opensWord, hc] using hopens
        have hhead : ("_".toList ++ (cs ++ tail)).head? = some '_' := rfl
        exact Takes.lit.orElse (blockedAt_refuses hhead _ (by decide))
    refine Takes.after ?_ hstart
    refine takes_star_one (fun c hc => hcontinue c (List.mem_cons_of_mem _ hc)) fun c hc => ?_
    rw [breaksWord, hc] at hb
    simpa [CharClass.holds] using (Bool.and_eq_true _ _).mp hb |>.1

/-! ### Words before a string -/

theorem isContinue_of_isUpper {c : Char} (h : c.isUpper) : Identifier.isContinue c := by
  have hletter : 'A'.val ≤ c.val ∧ c.val ≤ 'Z'.val := of_decide_eq_true h
  have hlast : c.toNat ≤ 90 := hletter.2
  have halphanum : c.isAlphanum := by
    show (c.isUpper || c.isLower || c.isDigit) = true
    rw [h]
    rfl
  rw [Identifier.isContinue, if_pos (by omega), halphanum, Bool.true_or]

theorem isContinue_of_sameAnyCase {letter c : Char} (hletter : Identifier.isContinue letter)
    (h : sameAnyCase letter c) : Identifier.isContinue c := by
  by_cases hupper : c.isUpper
  · exact isContinue_of_isUpper hupper
  · have hsame : c.toLower = c := dif_neg fun hc => hupper (decide_eq_true hc)
    rw [sameAnyCase, beq_iff_eq, hsame] at h
    exact h ▸ hletter

theorem reads_anyCase {word : String} (hword : word.toList.all Identifier.isContinue)
    (h : Gives (litAnyCase word) cur (some (last, nodes))) :
    ∃ v, cur.Reads v last ∧ ∀ c ∈ v, Identifier.isContinue c := by
  cases h with
  | textAnyCase h =>
    have hletters := List.all_eq_true.mp hword
    exact Cursor.reads_of_text? (fun c hc r hr => isContinue_of_sameAnyCase (hletters c hc) hr) h

/-- The letters before a string are some of a word. -/
theorem reads_letters {words : List String} (hwords : ∀ word ∈ words, word.toList.all Identifier.isContinue)
    (h : Gives (choice (words.map litAnyCase)) cur (some (last, nodes))) :
    ∃ v, cur.Reads v last ∧ ∀ c ∈ v, Identifier.isContinue c := by
  match words with
  | [] => cases h with
    | absent h => cases h
  | [word] => exact reads_anyCase (hwords word List.mem_cons_self) h
  | word :: next :: rest =>
    obtain ⟨hword, hrest⟩ := List.forall_mem_cons.mp hwords
    cases h with
    | alt h => exact reads_anyCase hword h
    | orElse _ h => exact reads_letters hrest h

/-- After its prefix a string literal has a quote. -/
theorem mark_of_stringLiteral (h : Gives (.rule .stringLiteral) cur (some (last, nodes))) :
    ∃ v mid m more, cur.Reads v mid ∧ (∀ c ∈ v, Identifier.isContinue c) ∧ mid.rest = m :: more ∧
      Nesting.isMark m := by
  obtain ⟨xs, hbody, -⟩ := h.of_rule
  obtain ⟨mid, _, _, hprefix, hquoted, -⟩ := hbody.of_seq
  have hletters : ∃ v, cur.Reads v mid ∧ ∀ c ∈ v, Identifier.isContinue c := by
    cases hprefix with
    | alt hprefix =>
      obtain ⟨_, hbody, -⟩ := hprefix.of_rule
      exact reads_letters (by decide) hbody
    | orElse _ hnone =>
      cases hnone
      exact ⟨[], .nothing _, List.forall_mem_nil _⟩
  obtain ⟨v, hv, hcontinue⟩ := hletters
  have hmark (q : Quoting) {last : Cursor} {nodes : List Node}
      (h : Gives (quoted q) mid (some (last, nodes))) :
      ∃ m more, mid.rest = m :: more ∧ Nesting.isMark m := by
    rw [quoted_eq] at h
    obtain ⟨_, _, _, hmarks, -, -⟩ := h.of_seq
    have hrest := hmarks.text_reads.rest_eq
    cases q <;> exact ⟨_, _, hrest, rfl⟩
  obtain ⟨m, more, hrest, hm⟩ : ∃ m more, mid.rest = m :: more ∧ Nesting.isMark m := by
    cases hquoted with
    | alt h => exact hmark _ h
    | orElse _ h =>
      cases h with
      | alt h => exact hmark _ h
      | orElse _ h =>
        cases h with
        | alt h => exact hmark _ h
        | orElse _ h => exact hmark _ h
  exact ⟨v, mid, m, more, hv, hcontinue, hrest, hm⟩

theorem not_isContinue_of_isMark {m : Char} (hm : Nesting.isMark m) : Identifier.isContinue m = false := by
  simp only [Nesting.isMark, Bool.or_eq_true, decide_eq_true_eq] at hm
  rcases hm with rfl | rfl <;> decide

/-- Where a word stands there is no string: the quote would have to come in the word, or right after it. -/
theorem refuses_strings (hw : ∀ c ∈ w, Identifier.isContinue c) (hb : breaksWord tail) :
    Refuses (.rule .strings) (w ++ tail) := by
  refine .of_not fun cur last nodes hrest h => ?_
  obtain ⟨xs, hbody, -⟩ := h.of_rule
  obtain ⟨mid, _, _, hliteral, -, -⟩ := hbody.of_seq
  obtain ⟨v, mid, m, more, hv, hcontinue, hm, hmark⟩ := mark_of_stringLiteral hliteral
  have hnot := not_isContinue_of_isMark hmark
  rw [hv.rest_eq, hm] at hrest
  obtain ⟨left, rfl, hleft⟩ := prefix_of_word hcontinue hb hrest.symm
  cases left with
  | nil =>
    rw [List.nil_append] at hleft
    rw [← hleft] at hb
    simp [breaksWord, hmark] at hb
  | cons c left =>
    have hc := hw c (List.mem_append_right v List.mem_cons_self)
    cases hleft
    rw [hnot] at hc
    cases hc

end Peg
end ConfigSandbox
