import ConfigSandbox.Proofs.Grammar.Path
import ConfigSandbox.Proofs.Grammar.Takes

/-!
# A piece of code does not depend on what follows it

A string, a comment and a backslash at the end of a line are read up to where they end, whatever stands
there. The one exception is three quotes that nothing closes: they look through the whole text before they
turn out to be an empty string and a quote.
-/
namespace ConfigSandbox

/-! ### Trees alike -/

/-- Whether the tree keeps the text of the rule. -/
def Rule.isLexeme : Rule → Bool
  | .reservedWord | .augmentedOperator | .identifier | .integer | .float | .stringPrefix
  | .stringContent _ => true
  | _ => false

mutual

/-- The same rules have matched, and where the tree keeps a text, the same text. -/
def Node.Alike : Node → Node → Prop
  | .mk r first last xs, .mk r' first' last' ys =>
    r = r' ∧ (r.isLexeme → first.textTo last = first'.textTo last') ∧ AreAlike xs ys

def AreAlike : List Node → List Node → Prop
  | [], [] => True
  | x :: xs, y :: ys => x.Alike y ∧ AreAlike xs ys
  | _, _ => False

end

theorem AreAlike.append {xs ys xs' ys' : List Node} (h : AreAlike xs xs') (h' : AreAlike ys ys') :
    AreAlike (xs ++ ys) (xs' ++ ys') := by
  induction xs generalizing xs' with
  | nil =>
    cases xs' with
    | nil => exact h'
    | cons => cases h
  | cons x xs ih =>
    cases xs' with
    | nil => cases h
    | cons x' xs' => exact ⟨h.1, ih h.2⟩

namespace Peg

variable {cur last : Cursor} {nodes : List Node} {cs tail tail' text : List Char} {q : Quoting}

/-! ### Line ends -/

/-- A line end, when `tail` follows it: a carriage return and a line feed are one. -/
def IsNewline (cs tail : List Char) : Prop :=
  cs = ['\n'] ∨ cs = ['\r', '\n'] ∨ cs = ['\r'] ∧ tail.head? ≠ some '\n'

theorem takes_newline (h : IsNewline cs tail) : Takes newline cs tail Silent := by
  have hfeed {more : List Char} : Refuses (.text ['\n']) ('\r' :: more) := refuses_lit (by decide)
  obtain rfl | rfl | ⟨rfl, htail⟩ := h
  · exact Takes.lit.alt
  · exact Takes.lit.alt.orElse hfeed
  · refine (Takes.lit.orElse ?_).orElse hfeed
    refine Refuses.of_not fun cur last nodes hrest hgives => htail ?_
    have hread := hgives.text_reads.rest_eq
    rw [hrest] at hread
    cases hread
    rfl

theorem Gives.newline_reads (h : Gives Peg.newline cur (some (last, nodes))) :
    nodes = [] ∧ ∃ cs, cur.Reads cs last ∧ IsNewline cs last.rest := by
  have h : Gives (.alt (.text ['\n']) (.alt (.text ['\r', '\n']) (.text ['\r']))) cur
    (some (last, nodes)) := h
  cases h with
  | alt h => exact ⟨h.nodes_eq_nil rfl, _, h.text_reads, Or.inl rfl⟩
  | orElse _ h =>
    cases h with
    | alt h => exact ⟨h.nodes_eq_nil rfl, _, h.text_reads, Or.inr (Or.inl rfl)⟩
    | orElse hboth h =>
      refine ⟨h.nodes_eq_nil rfl, _, h.text_reads, Or.inr (Or.inr ⟨rfl, fun hfeed => ?_⟩)⟩
      obtain ⟨more, hmore⟩ := List.head?_eq_some_iff.mp hfeed
      refine hboth.not_prefix ⟨more, ?_⟩
      rw [h.text_reads.rest_eq, hmore]
      rfl

/-- A line ends, or the text does. -/
def EndsLine (tail : List Char) : Prop := ∀ c ∈ tail.head?, c = '\n' ∨ c = '\r'

theorem refuses_newline_of_head (h : ∀ c ∈ text.head?, c ≠ '\n' ∧ c ≠ '\r') : Refuses newline text := by
  refine Refuses.of_not fun cur last nodes hrest hgives => ?_
  obtain ⟨rest, hline | hline⟩ := hgives.newline
  · exact (h '\n' (by rw [← hrest, hline]; rfl)).1 rfl
  · exact (h '\r' (by rw [← hrest, hline]; rfl)).2 rfl

theorem takes_restOfLine (hcs : ∀ c ∈ cs, c ≠ '\n' ∧ c ≠ '\r') (htail : EndsLine tail) :
    Takes restOfLine cs tail Silent := by
  induction cs with
  | nil =>
    refine (Refuses.star ?_).takes
    refine Refuses.of_not fun cur last nodes hrest hgives => ?_
    obtain ⟨mid, xs, ys, habsent, hany, -⟩ := hgives.of_seq
    cases habsent with
    | absent hline =>
      obtain ⟨c, rest, hc, -⟩ := hany.any
      have hne := hline.not_newline hc
      rw [hrest] at hc
      obtain rfl | rfl := htail c (by rw [hc]; rfl)
      · exact hne.1 rfl
      · exact hne.2 rfl
  | cons c cs ih =>
    have hc := hcs c List.mem_cons_self
    have hline : Skips (.absent newline) (c :: cs ++ tail) := fun cur hrest =>
      .absent (refuses_newline_of_head (by simpa using hc) cur hrest)
    have hunit : Takes (.seq (.absent newline) (.one .any)) [c] (cs ++ tail) Silent :=
      (Takes.one rfl).past hline
    exact hunit.star_silent (List.cons_ne_nil _ _) (ih fun c' hc' => hcs c' (List.mem_cons_of_mem _ hc'))

theorem exists_line (cs : List Char) :
    ∃ line tail, cs = line ++ tail ∧ (∀ c ∈ line, c ≠ '\n' ∧ c ≠ '\r') ∧ EndsLine tail := by
  induction cs with
  | nil => exact ⟨[], [], rfl, by simp, by simp [EndsLine]⟩
  | cons c cs ih =>
    by_cases hc : c = '\n' ∨ c = '\r'
    · exact ⟨[], c :: cs, rfl, by simp, by simpa [EndsLine] using hc⟩
    · obtain ⟨line, tail, rfl, hline, htail⟩ := ih
      exact ⟨c :: line, tail, rfl, List.forall_mem_cons.mpr ⟨not_or.mp hc, hline⟩, htail⟩

/-- What takes the text ahead has given what it takes. -/
theorem Takes.unique {e : Peg} {P : List Node → Prop} (h : Takes e cs tail P)
    (hgives : Gives e cur (some (last, nodes))) (hrest : cur.rest = cs ++ tail) :
    cur.Reads cs last ∧ P nodes := by
  obtain ⟨last', nodes', hgives', hreads, hP⟩ := h cur hrest
  cases hgives.unique hgives'
  exact ⟨hreads, hP⟩

theorem Gives.restOfLine_reads (h : Gives Peg.restOfLine cur (some (last, nodes))) :
    nodes = [] ∧ ∃ cs, cur.Reads cs last ∧ (∀ c ∈ cs, c ≠ '\n' ∧ c ≠ '\r') ∧ EndsLine last.rest := by
  obtain ⟨line, tail, hrest, hline, htail⟩ := exists_line cur.rest
  obtain ⟨hreads, hnodes⟩ := (takes_restOfLine hline htail).unique h hrest
  exact ⟨hnodes, line, hreads, hline, rest_of_reads hrest hreads ▸ htail⟩

/-! ### Strings -/

end Peg

namespace Quoting

/-- Whether the text between the quotes ends before these characters. -/
def stops (q : Quoting) (cs : List Char) : Bool :=
  if q.isTriple then q.marks.isPrefixOf cs
  else cs.head?.any fun c => c = q.char || c = '\n' || c = '\r'

/-- What is left where the text between the quotes ends. The first character may be hidden by a backslash
before it. -/
def contentEnd (q : Quoting) : Bool → List Char → List Char
  | _, [] => []
  | true, _ :: cs => contentEnd q false cs
  | false, c :: cs => if q.stops (c :: cs) then c :: cs else contentEnd q (c = '\\') cs

theorem length_contentEnd_le (q : Quoting) (hidden : Bool) (cs : List Char) :
    (q.contentEnd hidden cs).length ≤ cs.length := by
  fun_induction contentEnd q hidden cs with
  | case1 => exact Nat.le_refl _
  | case2 _ _ ih => exact Nat.le_succ_of_le ih
  | case3 => exact Nat.le_refl _
  | case4 _ _ _ ih => exact Nat.le_succ_of_le ih

theorem contentEnd_suffix (q : Quoting) (hidden : Bool) (cs : List Char) :
    q.contentEnd hidden cs <:+ cs := by
  fun_induction contentEnd q hidden cs with
  | case1 => exact List.suffix_refl _
  | case2 _ _ ih => exact ih.trans (List.suffix_cons _ _)
  | case3 => exact List.suffix_refl _
  | case4 _ _ _ ih => exact ih.trans (List.suffix_cons _ _)

/-- The text between the quotes, when the closing quotes and `tail` follow it. -/
def Holds (q : Quoting) (cs tail : List Char) : Prop :=
  q.contentEnd false (cs ++ (q.marks ++ tail)) = q.marks ++ tail

theorem stops_marks (q : Quoting) (tail : List Char) : q.stops (q.marks ++ tail) := by
  cases q <;> simp [stops, marks, isTriple, char]

theorem marks_ne_nil (q : Quoting) : q.marks ≠ [] := by
  cases q <;> simp [marks, isTriple]

/-- Whether the text ends is told by as many characters as there are quotes. -/
theorem stops_append {cs : List Char} (q : Quoting) (hlength : q.marks.length ≤ cs.length)
    (tail tail' : List Char) : q.stops (cs ++ tail) = q.stops (cs ++ tail') := by
  have hne : cs ≠ [] := by
    rintro rfl
    exact q.marks_ne_nil (List.length_eq_zero_iff.mp (Nat.le_zero.mp hlength))
  obtain ⟨c, cs, rfl⟩ := List.exists_cons_of_ne_nil hne
  unfold stops
  split
  · have hprefix (more : List Char) : q.marks <+: c :: cs ++ more ↔ q.marks <+: c :: cs :=
      ⟨fun h => List.prefix_of_prefix_length_le h (List.prefix_append _ _) hlength,
        fun h => h.trans (List.prefix_append _ _)⟩
    rw [Bool.eq_iff_iff, List.isPrefixOf_iff_prefix, List.isPrefixOf_iff_prefix, hprefix, hprefix]
  · rfl

theorem contentEnd_congr {q : Quoting} {hidden : Bool} {cs tail : List Char}
    (h : q.contentEnd hidden (cs ++ (q.marks ++ tail)) = q.marks ++ tail) (tail' : List Char) :
    q.contentEnd hidden (cs ++ (q.marks ++ tail')) = q.marks ++ tail' := by
  induction cs generalizing hidden with
  | nil =>
    obtain ⟨m, ms, hm⟩ := List.exists_cons_of_ne_nil q.marks_ne_nil
    cases hidden with
    | true =>
      -- a hidden quote would have been passed
      have hle := q.length_contentEnd_le false (ms ++ tail)
      rw [List.nil_append, hm, List.cons_append, contentEnd] at h
      rw [h, List.length_cons] at hle
      exact absurd hle (Nat.not_succ_le_self _)
    | false =>
      have hstops := q.stops_marks tail'
      rw [hm, List.cons_append] at hstops
      rw [List.nil_append, hm, List.cons_append, contentEnd, if_pos hstops]
  | cons c cs ih =>
    cases hidden with
    | true => exact ih h
    | false =>
      have hlength : q.marks.length ≤ (c :: cs ++ q.marks).length := by
        simp only [List.length_cons, List.length_append]
        omega
      have hstops := q.stops_append hlength tail tail'
      rw [List.append_assoc, List.append_assoc, List.cons_append, List.cons_append] at hstops
      rw [List.cons_append, contentEnd] at h ⊢
      split at h
      · have heq := congrArg List.length h
        simp only [List.length_cons, List.length_append] at heq
        omega
      · rename_i hnot
        rw [if_neg (hstops ▸ hnot)]
        exact ih h

theorem Holds.congr {q : Quoting} {cs tail : List Char} (h : q.Holds cs tail) (tail' : List Char) :
    q.Holds cs tail' := contentEnd_congr h tail'

/-- Three quotes that nothing closes look through the whole text. -/
theorem contentEnd_triple {q : Quoting} (hq : q.isTriple) (hidden : Bool) (cs : List Char) :
    q.contentEnd hidden cs = [] ∨ q.marks <+: q.contentEnd hidden cs := by
  fun_induction contentEnd q hidden cs with
  | case1 => exact Or.inl rfl
  | case2 _ _ ih => exact ih
  | case3 _ _ h =>
    rw [stops, if_pos hq] at h
    exact Or.inr (List.isPrefixOf_iff_prefix.mp h)
  | case4 _ _ _ ih => exact ih

end Quoting

namespace Peg

variable {e : Peg} {cur last : Cursor} {nodes : List Node} {cs tail tail' text : List Char} {q : Quoting} {c : Char}

/-- One unit of what stands between quotes. -/
def contentUnit (q : Quoting) : Peg := if q.isTriple then tripledUnit q.char else quotedUnit q.char

theorem quotedContent_eq (q : Quoting) : quotedContent q = .star (contentUnit q) := by
  cases q <;> rfl

theorem Refuses.absent (h : Refuses e text) : Skips (.absent e) text := fun cur hrest => .absent (h cur hrest)

theorem Takes.absent {P : List Node → Prop} (h : Takes e cs tail P) : Refuses (.absent e) (cs ++ tail) := by
  intro cur hrest
  obtain ⟨last, nodes, hgives, -, -⟩ := h cur hrest
  exact .present hgives

theorem refuses_any : Refuses (.one .any) [] := by
  intro cur hrest
  refine .noOne ?_
  rw [Cursor.one?, hrest]

/-- A backslash hides a character only if there is one. -/
theorem refuses_escape (h : ∀ c tail, text ≠ '\\' :: c :: tail) :
    Refuses (.seq (.text ['\\']) (.one .any)) text := by
  refine Refuses.of_not fun cur last nodes hrest hgives => ?_
  obtain ⟨c, tail, hc, -⟩ := hgives.escape
  exact h c tail (hrest.symm.trans hc)

theorem takes_escape {c : Char} : Takes (.seq (.text ['\\']) (.one .any)) ['\\', c] tail Silent :=
  (Takes.one rfl).after Takes.lit

theorem refuses_contentUnit (h : text = [] ∨ q.stops text) : Refuses (contentUnit q) text := by
  unfold contentUnit
  obtain rfl | h := h
  · have hnone {c : Char} {cs : List Char} : Refuses (.text (c :: cs)) [] :=
      Refuses.lit (by simp)
    have hescape : Refuses (.seq (.text ['\\']) (.one .any)) [] := refuses_escape (by simp)
    split
    · exact (hescape.alt refuses_any).past hnone.absent
    · exact hescape.alt (refuses_any.past (hnone.alt (refuses_newline_of_head (by simp))).absent)
  rw [Quoting.stops] at h
  split at h
  · rename_i hq
    rw [List.isPrefixOf_iff_prefix, Quoting.marks, if_pos hq] at h
    obtain ⟨more, rfl⟩ := h
    rw [if_pos hq]
    exact Takes.lit.absent.seq
  · rename_i hq
    rw [if_neg hq]
    cases text with
    | nil => cases h
    | cons c text =>
      simp only [List.head?_cons, Option.any_some, Bool.or_eq_true, decide_eq_true_eq, or_assoc] at h
      refine Refuses.alt (refuses_escape ?_) (Refuses.seq (Refuses.of_not ?_))
      · rintro d tail heq
        cases heq
        cases q <;> simp [Quoting.char] at h
      · rintro cur last nodes hrest hgives
        cases hgives with
        | absent hgives =>
          cases hgives with
          | orElse hmark hline =>
            have hnot := hline.not_newline hrest
            obtain rfl | hc | hc := h
            · exact hmark.not_prefix (hrest ▸ List.prefix_append [_] text)
            · exact hnot.1 hc
            · exact hnot.2 hc

theorem skips_contentUnit_absent {c : Char} (hstops : ¬ q.stops (c :: tail)) :
    if q.isTriple then Skips (.absent (.text [q.char, q.char, q.char])) (c :: tail)
    else Skips (.absent (.alt (.text [q.char]) newline)) (c :: tail) := by
  rw [Quoting.stops] at hstops
  split
  · rename_i hq
    rw [if_pos hq, List.isPrefixOf_iff_prefix, Quoting.marks, if_pos hq] at hstops
    exact (Refuses.lit hstops).absent
  · rename_i hq
    rw [if_neg hq] at hstops
    simp only [List.head?_cons, Option.any_some, Bool.or_eq_true, decide_eq_true_eq, not_or] at hstops
    exact (Refuses.alt (refuses_lit (Ne.symm hstops.1.1)) (refuses_newline_of_head (by simpa using
      ⟨hstops.1.2, hstops.2⟩))).absent

theorem takes_contentUnit_escape {c : Char} : Takes (contentUnit q) ['\\', c] tail Silent := by
  unfold contentUnit
  split
  · exact takes_escape.alt.past (Refuses.lit (by cases q <;> simp [Quoting.char])).absent
  · exact takes_escape.alt

theorem takes_contentUnit {c : Char} (hstops : ¬ q.stops (c :: tail)) (hc : c = '\\' → tail = []) :
    Takes (contentUnit q) [c] tail Silent := by
  have habsent := skips_contentUnit_absent hstops
  have hescape : Refuses (.seq (.text ['\\']) (.one .any)) ([c] ++ tail) := by
    refine refuses_escape fun d more heq => ?_
    cases heq
    cases hc rfl
  unfold contentUnit
  split
  · rename_i hq
    rw [if_pos hq] at habsent
    exact ((Takes.one rfl).orElse hescape).past habsent
  · rename_i hq
    rw [if_neg hq] at habsent
    exact ((Takes.one rfl).past habsent).orElse hescape

/-- What stands between quotes is read up to where it ends. -/
theorem skips_or_takes_content (q : Quoting) (hidden : Bool) (cs : List Char) :
    ∃ content, (if hidden then '\\' :: cs else cs) = content ++ q.contentEnd hidden cs ∧
      Takes (.star (contentUnit q)) content (q.contentEnd hidden cs) Silent := by
  fun_induction Quoting.contentEnd q hidden cs with
  | case1 hidden =>
    cases hidden with
    | true =>
      have hunit : Takes (contentUnit q) ['\\'] ([] ++ []) Silent :=
        takes_contentUnit (by cases q <;> decide) fun _ => rfl
      exact ⟨['\\'], rfl, hunit.star_silent (by simp) (refuses_contentUnit (Or.inl rfl)).star.takes⟩
    | false => exact ⟨[], rfl, (refuses_contentUnit (Or.inl rfl)).star.takes⟩
  | case2 c cs ih =>
    obtain ⟨content, hcs, htakes⟩ := ih
    refine ⟨['\\', c] ++ content, ?_, takes_contentUnit_escape.star_silent (by simp) htakes⟩
    rw [List.append_assoc, ← hcs]
    rfl
  | case3 c cs h => exact ⟨[], rfl, (refuses_contentUnit (Or.inr h)).star.takes⟩
  | case4 c cs h ih =>
    by_cases hc : c = '\\'
    · subst hc
      exact ih
    · obtain ⟨content, hcs, htakes⟩ := ih
      rw [decide_eq_false hc] at hcs htakes ⊢
      refine ⟨c :: content, ?_, ?_⟩
      · rw [List.cons_append, ← hcs]
        rfl
      · rw [if_neg (by simp)] at hcs
        have hunit : Takes (contentUnit q) [c] (content ++ q.contentEnd false cs) Silent :=
          takes_contentUnit (hcs ▸ h) fun heq => absurd heq hc
        exact hunit.star_silent (by simp) htakes

theorem takes_quotedContent (h : q.Holds cs tail) :
    Takes (.rule (.stringContent q)) cs (q.marks ++ tail) (Single (.stringContent q) cs Silent) := by
  obtain ⟨content, hcs, htakes⟩ := skips_or_takes_content q false (cs ++ (q.marks ++ tail))
  rw [h] at hcs htakes
  obtain rfl : cs = content := List.append_cancel_right hcs
  rw [← quotedContent_eq] at htakes
  exact Takes.rule (r := .stringContent q) htakes

theorem takes_of_holds (h : q.Holds cs tail) :
    Takes (quoted q) (q.marks ++ (cs ++ q.marks)) tail (Single (.stringContent q) cs Silent) := by
  have hcontent := takes_quotedContent h
  rw [quoted_eq]
  refine Takes.after (Takes.close hcontent Takes.lit) Takes.lit

theorem Gives.quoted_holds (h : Gives (quoted q) cur (some (last, nodes))) :
    ∃ cs, cur.Reads (q.marks ++ (cs ++ q.marks)) last ∧ q.Holds cs last.rest := by
  rw [quoted_eq] at h
  obtain ⟨start, xs, ys, hopen, htail, -⟩ := h.of_seq
  obtain ⟨stop, us, vs, hrule, hclose, -⟩ := htail.of_seq
  obtain ⟨children, hcontent, -⟩ := hrule.of_rule
  obtain ⟨content, hrest, htakes⟩ := skips_or_takes_content q false start.rest
  rw [← quotedContent_eq] at htakes
  have hreads := (htakes.unique hcontent hrest).1
  have hend := rest_of_reads hrest hreads
  rw [hclose.text_reads.rest_eq] at hend
  refine ⟨content, hopen.text_reads.append (hreads.append hclose.text_reads), ?_⟩
  rw [Quoting.Holds, hend, ← hrest]
  rfl

theorem areAlike_nil {xs : List Node} (h : Silent xs) : AreAlike [] xs := by
  subst h
  trivial

/-- Where the body of a rule is read the same, so is the rule. -/
theorem Takes.rule_alike {r : Rule} {first last : Cursor} {xs : List Node}
    (h : Takes r.body cs tail (AreAlike xs)) (hreads : first.Reads cs last) :
    Takes (.rule r) cs tail (AreAlike [.mk r first last xs]) := by
  refine h.rule.mono ?_
  rintro _ ⟨first', last', ys, rfl, hreads', halike⟩
  exact ⟨⟨rfl, fun _ => hreads.textTo_eq.trans hreads'.textTo_eq.symm, halike⟩, trivial⟩

theorem Single.alike {r : Rule} {xs ys : List Node} (h : Single r cs Silent xs) (h' : Single r cs Silent ys) :
    AreAlike xs ys := by
  obtain ⟨first, last, _, rfl, hreads, rfl⟩ := h
  obtain ⟨first', last', _, rfl, hreads', rfl⟩ := h'
  exact ⟨⟨rfl, fun _ => hreads.textTo_eq.trans hreads'.textTo_eq.symm, trivial⟩, trivial⟩

/-- What is between the quotes does not depend on what follows them. -/
theorem Gives.quoted_takes (h : Gives (quoted q) cur (some (last, nodes))) (hreads : cur.Reads cs last)
    (tail' : List Char) : Takes (quoted q) cs tail' (AreAlike nodes) := by
  obtain ⟨content, hread, hholds⟩ := h.quoted_holds
  obtain rfl : cs = q.marks ++ (content ++ q.marks) := hreads.textTo_eq.symm.trans hread.textTo_eq
  have hnodes := ((takes_of_holds hholds).unique h hread.rest_eq).2
  exact (takes_of_holds (hholds.congr tail')).mono fun nodes' hnodes' => hnodes.alike hnodes'

theorem refuses_of_gives (h : Gives (quoted q) cur none) : Refuses (quoted q) cur.rest := by
  refine Refuses.of_not fun other last nodes hrest hgives => ?_
  obtain ⟨content, hread, hholds⟩ := hgives.quoted_holds
  obtain ⟨last', nodes', hgives', -⟩ := takes_of_holds hholds cur (hrest ▸ hread.rest_eq)
  cases h.unique hgives'

/-- A string is read the same whatever follows it, if three quotes that nothing closes stay so. -/
theorem Gives.stringText_takes (h : Gives Peg.stringText cur (some (last, nodes)))
    (hreads : cur.Reads cs last)
    (hopen : ∀ q : Quoting, q.isTriple → Refuses (quoted q) (cs ++ last.rest) →
      Refuses (quoted q) (cs ++ tail')) :
    Takes Peg.stringText cs tail' (AreAlike nodes) := by
  have hrefuses {q : Quoting} (hq : q.isTriple) (h : Gives (quoted q) cur none) :
      Refuses (quoted q) (cs ++ tail') :=
    hopen q hq (hreads.rest_eq ▸ refuses_of_gives h)
  cases h with
  | alt h => exact (h.quoted_takes hreads tail').alt
  | orElse hdouble h =>
    refine Takes.orElse ?_ (hrefuses rfl hdouble)
    cases h with
    | alt h => exact (h.quoted_takes hreads tail').alt
    | orElse hsingle h =>
      refine Takes.orElse ?_ (hrefuses rfl hsingle)
      cases h with
      | alt h => exact (h.quoted_takes hreads tail').alt
      | orElse _ h =>
        refine (h.quoted_takes hreads tail').orElse ?_
        obtain ⟨content, hread, -⟩ := h.quoted_holds
        obtain rfl : cs = ['\''] ++ (content ++ ['\'']) := hreads.textTo_eq.symm.trans hread.textTo_eq
        exact (refuses_lit (by decide)).seq

/-- A piece is read the same whatever follows it, if what follows begins the same and three quotes that
nothing closes stay so. What follows a string may begin otherwise. -/
theorem Gives.piece_takes {e : Peg} (he : e.isPiece) (h : Gives e cur (some (last, nodes)))
    (hreads : cur.Reads cs last) (hhead : e = Peg.stringText ∨ tail'.head? = last.rest.head?)
    (hopen : ∀ q : Quoting, q.isTriple → Refuses (quoted q) (cs ++ last.rest) →
      Refuses (quoted q) (cs ++ tail')) :
    Takes e cs tail' (AreAlike nodes) := by
  simp only [isPiece, Bool.or_eq_true, decide_eq_true_eq] at he
  obtain (rfl | rfl) | rfl := he
  · obtain ⟨mid, xs, ys, hhash, hline, rfl⟩ := h.of_seq
    obtain ⟨rfl, line, hread, hcs, hend⟩ := hline.restOfLine_reads
    obtain rfl : xs = [] := hhash.nodes_eq_nil rfl
    obtain rfl : cs = ['#'] ++ line := hreads.textTo_eq.symm.trans (hhash.text_reads.append hread).textTo_eq
    have hhead' := hhead.resolve_left (by decide)
    have hend' : EndsLine tail' := by rwa [EndsLine, hhead']
    exact ((takes_restOfLine hcs hend').after Takes.lit).mono fun _ => areAlike_nil
  · obtain ⟨mid, xs, ys, hslash, hline, rfl⟩ := h.of_seq
    obtain ⟨rfl, line, hread, hnewline⟩ := hline.newline_reads
    obtain rfl : xs = [] := hslash.nodes_eq_nil rfl
    obtain rfl : cs = ['\\'] ++ line := hreads.textTo_eq.symm.trans (hslash.text_reads.append hread).textTo_eq
    have hhead' := hhead.resolve_left (by decide)
    have hnewline' : IsNewline line tail' := by rwa [IsNewline, hhead']
    exact ((takes_newline hnewline').after Takes.lit).mono fun _ => areAlike_nil
  · exact h.stringText_takes hreads hopen

/-! ### A line end more -/

/-- What begins a text and does not have the character that the second part begins with begins the first
part. -/
theorem prefix_of_not_mem (hcs : c ∉ cs) (h : cs <+: text ++ c :: tail) : cs <+: text := by
  rcases Nat.lt_or_ge text.length cs.length with hlt | hle
  · have hline : text ++ [c] <+: cs :=
      List.prefix_of_prefix_length_le (by simp) h (by simpa using Nat.succ_le_of_lt hlt)
    exact absurd (hline.subset (by simp)) hcs
  · exact List.prefix_of_prefix_length_le h (List.prefix_append _ _) hle

/-- A line end more closes no quotes, unless a backslash would hide it. -/
theorem contentEnd_insert (hq : q.isTriple) {hidden : Bool} (hhidden : cs = [] → hidden = false)
    (hlast : cs.getLast? ≠ some '\\') (h : q.contentEnd hidden (cs ++ tail) = []) :
    q.contentEnd hidden (cs ++ '\n' :: tail) = [] := by
  have hstop (cs : List Char) (hstops : ¬ q.stops (cs ++ tail)) : ¬ q.stops (cs ++ '\n' :: tail) := by
    rw [Quoting.stops, if_pos hq, List.isPrefixOf_iff_prefix] at hstops ⊢
    exact fun hprefix => hstops ((prefix_of_not_mem (by cases q <;> decide) hprefix).trans (List.prefix_append _ _))
  induction cs generalizing hidden with
  | nil =>
    obtain rfl := hhidden rfl
    have hstops : ¬ q.stops ('\n' :: tail) := by
      cases q <;> simp [Quoting.stops, Quoting.isTriple, Quoting.marks, Quoting.char] at hq ⊢
    rw [List.nil_append, Quoting.contentEnd, if_neg hstops]
    exact h
  | cons c cs ih =>
    have hlast' : cs.getLast? ≠ some '\\' := by
      cases cs with
      | nil => simp
      | cons d cs => rwa [List.getLast?_cons_cons] at hlast
    cases hidden with
    | true => exact ih (fun _ => rfl) hlast' h
    | false =>
      rw [List.cons_append, Quoting.contentEnd] at h ⊢
      split at h
      · cases h
      · rename_i hnot
        have hmore := hstop (c :: cs) hnot
        rw [List.cons_append] at hmore
        rw [if_neg hmore]
        refine ih (fun hnil => ?_) hlast' h
        subst hnil
        exact decide_eq_false fun hc => hlast (hc ▸ rfl)

theorem refuses_insert (hq : q.isTriple) (hlast : cs.getLast? ≠ some '\\')
    (h : Refuses (quoted q) (cs ++ tail)) : Refuses (quoted q) (cs ++ '\n' :: tail) := by
  refine Refuses.of_not fun cur last nodes hrest hgives => ?_
  obtain ⟨content, hread, hholds⟩ := hgives.quoted_holds
  have htext := hrest.symm.trans hread.rest_eq
  rw [List.append_assoc, List.append_assoc] at htext
  obtain ⟨more, rfl⟩ := prefix_of_not_mem (by cases q <;> decide) (htext ▸ List.prefix_append q.marks _)
  rw [List.append_assoc, List.append_cancel_left_eq] at htext
  rw [Quoting.Holds, ← htext] at hholds
  have hmore : more.getLast? ≠ some '\\' := by
    rcases List.eq_nil_or_concat more with rfl | ⟨front, d, rfl⟩
    · simp
    · simpa using hlast
  obtain hnone | ⟨tail', hclosed⟩ := Quoting.contentEnd_triple hq false (more ++ tail)
  · rw [contentEnd_insert hq (fun _ => rfl) hmore hnone] at hholds
    exact q.marks_ne_nil (List.append_eq_nil_iff.mp hholds.symm).1
  · obtain ⟨front, hfront⟩ := q.contentEnd_suffix false (more ++ tail)
    have hholds' : q.Holds front tail' := by
      rw [Quoting.Holds, hclosed, hfront]
    have htakes := takes_of_holds hholds'
    have htext' : q.marks ++ more ++ tail = q.marks ++ (front ++ q.marks) ++ tail' := by
      rw [List.append_assoc, ← hfront, ← hclosed]
      simp
    obtain ⟨last, nodes, hgives', -⟩ := htakes ⟨0, 1, _⟩ htext'
    cases (h ⟨0, 1, _⟩ rfl).unique hgives'

end Peg
end ConfigSandbox
