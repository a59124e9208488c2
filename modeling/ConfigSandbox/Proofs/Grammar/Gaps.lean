import ConfigSandbox.Proofs.Grammar.Beside

/-!
# What stands between two tokens

Blanks, line ends, backslashes at line ends and comments that a line end ends. Where the grammar reads
blanks, line ends and blanks again, it reads all of it, however the line ends are spread.
-/
namespace ConfigSandbox.Peg

/-- A line feed or a carriage return. -/
def endsLine (c : Char) : Bool := c = '\n' || c = '\r'

theorem endsLine_iff {c : Char} : endsLine c ↔ c = '\n' ∨ c = '\r' := by simp [endsLine]

/-- Whether the characters can stand between two tokens inside brackets, here in a comment or outside. -/
def isFiller : Bool → List Char → Bool
  | comment, [] => !comment
  | true, c :: cs => isFiller (!endsLine c) cs
  | false, c :: cs =>
    if c = '#' then isFiller true cs
    else if c = '\\' then cs.head?.any endsLine && isFiller false cs
    else c ∈ Spot.fillers && isFiller false cs

/-- What is left behind one line end. -/
def afterLine : List Char → List Char
  | '\r' :: '\n' :: cs => cs
  | _ :: cs => cs
  | [] => []

theorem length_afterLine_le (cs : List Char) : (afterLine cs).length ≤ cs.length := by
  unfold afterLine
  split <;> simp only [List.length_cons, List.length_nil] <;> omega

/-- What is left of a filler from its first line end on. -/
def lineStart : Bool → List Char → List Char
  | _, [] => []
  | true, c :: cs => if endsLine c then c :: cs else lineStart true cs
  | false, c :: cs =>
    if endsLine c then c :: cs
    else if c = '#' then lineStart true cs
    else lineStart false (if c = '\\' then afterLine cs else cs)
termination_by _ cs => cs.length
decreasing_by
  · simp
  · simp
  · have := length_afterLine_le cs
    split <;> simp only [List.length_cons] <;> omega

variable {s : Spot} {cur last : Cursor} {nodes : List Node} {cs ds tail : List Char} {c : Char}

theorem isFiller_append {comment : Bool} (h : isFiller comment cs) (h' : isFiller false ds) :
    isFiller comment (cs ++ ds) := by
  induction cs generalizing comment with
  | nil =>
    cases comment with
    | true => cases h
    | false => exact h'
  | cons c cs ih =>
    cases comment with
    | true => exact ih h
    | false =>
      rw [isFiller] at h
      rw [List.cons_append, isFiller]
      split
      · rename_i hc
        rw [if_pos hc] at h
        exact ih h
      rename_i hc
      rw [if_neg hc] at h
      split
      · rename_i hslash
        rw [if_pos hslash, Bool.and_eq_true] at h
        rw [Bool.and_eq_true]
        refine ⟨?_, ih h.2⟩
        cases cs with
        | nil => cases h.1
        | cons => exact h.1
      · rename_i hslash
        rw [if_neg hslash, Bool.and_eq_true] at h
        rw [Bool.and_eq_true]
        exact ⟨h.1, ih h.2⟩

theorem head_of_isFiller (h : isFiller false (c :: cs)) : c ∈ Spot.fillers := by
  rw [isFiller] at h
  split at h
  · rename_i hc
    exact hc ▸ by decide
  split at h
  · rename_i hc
    exact hc ▸ by decide
  · exact of_decide_eq_true (Bool.and_eq_true _ _ ▸ h).1

/-- The text goes on with a token. -/
def Resumes (tail : List Char) : Prop := ∃ c rest, tail = c :: rest ∧ c ∉ Spot.fillers

theorem isFiller_afterLine (h : isFiller false cs) (hhead : cs.head?.any endsLine) (htail : Resumes tail) :
    isFiller false (afterLine cs) ∧ ∃ nl, cs = nl ++ afterLine cs ∧ IsNewline nl (afterLine cs ++ tail) := by
  obtain ⟨c, cs, rfl⟩ : ∃ c more, cs = c :: more := by
    cases cs with
    | nil => cases hhead
    | cons c cs => exact ⟨c, cs, rfl⟩
  have hline : c = '\n' ∨ c = '\r' := by simpa [endsLine] using hhead
  have hrest : isFiller false cs := by
    rw [isFiller, if_neg (by rintro rfl; simp at hline), if_neg (by rintro rfl; simp at hline),
      Bool.and_eq_true] at h
    exact h.2
  unfold afterLine
  split
  · rename_i heq
    cases heq
    rw [isFiller, if_neg (by decide), if_neg (by decide), Bool.and_eq_true] at hrest
    exact ⟨hrest.2, ['\r', '\n'], rfl, Or.inr (Or.inl rfl)⟩
  · rename_i hnot heq
    cases heq
    refine ⟨hrest, [c], rfl, ?_⟩
    obtain rfl | rfl := hline
    · exact Or.inl rfl
    · refine Or.inr (Or.inr ⟨rfl, fun hfeed => ?_⟩)
      cases cs with
      | nil =>
        obtain ⟨d, rest, rfl, hd⟩ := htail
        cases hfeed
        exact hd (by decide)
      | cons d cs =>
        cases hfeed
        exact hnot cs rfl rfl
  · rename_i heq
    cases heq

/-! ### A line end more -/

theorem afterLine_cons (h : c = '\r' → cs.head? ≠ some '\n') : afterLine (c :: cs) = cs := by
  unfold afterLine
  split
  · rename_i heq
    cases heq
    exact absurd rfl (h rfl)
  · rename_i heq
    cases heq
    rfl
  · rename_i heq
    cases heq

theorem afterLine_append (c d : Char) (cs ds : List Char) :
    afterLine (c :: d :: cs ++ ds) = afterLine (c :: d :: cs) ++ ds := by
  by_cases hline : c = '\r' ∧ d = '\n'
  · obtain ⟨rfl, rfl⟩ := hline
    rfl
  · have hfeed (hc : c = '\r') : d ≠ '\n' := fun hd => hline ⟨hc, hd⟩
    rw [List.cons_append, afterLine_cons (by simpa using hfeed), afterLine_cons (by simpa using hfeed)]

theorem lineStart_newline (inside : Bool) : lineStart inside ('\n' :: cs) ≠ [] := by
  cases inside <;> rw [lineStart, if_pos (by decide)] <;> exact List.cons_ne_nil _ _

theorem lineStart_afterLine (h : lineStart false (afterLine (c :: ds)) ≠ []) :
    lineStart false (afterLine (c :: '\n' :: ds)) ≠ [] := by
  by_cases hreturn : c = '\r'
  · subst hreturn
    cases ds with
    | nil => exact h
    | cons d ds =>
      by_cases hd : d = '\n'
      · subst hd
        exact lineStart_newline false
      · rwa [afterLine_cons (by simpa using hd)] at h
  · rw [afterLine_cons (absurd · hreturn)]
    exact lineStart_newline false

/-- A line end more leaves a free line end. -/
theorem lineStart_insert {inside : Bool} (h : isFiller inside cs) (htail : Resumes tail)
    (hlined : lineStart inside (cs ++ ds) ≠ []) : lineStart inside (cs ++ '\n' :: ds) ≠ [] := by
  fun_induction lineStart inside cs with
  | case1 inside => exact lineStart_newline inside
  | case2 c cs hc | case4 c cs hc =>
    rw [List.cons_append, lineStart, if_pos hc]
    exact List.cons_ne_nil _ _
  | case3 c cs hc ih =>
    rw [isFiller, eq_false_of_ne_true hc] at h
    rw [List.cons_append, lineStart, if_neg hc] at hlined ⊢
    exact ih h hlined
  | case5 cs hc ih =>
    rw [List.cons_append, lineStart, if_neg hc, if_pos rfl] at hlined ⊢
    exact ih h hlined
  | case6 c cs hc hhash ih =>
    rw [isFiller, if_neg hhash] at h
    rw [List.cons_append, lineStart, if_neg hc, if_neg hhash] at hlined ⊢
    split at ih
    · rename_i hslash
      rw [if_pos hslash, Bool.and_eq_true] at h
      rw [if_pos hslash] at hlined ⊢
      have hfiller := (isFiller_afterLine h.2 h.1 htail).1
      match cs with
      | [] => cases h.1
      | [d] => exact lineStart_afterLine hlined
      | d :: e :: cs =>
        rw [afterLine_append] at hlined ⊢
        exact ih hfiller hlined
    · rename_i hslash
      rw [if_neg hslash, Bool.and_eq_true] at h
      rw [if_neg hslash] at hlined ⊢
      exact ih h.2 hlined
/-- A backslash between two tokens does not stand last. -/
theorem getLast_of_isFiller {comment : Bool} (h : isFiller comment cs) : cs.getLast? ≠ some '\\' := by
  induction cs generalizing comment with
  | nil => simp
  | cons c cs ih =>
    cases cs with
    | nil =>
      rintro ⟨⟩
      cases comment <;> exact absurd h (by decide)
    | cons d ds =>
      rw [List.getLast?_cons_cons]
      cases comment with
      | true => exact ih h
      | false =>
        rw [isFiller] at h
        split at h
        · exact ih h
        split at h
        · exact ih (Bool.and_eq_true _ _ ▸ h).2
        · exact ih (Bool.and_eq_true _ _ ▸ h).2

/-! ### Blanks -/

/-- The characters that blanks begin with. -/
def blankHeads : List Char := [' ', '\t', '\x0c', '\\']

theorem refuses_blank (h : ∀ c ∈ tail.head?, c ∉ blankHeads) : Refuses blank tail := by
  have hlit {d : Char} {ds : List Char} (hd : d ∈ blankHeads) : Refuses (.text (d :: ds)) tail := by
    refine Refuses.lit ?_
    rintro ⟨more, rfl⟩
    exact h d rfl hd
  exact (hlit (by decide)).alt ((hlit (by decide)).alt ((hlit (by decide)).alt (hlit (by decide)).seq))

theorem refuses_comment (h : tail.head? ≠ some '#') : Refuses comment tail := by
  refine (Refuses.lit ?_).seq
  rintro ⟨more, rfl⟩
  exact h rfl

theorem skips_blanks (h : ∀ c ∈ tail.head?, c ∉ blankHeads ∧ c ≠ '#') : Skips blanks tail :=
  (refuses_blank fun c hc => (h c hc).1).star.seq
    (refuses_comment fun hhash => (h '#' hhash).2 rfl).seq.star

theorem skips_blanks_of_endsLine (hc : endsLine c) : Skips blanks (c :: cs) := by
  refine skips_blanks ?_
  rintro d hd
  cases hd
  obtain rfl | rfl := endsLine_iff.mp hc <;> decide

theorem Resumes.refuses_newline (h : Resumes tail) : Refuses newline tail := by
  obtain ⟨c, rest, rfl, hc⟩ := h
  refine refuses_newline_of_head ?_
  rintro d hd
  cases hd
  constructor <;> rintro rfl <;> exact hc (by decide)

theorem Resumes.skips_blanks (h : Resumes tail) : Skips blanks tail := by
  obtain ⟨c, rest, rfl, hc⟩ := h
  refine Peg.skips_blanks ?_
  rintro d hd
  cases hd
  exact ⟨fun hmem => hc ((by decide : blankHeads ⊆ Spot.fillers) hmem), fun hhash => hc (hhash ▸ by decide)⟩

theorem Takes.blanks_cons (h : Takes blank cs (ds ++ tail) Silent) (h' : Takes blanks ds tail Silent) :
    Takes blanks (cs ++ ds) tail Silent := by
  intro cur hrest
  rw [List.append_assoc] at hrest
  obtain ⟨mid, xs, hblank, hmid, rfl⟩ := h cur hrest
  obtain ⟨last, ys, hblanks, hlast, rfl⟩ := h' mid (rest_of_reads hrest hmid)
  obtain ⟨stop, us, vs, hstar, hmore, heq⟩ := hblanks.of_seq
  have hsome := hstar
  refine ⟨last, _, .seq (.again hblank (hblank.offset_lt (by decide)) hstar) hmore, hmid.append hlast, ?_⟩
  rw [List.nil_append, ← heq]
  rfl

/-- A comment up to the end of its line. -/
theorem takes_blanks_comment (hcs : ∀ c ∈ cs, c ≠ '\n' ∧ c ≠ '\r') (htail : tail.head?.any endsLine) :
    Takes blanks ('#' :: cs) tail Silent := by
  have hline : EndsLine tail := by
    intro c hc
    rw [Option.mem_def.mp hc] at htail
    simpa [endsLine] using htail
  have hskips : Skips (.star blank) tail := (refuses_blank fun c hc => by
    obtain rfl | rfl := hline c hc <;> decide).star
  have hcomment : Takes (.seq comment (.star blank)) ('#' :: cs) ([] ++ tail) Silent :=
    ((takes_restOfLine hcs hline).after Takes.lit).before hskips
  have hend : Skips (.star (.seq comment (.star blank))) tail := by
    refine (refuses_comment fun hhash => ?_).seq.star
    obtain h | h := hline '#' hhash <;> cases h
  have hstar := hcomment.star_silent (List.cons_ne_nil _ _) hend.takes
  rw [List.append_nil] at hstar
  exact hstar.past (refuses_blank (by simp [blankHeads])).star

theorem takes_blank {c : Char} (hc : c ∈ Spot.fillers) (hslash : c ≠ '\\') (hhash : c ≠ '#')
    (hline : ¬ endsLine c) : Takes blank [c] tail Silent := by
  simp only [Spot.fillers, List.mem_cons, List.not_mem_nil, or_false] at hc
  obtain rfl | rfl | rfl | rfl | rfl | rfl | rfl := hc
  · exact Takes.lit.alt
  · exact Takes.lit.alt.orElse (refuses_lit (by decide))
  · exact (Takes.lit.alt.orElse (refuses_lit (by decide))).orElse (refuses_lit (by decide))
  · exact absurd rfl hline
  · exact absurd rfl hline
  · exact absurd rfl hslash
  · exact absurd rfl hhash

theorem takes_blank_continuation (h : IsNewline cs tail) : Takes blank ('\\' :: cs) tail Silent := by
  have hslash : Takes continuation (['\\'] ++ cs) tail Silent := (takes_newline h).after Takes.lit
  exact ((hslash.orElse (refuses_lit (by decide))).orElse (refuses_lit (by decide))).orElse
    (refuses_lit (by decide))

/-- Blanks are read up to the first line end that is free. -/
theorem takes_blanks {inside : Bool} (h : isFiller inside cs) (htail : Resumes tail) :
    isFiller false (lineStart inside cs) ∧ (lineStart inside cs).head?.all endsLine ∧
      ∃ ds, cs = ds ++ lineStart inside cs ∧
        if inside then lineStart inside cs ≠ [] ∧ ∀ c ∈ ds, c ≠ '\n' ∧ c ≠ '\r'
        else Takes blanks ds (lineStart inside cs ++ tail) Silent := by
  fun_induction lineStart inside cs with
  | case1 inside =>
    cases inside with
    | true => cases h
    | false => exact ⟨rfl, rfl, [], rfl, htail.skips_blanks.takes⟩
  | case2 c cs hc =>
    rw [isFiller, hc] at h
    refine ⟨?_, hc, [], rfl, List.cons_ne_nil _ _, by simp⟩
    obtain rfl | rfl := endsLine_iff.mp hc <;> exact h
  | case3 c cs hc ih =>
    rw [isFiller, eq_false_of_ne_true hc] at h
    obtain ⟨hfiller, hall, ds, hcs, hne, hds⟩ := ih h
    refine ⟨hfiller, hall, c :: ds, ?_, hne, ?_⟩
    · rw [List.cons_append, ← hcs]
    · exact List.forall_mem_cons.mpr ⟨not_or.mp (mt endsLine_iff.mpr hc), hds⟩
  | case4 c cs hc => exact ⟨h, hc, [], rfl, (skips_blanks_of_endsLine hc).takes⟩
  | case5 cs hc ih =>
    obtain ⟨hfiller, hall, ds, hcs, hne, hds⟩ := ih h
    refine ⟨hfiller, hall, '#' :: ds, by rw [List.cons_append, ← hcs], takes_blanks_comment hds ?_⟩
    obtain ⟨c, rest, hline⟩ := List.exists_cons_of_ne_nil hne
    rw [hline] at hall ⊢
    exact hall
  | case6 c cs hc hhash ih =>
    rw [isFiller, if_neg hhash] at h
    split at ih
    · rename_i hslash
      rw [if_pos hslash, Bool.and_eq_true] at h
      obtain ⟨hafter, line, hcs, hnewline⟩ := isFiller_afterLine h.2 h.1 htail
      obtain ⟨hfiller, hall, ds, hds, htakes⟩ := ih hafter
      rw [if_pos hslash]
      refine ⟨hfiller, hall, ('\\' :: line) ++ ds, ?_, (takes_blank_continuation ?_).blanks_cons htakes⟩
      · rw [List.append_assoc, ← hds, List.cons_append, ← hcs, hslash]
      · rwa [← List.append_assoc, ← hds]
    · rename_i hslash
      rw [if_neg hslash, Bool.and_eq_true, decide_eq_true_eq] at h
      obtain ⟨hfiller, hall, ds, hcs, htakes⟩ := ih h.2
      rw [if_neg hslash]
      refine ⟨hfiller, hall, [c] ++ ds, ?_, (takes_blank h.1 hslash hhash hc).blanks_cons htakes⟩
      rw [List.append_assoc, ← hcs]
      rfl

/-- The filler begins with a line end, the blanks before it have been read. -/
theorem takes_newline_of_isFiller {c : Char} (h : isFiller false (c :: cs)) (hc : endsLine c)
    (htail : Resumes tail) : ∃ line ds, c :: cs = line ++ ds ∧ line ≠ [] ∧ isFiller false ds ∧
      Takes newline line (ds ++ tail) Silent := by
  obtain ⟨hafter, line, hline, hnewline⟩ := isFiller_afterLine h hc htail
  refine ⟨line, _, hline, ?_, hafter, takes_newline hnewline⟩
  rintro rfl
  obtain h | h | ⟨h, -⟩ := hnewline <;> cases h

/-- Line ends are read with the blanks between them, up to the blanks after the last. -/
theorem takes_lineEnds (h : isFiller false cs) (htail : Resumes tail) : ∃ ds es, cs = ds ++ es ∧
    Takes (.star (.seq blanks newline)) ds (es ++ tail) Silent ∧ Takes blanks es tail Silent := by
  induction hn : cs.length using Nat.strongRecOn generalizing cs with
  | ind n ih =>
    obtain ⟨hfiller, hall, ds, hcs, hblanks⟩ := takes_blanks h htail
    rw [if_neg Bool.false_ne_true] at hblanks
    generalize lineStart false cs = es at hfiller hall hcs hblanks
    cases es with
    | nil =>
      rw [List.append_nil] at hcs
      subst hcs
      exact ⟨[], cs, rfl, (htail.refuses_newline.after hblanks).star.takes, hblanks⟩
    | cons c es =>
      obtain ⟨line, more, hline, hne, hmore, htakes⟩ := takes_newline_of_isFiller hfiller hall htail
      obtain ⟨fs, gs, rfl, hstar, hlast⟩ := ih more.length (by
        rw [← hn, hcs, hline]
        have := List.length_pos_of_ne_nil hne
        simp only [List.length_append]
        omega) hmore rfl
      refine ⟨(ds ++ line) ++ fs, gs, ?_, ?_, hlast⟩
      · rw [hcs, hline]
        simp only [List.append_assoc]
      · rw [hline] at hblanks
        simp only [List.append_assoc] at hblanks htakes
        exact (htakes.after hblanks).star_silent (List.append_ne_nil_of_right_ne_nil ds hne) hstar

/-- At the first line end, or where there is none, the line ends are read up to the blanks after the last. -/
theorem takes_lines (h : isFiller false cs) (hhead : cs.head?.all endsLine) (htail : Resumes tail) :
    ∃ ds es, cs = ds ++ es ∧ Takes lines ds (es ++ tail) Silent ∧ Takes blanks es tail Silent := by
  cases cs with
  | nil => exact ⟨[], [], rfl, htail.refuses_newline.many.takes, htail.skips_blanks.takes⟩
  | cons c cs =>
    obtain ⟨line, more, hline, -, hmore, htakes⟩ := takes_newline_of_isFiller h hhead htail
    obtain ⟨ds, es, rfl, hstar, hblanks⟩ := takes_lineEnds hmore htail
    rw [List.append_assoc] at htakes
    exact ⟨line ++ ds, es, by rw [hline, List.append_assoc], (hstar.after htakes).opt, hblanks⟩

/-! ### Gaps -/

/-- Whether what stands at the place is as the spot has it. -/
def Spot.Suits (s : Spot) (gap tail : List Char) : Prop :=
  match s with
  | .after _ => s.hasGap
  | .before r => tail.head? = some r
  | .lined => lineStart false gap ≠ []

/-- Neither where the blanks of the gap begin nor where they end does a character stand that the spot
excludes. -/
theorem Spot.Suits.head_ne (h : s.Suits cs tail) (hfiller : isFiller false ds) (hlined : s = .lined → ds ≠ [])
    (hc : s.excludes c) : (ds ++ tail).head? ≠ some c := by
  intro hhead
  cases s with
  | after l =>
    have h : l ∈ ['(', '[', '\x7b', ',', ':'] := of_decide_eq_true h
    rw [Spot.excludes, Bool.and_eq_true, decide_eq_true_eq] at hc
    exact absurd h (hc.1 ▸ by decide)
  | before r =>
    rw [Spot.excludes, Bool.and_eq_true, decide_eq_true_eq, decide_eq_true_eq] at hc
    cases ds with
    | nil => exact hc.1 (Option.some.inj (hhead.symm.trans h))
    | cons d ds =>
      cases hhead
      exact hc.2 (head_of_isFiller hfiller)
  | lined =>
    obtain ⟨d, ds, rfl⟩ := List.exists_cons_of_ne_nil (hlined rfl)
    cases hhead
    exact of_decide_eq_true hc (head_of_isFiller hfiller)

/-- What stands between two tokens is a gap. -/
theorem exists_gap (hrest : cur.rest = cs ++ tail) (h : isFiller false cs) (htail : Resumes tail)
    (hsuits : s.Suits cs tail) : ∃ gap : Gap s cur, gap.last.rest = tail := by
  obtain ⟨hfiller, hall, ds, hcs, hblanks⟩ := takes_blanks h htail
  rw [if_neg Bool.false_ne_true] at hblanks
  have hlined : s = .lined → lineStart false cs ≠ [] := by
    rintro rfl
    exact hsuits
  generalize lineStart false cs = es at hfiller hall hcs hblanks hlined
  subst hcs
  obtain ⟨fs, gs, hes, hlines, hends⟩ := takes_lines hfiller hall htail
  have hmore {us : List Char} : us ++ tail ≠ [] := by
    obtain ⟨c, rest, rfl, -⟩ := htail
    exact List.append_ne_nil_of_right_ne_nil us (List.cons_ne_nil c rest)
  have hstays : Skips Peg.blanks (es ++ tail) := by
    cases es with
    | nil => exact htail.skips_blanks
    | cons c es => exact skips_blanks_of_endsLine hall
  obtain ⟨stop, _, hgives, hreads, rfl⟩ := hblanks cur (by rw [hrest, List.append_assoc])
  have hstop : stop.rest = es ++ tail := rest_of_reads (by rw [hrest, List.append_assoc]) hreads
  obtain ⟨fin, _, hgives', hreads', rfl⟩ := hlines stop (by rw [hstop, hes, List.append_assoc])
  have hfin : fin.rest = gs ++ tail := rest_of_reads (by rw [hstop, hes, List.append_assoc]) hreads'
  obtain ⟨last, _, hgives'', hreads'', rfl⟩ := hends fin hfin
  refine ⟨⟨stop, fin, last, fun _ => hgives, fun _ => hstays stop hstop, fun _ => hgives', fun _ => hgives'',
    fun c hc => ⟨?_, ?_⟩, ?_, ?_, ?_⟩, rest_of_reads hfin hreads''⟩
  · rw [hrest]
    exact hsuits.head_ne h (fun hs => List.append_ne_nil_of_right_ne_nil ds (hlined hs)) hc
  · rw [hstop]
    exact hsuits.head_ne hfiller hlined hc
  · exact hrest ▸ hmore
  · exact hstop ▸ hmore
  · exact hfin ▸ hmore

/-- At the start of a line nothing is passed. -/
theorem exists_gap_line (hs : s = .after '\n' ∨ s = .after '\r') (hrest : cur.rest ≠ [])
    (hfeed : s = .after '\r' → cur.rest.head? ≠ some '\n') : Nonempty (Gap s cur) := by
  have hgap : ¬ s.hasGap := by obtain rfl | rfl := hs <;> decide
  have hhead (c : Char) (hc : s.excludes c) : cur.rest.head? ≠ some c := by
    obtain rfl | rfl := hs
    · cases hc
    · rw [Spot.excludes, Bool.and_eq_true, decide_eq_true_eq, decide_eq_true_eq] at hc
      exact hc.2 ▸ hfeed rfl
  exact ⟨⟨cur, cur, cur, fun h => absurd h hgap, fun h => absurd h hgap, fun h => absurd h hgap,
    fun h => absurd h hgap, fun c hc => ⟨hhead c hc, hhead c hc⟩, hrest, hrest, hrest⟩⟩

end ConfigSandbox.Peg
