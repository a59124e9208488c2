import ConfigSandbox.Proofs.Grammar.Gaps
import ConfigSandbox.Proofs.Grammar.Matched
import ConfigSandbox.Proofs.Grammar.Statements

/-!
# Lines before a place

A text with a line end more is read as it was up to the line of the line end. A statement that a reserved
word introduces is read to the end of its line without a look at it; every other line is read as code, and
its end is a place like any other.
-/
namespace ConfigSandbox.Peg

open Nesting (isOpening)

variable {s : Spot} {cur cur' mid mid' last : Cursor} {nodes : List Node} {cs tail : List Char} {c : Char}

/-! ### Blanks before a word -/

/-- A blank is read whatever follows it, but for a line feed after a carriage return. -/
theorem Gives.blank_takes (h : Gives blank cur (some (mid, nodes))) :
    ∃ cs, cur.Reads cs mid ∧ ∀ tail : List Char, (tail.head? = some '\n' → mid.rest.head? = some '\n') →
      Takes blank cs tail Silent := by
  cases h with
  | alt h => exact ⟨_, h.text_reads, fun _ _ => Takes.lit.alt⟩
  | orElse _ h =>
    cases h with
    | alt h => exact ⟨_, h.text_reads, fun _ _ => Takes.lit.alt.orElse (refuses_lit (by decide))⟩
    | orElse _ h =>
      cases h with
      | alt h =>
        exact ⟨_, h.text_reads, fun _ _ =>
          (Takes.lit.alt.orElse (refuses_lit (by decide))).orElse (refuses_lit (by decide))⟩
      | orElse _ h =>
        obtain ⟨slash, xs, ys, hslash, hline, -⟩ := h.of_seq
        obtain ⟨-, cs, hreads, hnewline⟩ := hline.newline_reads
        refine ⟨_, hslash.text_reads.append hreads, fun tail htail => takes_blank_continuation ?_⟩
        exact hnewline.imp_right (Or.imp_right fun hreturn => ⟨hreturn.1, mt htail hreturn.2⟩)

/-- Blanks are read up to what is none, whatever it is. -/
def BlanksRead (cur last : Cursor) : Prop :=
  ∃ cs, cur.Reads cs last ∧ ∀ tail : List Char, (∀ c ∈ tail.head?, c ∉ blankHeads) →
    (tail.head? = some '\n' → last.rest.head? = some '\n') → Takes (.star blank) cs tail Silent

theorem Gives.star_blank (h : Gives (.star blank) cur (some (last, nodes))) : BlanksRead cur last := by
  refine star_induction (fun cur _ => ?_) (fun cur mid last xs hblank hmore => ?_) h
  · exact ⟨[], .nothing cur, fun tail htail _ => (refuses_blank htail).star.takes⟩
  · obtain ⟨ds, hds, htakes⟩ := hmore
    obtain ⟨bs, hbs, hunit⟩ := hblank.blank_takes
    refine ⟨bs ++ ds, hbs.append hds, fun tail htail hfeed => ?_⟩
    have hfirst : Takes blank bs (ds ++ tail) Silent := hunit _ fun hhead => by
      rw [hds.rest_eq]
      cases ds with
      | nil => exact hfeed hhead
      | cons d ds => exact hhead
    refine hfirst.star_silent ?_ (htakes tail htail hfeed)
    rintro rfl
    exact absurd (hblank.offset_lt (by decide)) (by rw [hbs.eq_of_nil]; exact Nat.lt_irrefl _)

/-- After a comment the line ends. -/
theorem Gives.comments_end (h : Gives (.star (.seq comment (.star blank))) cur (some (last, nodes))) :
    cur = last ∨ EndsLine last.rest := by
  refine star_induction (P := fun cur last => cur = last ∨ EndsLine last.rest) (fun cur _ => Or.inl rfl)
    (fun cur mid last xs hunit hmore => ?_) h
  obtain ⟨stop, us, vs, hcomment, hblank, -⟩ := hunit.of_seq
  obtain ⟨_, _, _, _, hline, -⟩ := hcomment.of_seq
  obtain ⟨-, _, _, _, hend⟩ := hline.restOfLine_reads
  have hnone : Skips (.star blank) stop.rest := (refuses_blank fun c hc => by
    obtain rfl | rfl := hend c hc <;> decide).star
  cases hblank.unique (hnone stop rfl)
  obtain rfl | hmore := hmore
  · exact Or.inr hend
  · exact Or.inr hmore

/-- Blanks before a word do not depend on what follows it. -/
theorem Gives.blanks_takes (h : Gives blanks cur (some (last, nodes))) (hhead : last.rest.head? = some c)
    (hc : c ∉ Spot.fillers) : ∃ cs, cur.Reads cs last ∧
      ∀ tail : List Char, tail.head? = some c → Takes blanks cs tail Silent := by
  obtain ⟨mid, xs, ys, hstar, hcomments, -⟩ := h.of_seq
  obtain rfl : mid = last := hcomments.comments_end.resolve_right fun hend => hc (by
    obtain rfl | rfl := hend c hhead <;> decide)
  obtain ⟨cs, hreads, htakes⟩ := hstar.star_blank
  refine ⟨cs, hreads, fun tail htail => (htakes tail ?_ fun hfeed => hhead.trans (htail.symm.trans hfeed)).before ?_⟩
  · rw [htail]
    rintro d ⟨⟩
    exact fun hmem => hc ((by decide : blankHeads ⊆ Spot.fillers) hmem)
  · refine (refuses_comment fun hhash => hc ?_).seq.star
    cases htail.symm.trans hhash
    decide

/-! ### Reserved statements -/

theorem Gives.of_choice {es : List Peg} (h : Gives (choice es) cur (some (last, nodes))) :
    ∃ before e after, es = before ++ e :: after ∧ Gives e cur (some (last, nodes)) ∧
      ∀ b ∈ before, Gives b cur none := by
  match es with
  | [] =>
    cases h with
    | absent h => cases h
  | [e] => exact ⟨[], e, [], rfl, h, nofun⟩
  | e :: f :: rest =>
    cases h with
    | alt h => exact ⟨[], e, f :: rest, rfl, h, nofun⟩
    | orElse hnot h =>
      obtain ⟨before, e', after, hes, hgives, hbefore⟩ := Gives.of_choice h
      exact ⟨e :: before, e', after, by rw [hes]; rfl, hgives, List.forall_mem_cons.mpr ⟨hnot, hbefore⟩⟩

theorem Gives.not_one {cls : CharClass} (h : Gives (.one cls) cur none) :
    ∀ c ∈ cur.rest.head?, cls.holds c = false := by
  intro c hc
  by_contra hholds
  obtain ⟨rest, hrest⟩ := List.head?_eq_some_iff.mp hc
  obtain ⟨last, nodes, hgives, -⟩ := (Takes.one (by simpa using hholds)) cur hrest
  cases h.unique hgives

theorem refuses_one {cls : CharClass} (h : ∀ c ∈ tail.head?, cls.holds c = false) : Refuses (.one cls) tail :=
  fun _ hrest => .noOne (one?_eq_none (hrest ▸ h))

/-- A word that is not there is not there when the line ends the same way. -/
theorem refuses_text {word : List Char} (hword : '\n' ∉ word ∧ '\r' ∉ word) (hline : EndsLine tail)
    (h : ¬ word <+: cs) : Refuses (.text word) (cs ++ tail) := by
  refine Refuses.lit fun hprefix => h ?_
  cases tail with
  | nil => rwa [List.append_nil] at hprefix
  | cons c tail =>
    refine prefix_of_not_mem ?_ hprefix
    obtain rfl | rfl := hline c rfl
    · exact hword.1
    · exact hword.2

/-- A reserved word begins with no filler and stays within a line. -/
theorem statementWords_plain {word : String} (h : word ∈ statementWords) :
    (∃ c cs, c ∉ Spot.fillers ∧ word.toList = c :: cs) ∧ '\n' ∉ word.toList ∧ '\r' ∉ word.toList := by
  have hall : (statementWords.all fun word => word.toList.head?.any (· ∉ Spot.fillers) &&
      '\n' ∉ word.toList && '\r' ∉ word.toList) = true := by decide
  have hword := List.all_eq_true.mp hall word h
  rw [Bool.and_eq_true, Bool.and_eq_true, Option.any_eq_true, decide_eq_true_eq, decide_eq_true_eq] at hword
  obtain ⟨⟨⟨c, hhead, hc⟩, hfeed⟩, hreturn⟩ := hword
  obtain ⟨cs, hcs⟩ := List.head?_eq_some_iff.mp hhead
  exact ⟨⟨c, cs, of_decide_eq_true hc, hcs⟩, hfeed, hreturn⟩

/-- Which reserved word is read depends on its line only. -/
theorem Gives.reservedWord_takes (h : Gives (.rule .reservedWord) cur (some (mid, nodes))) :
    ∃ c cs, c ∉ Spot.fillers ∧ cur.Reads (c :: cs) mid ∧ ∀ {line tail : List Char} {last : Cursor},
      mid.Reads line last → EndsLine tail → Takes (.rule .reservedWord) (c :: cs) (line ++ tail) (AreAlike nodes) := by
  obtain ⟨children, hchoice, rfl⟩ := h.of_rule
  obtain ⟨before, e, after, hes, hlit, hbefore⟩ := Gives.of_choice hchoice
  have hwords : statementWords.map lit = before ++ e :: after := hes
  have hmem (b : Peg) (hb : b ∈ before ++ e :: after) : ∃ word ∈ statementWords, lit word = b :=
    List.mem_map.mp (hwords.symm ▸ hb)
  obtain ⟨word, hword, rfl⟩ := hmem e (List.mem_append_right before List.mem_cons_self)
  obtain ⟨⟨c, cs, hc, hcs⟩, -⟩ := statementWords_plain hword
  rw [lit, hcs] at hlit hes
  have hreads := hlit.text_reads
  obtain rfl : children = [] := hlit.nodes_eq_nil rfl
  refine ⟨c, cs, hc, hreads, fun {line tail last} hline hend => ?_⟩
  have hother (b : Peg) (hb : b ∈ before) : Refuses b (c :: cs ++ (line ++ tail)) := by
    obtain ⟨other, hother, rfl⟩ := hmem b (List.mem_append_left _ hb)
    obtain ⟨-, hplain⟩ := statementWords_plain hother
    rw [← List.append_assoc]
    refine refuses_text hplain hend fun hprefix => Gives.not_prefix (hbefore _ hb) ?_
    rw [(hreads.append hline).rest_eq]
    exact hprefix.trans (List.prefix_append _ _)
  have hbody : Takes (choice (before ++ .text (c :: cs) :: after)) (c :: cs) (line ++ tail) Silent :=
    Takes.choice Takes.lit hother
  rw [← hes] at hbody
  exact Takes.rule_alike (r := .reservedWord) (hbody.mono fun _ => areAlike_nil) hreads

/-- A reserved statement is read the same whatever is on the next line. -/
theorem Gives.reserved_takes (h : Gives (.rule .reservedStatement) cur (some (last, nodes))) :
    ∃ c cs, c ∉ Spot.fillers ∧ cur.Reads (c :: cs) last ∧ EndsLine last.rest ∧
      ∀ tail : List Char, tail.head? = last.rest.head? →
        Takes (.rule .reservedStatement) (c :: cs) tail (AreAlike nodes) := by
  obtain ⟨xs, hbody, rfl⟩ := h.of_rule
  obtain ⟨stop, ws, ys, hword, hmore, rfl⟩ := hbody.of_seq
  obtain ⟨_, us, vs, habsent, hline, rfl⟩ := hmore.of_seq
  obtain ⟨rfl, line, hread, hchars, hend⟩ := hline.restOfLine_reads
  obtain ⟨c, cs, hc, hwordReads, htakes⟩ := hword.reservedWord_takes
  cases habsent with
  | absent hcontinue =>
    refine ⟨c, cs ++ line, hc, hwordReads.append hread, hend, fun tail htail => ?_⟩
    have hend' : EndsLine tail := by rwa [EndsLine, htail]
    have hcontinue' : Refuses (.one .identContinue) (line ++ tail) := by
      refine refuses_one ?_
      have hnot := hcontinue.not_one
      rw [hread.rest_eq] at hnot
      cases line with
      | nil => rwa [List.nil_append, htail]
      | cons d line => exact hnot
    have hbody := (htakes hread hend').close ((takes_restOfLine hchars hend').past hcontinue'.absent)
    rw [List.append_nil, List.append_nil]
    exact Takes.rule_alike (r := .reservedStatement) hbody (hwordReads.append hread)

/-- A line with a reserved statement is read the same whatever is on the next line. -/
theorem takes_reserved_line {stop : Cursor} {us vs : List Node} (hblanks : Gives blanks cur (some (stop, us)))
    (h : Gives (.rule .reservedStatement) stop (some (mid, vs))) : ∃ cs, cur.Reads cs mid ∧
      ∀ tail : List Char, tail.head? = mid.rest.head? → Takes (.seq blanks line) cs tail (AreAlike vs) := by
  obtain ⟨c, cs, hc, hreads, -, htakes⟩ := h.reserved_takes
  obtain ⟨bs, hbs, hbefore⟩ := hblanks.blanks_takes (by rw [hreads.rest_eq]; rfl) hc
  refine ⟨bs ++ c :: cs, hbs.append hreads, fun tail htail => ?_⟩
  have hnewline : Refuses newline (c :: cs ++ tail) := refuses_newline (by
    constructor <;> rintro rfl <;> exact hc (by decide))
  have hline : Takes line (c :: cs) tail (AreAlike vs) := (htakes tail htail).alt.orElse hnewline
  exact hline.after (hbefore _ rfl)

/-! ### The end of a line as a place -/

/-- The second text has a line end more, after some characters the last of which does not hide it. -/
def LineMore (cs : List Char) (old new : Cursor) : Prop :=
  cs.getLast? ≠ some '\\' ∧ ∃ tail, old.rest = cs ++ tail ∧ new.rest = cs ++ '\n' :: tail

theorem LineMore.refuses {ds : List Char} {old new : Cursor} {q : Quoting} (h : LineMore ds old new)
    (hcs : ds ≠ [] ∨ cs.getLast? ≠ some '\\') (hq : q.isTriple) (hrefuses : Refuses (quoted q) (cs ++ old.rest)) :
    Refuses (quoted q) (cs ++ new.rest) := by
  obtain ⟨hlast, tail, hold, hnew⟩ := h
  rw [hold, ← List.append_assoc] at hrefuses
  rw [hnew, ← List.append_assoc]
  refine refuses_insert hq ?_ hrefuses
  rw [List.getLast?_append]
  cases hds : ds.getLast? with
  | none => exact hcs.resolve_left (absurd (List.getLast?_eq_none_iff.mp hds))
  | some d =>
    rw [hds] at hlast
    exact hlast

theorem levelAt_of_isOpening (h : isOpening c) (i : Nat) : levelAt c i = some (i + 1) := by
  simp only [isOpening, Bool.or_eq_true, decide_eq_true_eq] at h
  obtain (rfl | rfl) | rfl := h <;> cases i <;> rfl

theorem step_of_isOpening {i : Nat} {rest : List Char} (hc : cur.rest = c :: rest) (h : isOpening c) :
    Step (i, cur) (i + 1, cur.past c rest) :=
  step_of_isCode hc (isCode_of_isOpening h) (levelAt_of_isOpening h i)

theorem Step.last_unique {i m m' : Nat} {first : Cursor} {t : Nat × Cursor} (h : Step (m, cur) t)
    (h' : Step (m', cur') t) (hpath : Path i first m cur) (hpath' : Path i first m' cur') : cur = cur' := by
  have hnot {s s' : Nat × Cursor} (h : Step s t) (h' : Step s' t) (hpath : Path s.1 s.2 s'.1 s'.2) : s.2 = s'.2 := by
    obtain ⟨-, heq⟩ | ⟨k, mid, hstep, hmore⟩ := hpath.cases_head
    · exact heq
    · cases hstep.unique h
      exact absurd hmore.length_le (Nat.not_le_of_lt h'.length_lt)
  obtain ⟨k, hto, hfrom, rfl⟩ | hback := hpath.split (b := 0) hpath'
  · exact (hnot h' h hfrom).symm
  · exact hnot h h' hback

/-- A line that is read as code ends with a line end. -/
theorem Gives.line_ends {e : Peg} (he : e = Peg.newline ∨ e = simpleStatements)
    (h : Gives (.seq blanks e) cur (some (mid, nodes))) (hmore : mid.rest ≠ []) :
    ∃ stop, Path 0 cur 0 stop ∧ Gives Peg.newline stop (some (mid, [])) := by
  obtain ⟨start, us, vs, hblanks, hline, -⟩ := h.of_seq
  have hto : Path 0 cur 0 start := hblanks.path (by decide)
  obtain rfl | rfl := he
  · obtain ⟨rfl, -⟩ := hline.newline_reads
    exact ⟨start, hto, hline⟩
  · obtain ⟨_, _, _, hfirst, hline, -⟩ := hline.of_seq
    obtain ⟨_, _, _, hblanks, hline, -⟩ := hline.of_seq
    obtain ⟨_, _, _, hmany, hline, -⟩ := hline.of_seq
    obtain ⟨_, _, _, hblanks', hline, -⟩ := hline.of_seq
    obtain ⟨_, _, _, hopt, hline, -⟩ := hline.of_seq
    obtain ⟨stop, _, _, hblanks'', hline, -⟩ := hline.of_seq
    have hstatements := Gives.seq hfirst (.seq hblanks (.seq hmany (.seq hblanks' (.seq hopt hblanks''))))
    refine ⟨stop, hto.trans (hstatements.path (by decide)), ?_⟩
    cases hline with
    | alt h =>
      obtain ⟨rfl, -⟩ := h.newline_reads
      exact h
    | orElse _ h =>
      -- at the end of the text there is no more
      cases h with
      | ahead h =>
        obtain ⟨_, hend, -⟩ := h.of_rule
        cases hend with
        | absent hany => exact absurd hany.not_any hmore

/-- The last character of a line end is a piece by itself. -/
theorem Gives.newline_step {stop : Cursor} (h : Gives Peg.newline stop (some (mid, nodes)))
    (hto : Path 0 cur 0 stop) : ∃ last c, Path 0 cur 0 last ∧ last.rest = c :: mid.rest ∧
      mid = last.past c mid.rest ∧ (c = '\n' ∨ c = '\r' ∧ mid.rest.head? ≠ some '\n') := by
  obtain ⟨-, cs, hreads, rfl | rfl | ⟨rfl, hfeed⟩⟩ := h.newline_reads
  · obtain ⟨rest, hrest, rfl⟩ := hreads.one
    exact ⟨stop, '\n', hto, hrest, rfl, Or.inl rfl⟩
  · cases hreads with
    | @char _ _ _ rest _ hc hreads =>
      obtain ⟨rest', hrest', rfl⟩ := hreads.one
      refine ⟨_, '\n', hto.tail (step_of_isCode hc (by decide) (by decide)), hrest', rfl, Or.inl rfl⟩
  · obtain ⟨rest, hrest, rfl⟩ := hreads.one
    exact ⟨stop, '\r', hto, hrest, rfl, Or.inr ⟨rfl, hfeed⟩⟩

/-- The end of a line that is read as code is a place. -/
theorem exists_line_place (hto : Path 0 cur 0 last) (hc : last.rest = c :: mid.rest)
    (hmid : mid = last.past c mid.rest) (hline : c = '\n' ∨ c = '\r' ∧ mid.rest.head? ≠ some '\n')
    (hcs : cs ≠ []) (hmore : LineMore cs mid mid') :
    ∃ P : Place (.after c), P.origin = cur ∧ P.level = 0 ∧ P.old = mid ∧ P.new = mid' := by
  have hspot : Spot.after c = .after '\n' ∨ Spot.after c = .after '\r' := by
    obtain rfl | ⟨rfl, -⟩ := hline
    · exact Or.inl rfl
    · exact Or.inr rfl
  obtain ⟨d, ds, rfl⟩ := List.exists_cons_of_ne_nil hcs
  obtain ⟨tail, hold, hnew⟩ := hmore.2
  have hfeed (h : Spot.after c = .after '\r') : d ≠ '\n' := by
    rintro rfl
    obtain rfl | ⟨-, hfeed⟩ := hline
    · cases h
    · exact hfeed (by rw [hold]; rfl)
  obtain ⟨gap⟩ : Nonempty (Gap (.after c) mid) :=
    exists_gap_line hspot (by simp [hold]) fun h => by simpa [hold] using hfeed h
  obtain ⟨gap'⟩ : Nonempty (Gap (.after c) mid') :=
    exists_gap_line hspot (by simp [hnew]) fun h => by simpa [hnew] using hfeed h
  have hplain : isCode c ∧ levelAt c 0 = some 0 := by
    obtain rfl | ⟨rfl, -⟩ := hline <;> decide
  have hgap : ¬ (Spot.after c).hasGap ∧ ¬ (Spot.after c).inLists ∧ Spot.after c ∈ Spot.all := by
    obtain rfl | ⟨rfl, -⟩ := hline <;> decide
  have hstep : Step (0, last) (0, mid) := by
    rw [hmid]
    exact step_of_isCode hc hplain.1 hplain.2
  refine ⟨⟨cur, 0, mid, mid', gap, gap', hgap.2.2, fun h => absurd h hgap.1, hto.tail hstep, ?_, ?_,
    fun h => absurd h hgap.2.1, ?_⟩, rfl, rfl, rfl, rfl⟩
  · intro m other c' rest hother hstep' hrest
    obtain rfl := hstep'.last_unique hstep hother hto
    cases hrest.symm.trans hc
    exact decide_eq_true rfl
  · intro m other c' rest _ hpath hrest hopen _ hinside
    have hfrom := hinside.add (m + 1)
    rw [Nat.zero_add] at hfrom
    exact absurd (hpath.level_unique (.head (step_of_isOpening hrest hopen) hfrom)) (by simp)
  · intro m other ds' q _ _ _ _ hq hrefuses
    exact hmore.refuses (Or.inl hcs) hq hrefuses

/-! ### Lines -/

/-- A reserved word, to its end. -/
def reservedHead : Peg := .seq (.rule .reservedWord) (.absent (.one .identContinue))

theorem gives_reservedHead_none : Gives (.rule .reservedStatement) cur none ↔ Gives reservedHead cur none := by
  have hbody : Rule.reservedStatement.body =
    .seq (.rule .reservedWord) (.seq (.absent (.one .identContinue)) restOfLine) := rfl
  constructor
  · intro h
    cases h with
    | noRule h =>
      rw [hbody] at h
      cases h with
      | noFirst h => exact .noFirst h
      | noSecond h hmore =>
        cases hmore with
        | noFirst hend => exact .noSecond h hend
        | noSecond _ hline => cases hline
  · intro h
    refine .noRule (hbody ▸ ?_)
    cases h with
    | noFirst h => exact .noFirst h
    | noSecond h hend => exact .noSecond h (.noFirst hend)

theorem Gives.second_none {a b : Peg} (h : Gives (.seq a b) cur none) (ha : Gives a cur (some (mid, nodes))) :
    Gives b mid none := by
  cases h with
  | noFirst hnot => cases hnot.unique ha
  | noSecond ha' hb =>
    cases ha'.unique ha
    exact hb

variable {P : Place s} {φ : Phase} {Φ : List Phase}

/-- A line that is read as code in the one text is read as code in the other. -/
theorem Place.statements_follow {stop : Cursor} {us vs : List Node} (hrel : P.Rel φ cur cur')
    (hflows : ∀ e ∈ [newline, reservedHead, simpleStatements], Flows s (.seq blanks e) φ Φ)
    (hblanks : Gives blanks cur (some (stop, us))) (hnewline : Gives newline stop none)
    (hreserved : Gives (.rule .reservedStatement) stop none)
    (h : Gives simpleStatements stop (some (mid, vs))) :
    ∃ mid' nodes', Gives (.seq blanks line) cur' (some (mid', nodes')) ∧ P.RelIn Φ mid mid' ∧
      AreAlike (us ++ vs) nodes' := by
  have hnone (e : Peg) (he : e ∈ [newline, reservedHead, simpleStatements]) (h : Gives e stop none) :
      Gives (.seq blanks e) cur' none :=
    ((Gives.noSecond hblanks h).follows hrel (hflows e he)).of_none
  have hnewline' := hnone newline (by simp) hnewline
  have hreserved' := hnone reservedHead (by simp) (gives_reservedHead_none.mp hreserved)
  obtain ⟨mid', nodes', hgives', hin, halike⟩ :=
    ((Gives.seq hblanks h).follows hrel (hflows simpleStatements (by simp))).of_some
  obtain ⟨stop', us', vs', hblanks', h', rfl⟩ := hgives'.of_seq
  exact ⟨mid', _, .seq hblanks' (.orElse (hnewline'.second_none hblanks')
    (.orElse (gives_reservedHead_none.mpr (hreserved'.second_none hblanks')) h')), hin, halike⟩

/-- The readings end at the place. -/
theorem Place.RelIn.at_place (h : P.RelIn [.before, .start] P.old mid') : mid' = P.new := by
  obtain ⟨φ, hφ, hrel⟩ := h
  obtain rfl | rfl : φ = .before ∨ φ = .start := by simpa using hφ
  · obtain ⟨_, cs, -, -, hne, hreads, -⟩ := hrel
    exact absurd (hreads.textTo_eq.symm.trans (Cursor.Reads.nothing _).textTo_eq) hne
  · exact hrel.2

theorem flows_of_any {e : Peg} (h : (flow s e φ).any (· ⊆ Φ)) : Flows s e φ Φ := by
  obtain ⟨Ψ, hΨ, hsub⟩ := (Option.any_eq_true _ _).mp h
  exact Or.inl ⟨Ψ, hΨ, of_decide_eq_true hsub⟩

theorem flows_line_end (hs : s = .after '\n' ∨ s = .after '\r') :
    ∀ e ∈ [newline, reservedHead, simpleStatements], Flows s (.seq blanks e) .before [.before, .start] := by
  have hall : ([.after '\n', .after '\r'] : List Spot).all fun s =>
      [newline, reservedHead, simpleStatements].all fun e =>
        (flow s (.seq blanks e) .before).any (· ⊆ [.before, .start]) := by decide
  intro e he
  have hmem : s ∈ ([.after '\n', .after '\r'] : List Spot) := by simpa using hs
  exact flows_of_any (List.all_eq_true.mp (List.all_eq_true.mp hall s hmem) e he)

/-- A line before the place is read the same in both texts. -/
theorem Gives.line_follows {ds : List Char} (h : Gives (.seq blanks line) cur (some (mid, nodes)))
    (hds : cur.Reads ds mid) (hds' : cur'.Reads ds mid') (hcs : cs ≠ []) (hmore : LineMore cs mid mid') :
    ∃ nodes', Gives (.seq blanks line) cur' (some (mid', nodes')) ∧ AreAlike nodes nodes' := by
  have hne : ds ≠ [] := by
    rintro rfl
    exact absurd (h.offset_lt (by decide)) (by rw [hds.eq_of_nil]; exact Nat.lt_irrefl _)
  obtain ⟨tail, hold, hnew⟩ := hmore.2
  obtain ⟨d, cs, rfl⟩ := List.exists_cons_of_ne_nil hcs
  have hplace {e : Peg} {ws : List Node} (he : e = Peg.newline ∨ e = simpleStatements)
      (hgives : Gives (.seq blanks e) cur (some (mid, ws))) : ∃ s, (s = .after '\n' ∨ s = .after '\r') ∧
        ∃ P : Place s, P.old = mid ∧ P.new = mid' ∧ P.Rel .before cur cur' := by
    obtain ⟨stop, hto, hend⟩ := hgives.line_ends he (by simp [hold])
    obtain ⟨last, c, hlast, hrest, hmid, hline⟩ := hend.newline_step hto
    obtain ⟨P, rfl, hlevel, rfl, rfl⟩ := exists_line_place hlast hrest hmid hline hcs hmore
    refine ⟨.after c, ?_, P, rfl, rfl, 0, ds, .refl, P.path, hne, hds, hds'⟩
    obtain rfl | ⟨rfl, -⟩ := hline
    · exact Or.inl rfl
    · exact Or.inr rfl
  obtain ⟨stop, us, vs, hblanks, hline, rfl⟩ := h.of_seq
  cases hline with
  | alt hline =>
    obtain ⟨s, hs, P, rfl, rfl, hrel⟩ := hplace (Or.inl rfl) (.seq hblanks hline)
    obtain ⟨last', nodes', hgives', hin, halike⟩ :=
      ((Gives.seq hblanks hline).follows hrel (flows_line_end hs Peg.newline (by simp))).of_some
    obtain rfl := hin.at_place
    obtain ⟨stop', us', vs', hblanks', hline', rfl⟩ := hgives'.of_seq
    exact ⟨_, .seq hblanks' (.alt hline'), halike⟩
  | orElse hnewline hline =>
    cases hline with
    | alt hreserved =>
      obtain ⟨ws, hws, htakes⟩ := takes_reserved_line hblanks hreserved
      obtain rfl : us = [] := hblanks.nodes_eq_nil (by decide)
      obtain rfl : ws = ds := hws.textTo_eq.symm.trans hds.textTo_eq
      obtain ⟨last', nodes', hgives', hreads', halike⟩ := htakes mid'.rest (by rw [hold, hnew]; rfl) cur' hds'.rest_eq
      obtain rfl := hds'.unique hreads'
      exact ⟨nodes', hgives', halike⟩
    | orElse hreserved hline =>
      obtain ⟨s, hs, P, rfl, rfl, hrel⟩ := hplace (Or.inr rfl) (.seq hblanks hline)
      obtain ⟨last', nodes', hgives', hin, halike⟩ :=
        P.statements_follow hrel (flows_line_end hs) hblanks hnewline hreserved hline
      obtain rfl := hin.at_place
      exact ⟨nodes', hgives', halike⟩

/-! ### The line of the place -/

variable {first : Cursor} {r : Rule} {children : List Node} {e : Peg} {i j : Nat}

/-- From where an expression matches, reading comes to each of its nodes. -/
theorem Gives.reads_node (h : Gives e cur (some (last, nodes))) (hnode : .mk r first mid children ∈ nodes) :
    ∃ cs, cur.Reads cs first := by
  generalize ho : some (last, nodes) = outcome at h
  induction h generalizing last nodes with
  | seq ha _ iha ihb | again ha _ _ iha ihb =>
    cases ho
    rcases List.mem_append.mp hnode with hnode | hnode
    · exact iha hnode rfl
    · obtain ⟨cs, hcs⟩ := ha.reads
      obtain ⟨ds, hds⟩ := ihb hnode rfl
      exact ⟨cs ++ ds, hcs.append hds⟩
  | alt _ iha =>
    cases ho
    exact iha hnode rfl
  | orElse _ _ _ ihb => exact ihb hnode ho
  | rule =>
    cases ho
    cases List.mem_singleton.mp hnode
    exact ⟨[], .nothing _⟩
  | empty | text | textAnyCase | one | noMore | stuck | absent | ahead =>
    cases ho
    cases hnode
  | noText | noTextAnyCase | noOne | noFirst | noSecond | present | notAhead | noRule => cases ho

/-- A piece has no nodes of ordinary rules. -/
theorem Gives.not_mem_piece (he : e.isPiece) (h : Gives e cur (some (last, nodes))) (hr : r.isOrdinary) :
    .mk r first mid children ∉ nodes := by
  intro hnode
  have hmem : r ∈ rulesIn e := h.rule_mem _ hnode
  have hnone : (rulesIn e).all fun r => !r.isOrdinary := by
    simp only [isPiece, Bool.or_eq_true, decide_eq_true_eq] at he
    obtain (rfl | rfl) | rfl := he <;> decide
  have hnot := List.all_eq_true.mp hnone r hmem
  rw [hr] at hnot
  cases hnot

/-- So does the way through code, if the rule is ordinary. -/
theorem Gives.path_node (h : Gives e cur (some (last, nodes))) (hl : levelEnd e i = some j)
    (hnode : .mk r first mid children ∈ nodes) (hr : r.isOrdinary) : ∃ k, Path i cur k first := by
  generalize ho : some (last, nodes) = outcome at h
  induction h generalizing last nodes i j with
  | seq ha hb iha ihb =>
    cases ho
    obtain ⟨he, -⟩ | ⟨k, hk, hl⟩ := levelEnd_seq hl
    · exact absurd hnode (Gives.not_mem_piece he (.seq ha hb) hr)
    · rcases List.mem_append.mp hnode with hnode | hnode
      · exact iha hk hnode rfl
      · obtain ⟨m, hm⟩ := ihb hl hnode rfl
        exact ⟨m, (ha.path hk).trans hm⟩
  | alt ha iha =>
    cases ho
    obtain ⟨he, -⟩ | ⟨hl, -⟩ := levelEnd_alt hl
    · exact absurd hnode (Gives.not_mem_piece he (.alt ha) hr)
    · exact iha hl hnode rfl
  | orElse ha hb _ ihb =>
    subst ho
    obtain ⟨he, -⟩ | ⟨-, hl⟩ := levelEnd_alt hl
    · exact absurd hnode (Gives.not_mem_piece he (.orElse ha hb) hr)
    · exact ihb hl hnode rfl
  | again ha _ _ iha ihs =>
    cases ho
    obtain ⟨hbody, rfl⟩ := levelEnd_star hl
    rcases List.mem_append.mp hnode with hnode | hnode
    · exact iha hbody hnode rfl
    · obtain ⟨k, hk⟩ := ihs hl hnode rfl
      exact ⟨k, (ha.path hbody).trans hk⟩
  | rule =>
    cases ho
    cases List.mem_singleton.mp hnode
    exact ⟨i, .refl⟩
  | empty | text | textAnyCase | one | noMore | stuck | absent | ahead =>
    cases ho
    cases hnode
  | noText | noTextAnyCase | noOne | noFirst | noSecond | present | notAhead | noRule => cases ho

/-- A place inside brackets of a statement, in a text and in the one with a line end more. -/
structure Site (s : Spot) (first last old new : Cursor) : Prop where
  token : s ∈ Spot.tokens
  inside : ∃ depth, Path 0 first (depth + 1) old
  before : old.offset < last.offset
  /-- No backslash stands before the place. -/
  clean : ∀ cs, first.Reads cs old → cs.getLast? ≠ some '\\'
  more : ∃ cs, LineMore cs old new
  place : ∀ {origin : Cursor} {level : Nat}, Path 0 origin level first →
    ∃ P : Place s, P.origin = origin ∧ P.level ≠ 0 ∧ P.old = old ∧ P.new = new

variable {old new : Cursor} {ds : List Char}

theorem flows_statements (hs : s ∈ Spot.tokens) :
    ∀ e ∈ [newline, reservedHead, simpleStatements], Flows s (.seq blanks e) .away [.away, .after] := by
  have hall : Spot.tokens.all fun s => [newline, reservedHead, simpleStatements].all fun e =>
      (flow s (.seq blanks e) .away).any (· ⊆ [.away, .after]) := by decide
  exact fun e he => flows_of_any (List.all_eq_true.mp (List.all_eq_true.mp hall s hs) e he)

/-- Behind the place the texts are the same. -/
theorem flows_after (hs : s ∈ Spot.tokens) :
    ∀ e ∈ [.star (.seq blanks line), .seq blanks (.rule .endOfInput)], Flows s e .after [.after] := by
  have hall : Spot.tokens.all fun s => [.star (.seq blanks line), .seq blanks (.rule .endOfInput)].all fun e =>
      (flow s e .after).any (· ⊆ [.after]) := by decide
  exact fun e he => flows_of_any (List.all_eq_true.mp (List.all_eq_true.mp hall s hs) e he)

/-- The line of the statement is read in both texts, and the same text is left. -/
theorem Site.line_follows (hsite : Site s first last old new)
    (h : Gives (.seq blanks line) cur (some (mid, nodes))) (hnode : .mk r first last children ∈ nodes)
    (hr : r ≠ .reservedStatement) (hds : cur.Reads ds old) (hds' : cur'.Reads ds new) :
    ∃ mid' nodes', Gives (.seq blanks line) cur' (some (mid', nodes')) ∧ AreAlike nodes nodes' ∧
      ∃ P : Place s, P.Rel .after mid mid' := by
  have hend := h.strung.le_of_mem hnode
  obtain ⟨stop, us, vs, hblanks, hline, rfl⟩ := h.of_seq
  obtain rfl : us = [] := hblanks.nodes_eq_nil (by decide)
  cases hline with
  | alt hline =>
    obtain ⟨rfl, -⟩ := hline.newline_reads
    cases hnode
  | orElse hnewline hline =>
    cases hline with
    | alt hreserved =>
      obtain ⟨xs, -, rfl⟩ := hreserved.of_rule
      cases List.mem_singleton.mp hnode
      exact absurd rfl hr
    | orElse hreserved hline =>
      have hordinary : r.isOrdinary := by
        have hall : (rulesIn simpleStatements).all Rule.isOrdinary := by decide
        exact List.all_eq_true.mp hall r (hline.rule_mem _ hnode)
      obtain ⟨level, hto⟩ := (Gives.seq hblanks hline).path_node (i := 0) (j := 0)
        (by decide) hnode hordinary
      obtain ⟨P, rfl, hlevel, rfl, rfl⟩ := hsite.place hto
      have hne : ds ≠ [] := by
        rintro rfl
        exact hlevel (hds.eq_of_nil ▸ P.path).level_eq.symm
      have hrel : P.Rel .away P.origin cur' :=
        ⟨⟨0, ds, .refl, P.path, hne, hds, hds'⟩, fun hpath => hlevel (P.path.level_unique hpath)⟩
      obtain ⟨mid', nodes', hgives', ⟨φ, hφ, hmid⟩, halike⟩ :=
        P.statements_follow hrel (flows_statements hsite.token) hblanks hnewline hreserved hline
      refine ⟨mid', nodes', hgives', halike, P, ?_⟩
      obtain rfl | rfl : φ = .away ∨ φ = .after := by simpa using hφ
      · -- the statement ends after the place
        obtain ⟨⟨m, cs, -, -, -, hreads, -⟩, -⟩ := hmid
        exact absurd (Nat.lt_of_lt_of_le hsite.before hend) (Nat.not_lt.mpr hreads.offset_le)
      · exact hmid

/-- A line before that of the statement ends before the statement. -/
theorem Site.line_before {stop : Cursor} {us vs : List Node} (hsite : Site s first last old new)
    (h : Gives (.seq blanks line) cur (some (mid, us)))
    (hmore : Gives (.star (.seq blanks line)) mid (some (stop, vs))) (hnode : .mk r first last children ∈ vs)
    (hds : cur.Reads ds old) (hds' : cur'.Reads ds new) : ∃ mid' us' ds', mid.Reads ds' old ∧
      mid'.Reads ds' new ∧ Gives (.seq blanks line) cur' (some (mid', us')) ∧ AreAlike us us' := by
  obtain ⟨ws, hws⟩ := h.reads
  obtain ⟨fs, hfs⟩ := hmore.reads_node hnode
  obtain ⟨depth, hinside⟩ := hsite.inside
  obtain ⟨gs, hgs⟩ := hinside.reads
  have hne : gs ≠ [] := by
    rintro rfl
    exact absurd (hgs.eq_of_nil ▸ hinside).level_eq (by simp)
  obtain rfl : ds = ws ++ (fs ++ gs) := hds.textTo_eq.symm.trans (hws.append (hfs.append hgs)).textTo_eq
  obtain ⟨mid', hws', hmid'⟩ := hds'.split
  obtain ⟨cs, hlast, tail, hold, hnew⟩ := hsite.more
  have hline : LineMore (fs ++ gs ++ cs) mid mid' := by
    refine ⟨?_, tail, ?_, ?_⟩
    · rw [List.getLast?_append, List.getLast?_append]
      cases hcs : cs.getLast? with
      | some d =>
        rw [hcs] at hlast
        exact hlast
      | none =>
        cases hend : gs.getLast? with
        | some d =>
          have hclean := hsite.clean gs hgs
          rw [hend] at hclean
          exact hclean
        | none => exact absurd (List.getLast?_eq_none_iff.mp hend) hne
    · rw [(hfs.append hgs).rest_eq, hold]
      simp
    · rw [hmid'.rest_eq, hnew]
      simp
  obtain ⟨us', hgives', halike⟩ := h.line_follows hws hws' (by simp [hne]) hline
  exact ⟨mid', us', fs ++ gs, hfs.append hgs, hmid', hgives', halike⟩

/-- The lines of a text are read with a line end more as they were. -/
theorem Site.lines_follow {stop : Cursor} (hsite : Site s first last old new)
    (h : Gives (.star (.seq blanks line)) cur (some (stop, nodes))) (hnode : .mk r first last children ∈ nodes)
    (hr : r ≠ .reservedStatement) (hds : cur.Reads ds old) (hds' : cur'.Reads ds new) :
    ∃ stop' nodes', Gives (.star (.seq blanks line)) cur' (some (stop', nodes')) ∧ AreAlike nodes nodes' ∧
      ∃ P : Place s, P.Rel .after stop stop' := by
  generalize he : Peg.star (.seq blanks line) = e at h
  generalize ho : some (stop, nodes) = outcome at h
  induction h generalizing stop nodes cur' ds with
  | @again e cur mid stop xs ys hgives hmore hstar _ ih =>
    cases he
    cases ho
    rcases List.mem_append.mp hnode with hnode | hnode
    · obtain ⟨mid', xs', hgives', halike, P, hrel⟩ := hsite.line_follows hgives hnode hr hds hds'
      obtain ⟨stop', ys', hstar', ⟨φ, hφ, hstop⟩, halike'⟩ :=
        (hstar.follows hrel (flows_after hsite.token _ (by simp))).of_some
      obtain rfl := List.mem_singleton.mp hφ
      have hagain := hgives'.offset_lt (by decide)
      exact ⟨stop', xs' ++ ys', .again hgives' hagain hstar', halike.append halike', P, hstop⟩
    · obtain ⟨mid', xs', ds', hds, hds', hgives', halike⟩ := hsite.line_before hgives hstar hnode hds hds'
      obtain ⟨stop', ys', hstar', halike', hstop⟩ := ih hnode hds hds' rfl rfl
      have hagain := hgives'.offset_lt (by decide)
      exact ⟨stop', xs' ++ ys', .again hgives' hagain hstar', halike.append halike', hstop⟩
  | noMore | stuck =>
    cases ho
    cases hnode
  | _ => cases he

/-- The end of the text is no statement with a place in it. -/
theorem Site.not_mem_end {stop : Cursor} (hsite : Site s first last old new)
    (h : Gives (.seq blanks (.rule .endOfInput)) cur (some (stop, nodes))) :
    .mk r first last children ∉ nodes := by
  intro hnode
  obtain ⟨mid, us, vs, hblanks, hend, rfl⟩ := h.of_seq
  obtain rfl : us = [] := hblanks.nodes_eq_nil (by decide)
  obtain ⟨xs, hbody, rfl⟩ := hend.of_rule
  cases List.mem_singleton.mp hnode
  cases hbody with
  | absent =>
    obtain ⟨depth, hinside⟩ := hsite.inside
    obtain ⟨cs, hcs⟩ := hinside.reads
    exact absurd hsite.before (Nat.not_lt.mpr hcs.offset_le)

/-- So is the text. -/
theorem Site.module_follows {stop : Cursor} (hsite : Site s first last old new)
    (h : Gives Rule.module.body cur (some (stop, nodes))) (hnode : .mk r first last children ∈ nodes)
    (hr : r ≠ .reservedStatement) (hds : cur.Reads ds old) (hds' : cur'.Reads ds new) :
    ∃ stop' nodes', Gives Rule.module.body cur' (some (stop', nodes')) ∧ AreAlike nodes nodes' := by
  have hbody : Rule.module.body =
    .seq .empty (.seq blanks (.seq (opt (.seq line (.star (.seq blanks line))))
      (.seq blanks (.rule .endOfInput)))) := rfl
  rw [hbody] at h ⊢
  obtain ⟨_, _, _, hempty, htext, rfl⟩ := h.of_seq
  cases hempty
  obtain ⟨start, us, _, hblanks, hmodule, rfl⟩ := htext.of_seq
  obtain rfl : us = [] := hblanks.nodes_eq_nil (by decide)
  obtain ⟨fin, xs, ys, hlines, hend, rfl⟩ := hmodule.of_seq
  have hnode : .mk r first last children ∈ xs ++ ys := hnode
  have hnode := (List.mem_append.mp hnode).resolve_right (hsite.not_mem_end hend)
  cases hlines with
  | orElse _ hnone =>
    cases hnone
    cases hnode
  | alt hlines =>
    obtain ⟨mid, us, vs, hline, hmore, rfl⟩ := hlines.of_seq
    have hfirst := Gives.seq hblanks hline
    have hstar := Gives.again hfirst (hfirst.offset_lt (by decide)) hmore
    obtain ⟨fin', xs', hstar', halike, P, hfin⟩ := hsite.lines_follow hstar hnode hr hds hds'
    obtain ⟨stop', ys', hend', -, halike'⟩ := (hend.follows hfin (flows_after hsite.token _ (by simp))).of_some
    cases hstar' with
    | again hfirst' _ hmore' =>
      obtain ⟨start', us', vs', hblanks', hline', rfl⟩ := hfirst'.of_seq
      exact ⟨stop', _, .seq (.empty cur') (.seq hblanks' (.seq (.alt (.seq hline' hmore')) hend')), by
        obtain rfl : us' = [] := hblanks'.nodes_eq_nil (by decide)
        exact halike.append halike'⟩
    | noMore | stuck =>
      -- the node has one that is like it
      obtain ⟨x, xs, hxs⟩ := List.exists_cons_of_ne_nil (List.ne_nil_of_mem hnode)
      exact (hxs ▸ halike).elim

end ConfigSandbox.Peg
