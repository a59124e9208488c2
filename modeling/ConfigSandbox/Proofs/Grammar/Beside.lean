import ConfigSandbox.Proofs.Grammar.Flow

/-!
# Two readings side by side

Two texts agree before a place and part there. An expression is read in both; where its flow from a phase
is known, its outcome in the one is its outcome in the other, and the readings stand in one of the phases
that the flow allows. The induction is on the outcome in the first text.
-/
namespace ConfigSandbox

namespace Peg

open Nesting (isMark isOpening isClosing)

theorem Path.reads {i j : Nat} {first last : Cursor} (h : Path i first j last) :
    ∃ cs, first.Reads cs last := by
  rw [Path] at h
  generalize hs : (i, first) = s at h
  induction h using Relation.ReflTransGen.head_induction_on generalizing i first with
  | refl =>
    cases hs
    exact ⟨[], .nothing _⟩
  | head hstep _ ih =>
    subst hs
    obtain ⟨c, rest, nodes, -, hgives, -⟩ := hstep
    obtain ⟨cs, hcs⟩ := hgives.reads
    obtain ⟨ds, hds⟩ := ih rfl
    exact ⟨cs ++ ds, hcs.append hds⟩

theorem Gives.offset_lt {e : Peg} {cur last : Cursor} {nodes : List Node}
    (h : Gives e cur (some (last, nodes))) (he : e.consumes) : cur.offset < last.offset := by
  obtain ⟨cs, hreads⟩ := h.reads
  cases hreads with
  | nothing => exact absurd (h.length_lt he) (Nat.lt_irrefl _)
  | @char _ _ c rest cs hc hreads =>
    rw [hreads.offset_eq, Cursor.offset_past]
    have := c.utf8Size_pos
    omega

/-! ### Places -/

/-- What stands at a place: blanks, line ends and blanks, with something after them. -/
structure Gap (s : Spot) (cur : Cursor) where
  stop : Cursor
  fin : Cursor
  last : Cursor
  blanks : s.hasGap → Gives blanks cur (some (stop, []))
  stays : s.hasGap → Gives Peg.blanks stop (some (stop, []))
  lines : s.hasGap → Gives lines stop (some (fin, []))
  ends : s.hasGap → Gives Peg.blanks fin (some (last, []))
  heads : ∀ c, s.excludes c → cur.rest.head? ≠ some c ∧ stop.rest.head? ≠ some c
  more : cur.rest ≠ [] ∧ stop.rest ≠ [] ∧ fin.rest ≠ []

/-- A place in two texts, and the way to it from an origin before it. -/
structure Place (s : Spot) where
  origin : Cursor
  level : Nat
  old : Cursor
  new : Cursor
  gap : Gap s old
  gap' : Gap s new
  known : s ∈ Spot.all
  meets : s.hasGap → gap.last.rest = gap'.last.rest
  path : Path 0 origin level old
  /-- The last piece before the place is one that may lead there. -/
  reaches : ∀ {m cur c rest}, Path 0 origin m cur → Step (m, cur) (level, old) → cur.rest = c :: rest →
    s.reaches c
  opens : ∀ {m cur c rest}, Path 0 origin m cur → Path m cur level old → cur.rest = c :: rest →
    isOpening c → ¬ s.opens c → ¬ Path 0 (cur.past c rest) 0 old
  words : s.inLists → ∀ {m cur last w nodes}, Path 0 origin m cur → Path m cur level old →
    w = .lambda ∨ w = .for → Gives (.rule (.word w)) cur (some (last, nodes)) → ¬ Path 0 last 0 old
  unclosed : ∀ {m cur cs} {q : Quoting}, Path 0 origin m cur → Path m cur level old → cur.Reads cs old →
    cs ≠ [] → q.isTriple → Refuses (quoted q) (cs ++ old.rest) → Refuses (quoted q) (cs ++ new.rest)

variable {s : Spot} {P : Place s} {cur cur' last last' : Cursor} {nodes nodes' : List Node} {c : Char}
  {rest cs : List Char} {φ ψ : Phase} {Φ Ψ : List Phase}

/-- Before the place, and on the way to it. -/
def Place.Beside (P : Place s) (cur cur' : Cursor) : Prop :=
  ∃ m cs, Path 0 P.origin m cur ∧ Path m cur P.level P.old ∧ cs ≠ [] ∧ cur.Reads cs P.old ∧
    cur'.Reads cs P.new

/-- Where two readings stand in a phase. -/
def Place.Rel (P : Place s) : Phase → Cursor → Cursor → Prop
  | .away, cur, cur' => P.Beside cur cur' ∧ ¬ Path 0 cur 0 P.old
  | .before, cur, cur' => P.Beside cur cur'
  | .start, cur, cur' => cur = P.old ∧ cur' = P.new
  | .stopped, cur, cur' => cur = P.gap.stop ∧ cur' = P.gap'.stop
  | .ended, cur, cur' => cur = P.gap.fin ∧ cur' = P.gap'.fin
  | .after, cur, cur' => cur.rest = cur'.rest

/-- In one of some phases. -/
def Place.RelIn (P : Place s) (Φ : List Phase) (cur cur' : Cursor) : Prop := ∃ φ ∈ Φ, P.Rel φ cur cur'

theorem Place.RelIn.mono (h : P.RelIn Φ cur cur') (hΦ : Φ ⊆ Ψ) : P.RelIn Ψ cur cur' := by
  obtain ⟨φ, hφ, hrel⟩ := h
  exact ⟨φ, hΦ hφ, hrel⟩

/-! ### Pieces -/

/-- A piece that ends before the place, or is one that may lead there, is read in the new text too. -/
theorem Place.takes_piece {m : Nat} {es ds : List Char} (hto : Path 0 P.origin m cur) (hpath : Path m cur P.level P.old)
    (hc : cur.rest = c :: rest) (hgives : Gives (pieceAt c) cur (some (last, nodes))) (hes : cur.Reads es last)
    (hds : last.Reads ds P.old) (hne : es ++ ds ≠ []) (hreach : ds = [] → s.reaches c) :
    Takes (pieceAt c) es (ds ++ P.new.rest) (AreAlike nodes) := by
  by_cases hcode : isCode c
  · have hlit := pieceAt_of_isCode hcode
    rw [hlit] at hgives ⊢
    obtain rfl : es = [c] := hes.textTo_eq.symm.trans hgives.text_reads.textTo_eq
    obtain rfl : nodes = [] := hgives.nodes_eq_nil rfl
    refine Takes.lit.mono fun nodes' hnodes' => ?_
    subst hnodes'
    trivial
  · have hcases := pieceAt_of_not_isCode hcode
    refine hgives.piece_takes (by rcases hcases with h | ⟨-, h⟩ | ⟨-, h⟩ <;> rw [h] <;> decide) hes
      (hcases.imp_right fun hother => ?_) fun q hq hrefuses => ?_
    · rw [hds.rest_eq]
      cases ds with
      | nil =>
        -- no comment and no backslash ends at the place
        have hreach := hreach rfl
        have hnot := Spot.not_reaches_of_mem P.known
        obtain ⟨rfl, -⟩ | ⟨rfl, -⟩ := hother
        · exact absurd hreach hnot.1
        · exact absurd hreach hnot.2
      | cons d ds => rfl
    · rw [hds.rest_eq, ← List.append_assoc] at hrefuses
      rw [← List.append_assoc]
      exact P.unclosed hto hpath (hes.append hds) hne hq hrefuses

/-- A piece before the place is read in both texts. -/
theorem Place.Beside.advance (h : P.Beside cur cur') (hc : cur.rest = c :: rest)
    (hgives : Gives (pieceAt c) cur (some (last, nodes))) :
    ∃ last' nodes', Gives (pieceAt c) cur' (some (last', nodes')) ∧ AreAlike nodes nodes' ∧
      (P.Beside last last' ∨ last = P.old ∧ last' = P.new ∧ s.reaches c) := by
  obtain ⟨m, cs, hto, hpath, hne, hreads, hreads'⟩ := h
  obtain ⟨rfl, rfl⟩ | ⟨k, mid, hstep, htail⟩ := hpath.cases_head
  · cases hreads.textTo_eq.symm.trans (Cursor.Reads.nothing _).textTo_eq
    exact absurd rfl hne
  obtain ⟨c', rest', nodes'', hc', hpiece, hlevel⟩ := hstep
  cases hc.symm.trans hc'
  obtain ⟨rfl, -⟩ : last = mid ∧ nodes = nodes'' := by simpa using hgives.unique hpiece
  obtain ⟨ds, hds⟩ := htail.reads
  obtain ⟨es, hes⟩ := hgives.reads
  obtain rfl : cs = es ++ ds := hreads.textTo_eq.symm.trans (hes.append hds).textTo_eq
  have hdone : ds = [] → last = P.old ∧ s.reaches c := by
    rintro rfl
    obtain rfl := hds.eq_of_nil
    obtain rfl := htail.level_eq
    exact ⟨rfl, P.reaches hto ⟨c, rest, nodes, hc, hgives, hlevel⟩ hc⟩
  have htakes := P.takes_piece hto hpath hc hgives hes hds hne fun hnil => (hdone hnil).2
  obtain ⟨last', nodes', hgives', hes', hnodes⟩ := htakes cur' (by rw [hreads'.rest_eq, List.append_assoc])
  refine ⟨last', nodes', hgives', hnodes, ?_⟩
  have hds' := hreads'.cancel hes'
  by_cases hnil : ds = []
  · obtain ⟨rfl, hreach⟩ := hdone hnil
    subst hnil
    exact Or.inr ⟨rfl, hds'.eq_of_nil, hreach⟩
  · exact Or.inl ⟨k, ds, hto.tail ⟨c, rest, nodes, hc, hgives, hlevel⟩, htail, hnil, hds, hds'⟩

/-- Before the place both texts go on with the same character. -/
theorem Place.Beside.head (h : P.Beside cur cur') :
    ∃ c rest rest', cur.rest = c :: rest ∧ cur'.rest = c :: rest' := by
  obtain ⟨m, cs, -, -, hne, hreads, hreads'⟩ := h
  obtain ⟨c, cs, rfl⟩ := List.exists_cons_of_ne_nil hne
  exact ⟨c, _, _, hreads.rest_eq, hreads'.rest_eq⟩

theorem Place.rel_piece (h : P.Beside cur cur') (hc : cur.rest = c :: rest)
    (hgives : Gives (pieceAt c) cur (some (last, nodes))) :
    ∃ last' nodes', Gives (pieceAt c) cur' (some (last', nodes')) ∧ AreAlike nodes nodes' ∧
      P.RelIn (pieceFlow s c) last last' := by
  obtain ⟨last', nodes', hgives', hnodes, hrel⟩ := h.advance hc hgives
  refine ⟨last', nodes', hgives', hnodes, ?_⟩
  obtain ⟨m, cs, hto, hpath, -⟩ := h
  unfold pieceFlow
  split
  · rename_i hopen
    rw [Bool.and_eq_true, Bool.not_eq_true'] at hopen
    have hcode : isCode c := isCode_of_isOpening hopen.1
    rw [pieceAt_of_isCode hcode] at hgives
    obtain ⟨rest', hrest', rfl⟩ := hgives.char
    have hout := P.opens hto hpath hrest' hopen.1 (by simp [hopen.2])
    obtain hbeside | ⟨hold, -, -⟩ := hrel
    · exact ⟨.away, List.mem_singleton_self _, hbeside, hout⟩
    · exact absurd (hold ▸ .refl) hout
  obtain hbeside | ⟨rfl, rfl, hreach⟩ := hrel
  · exact ⟨.before, by split <;> simp, hbeside⟩
  · rw [if_pos hreach]
    exact ⟨.start, by simp, rfl, rfl⟩

/-- A piece that is no bracket does not bring the place into reach. -/
theorem Place.rel_piece_away (h : P.Rel .away cur cur') (hc : cur.rest = c :: rest)
    (hlevel : levelAt c 0 = some 0) (hgives : Gives (pieceAt c) cur (some (last, nodes))) :
    ∃ last' nodes', Gives (pieceAt c) cur' (some (last', nodes')) ∧ AreAlike nodes nodes' ∧
      P.Rel .away last last' := by
  obtain ⟨hbeside, haway⟩ := h
  obtain ⟨last', nodes', hgives', hnodes, hrel⟩ := hbeside.advance hc hgives
  have hstep : Step (0, cur) (0, last) := ⟨c, rest, nodes, hc, hgives, hlevel⟩
  refine ⟨last', nodes', hgives', hnodes, ?_⟩
  obtain hbeside' | ⟨rfl, -, -⟩ := hrel
  · exact ⟨hbeside', fun hpath => haway (.head hstep hpath)⟩
  · exact absurd (.single hstep) haway

/-! ### Characters -/

/-- Something is read in both texts, or in none. -/
def Place.BothRead (P : Place s) (Φ : List Phase) (next next' : Option Cursor) : Prop :=
  (next = none ∧ next' = none) ∨ ∃ last last', next = some last ∧ next' = some last' ∧ P.RelIn Φ last last'

theorem Place.BothRead.of_some {next next' : Option Cursor} (h : P.BothRead Φ next next')
    (hnext : next = some last) : ∃ last', next' = some last' ∧ P.RelIn Φ last last' := by
  obtain ⟨hnone, -⟩ | ⟨last, last', hsome, hsome', hin⟩ := h
  · cases hnone.symm.trans hnext
  · cases hsome.symm.trans hnext
    exact ⟨last', hsome', hin⟩

theorem Place.BothRead.of_none {next next' : Option Cursor} (h : P.BothRead Φ next next')
    (hnext : next = none) : next' = none := by
  obtain ⟨-, hnone⟩ | ⟨last, last', hsome, -⟩ := h
  · exact hnone
  · cases hsome.symm.trans hnext

/-- One character is read in both texts, or in none. -/
def Place.OneRelIn (P : Place s) (Φ : List Phase) (accepts : Char → Bool) (cur cur' : Cursor) : Prop :=
  P.BothRead Φ (cur.one? accepts) (cur'.one? accepts)

theorem one?_eq_some {accepts : Char → Bool} (hc : cur.rest = c :: rest) (h : accepts c) :
    cur.one? accepts = some (cur.past c rest) := by
  rw [Cursor.one?, hc]
  exact if_pos h

theorem Place.oneRelIn_after {accepts : Char → Bool} (h : cur.rest = cur'.rest) :
    P.OneRelIn [.after] accepts cur cur' := by
  unfold OneRelIn
  cases hc : cur.rest with
  | nil =>
    have hc' := h ▸ hc
    exact Or.inl ⟨by rw [Cursor.one?, hc], by rw [Cursor.one?, hc']⟩
  | cons c rest =>
    have hc' := h ▸ hc
    by_cases haccepts : accepts c
    · exact Or.inr ⟨_, _, one?_eq_some hc haccepts, one?_eq_some hc' haccepts, .after,
        List.mem_singleton_self _, rfl⟩
    · refine Or.inl ⟨?_, ?_⟩ <;> rw [Cursor.one?]
      · rw [hc]
        exact if_neg haccepts
      · rw [hc']
        exact if_neg haccepts

/-- None of the characters stands at the place. -/
theorem Place.oneRelIn_gap {accepts : Char → Bool} (hφ : φ = .start ∨ φ = .stopped)
    (h : P.Rel φ cur cur') (hexcludes : ∀ c, accepts c → s.excludes c) :
    P.OneRelIn [] accepts cur cur' := by
  have hnone {cur : Cursor} (hheads : ∀ c, s.excludes c → cur.rest.head? ≠ some c) :
      cur.one? accepts = none := one?_eq_none fun c hc => by
    by_contra haccepts
    exact hheads c (hexcludes c (by simpa using haccepts)) (Option.mem_def.mp hc)
  obtain rfl | rfl := hφ
  · obtain ⟨rfl, rfl⟩ := h
    exact Or.inl ⟨hnone fun c hc => (P.gap.heads c hc).1, hnone fun c hc => (P.gap'.heads c hc).1⟩
  · obtain ⟨rfl, rfl⟩ := h
    exact Or.inl ⟨hnone fun c hc => (P.gap.heads c hc).2, hnone fun c hc => (P.gap'.heads c hc).2⟩

/-- Where a character that may be read is a piece by itself, what follows it is told by the piece. -/
theorem Place.oneRelIn_beside {accepts : Char → Bool} (h : P.Beside cur cur')
    (hrel : ∀ {c rest rest'}, accepts c → cur.rest = c :: rest → cur'.rest = c :: rest' →
      P.RelIn Φ (cur.past c rest) (cur'.past c rest')) : P.OneRelIn Φ accepts cur cur' := by
  obtain ⟨c, rest, rest', hc, hc'⟩ := h.head
  by_cases haccepts : accepts c
  · exact Or.inr ⟨_, _, one?_eq_some hc haccepts, one?_eq_some hc' haccepts, hrel haccepts hc hc'⟩
  · refine Or.inl ⟨?_, ?_⟩ <;> rw [Cursor.one?]
    · rw [hc]
      exact if_neg haccepts
    · rw [hc']
      exact if_neg haccepts

theorem Place.rel_char {rest' : List Char} (h : P.Beside cur cur') (hcode : isCode c)
    (hc : cur.rest = c :: rest) (hc' : cur'.rest = c :: rest') :
    P.RelIn (pieceFlow s c) (cur.past c rest) (cur'.past c rest') := by
  have hpiece := pieceAt_of_isCode hcode
  obtain ⟨last', nodes', hgives', -, hrel⟩ := P.rel_piece h hc (hpiece ▸ gives_char hc)
  rw [hpiece] at hgives'
  cases hgives'.unique (gives_char hc')
  exact hrel

theorem Place.rel_char_away {rest' : List Char} (h : P.Rel .away cur cur') (hcode : isCode c)
    (hlevel : levelAt c 0 = some 0) (hc : cur.rest = c :: rest) (hc' : cur'.rest = c :: rest') :
    P.Rel .away (cur.past c rest) (cur'.past c rest') := by
  have hpiece := pieceAt_of_isCode hcode
  obtain ⟨last', nodes', hgives', -, hrel⟩ := P.rel_piece_away h hc hlevel (hpiece ▸ gives_char hc)
  rw [hpiece] at hgives'
  cases hgives'.unique (gives_char hc')
  exact hrel

theorem Place.oneRelIn_char (h : P.Rel φ cur cur') (hf : charFlow s c φ = some Ψ) :
    P.OneRelIn Ψ (c == ·) cur cur' := by
  cases φ with
  | after =>
    cases hf
    exact P.oneRelIn_after h
  | ended => cases hf
  | start | stopped =>
    rw [charFlow, Option.ite_none_right_eq_some, Option.some.injEq] at hf
    obtain ⟨hexcludes, rfl⟩ := hf
    exact P.oneRelIn_gap (by simp) h fun d hd => beq_iff_eq.mp hd ▸ hexcludes
  | before =>
    rw [charFlow, Option.ite_none_right_eq_some, Option.some.injEq] at hf
    obtain ⟨hcode, rfl⟩ := hf
    refine P.oneRelIn_beside h fun hd hrest hrest' => ?_
    obtain rfl := beq_iff_eq.mp hd
    exact P.rel_char h hcode hrest hrest'
  | away =>
    rw [charFlow, Option.ite_none_right_eq_some, Option.some.injEq] at hf
    obtain ⟨hcode, rfl⟩ := hf
    refine P.oneRelIn_beside h.1 fun hd hrest hrest' => ?_
    obtain rfl := beq_iff_eq.mp hd
    split
    · exact P.rel_char h.1 hcode hrest hrest'
    · rename_i hbracket
      refine ⟨.away, List.mem_singleton_self _, P.rel_char_away h hcode ?_ hrest hrest'⟩
      simp only [Bool.or_eq_true, not_or] at hbracket
      rw [levelAt, if_neg hbracket.2, if_neg hbracket.1]

theorem Place.oneRelIn_word {accepts : Char → Bool} (hsigns : ∀ c, accepts c → c ∉ signs)
    (h : P.Rel φ cur cur') (hf : wordFlow s φ = some Ψ) : P.OneRelIn Ψ accepts cur cur' := by
  have hcode (c : Char) (hc : accepts c) : isCode c := isCode_of_not_sign (hsigns c hc)
  cases φ with
  | after =>
    cases hf
    exact P.oneRelIn_after h
  | ended => cases hf
  | start | stopped =>
    obtain ⟨rfl, hexcludes⟩ := wordFlow_gap (by simp) hf
    exact P.oneRelIn_gap (by simp) h fun c hc => hexcludes c (hsigns c hc)
  | before =>
    refine P.oneRelIn_beside h fun hc hrest hrest' => ?_
    exact (P.rel_char h (hcode _ hc) hrest hrest').mono (pieceFlow_subset (hsigns _ hc) hf)
  | away =>
    cases hf
    refine P.oneRelIn_beside h.1 fun hc hrest hrest' => ?_
    exact ⟨.away, List.mem_singleton_self _,
      P.rel_char_away h (hcode _ hc) (levelAt_of_not_sign (hsigns _ hc) 0) hrest hrest'⟩

/-- Some characters are read in both texts, or in none. -/
def Place.TextRelIn (P : Place s) (Φ : List Phase) (same : Char → Char → Bool) (cs : List Char)
    (cur cur' : Cursor) : Prop :=
  P.BothRead Φ (cur.text? same cs) (cur'.text? same cs)

theorem flowAll_of_mem {f : Phase → Option (List Phase)} (h : flowAll f Φ = some Ψ) (hφ : φ ∈ Φ) :
    ∃ Ψ', f φ = some Ψ' ∧ Ψ' ⊆ Ψ := by
  induction Φ generalizing Ψ with
  | nil => cases hφ
  | cons ψ Φ ih =>
    obtain ⟨Χ, hΧ, h⟩ := Option.bind_eq_some_iff.mp h
    obtain ⟨Χ', hΧ', rfl⟩ := Option.map_eq_some_iff.mp h
    rcases List.mem_cons.mp hφ with rfl | hφ
    · exact ⟨Χ, hΧ, fun ψ hψ => List.mem_union_iff.mpr (Or.inl hψ)⟩
    · obtain ⟨Ψ', hΨ', hsub⟩ := ih hΧ' hφ
      exact ⟨Ψ', hΨ', fun ψ hψ => List.mem_union_iff.mpr (Or.inr (hsub hψ))⟩

theorem Place.textRelIn {same : Char → Char → Bool} {f : Char → Phase → Option (List Phase)}
    (hf : ∀ c ∈ cs, ∀ {φ Ψ cur cur'}, P.Rel φ cur cur' → f c φ = some Ψ →
      P.OneRelIn Ψ (same c) cur cur')
    (h : P.Rel φ cur cur') (hflow : charsFlow f cs φ = some Ψ) : P.TextRelIn Ψ same cs cur cur' := by
  induction cs generalizing cur cur' φ Ψ with
  | nil =>
    cases hflow
    exact Or.inr ⟨cur, cur', rfl, rfl, φ, List.mem_singleton_self _, h⟩
  | cons c cs ih =>
    obtain ⟨Φ, hΦ, hflow⟩ := Option.bind_eq_some_iff.mp hflow
    unfold TextRelIn
    obtain ⟨hnone, hnone'⟩ | ⟨mid, mid', hmid, hmid', ψ, hψ, hrel⟩ := hf c List.mem_cons_self h hΦ
    · exact Or.inl ⟨by rw [Cursor.text?, hnone], by rw [Cursor.text?, hnone']⟩
    · obtain ⟨Ψ', hΨ', hsub⟩ := flowAll_of_mem hflow hψ
      rw [Cursor.text?, Cursor.text?, hmid, hmid']
      obtain hnone | ⟨last, last', hlast, hlast', hin⟩ :=
        ih (fun c' hc' => hf c' (List.mem_cons_of_mem _ hc')) hrel hΨ'
      · exact Or.inl hnone
      · exact Or.inr ⟨last, last', hlast, hlast', hin.mono hsub⟩

theorem Place.textRelIn_text (h : P.Rel φ cur cur') (hf : flow s (.text cs) φ = some Ψ) :
    P.TextRelIn Ψ (· == ·) cs cur cur' :=
  P.textRelIn (fun _ _ _ _ _ _ hrel hchar => P.oneRelIn_char hrel hchar) h hf

theorem Place.textRelIn_textAnyCase (h : P.Rel φ cur cur') (hf : flow s (.textAnyCase cs) φ = some Ψ) :
    P.TextRelIn Ψ sameAnyCase cs cur cur' := by
  rw [flow, Option.ite_none_right_eq_some] at hf
  refine P.textRelIn (fun c hc _ _ _ _ hrel hword => ?_) h hf.2
  refine P.oneRelIn_word (fun d hd => ?_) hrel hword
  exact not_sign_of_anyCase (of_decide_eq_true (List.all_eq_true.mp hf.1 c hc)) hd

theorem Place.oneRelIn_one {cls : CharClass} (h : P.Rel φ cur cur') (hf : flow s (.one cls) φ = some Ψ) :
    P.OneRelIn Ψ cls.holds cur cur' := by
  rw [flow] at hf
  split at hf
  · rename_i hφ
    subst hφ
    cases hf
    exact P.oneRelIn_after h
  · rw [Option.ite_none_left_eq_some] at hf
    exact P.oneRelIn_word (fun _ hc => not_sign_of_holds hf.1 hc) h hf.2

/-! ### Outcomes -/

/-- Both fail, or both match, with trees alike and in one of some phases. -/
def Place.Agree (P : Place s) (Φ : List Phase) : Option (Cursor × List Node) → Option (Cursor × List Node) → Prop
  | none, none => True
  | some (last, nodes), some (last', nodes') => P.RelIn Φ last last' ∧ AreAlike nodes nodes'
  | _, _ => False

/-- An expression has the outcome that it has in the first text in the second as well. -/
def Place.Follows (P : Place s) (Φ : List Phase) (e : Peg) (cur' : Cursor)
    (outcome : Option (Cursor × List Node)) : Prop :=
  ∃ outcome', Gives e cur' outcome' ∧ P.Agree Φ outcome outcome'

variable {e : Peg} {outcome : Option (Cursor × List Node)}

theorem Place.Follows.mono (h : P.Follows Φ e cur' outcome) (hΦ : Φ ⊆ Ψ) : P.Follows Ψ e cur' outcome := by
  obtain ⟨outcome', hgives, hagree⟩ := h
  refine ⟨outcome', hgives, ?_⟩
  rcases outcome with _ | ⟨last, nodes⟩ <;> rcases outcome' with _ | ⟨last', nodes'⟩
  · trivial
  · cases hagree
  · cases hagree
  · exact ⟨hagree.1.mono hΦ, hagree.2⟩

theorem Place.Follows.of_none (h : P.Follows Φ e cur' none) : Gives e cur' none := by
  obtain ⟨_ | ⟨last', nodes'⟩, hgives, hagree⟩ := h
  · exact hgives
  · cases hagree

theorem Place.Follows.of_some (h : P.Follows Φ e cur' (some (last, nodes))) :
    ∃ last' nodes', Gives e cur' (some (last', nodes')) ∧ P.RelIn Φ last last' ∧ AreAlike nodes nodes' := by
  obtain ⟨_ | ⟨last', nodes'⟩, hgives, hagree⟩ := h
  · cases hagree
  · exact ⟨last', nodes', hgives, hagree⟩

/-! ### Units -/

/-- Before the place, what is read as a piece is read in both texts, or in none. -/
theorem Place.follows_piece (h : P.Beside cur cur') (he : e.isPiece) (hgives : Gives e cur outcome)
    (hpiece : ∀ {c rest last nodes}, cur.rest = c :: rest → c ∈ pieceHeads e → pieceAt c = e →
      Gives (pieceAt c) cur (some (last, nodes)) → P.Follows Φ (pieceAt c) cur' (some (last, nodes))) :
    P.Follows Φ e cur' outcome := by
  obtain ⟨c, rest, rest', hc, hc'⟩ := h.head
  by_cases hmem : c ∈ pieceHeads e
  · have hat := (pieceAt_of_mem he hmem (i := 0)).1
    -- the way to the place goes on with the piece, so the piece is there
    obtain ⟨last, nodes, hsome⟩ : ∃ last nodes, Gives (pieceAt c) cur (some (last, nodes)) := by
      obtain ⟨m, cs, -, hpath, hne, hreads, -⟩ := h
      obtain ⟨-, rfl⟩ | ⟨k, mid, hstep, -⟩ := hpath.cases_head
      · exact absurd (hreads.textTo_eq.symm.trans (Cursor.Reads.nothing _).textTo_eq) hne
      · obtain ⟨d, more, nodes, hd, hgives, -⟩ := hstep
        cases hc.symm.trans hd
        exact ⟨mid, nodes, hgives⟩
    rw [hgives.unique (hat ▸ hsome)]
    exact hat ▸ hpiece hc hmem hat hsome
  · have hnone {cur : Cursor} {rest : List Char} (hc : cur.rest = c :: rest) : Gives e cur none := by
      refine Gives.none_of_not fun last nodes hsome => hmem ?_
      obtain ⟨d, more, hd, hmem⟩ := hsome.piece_head he
      cases hc.symm.trans hd
      exact hmem
    rw [hgives.unique (hnone hc)]
    exact ⟨none, hnone hc', trivial⟩

theorem Place.follows_unit (h : P.Rel φ cur cur') (hf : unitFlow s e φ = some Ψ)
    (hgives : Gives e cur outcome) : P.Follows Ψ e cur' outcome := by
  cases φ with
  | after => cases hf
  | before =>
    rw [unitFlow, Option.ite_none_left_eq_some, Option.some.injEq, Bool.not_eq_true', Bool.not_eq_false] at hf
    obtain ⟨he, rfl⟩ := hf
    refine P.follows_piece h he hgives fun hc hmem hat hsome => ?_
    obtain ⟨last', nodes', hgives', hnodes, hrel⟩ := P.rel_piece h hc hsome
    refine ⟨_, hgives', hrel.mono ?_, hnodes⟩
    exact pieceFlow_subset_of_piece hmem
  | away =>
    rw [unitFlow, Option.ite_none_right_eq_some, Option.some.injEq] at hf
    obtain ⟨he, rfl⟩ := hf
    refine P.follows_piece h.1 he hgives fun hc hmem hat hsome => ?_
    obtain ⟨last', nodes', hgives', hnodes, hrel⟩ := P.rel_piece_away h hc (pieceAt_of_mem he hmem).2 hsome
    exact ⟨_, hgives', ⟨.away, List.mem_singleton_self _, hrel⟩, hnodes⟩
  | start =>
    rw [unitFlow, Option.ite_none_right_eq_some, Option.some.injEq, Bool.and_eq_true, decide_eq_true_eq] at hf
    obtain ⟨⟨rfl, hgap⟩, rfl⟩ := hf
    obtain ⟨rfl, rfl⟩ := h
    rw [hgives.unique (P.gap.blanks hgap)]
    exact ⟨_, P.gap'.blanks hgap, ⟨.stopped, List.mem_singleton_self _, rfl, rfl⟩, trivial⟩
  | stopped =>
    rw [unitFlow, Option.ite_none_left_eq_some, Bool.not_eq_true', Bool.not_eq_false] at hf
    obtain ⟨hgap, hf⟩ := hf
    obtain ⟨rfl, rfl⟩ := h
    split at hf
    · rename_i hblanks
      subst hblanks
      cases hf
      rw [hgives.unique (P.gap.stays hgap)]
      exact ⟨_, P.gap'.stays hgap, ⟨.stopped, List.mem_singleton_self _, rfl, rfl⟩, trivial⟩
    · rw [Option.ite_none_right_eq_some, Option.some.injEq] at hf
      obtain ⟨rfl, rfl⟩ := hf
      rw [hgives.unique (P.gap.lines hgap)]
      exact ⟨_, P.gap'.lines hgap, ⟨.ended, List.mem_singleton_self _, rfl, rfl⟩, trivial⟩
  | ended =>
    rw [unitFlow, Option.ite_none_right_eq_some, Option.some.injEq, Bool.and_eq_true, decide_eq_true_eq] at hf
    obtain ⟨⟨rfl, hgap⟩, rfl⟩ := hf
    obtain ⟨rfl, rfl⟩ := h
    rw [hgives.unique (P.gap.ends hgap)]
    exact ⟨_, P.gap'.ends hgap, ⟨.after, List.mem_singleton_self _, P.meets hgap⟩, trivial⟩

/-! ### Rules -/

theorem Place.Rel.more (h : P.Rel φ cur cur') (hφ : φ ≠ .after) : cur.rest ≠ [] ∧ cur'.rest ≠ [] := by
  have hbeside (h : P.Beside cur cur') : cur.rest ≠ [] ∧ cur'.rest ≠ [] := by
    obtain ⟨c, rest, rest', hc, hc'⟩ := h.head
    exact ⟨by simp [hc], by simp [hc']⟩
  cases φ with
  | after => exact absurd rfl hφ
  | before => exact hbeside h
  | away => exact hbeside h.1
  | start =>
    obtain ⟨rfl, rfl⟩ := h
    exact ⟨P.gap.more.1, P.gap'.more.1⟩
  | stopped =>
    obtain ⟨rfl, rfl⟩ := h
    exact ⟨P.gap.more.2.1, P.gap'.more.2.1⟩
  | ended =>
    obtain ⟨rfl, rfl⟩ := h
    exact ⟨P.gap.more.2.2, P.gap'.more.2.2⟩

/-- From where the place is out of reach no match on the same level passes it. -/
theorem Place.not_beyond (h : P.Rel .away cur cur') (hlast : Path 0 cur 0 last)
    (hbeyond : Path 0 P.old 0 last) : False := by
  obtain ⟨⟨m, cs, -, hpath, -⟩, haway⟩ := h
  rw [← Nat.zero_add m] at hpath
  obtain ⟨k, hold, hrest, -⟩ | hback := hlast.split hpath
  · have hlift := hbeyond.add k
    rw [Nat.zero_add] at hlift
    obtain rfl := hlift.level_unique hrest
    exact haway hold
  · obtain ⟨-, rfl⟩ | ⟨k, mid, hstep, hmore⟩ := hback.cases_head
    · exact haway hlast
    · have hlt : mid.rest.length < last.rest.length := hstep.length_lt
      have hle := hmore.length_le
      have hle' := hbeyond.length_le
      omega

theorem Gap.path_stop (g : Gap s cur) (hgap : s.hasGap) : Path 0 cur 0 g.stop :=
  (g.blanks hgap).path (by decide)

theorem Gap.path_fin (g : Gap s cur) (hgap : s.hasGap) : Path 0 cur 0 g.fin :=
  (g.path_stop hgap).trans ((g.lines hgap).path (by decide))

/-- Up to the place the two readings have read the same. -/
theorem Place.textTo_eq {ψ : Phase} (h : P.Rel φ cur cur') (h' : P.Rel ψ last last')
    (hφ : φ = .before ∨ φ = .away) (hψ : ψ = .before ∨ ψ = .away ∨ ψ = .start)
    (hreads : cur.Reads cs last) {cs' : List Char} (hreads' : cur'.Reads cs' last') :
    cur.textTo last = cur'.textTo last' := by
  obtain ⟨ds, hds, hds'⟩ : ∃ ds, cur.Reads ds P.old ∧ cur'.Reads ds P.new := by
    obtain rfl | rfl := hφ
    · obtain ⟨-, ds, -, -, -, hds, hds'⟩ := h
      exact ⟨ds, hds, hds'⟩
    · obtain ⟨⟨-, ds, -, -, -, hds, hds'⟩, -⟩ := h
      exact ⟨ds, hds, hds'⟩
  obtain ⟨es, hes, hes'⟩ : ∃ es, last.Reads es P.old ∧ last'.Reads es P.new := by
    obtain rfl | rfl | rfl := hψ
    · obtain ⟨-, es, -, -, -, hes, hes'⟩ := h'
      exact ⟨es, hes, hes'⟩
    · obtain ⟨⟨-, es, -, -, -, hes, hes'⟩, -⟩ := h'
      exact ⟨es, hes, hes'⟩
    · obtain ⟨rfl, rfl⟩ := h'
      exact ⟨[], .nothing _, .nothing _⟩
  have hall := hds.textTo_eq.symm.trans (hreads.append hes).textTo_eq
  have hall' := hds'.textTo_eq.symm.trans (hreads'.append hes').textTo_eq
  rw [hreads.textTo_eq, hreads'.textTo_eq]
  exact List.append_cancel_right (hall.symm.trans hall')

theorem textTo_eq_of_rest {cs' : List Char} (h : cur.rest = cur'.rest) (h' : last.rest = last'.rest)
    (hreads : cur.Reads cs last) (hreads' : cur'.Reads cs' last') :
    cur.textTo last = cur'.textTo last' := by
  rw [hreads.textTo_eq, hreads'.textTo_eq]
  rw [hreads.rest_eq, hreads'.rest_eq, h'] at h
  exact List.append_cancel_right h

variable {r : Rule}

/-- Where the body of a rule has led from before the place, the rule leads as it says. -/
theorem Place.rel_rule_before (h : P.Rel .before cur cur') (hflow : r.flow s .before = some Ψ)
    (hwithin : isWithin s r .before Ψ Φ) (hgives : Gives r.body cur (some (last, nodes)))
    (hgives' : Gives r.body cur' (some (last', nodes'))) (hψ : ψ ∈ Φ) (hrel : P.Rel ψ last last') :
    P.RelIn Ψ last last' ∧ (r.isLexeme → cur.textTo last = cur'.textTo last') := by
  rw [Rule.flow] at hflow
  rw [isWithin] at hwithin
  split at hflow
  · rename_i haway
    cases hflow
    rw [if_pos haway] at hwithin
    rw [Rule.leadsAway, Bool.and_eq_true, Bool.or_eq_true, beq_iff_eq, beq_iff_eq] at haway
    obtain ⟨w, rfl, hw⟩ : ∃ w, r = .word w ∧ (w = .lambda ∨ w = .for) := by
      obtain rfl | rfl := haway.1
      · exact ⟨_, rfl, Or.inl rfl⟩
      · exact ⟨_, rfl, Or.inr rfl⟩
    obtain ⟨m, ds, hto, hpath, -⟩ := h
    have hout := P.words haway.2 hto hpath hw (.rule hgives)
    refine ⟨⟨.away, List.mem_singleton_self _, ?_⟩, fun hlexeme => by cases hlexeme⟩
    have hψ := of_decide_eq_true hwithin hψ
    simp only [List.mem_cons, List.not_mem_nil, or_false] at hψ
    obtain rfl | rfl := hψ
    · exact ⟨hrel, hout⟩
    · exact absurd (hrel.1 ▸ .refl) hout
  · rename_i hnot
    rw [if_neg hnot] at hwithin
    rw [Option.ite_none_left_eq_some, Option.some.injEq] at hflow
    obtain ⟨-, rfl⟩ := hflow
    obtain ⟨χ, hχ, hrel'⟩ : P.RelIn (r.ends s) last last' := by
      have hmem := List.all_eq_true.mp hwithin ψ hψ
      rw [Bool.or_eq_true, decide_eq_true_eq, Bool.and_eq_true, decide_eq_true_eq, decide_eq_true_eq] at hmem
      obtain hmem | ⟨rfl, hbefore⟩ := hmem
      · exact ⟨ψ, hmem, hrel⟩
      · exact ⟨.before, hbefore, hrel.1⟩
    refine ⟨⟨χ, hχ, hrel'⟩, fun hlexeme => ?_⟩
    obtain ⟨cs, hreads⟩ := hgives.reads
    obtain ⟨cs', hreads'⟩ := hgives'.reads
    have hends := Rule.ends_lexeme s hlexeme hχ
    exact P.textTo_eq h hrel' (Or.inl rfl) (by tauto) hreads hreads'

/-- Deeper than the place, a rule that leads behind the place at all has come from a gap there. -/
theorem Place.rel_away (h : P.Rel .away cur cur') (hpath : Path 0 cur 0 last) (hrel : P.Rel ψ last last')
    (hψ : ψ ≠ .after) (hgap : s.hasGap ∨ ψ ≠ .stopped ∧ ψ ≠ .ended) : P.Rel .away last last' := by
  have haway (hbeside : P.Beside last last') : P.Rel .away last last' :=
    ⟨hbeside, fun hbeyond => h.2 (hpath.trans hbeyond)⟩
  cases ψ with
  | after => exact absurd rfl hψ
  | away => exact hrel
  | before => exact haway hrel
  | start => exact absurd (P.not_beyond h hpath (hrel.1 ▸ .refl)) id
  | stopped =>
    have hgap := hgap.resolve_right (by simp)
    exact absurd (P.not_beyond h hpath (hrel.1 ▸ P.gap.path_stop hgap)) id
  | ended =>
    have hgap := hgap.resolve_right (by simp)
    exact absurd (P.not_beyond h hpath (hrel.1 ▸ P.gap.path_fin hgap)) id

/-- Where the body of a rule has led from deeper than the place, the rule leads as it says. -/
theorem Place.rel_rule_away (h : P.Rel .away cur cur') (hflow : r.flow s .away = some Ψ)
    (hwithin : isWithin s r .away Ψ Φ) (hgives : Gives r.body cur (some (last, nodes)))
    (hgives' : Gives r.body cur' (some (last', nodes'))) (hψ : ψ ∈ Φ) (hrel : P.Rel ψ last last') :
    P.RelIn Ψ last last' ∧ (r.isLexeme → cur.textTo last = cur'.textTo last') := by
  rw [Rule.flow, Option.ite_none_left_eq_some, Option.some.injEq, Bool.not_eq_true', Bool.not_eq_false] at hflow
  obtain ⟨hordinary, rfl⟩ := hflow
  have hmem := List.all_eq_true.mp hwithin ψ hψ
  rw [Bool.and_eq_true, Bool.or_eq_true, Bool.or_eq_true, decide_eq_true_eq, decide_eq_true_eq] at hmem
  obtain ⟨hafter, hgap⟩ := hmem
  rw [Bool.and_eq_true, decide_eq_true_eq, decide_eq_true_eq] at hgap
  by_cases hψafter : ψ = .after
  · subst hψafter
    have hmem := hafter.resolve_left (by simp)
    refine ⟨⟨.after, hmem, hrel⟩, fun hlexeme => ?_⟩
    rw [hlexeme, Bool.not_true, Bool.and_false, if_neg Bool.false_ne_true] at hmem
    simp at hmem
  · have hrel' := P.rel_away h (hgives.path (levelEnd_body hordinary)) hrel hψafter hgap
    obtain ⟨cs, hreads⟩ := hgives.reads
    obtain ⟨cs', hreads'⟩ := hgives'.reads
    refine ⟨⟨.away, by split <;> simp, hrel'⟩, fun _ => ?_⟩
    exact P.textTo_eq h hrel' (Or.inr rfl) (by simp) hreads hreads'

/-- Where the body of a rule has led, the rule leads as it says, and the text of a lexeme is the same. -/
theorem Place.rel_rule (h : P.Rel φ cur cur') (hflow : r.flow s φ = some Ψ)
    (hwithin : isWithin s r φ Ψ Φ) (hgives : Gives r.body cur (some (last, nodes)))
    (hgives' : Gives r.body cur' (some (last', nodes'))) (hin : P.RelIn Φ last last') :
    P.RelIn Ψ last last' ∧ (r.isLexeme → cur.textTo last = cur'.textTo last') := by
  obtain ⟨ψ, hψ, hrel⟩ := hin
  cases φ with
  | after =>
    cases hflow
    obtain ⟨cs, hreads⟩ := hgives.reads
    obtain ⟨cs', hreads'⟩ := hgives'.reads
    obtain rfl : ψ = .after := by simpa using of_decide_eq_true hwithin hψ
    exact ⟨⟨.after, List.mem_singleton_self _, hrel⟩, fun _ => textTo_eq_of_rest h hrel hreads hreads'⟩
  | ended => cases hflow
  | start | stopped =>
    rw [Rule.flow, Option.ite_none_right_eq_some, Option.some.injEq] at hflow
    obtain ⟨-, rfl⟩ := hflow
    exact absurd (of_decide_eq_true hwithin hψ) List.not_mem_nil
  | before => exact P.rel_rule_before h hflow hwithin hgives hgives' hψ hrel
  | away => exact P.rel_rule_away h hflow hwithin hgives hgives' hψ hrel

/-! ### Expressions -/

/-- From a phase an expression leads to some phases at most. For a repetition it is enough that what is
repeated leads to no others. -/
def Flows (s : Spot) (e : Peg) (φ : Phase) (Ψ : List Phase) : Prop :=
  (∃ Ψ', flow s e φ = some Ψ' ∧ Ψ' ⊆ Ψ) ∨
    ∃ body Φ, e = .star body ∧ body.consumes ∧ φ ∈ Ψ ∧ flowAll (flow s body) Ψ = some Φ ∧ Φ ⊆ Ψ

theorem flows_of_flow (h : flow s e φ = some Ψ) : Flows s e φ Ψ := Or.inl ⟨Ψ, h, List.Subset.refl _⟩

theorem Flows.flow (h : Flows s e φ Ψ) (he : ∀ body, e ≠ .star body) :
    ∃ Ψ', Peg.flow s e φ = some Ψ' ∧ Ψ' ⊆ Ψ := by
  obtain h | ⟨body, -, rfl, -⟩ := h
  · exact h
  · exact absurd rfl (he body)

theorem flowStar_closed {f : Phase → Option (List Phase)} {n : Nat} (h : flowStar f n Φ = some Ψ) :
    Φ ⊆ Ψ ∧ ∃ Χ, flowAll f Ψ = some Χ ∧ Χ ⊆ Ψ := by
  induction n generalizing Φ with
  | zero => cases h
  | succ n ih =>
    obtain ⟨Χ, hΧ, h⟩ := Option.bind_eq_some_iff.mp h
    split at h
    · cases h
      exact ⟨List.Subset.refl _, Χ, hΧ, ‹_›⟩
    · obtain ⟨hsub, hclosed⟩ := ih h
      exact ⟨fun ψ hψ => hsub (List.mem_union_iff.mpr (Or.inl hψ)), hclosed⟩

theorem Flows.star {body : Peg} (h : Flows s (.star body) φ Ψ) : body.consumes ∧
    ∃ Ψ' Φ, φ ∈ Ψ' ∧ flowAll (Peg.flow s body) Ψ' = some Φ ∧ Φ ⊆ Ψ' ∧ Ψ' ⊆ Ψ := by
  obtain ⟨Ψ', h, hsub⟩ | ⟨_, Φ, heq, hconsumes, hφ, hall, hsub⟩ := h
  · rw [Peg.flow, Option.ite_none_right_eq_some] at h
    obtain ⟨hmem, Χ, hΧ, hclosed⟩ := flowStar_closed h.2
    exact ⟨h.1, Ψ', Χ, hmem (List.mem_singleton_self φ), hΧ, hclosed, hsub⟩
  · cases heq
    exact ⟨hconsumes, Ψ, Φ, hφ, hall, hsub, List.Subset.refl _⟩

theorem Place.follows_or {other : Option (List Phase)} (h : P.Rel φ cur cur')
    (hf : (unitFlow s e φ).or other = some Ψ) (hgives : Gives e cur outcome)
    (hother : other = some Ψ → P.Follows Ψ e cur' outcome) : P.Follows Ψ e cur' outcome := by
  obtain hunit | ⟨-, hf⟩ := Option.or_eq_some_iff.mp hf
  · exact P.follows_unit h hunit hgives
  · exact hother hf

/-- The end of the text is neither before the place nor at it. -/
theorem Place.follows_endOfInput (h : P.Rel φ cur cur') (hφ : φ ≠ .after)
    (hgives : Gives (.rule .endOfInput) cur outcome) : P.Follows [] (.rule .endOfInput) cur' outcome := by
  have hnone {cur : Cursor} (hmore : cur.rest ≠ []) : Gives (.rule .endOfInput) cur none := by
    refine Gives.none_of_not fun last nodes hsome => hmore ?_
    obtain ⟨xs, hbody, -⟩ := hsome.of_rule
    cases hbody with
    | absent h => exact h.not_any
  rw [hgives.unique (hnone (h.more hφ).1)]
  exact ⟨none, hnone (h.more hφ).2, trivial⟩

theorem Place.follows_rule (h : P.Rel φ cur cur') (hflow : flow s (.rule r) φ = some Ψ)
    {outcome : Option (Cursor × List Node)} (hgives : Gives r.body cur outcome)
    (ih : ∀ {Ψ}, Flows s r.body φ Ψ → P.Follows Ψ r.body cur' outcome) :
    P.Follows Ψ (.rule r) cur' (outcome.map fun o => (o.1, [.mk r cur o.1 o.2])) := by
  have hrule : Gives (.rule r) cur (outcome.map fun o => (o.1, [.mk r cur o.1 o.2])) := by
    cases outcome with
    | none => exact .noRule hgives
    | some o => exact .rule hgives
  rw [flow] at hflow
  split at hflow
  · rename_i hend
    obtain ⟨rfl, hφ⟩ := hend
    cases hflow
    exact P.follows_endOfInput h hφ hrule
  · rename_i hend
    have hbody := bodyFlows_of_mem r P.known φ
    rw [bodyFlows, hflow] at hbody
    cases hf : flow s r.body φ with
    | none =>
      rw [hf] at hbody
      exact absurd (by simpa using hbody) hend
    | some Φ =>
      rw [hf] at hbody
      have hfollows := ih (flows_of_flow hf)
      cases outcome with
      | none => exact ⟨none, .noRule hfollows.of_none, trivial⟩
      | some o =>
        obtain ⟨last, nodes⟩ := o
        obtain ⟨last', nodes', hgives', hin, hnodes⟩ := hfollows.of_some
        obtain ⟨hrel, htext⟩ := P.rel_rule h hflow hbody hgives hgives' hin
        exact ⟨_, .rule hgives', hrel, ⟨rfl, htext, hnodes⟩, trivial⟩

theorem Gives.follows (h : Gives e cur outcome) (hrel : P.Rel φ cur cur') (hflows : Flows s e φ Ψ) :
    P.Follows Ψ e cur' outcome := by
  induction h generalizing cur' φ Ψ with
  | empty cur =>
    obtain ⟨Ψ', hf, hsub⟩ := hflows.flow (by simp)
    cases hf
    exact Place.Follows.mono ⟨_, .empty cur', ⟨φ, List.mem_singleton_self _, hrel⟩, trivial⟩ hsub
  | text htext =>
    obtain ⟨Ψ', hf, hsub⟩ := hflows.flow (by simp)
    obtain ⟨last', hlast', hin⟩ := (P.textRelIn_text hrel hf).of_some htext
    exact ⟨_, .text hlast', hin.mono hsub, trivial⟩
  | noText htext =>
    obtain ⟨Ψ', hf, hsub⟩ := hflows.flow (by simp)
    exact ⟨none, .noText ((P.textRelIn_text hrel hf).of_none htext), trivial⟩
  | textAnyCase htext =>
    obtain ⟨Ψ', hf, hsub⟩ := hflows.flow (by simp)
    obtain ⟨last', hlast', hin⟩ := (P.textRelIn_textAnyCase hrel hf).of_some htext
    exact ⟨_, .textAnyCase hlast', hin.mono hsub, trivial⟩
  | noTextAnyCase htext =>
    obtain ⟨Ψ', hf, hsub⟩ := hflows.flow (by simp)
    exact ⟨none, .noTextAnyCase ((P.textRelIn_textAnyCase hrel hf).of_none htext), trivial⟩
  | one hone =>
    obtain ⟨Ψ', hf, hsub⟩ := hflows.flow (by simp)
    obtain ⟨last', hlast', hin⟩ := (P.oneRelIn_one hrel hf).of_some hone
    exact ⟨_, .one hlast', hin.mono hsub, trivial⟩
  | noOne hone =>
    obtain ⟨Ψ', hf, hsub⟩ := hflows.flow (by simp)
    exact ⟨none, .noOne ((P.oneRelIn_one hrel hf).of_none hone), trivial⟩
  | @seq a b cur mid last xs ys ha hb iha ihb =>
    obtain ⟨Ψ', hf, hsub⟩ := hflows.flow (by simp)
    refine (P.follows_or hrel hf (.seq ha hb) fun hf => ?_).mono hsub
    obtain ⟨Φ, hΦ, hf⟩ := Option.bind_eq_some_iff.mp hf
    obtain ⟨mid', xs', ha', ⟨ψ, hψ, hmid⟩, hxs⟩ := (iha hrel (flows_of_flow hΦ)).of_some
    obtain ⟨Χ, hΧ, hΧsub⟩ := flowAll_of_mem hf hψ
    obtain ⟨last', ys', hb', hin, hys⟩ := (ihb hmid (flows_of_flow hΧ)).of_some
    exact ⟨_, .seq ha' hb', hin.mono hΧsub, hxs.append hys⟩
  | @noFirst a b cur ha iha =>
    obtain ⟨Ψ', hf, hsub⟩ := hflows.flow (by simp)
    refine (P.follows_or hrel hf (.noFirst ha) fun hf => ?_).mono hsub
    obtain ⟨Φ, hΦ, hf⟩ := Option.bind_eq_some_iff.mp hf
    exact ⟨none, .noFirst (iha hrel (flows_of_flow hΦ)).of_none, trivial⟩
  | @noSecond a b cur mid xs ha hb iha ihb =>
    obtain ⟨Ψ', hf, hsub⟩ := hflows.flow (by simp)
    refine (P.follows_or hrel hf (.noSecond ha hb) fun hf => ?_).mono hsub
    obtain ⟨Φ, hΦ, hf⟩ := Option.bind_eq_some_iff.mp hf
    obtain ⟨mid', xs', ha', ⟨ψ, hψ, hmid⟩, hxs⟩ := (iha hrel (flows_of_flow hΦ)).of_some
    obtain ⟨Χ, hΧ, hΧsub⟩ := flowAll_of_mem hf hψ
    exact ⟨none, .noSecond ha' (ihb hmid (flows_of_flow hΧ)).of_none, trivial⟩
  | @alt a b cur last xs ha iha =>
    obtain ⟨Ψ', hf, hsub⟩ := hflows.flow (by simp)
    refine (P.follows_or hrel hf (.alt ha) fun hf => ?_).mono hsub
    obtain ⟨Φ, hΦ, hf⟩ := Option.bind_eq_some_iff.mp hf
    obtain ⟨Χ, hΧ, rfl⟩ := Option.map_eq_some_iff.mp hf
    obtain ⟨last', xs', ha', hin, hxs⟩ := (iha hrel (flows_of_flow hΦ)).of_some
    exact ⟨_, .alt ha', hin.mono fun ψ hψ => List.mem_union_iff.mpr (Or.inl hψ), hxs⟩
  | @orElse a b cur outcome ha hb iha ihb =>
    obtain ⟨Ψ', hf, hsub⟩ := hflows.flow (by simp)
    refine (P.follows_or hrel hf (.orElse ha hb) fun hf => ?_).mono hsub
    obtain ⟨Φ, hΦ, hf⟩ := Option.bind_eq_some_iff.mp hf
    obtain ⟨Χ, hΧ, rfl⟩ := Option.map_eq_some_iff.mp hf
    obtain ⟨outcome', hb', hagree⟩ := (ihb hrel (flows_of_flow hΧ)).mono fun ψ hψ =>
      List.mem_union_iff.mpr (Or.inr hψ)
    exact ⟨outcome', .orElse (iha hrel (flows_of_flow hΦ)).of_none hb', hagree⟩
  | @again e cur mid last xs ys he hmore hs ihe ihs =>
    obtain ⟨hconsumes, Ψ', Φ, hφ, hall, hclosed, hsub⟩ := hflows.star
    obtain ⟨Χ, hΧ, hΧsub⟩ := flowAll_of_mem hall hφ
    obtain ⟨mid', xs', he', ⟨ψ, hψ, hmid⟩, hxs⟩ := (ihe hrel (flows_of_flow hΧ)).of_some
    have hstar : Flows s (.star e) ψ Ψ' :=
      Or.inr ⟨e, Φ, rfl, hconsumes, hclosed (hΧsub hψ), hall, hclosed⟩
    obtain ⟨last', ys', hs', hin, hys⟩ := (ihs hmid hstar).of_some
    exact ⟨_, .again he' (he'.offset_lt hconsumes) hs', hin.mono hsub, hxs.append hys⟩
  | @noMore e cur he ihe =>
    obtain ⟨hconsumes, Ψ', Φ, hφ, hall, hclosed, hsub⟩ := hflows.star
    obtain ⟨Χ, hΧ, hΧsub⟩ := flowAll_of_mem hall hφ
    exact ⟨_, .noMore (ihe hrel (flows_of_flow hΧ)).of_none, ⟨φ, hsub hφ, hrel⟩, trivial⟩
  | @stuck e cur mid xs he hsame ihe =>
    exact absurd (he.offset_lt hflows.star.1) hsame
  | @absent e cur he ihe =>
    obtain ⟨Ψ', hf, hsub⟩ := hflows.flow (by simp)
    obtain ⟨Φ, hΦ, rfl⟩ := Option.map_eq_some_iff.mp hf
    exact ⟨_, .absent (ihe hrel (flows_of_flow hΦ)).of_none, ⟨φ, hsub (List.mem_singleton_self _), hrel⟩, trivial⟩
  | @present e cur mid xs he ihe =>
    obtain ⟨Ψ', hf, hsub⟩ := hflows.flow (by simp)
    obtain ⟨Φ, hΦ, rfl⟩ := Option.map_eq_some_iff.mp hf
    obtain ⟨mid', xs', he', -⟩ := (ihe hrel (flows_of_flow hΦ)).of_some
    exact ⟨none, .present he', trivial⟩
  | @ahead e cur mid xs he ihe =>
    obtain ⟨Ψ', hf, hsub⟩ := hflows.flow (by simp)
    obtain ⟨Φ, hΦ, rfl⟩ := Option.map_eq_some_iff.mp hf
    obtain ⟨mid', xs', he', -⟩ := (ihe hrel (flows_of_flow hΦ)).of_some
    exact ⟨_, .ahead he', ⟨φ, hsub (List.mem_singleton_self _), hrel⟩, trivial⟩
  | @notAhead e cur he ihe =>
    obtain ⟨Ψ', hf, hsub⟩ := hflows.flow (by simp)
    obtain ⟨Φ, hΦ, rfl⟩ := Option.map_eq_some_iff.mp hf
    exact ⟨none, .notAhead (ihe hrel (flows_of_flow hΦ)).of_none, trivial⟩
  | @rule r cur last xs hbody ih | @noRule r cur hbody ih =>
    obtain ⟨Ψ', hf, hsub⟩ := hflows.flow (by simp)
    exact (P.follows_rule hrel hf hbody fun hflows => ih hrel hflows).mono hsub

end Peg
end ConfigSandbox
