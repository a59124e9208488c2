import ConfigSandbox.Proofs.Grammar.Search
import ConfigSandbox.Proofs.Tree.Guard

/-!
# The way of a reading through code

Code is read piece by piece: a string, a comment and a backslash at the end of a line are one piece each,
every other character is one by itself. With the number of open brackets kept, each piece leads to one
place only, so two readings that begin at one place go the same way. What matches an expression of the
grammar is a part of that way: which level it ends on is told by a computation over the expression.
-/
namespace ConfigSandbox.Peg

open Nesting (isMark isOpening isClosing)

/-! ### Pieces -/

/-- A backslash at the end of a line. -/
def continuation : Peg := chain [lit "\\", newline]

/-- A text in any quotes, three of them before one. -/
def stringText : Peg :=
  choice [quoted .tripleDouble, quoted .tripleSingle, quoted .double, quoted .single]

/-- What is read where the character stands in code. -/
def pieceAt (c : Char) : Peg :=
  if c = '#' then comment else if c = '\\' then continuation else if isMark c then stringText
  else .text [c]

/-- Whether the character is a piece by itself. -/
def isCode (c : Char) : Bool := c ≠ '#' && c ≠ '\\' && !isMark c

/-- How many brackets are open after the piece that begins with the character. -/
def levelAt (c : Char) : Nat → Option Nat
  | 0 => if isClosing c then none else some (if isOpening c then 1 else 0)
  | i + 1 => some (if isClosing c then i else if isOpening c then i + 2 else i + 1)

theorem pieceAt_of_isCode {c : Char} (h : isCode c) : pieceAt c = .text [c] := by
  simp only [isCode, Bool.and_eq_true, decide_eq_true_eq, Bool.not_eq_true'] at h
  rw [pieceAt, if_neg h.1.1, if_neg h.1.2, if_neg (by simp [h.2])]

theorem isCode_of_isOpening {c : Char} (h : isOpening c) : isCode c := by
  simp only [isOpening, Bool.or_eq_true, decide_eq_true_eq] at h
  obtain (rfl | rfl) | rfl := h <;> rfl

theorem pieceAt_of_not_isCode {c : Char} (h : ¬ isCode c) :
    pieceAt c = stringText ∨ (c = '#' ∧ pieceAt c = comment) ∨ c = '\\' ∧ pieceAt c = continuation := by
  unfold pieceAt
  by_cases hhash : c = '#'
  · exact Or.inr (Or.inl ⟨hhash, if_pos hhash⟩)
  by_cases hslash : c = '\\'
  · exact Or.inr (Or.inr ⟨hslash, by rw [if_neg hhash, if_pos hslash]⟩)
  · have hmark : isMark c := by simpa [isCode, hhash, hslash] using h
    exact Or.inl (by rw [if_neg hhash, if_neg hslash, if_pos hmark])

theorem consumes_pieceAt (c : Char) : (pieceAt c).consumes := by
  unfold pieceAt
  split
  · decide
  split
  · decide
  split
  · decide
  · rfl

theorem levelAt_add {c : Char} {i j : Nat} (h : levelAt c i = some j) (b : Nat) :
    levelAt c (i + b) = some (j + b) := by
  cases i with
  | zero =>
    rw [levelAt, Option.ite_none_left_eq_some, Option.some.injEq] at h
    obtain ⟨hc, rfl⟩ := h
    cases b with
    | zero => simp [levelAt, hc]
    | succ b =>
      rw [Nat.zero_add, levelAt, if_neg hc]
      split <;> (congr 1; omega)
  | succ i =>
    rw [levelAt, Option.some.injEq] at h
    subst h
    rw [Nat.add_right_comm, levelAt, Option.some.injEq]
    repeat' split
    all_goals omega

/-! ### Ways -/

/-- From one place to the next, with the number of open brackets. -/
def Step (s t : Nat × Cursor) : Prop :=
  ∃ c rest nodes, s.2.rest = c :: rest ∧ Gives (pieceAt c) s.2 (some (t.2, nodes)) ∧
    levelAt c s.1 = some t.1

/-- The way from a place with some brackets open to another. None of the brackets that are open around the
first place and not counted is closed on the way. -/
def Path (i : Nat) (first : Cursor) (j : Nat) (last : Cursor) : Prop :=
  Relation.ReflTransGen Step (i, first) (j, last)

variable {first mid last cur : Cursor} {nodes : List Node} {i j k b : Nat} {c : Char} {rest cs : List Char}

theorem Step.unique {s t t' : Nat × Cursor} (h : Step s t) (h' : Step s t') : t = t' := by
  obtain ⟨c, rest, xs, hc, hgives, hlevel⟩ := h
  obtain ⟨c', rest', ys, hc', hgives', hlevel'⟩ := h'
  obtain ⟨rfl, -⟩ : c = c' ∧ rest = rest' := by simpa [hc] using hc'
  have hlast := hgives.unique hgives'
  simp only [Option.some.injEq, Prod.mk.injEq] at hlast
  exact Prod.ext (Option.some.inj (hlevel.symm.trans hlevel')) hlast.1

theorem Step.length_lt {s t : Nat × Cursor} (h : Step s t) : t.2.rest.length < s.2.rest.length := by
  obtain ⟨c, rest, nodes, -, hgives, -⟩ := h
  exact hgives.length_lt (consumes_pieceAt c)

theorem Step.add (h : Step (i, first) (j, last)) (b : Nat) : Step (i + b, first) (j + b, last) := by
  obtain ⟨c, rest, nodes, hc, hgives, hlevel⟩ := h
  exact ⟨c, rest, nodes, hc, hgives, levelAt_add hlevel b⟩

theorem Path.add (h : Path i first j last) (b : Nat) : Path (i + b) first (j + b) last :=
  Relation.ReflTransGen.lift (r := Step) (fun s => (s.1 + b, s.2)) (fun _ _ hs => Step.add hs b) _ _ h

theorem Path.trans (h : Path i first j mid) (h' : Path j mid k last) : Path i first k last :=
  Relation.ReflTransGen.trans h h'

theorem Path.length_le (h : Path i first j last) : last.rest.length ≤ first.rest.length := by
  rw [Path] at h
  generalize hs : (i, first) = s at h
  generalize ht : (j, last) = t at h
  have hlength : t.2.rest.length ≤ s.2.rest.length := by
    clear hs ht
    induction h with
    | refl => exact Nat.le_refl _
    | tail _ hstep ih => exact Nat.le_trans (Nat.le_of_lt hstep.length_lt) ih
  subst hs ht
  exact hlength

/-- A way that comes to another place begins with a piece. -/
theorem Path.cases_head (h : Path i first j last) : (i = j ∧ first = last) ∨
    ∃ k mid, Step (i, first) (k, mid) ∧ Path k mid j last := by
  obtain heq | ⟨⟨k, mid⟩, hstep, hpath⟩ := Relation.ReflTransGen.cases_head h
  · exact Or.inl (Prod.ext_iff.mp heq)
  · exact Or.inr ⟨k, mid, hstep, hpath⟩

theorem Path.level_eq (h : Path i cur j cur) : i = j := by
  obtain ⟨hlevel, -⟩ | ⟨k, mid, hstep, hpath⟩ := h.cases_head
  · exact hlevel
  · exact absurd hpath.length_le (Nat.not_le_of_lt hstep.length_lt)

/-- Two ways from one place, one of which counts some more brackets: one is a part of the other. -/
theorem Path.split (h : Path i first j last) (h' : Path (i + b) first k mid) :
    (∃ m, Path i first m mid ∧ Path m mid j last ∧ k = m + b) ∨ Path (j + b) last k mid := by
  rw [Path] at h
  generalize hs : (i, first) = s at h
  induction h using Relation.ReflTransGen.head_induction_on generalizing i first with
  | refl =>
    cases hs
    exact Or.inr h'
  | @head s t hstep htail ih =>
    subst hs
    obtain ⟨m, next⟩ := t
    obtain ⟨rfl, rfl⟩ | ⟨m', next', hstep', hpath'⟩ := h'.cases_head
    · exact Or.inl ⟨i, .refl, .head hstep htail, rfl⟩
    · obtain ⟨rfl, rfl⟩ : m + b = m' ∧ next = next' := Prod.ext_iff.mp ((hstep.add b).unique hstep')
      obtain ⟨m'', hmid, hrest, hk⟩ | hbeyond := ih hpath' rfl
      · exact Or.inl ⟨m'', .head hstep hmid, hrest, hk⟩
      · exact Or.inr hbeyond

/-- Two ways from one place to one place end on the same level. -/
theorem Path.level_unique (h : Path i first j last) (h' : Path i first k last) : j = k := by
  obtain ⟨m, -, hrest, rfl⟩ | hbeyond := h.split (b := 0) h'
  · exact hrest.level_eq.symm
  · exact hbeyond.level_eq

/-! ### Signs -/

/-- The characters that separate, quote or nest: no word and no number has them. -/
def signs : List Char :=
  [' ', '\t', '\x0c', '\n', '\r', '\\', '#', '"', '\'', '(', '[', '\x7b', ')', ']', '\x7d', ',', ':']

theorem isCode_of_not_sign (h : c ∉ signs) : isCode c := by
  simp only [signs, List.mem_cons, List.not_mem_nil, or_false, not_or] at h
  simp [isCode, isMark, h]

theorem levelAt_of_not_sign (h : c ∉ signs) (i : Nat) : levelAt c i = some i := by
  simp only [signs, List.mem_cons, List.not_mem_nil, or_false, not_or] at h
  cases i <;> simp [levelAt, isClosing, isOpening, h]

theorem not_sign_of_anyCase {expected c : Char} (h : expected ∉ signs) (hc : sameAnyCase expected c) :
    c ∉ signs := by
  intro hs
  have hlower : (signs.all fun s => s.toLower == s) = true := by decide
  rw [sameAnyCase, beq_iff_eq.mp (List.all_eq_true.mp hlower c hs), beq_iff_eq] at hc
  exact h (hc ▸ hs)

theorem not_sign_of_holds {cls : CharClass} (hcls : cls ≠ .any) {c : Char} (h : cls.holds c) :
    c ∉ signs := by
  intro hs
  have hnone : (signs.all fun s => !cls.holds s) = true := by
    cases cls <;> first | exact absurd rfl hcls | decide
  have hnot := List.all_eq_true.mp hnone c hs
  rw [h] at hnot
  cases hnot

/-! ### The way of a match -/

/-- The level after some characters that are pieces by themselves. -/
def levelPastCode : List Char → Nat → Option Nat
  | [], i => some i
  | c :: cs, i => if isCode c then (levelAt c i).bind (levelPastCode cs) else none

def isPiece (e : Peg) : Bool := e = comment || e = continuation || e = stringText

/-- The characters that such a piece may begin with. -/
def pieceHeads (e : Peg) : List Char :=
  if e = comment then ['#'] else if e = continuation then ['\\'] else ['"', '\'']

/-- The level after an expression that begins on level `i`, if it is the same whichever way it matches. -/
def levelEnd : Peg → Nat → Option Nat
  | .empty, i | .absent _, i | .ahead _, i => some i
  | .text cs, i => levelPastCode cs i
  | .textAnyCase cs, i => if cs.all (· ∉ signs) then some i else none
  | .one cls, i => if cls = .any then none else some i
  | .seq a b, i => if isPiece (.seq a b) then some i else (levelEnd a i).bind (levelEnd b)
  | .alt a b, i =>
    if isPiece (.alt a b) then some i
    else if levelEnd a i = levelEnd b i then levelEnd a i else none
  | .star e, i => if levelEnd e i = some i then some i else none
  | .rule r, i => if r.isOrdinary then some i else none

/-- Every ordinary rule ends on the level it begins on. -/
theorem levelEnd_body {r : Rule} (h : r.isOrdinary) : levelEnd r.body 0 = some 0 := by
  cases r with
  | module | reservedStatement | stringContent => cases h
  | unary op => cases op <;> decide
  | binary op => cases op <;> decide
  | slicePart part => cases part <;> decide
  | word w => cases w <;> decide
  | _ => decide

/-! An expression is passed as a whole if it is a piece, and part by part otherwise. -/

theorem levelEnd_seq {a b : Peg} (h : levelEnd (.seq a b) i = some j) :
    (isPiece (.seq a b) ∧ j = i) ∨ ∃ k, levelEnd a i = some k ∧ levelEnd b k = some j := by
  rw [levelEnd] at h
  split at h
  · rename_i hpiece
    cases h
    exact Or.inl ⟨hpiece, rfl⟩
  · exact Or.inr (Option.bind_eq_some_iff.mp h)

theorem levelEnd_alt {a b : Peg} (h : levelEnd (.alt a b) i = some j) :
    (isPiece (.alt a b) ∧ j = i) ∨ (levelEnd a i = some j ∧ levelEnd b i = some j) := by
  rw [levelEnd] at h
  split at h
  · rename_i hpiece
    cases h
    exact Or.inl ⟨hpiece, rfl⟩
  · obtain ⟨hsame, ha⟩ := Option.ite_none_right_eq_some.mp h
    exact Or.inr ⟨ha, hsame ▸ ha⟩

theorem levelEnd_star {e : Peg} (h : levelEnd (.star e) i = some j) : levelEnd e i = some i ∧ j = i := by
  rw [levelEnd, Option.ite_none_right_eq_some, Option.some.injEq] at h
  exact ⟨h.1, h.2.symm⟩

theorem gives_char (h : cur.rest = c :: rest) : Gives (.text [c]) cur (some (cur.past c rest, [])) := by
  refine .text ?_
  rw [Cursor.text?, Cursor.one?, h]
  simp [Cursor.text?]

theorem step_of_isCode (hc : cur.rest = c :: rest) (hcode : isCode c) (hlevel : levelAt c i = some j) :
    Step (i, cur) (j, cur.past c rest) :=
  ⟨c, rest, [], hc, pieceAt_of_isCode hcode ▸ gives_char hc, hlevel⟩

theorem path_of_reads (h : cur.Reads cs last) (hl : levelPastCode cs i = some j) :
    Path i cur j last := by
  induction h generalizing i with
  | nothing cur =>
    cases hl
    exact .refl
  | char hc _ ih =>
    rw [levelPastCode, Option.ite_none_right_eq_some] at hl
    obtain ⟨hcode, hl⟩ := hl
    obtain ⟨k, hk, hl⟩ := Option.bind_eq_some_iff.mp hl
    exact .head (step_of_isCode hc hcode hk) (ih hl)

theorem levelPastCode_of_not_sign (h : ∀ c ∈ cs, c ∉ signs) (i : Nat) :
    levelPastCode cs i = some i := by
  induction cs with
  | nil => rfl
  | cons c cs ih =>
    have hc := h c List.mem_cons_self
    rw [levelPastCode, if_pos (isCode_of_not_sign hc), levelAt_of_not_sign hc, Option.bind_some]
    exact ih fun c' hc' => h c' (List.mem_cons_of_mem _ hc')

theorem Gives.quoted_of_stringText (h : Gives stringText cur (some (last, nodes))) :
    ∃ q, Gives (quoted q) cur (some (last, nodes)) := by
  cases h with
  | alt h => exact ⟨_, h⟩
  | orElse _ h =>
    cases h with
    | alt h => exact ⟨_, h⟩
    | orElse _ h =>
      cases h with
      | alt h => exact ⟨_, h⟩
      | orElse _ h => exact ⟨_, h⟩

/-- A string begins with a quote. -/
theorem Gives.stringText (h : Gives stringText cur (some (last, nodes))) :
    ∃ c rest, cur.rest = c :: rest ∧ isMark c := by
  obtain ⟨q, h⟩ := h.quoted_of_stringText
  rw [quoted_eq] at h
  obtain ⟨mid, xs, ys, hopen, -, -⟩ := h.of_seq
  have hrest := hopen.text_reads.rest_eq
  cases q <;> exact ⟨_, _, hrest, rfl⟩

theorem pieceAt_of_mem {e : Peg} (he : e.isPiece) (hc : c ∈ pieceHeads e) :
    pieceAt c = e ∧ levelAt c i = some i := by
  simp only [isPiece, Bool.or_eq_true, decide_eq_true_eq] at he
  obtain (rfl | rfl) | rfl := he
  · obtain rfl : c = '#' := by simpa [pieceHeads] using hc
    exact ⟨rfl, by cases i <;> rfl⟩
  · obtain rfl : c = '\\' := by simpa [pieceHeads, (by decide : continuation ≠ comment)] using hc
    exact ⟨rfl, by cases i <;> rfl⟩
  · obtain rfl | rfl : c = '"' ∨ c = '\'' := by
      simpa [pieceHeads, (by decide : stringText ≠ comment), (by decide : stringText ≠ continuation)] using hc
    · exact ⟨rfl, by cases i <;> rfl⟩
    · exact ⟨rfl, by cases i <;> rfl⟩

theorem Gives.piece_head {e : Peg} (he : e.isPiece) (h : Gives e cur (some (last, nodes))) :
    ∃ c rest, cur.rest = c :: rest ∧ c ∈ pieceHeads e := by
  simp only [isPiece, Bool.or_eq_true, decide_eq_true_eq] at he
  obtain (rfl | rfl) | rfl := he
  · obtain ⟨mid, xs, ys, hhash, -, -⟩ := h.of_seq
    obtain ⟨rest, hrest, -⟩ := hhash.char
    exact ⟨'#', rest, hrest, by decide⟩
  · obtain ⟨mid, xs, ys, hslash, -, -⟩ := h.of_seq
    obtain ⟨rest, hrest, -⟩ := hslash.char
    exact ⟨'\\', rest, hrest, by decide⟩
  · obtain ⟨c, rest, hrest, hmark⟩ := h.stringText
    simp only [isMark, Bool.or_eq_true, decide_eq_true_eq] at hmark
    obtain rfl | rfl := hmark <;> exact ⟨_, rest, hrest, by decide⟩

/-- A string, a comment and a backslash at the end of a line are each a single step. -/
theorem step_of_isPiece {e : Peg} (he : e.isPiece) (h : Gives e cur (some (last, nodes))) (i : Nat) :
    Step (i, cur) (i, last) := by
  obtain ⟨c, rest, hc, hmem⟩ := h.piece_head he
  obtain ⟨hpiece, hlevel⟩ := pieceAt_of_mem he hmem
  exact ⟨c, rest, nodes, hc, hpiece ▸ h, hlevel⟩

/-- What matches an expression goes the way through code. -/
theorem Gives.path {e : Peg} (h : Gives e cur (some (last, nodes))) (hl : levelEnd e i = some j) :
    Path i cur j last := by
  generalize ho : some (last, nodes) = outcome at h
  induction h generalizing last nodes i j with
  | empty | absent | ahead =>
    cases ho
    cases hl
    exact .refl
  | text h =>
    cases ho
    exact path_of_reads (Cursor.reads_of_text h) hl
  | textAnyCase h =>
    cases ho
    rw [levelEnd, Option.ite_none_right_eq_some, Option.some.injEq] at hl
    obtain ⟨hall, rfl⟩ := hl
    obtain ⟨read, hread, hsigns⟩ := Cursor.reads_of_text? (fun c hc r hr =>
      not_sign_of_anyCase (of_decide_eq_true (List.all_eq_true.mp hall c hc)) hr) h
    exact path_of_reads hread (levelPastCode_of_not_sign hsigns _)
  | one h =>
    cases ho
    rw [levelEnd, Option.ite_none_left_eq_some, Option.some.injEq] at hl
    obtain ⟨hcls, rfl⟩ := hl
    obtain ⟨c, hc, hrest, hpast⟩ := Cursor.reads_of_one? h
    have hsign := not_sign_of_holds hcls hc
    rw [hpast]
    exact .single (step_of_isCode hrest (isCode_of_not_sign hsign) (levelAt_of_not_sign hsign _))
  | seq ha hb iha ihb =>
    cases ho
    obtain ⟨hpiece, rfl⟩ | ⟨k, hk, hl⟩ := levelEnd_seq hl
    · exact .single (step_of_isPiece hpiece (.seq ha hb) _)
    · exact (iha hk rfl).trans (ihb hl rfl)
  | alt ha iha =>
    cases ho
    obtain ⟨hpiece, rfl⟩ | ⟨hl, -⟩ := levelEnd_alt hl
    · exact .single (step_of_isPiece hpiece (.alt ha) _)
    · exact iha hl rfl
  | orElse ha hb _ ihb =>
    subst ho
    obtain ⟨hpiece, rfl⟩ | ⟨-, hl⟩ := levelEnd_alt hl
    · exact .single (step_of_isPiece hpiece (.orElse ha hb) _)
    · exact ihb hl rfl
  | again _ _ _ ihe ihs =>
    cases ho
    obtain ⟨hbody, rfl⟩ := levelEnd_star hl
    exact (ihe hbody rfl).trans (ihs hl rfl)
  | noMore | stuck =>
    cases ho
    obtain ⟨-, rfl⟩ := levelEnd_star hl
    exact .refl
  | rule _ ih =>
    cases ho
    rw [levelEnd, Option.ite_none_right_eq_some, Option.some.injEq] at hl
    obtain ⟨hr, rfl⟩ := hl
    have hpath := (ih (levelEnd_body hr) rfl).add i
    rwa [Nat.zero_add] at hpath
  | noText | noTextAnyCase | noOne | noFirst | noSecond | present | notAhead | noRule => cases ho

end ConfigSandbox.Peg
