import ConfigSandbox.Proofs.Grammar.Lines

/-!
# Joints

A joint is a place between two tokens of a text, with what stands between them. Where the innermost bracket
around it, the token before it and what stands at it tell that the grammar spells a line end out there, a
line end more is read over.
-/
namespace ConfigSandbox.Peg

open Nesting (isMark isOpening isClosing)

variable {s : Spot} {first mid last place cur cur' : Cursor} {nodes : List Node} {cs tail : List Char} {c c' : Char}
  {rest rest' : List Char} {i k m : Nat}

/-- The way from the second place, with more brackets open. -/
theorem Path.trans_add {origin : Cursor} {level : Nat} (h : Path 0 origin level first) (h' : Path 0 first m cur) :
    Path 0 origin (m + level) cur := by
  have hmore := h'.add level
  rw [Nat.zero_add] at hmore
  exact h.trans hmore

/-! ### The innermost bracket -/

/-- A way that leaves brackets in which the place stands leaves them behind the place. -/
theorem Path.leaves (h : Path 0 cur 0 place) (h' : Path (m + 1) cur m mid) : Path (m + 1) place m mid := by
  have hway : Path (0 + (m + 1)) cur m mid := (Nat.zero_add (m + 1)).symm ▸ h'
  obtain ⟨m', -, -, hm⟩ | hbeyond := h.split hway
  · omega
  · rwa [Nat.zero_add] at hbeyond

/-- The place stands directly in the bracket that opens there. -/
structure Directly (cur : Cursor) (c : Char) (rest : List Char) (place : Cursor) : Prop where
  rest_eq : cur.rest = c :: rest
  opens : isOpening c
  path : Path 0 (cur.past c rest) 0 place

theorem Directly.step (h : Directly cur c rest place) (i : Nat) : Step (i, cur) (i + 1, cur.past c rest) :=
  step_of_isOpening h.rest_eq h.opens

theorem Directly.path_to (h : Directly cur c rest place) (i : Nat) : Path i cur (i + 1) place := by
  have hpath := h.path.add (i + 1)
  rw [Nat.zero_add] at hpath
  exact .head (h.step i) hpath

theorem Directly.length_lt (h : Directly cur c rest place) : place.rest.length < cur.rest.length :=
  Nat.lt_of_le_of_lt h.path.length_le (h.step 0).length_lt

/-- Only one bracket is the innermost. -/
theorem Directly.unique (h : Directly cur c rest place) (h' : Directly cur' c' rest' place)
    (hpath : Path i first m cur) (hpath' : Path i first m cur') : cur = cur' := by
  have honly {cur cur' : Cursor} {c c' : Char} {rest rest' : List Char} (h : Directly cur c rest place)
      (h' : Directly cur' c' rest' place) (hway : Path m cur m cur') : cur = cur' := by
    obtain ⟨-, heq⟩ | ⟨n, next, hstep, hmore⟩ := hway.cases_head
    · exact heq
    · cases hstep.unique (h.step m)
      exact absurd (h.path.leaves hmore).length_le (Nat.not_le_of_lt h'.length_lt)
  obtain ⟨n, -, hway, hn⟩ | hway := hpath.split (b := 0) hpath'
  · obtain rfl : m = n := hn
    exact (honly h' h hway).symm
  · exact honly h h' hway

/-- What stands on the level of the place and before it stands in the innermost bracket. -/
theorem Directly.path_inside (h : Directly cur c rest place) (hpath : Path i first m cur)
    (hto : Path i first (m + 1) mid) (hfrom : Path 0 mid 0 place) (hbefore : place.rest.length < mid.rest.length) :
    Path 0 (cur.past c rest) 0 mid := by
  obtain ⟨n, -, hway, hn⟩ | hway := hpath.split (b := 0) hto
  · obtain rfl : m + 1 = n := hn
    exact absurd (hfrom.leaves hway).length_le (Nat.not_le_of_lt h.length_lt)
  · obtain ⟨hlevel, -⟩ | ⟨n, next, hstep, hmore⟩ := hway.cases_head
    · simp at hlevel
    · cases hstep.unique (h.step m)
      have hmore' : Path (0 + (m + 1)) (cur.past c rest) (m + 1) mid := (Nat.zero_add (m + 1)).symm ▸ hmore
      obtain ⟨n, hinside, -, hn⟩ | hbeyond := h.path.split hmore'
      · obtain rfl : n = 0 := by omega
        exact hinside
      · exact absurd hbeyond.length_le (Nat.not_le_of_lt hbefore)

/-- The innermost bracket around a place, of those that open behind another place. -/
structure Bracket (first place : Cursor) where
  level : Nat
  cur : Cursor
  sign : Char
  rest : List Char
  path : Path 0 first level cur
  directly : Directly cur sign rest place

def Bracket.inside (b : Bracket first place) : Cursor := b.cur.past b.sign b.rest

theorem Bracket.path_place (b : Bracket first place) : Path 0 first (b.level + 1) place :=
  b.path.trans (b.directly.path_to b.level)

theorem not_opens (hs : s ∈ Spot.tokens) (h : ¬ s.opens c) : s = .after ':' ∧ c ≠ '\x7b' := by
  cases s with
  | after l =>
    rw [Spot.opens] at h
    split at h
    · rename_i hl
      exact ⟨hl ▸ rfl, by simpa using h⟩
    · have hend := (List.mem_filter.mp hs).2
      simp_all [Spot.isLineEnd]
  | before | lined => exact absurd rfl h

/-! ### The piece before the place -/

/-- A piece that is neither a comment nor a backslash at the end of a line does not end with a backslash. -/
theorem Step.getLast_ne {t : Nat × Cursor} (h : Step (i, cur) t) (hrest : cur.rest = c :: rest)
    (hhash : c ≠ '#') (hslash : c ≠ '\\') (hreads : cur.Reads cs t.2) : cs ≠ [] ∧ cs.getLast? ≠ some '\\' := by
  obtain ⟨c', rest', nodes, hc', hgives, -⟩ := h
  cases hrest.symm.trans hc'
  by_cases hcode : isCode c
  · rw [pieceAt_of_isCode hcode] at hgives
    obtain rfl : cs = [c] := hreads.textTo_eq.symm.trans hgives.text_reads.textTo_eq
    exact ⟨List.cons_ne_nil c [], by simpa using hslash⟩
  · obtain hpiece | ⟨hc, -⟩ | ⟨hc, -⟩ := pieceAt_of_not_isCode hcode
    · rw [hpiece] at hgives
      obtain ⟨q, hquoted⟩ := hgives.quoted_of_stringText
      obtain ⟨content, hquotes, -⟩ := hquoted.quoted_holds
      obtain rfl : cs = q.marks ++ (content ++ q.marks) := hreads.textTo_eq.symm.trans hquotes.textTo_eq
      have hend : q.marks.getLast? = some q.char := by cases q <;> rfl
      rw [← List.append_assoc, List.getLast?_append, hend, Option.some_or]
      exact ⟨List.append_ne_nil_of_right_ne_nil _ q.marks_ne_nil, by cases q <;> decide⟩
    · exact absurd hc hhash
    · exact absurd hc hslash

/-! ### Joints -/

/-- A text, and a place between two of its tokens. -/
structure Joint where
  front : List Char
  /-- What stands between the tokens, before the place and after it. -/
  left : List Char
  right : List Char
  /-- From the second of the tokens on. -/
  back : List Char
  left_isFiller : isFiller false left
  right_isFiller : isFiller false right
  resumes : Resumes back

namespace Joint

def text (j : Joint) : List Char := j.front ++ (j.left ++ (j.right ++ j.back))

/-- The text with a line end at the place. -/
def broken (j : Joint) : List Char := j.front ++ (j.left ++ '\n' :: (j.right ++ j.back))

/-- The place is where the first token ends, in a statement that ends at `last`. The spot that it is and
the innermost bracket around it tell that a line end may stand there. -/
structure IsFree (j : Joint) (s : Spot) {first place : Cursor} (b : Bracket first place) (last : Cursor) : Prop where
  spot : s ∈ Spot.tokens
  suits : s.Suits (j.left ++ j.right) j.back
  reads : (Cursor.start j.text).Reads j.front place
  before : place.offset < last.offset
  /-- The last piece before the place is one that may lead there. -/
  token : ∃ level cur c rest, Path 0 first level cur ∧ Step (level, cur) (b.level + 1, place) ∧
    cur.rest = c :: rest ∧ s.reaches c
  /-- A colon in a brace stands after a key. -/
  colon : s = .after ':' → b.sign = '\x7b'
  /-- No parameters of a lambda and no targets of a comprehension are separated there. -/
  words : s.inLists → ∀ {cur last : Cursor} {nodes : List Node} {w : Word}, w = .lambda ∨ w = .for →
    Path 0 b.inside 0 cur → Gives (.rule (.word w)) cur (some (last, nodes)) → ¬ Path 0 last 0 place

variable {j : Joint} {b : Bracket first place} {origin new : Cursor} {level : Nat}

theorem isFiller_broken (j : Joint) : isFiller false (j.left ++ '\n' :: j.right) :=
  isFiller_append j.left_isFiller j.right_isFiller

/-- With a line end more it is a spot of the same kind. -/
theorem suits_broken (h : s.Suits (j.left ++ j.right) j.back) : s.Suits (j.left ++ '\n' :: j.right) j.back := by
  cases s with
  | after | before => exact h
  | lined => exact lineStart_insert j.left_isFiller j.resumes h

theorem IsFree.lineMore (h : j.IsFree s b last) (hnew : (Cursor.start j.broken).Reads j.front new) :
    LineMore j.left place new :=
  ⟨getLast_of_isFiller j.left_isFiller, _, rest_of_reads rfl h.reads, rest_of_reads rfl hnew⟩

theorem IsFree.getLast_ne (h : j.IsFree s b last) (hpath : Path 0 origin level first)
    (hto : Path 0 origin m cur) (hon : Path m cur (b.level + 1 + level) place) (hreads : cur.Reads cs place) :
    cs.getLast? ≠ some '\\' := by
  obtain ⟨k, other, c, rest, hother, hstep, hrest, hreach⟩ := h.token
  have hnot := Spot.not_reaches_of_mem (List.mem_filter.mp h.spot).1
  obtain heq | ⟨⟨n, mid⟩, hway, hlast⟩ := Relation.ReflTransGen.cases_tail hon
  · obtain rfl : place = cur := (Prod.ext_iff.mp heq).2
    rw [hreads.textTo_eq.symm.trans (Cursor.Reads.nothing _).textTo_eq]
    simp
  · obtain rfl : other = mid :=
      (hstep.add level).last_unique hlast (hpath.trans_add hother) (hto.trans hway)
    obtain ⟨ds, hds⟩ := Path.reads hway
    obtain ⟨es, hes⟩ := Path.reads (.single hlast)
    obtain ⟨hne, hend⟩ := hlast.getLast_ne hrest (fun hc => hnot.1 (hc ▸ hreach)) (fun hc => hnot.2 (hc ▸ hreach)) hes
    rw [hreads.textTo_eq.symm.trans (hds.append hes).textTo_eq, List.getLast?_append_of_ne_nil _ hne]
    exact hend

theorem IsFree.exists_place (h : j.IsFree s b last) (hnew : (Cursor.start j.broken).Reads j.front new)
    (hpath : Path 0 origin level first) :
    ∃ P : Place s, P.origin = origin ∧ P.level ≠ 0 ∧ P.old = place ∧ P.new = new := by
  obtain ⟨k, other, c, rest, hother, hstep, hrest, hreach⟩ := h.token
  have hold : place.rest = (j.left ++ j.right) ++ j.back := by
    rw [rest_of_reads rfl h.reads, List.append_assoc]
  have hbroken : new.rest = (j.left ++ '\n' :: j.right) ++ j.back := by
    rw [rest_of_reads rfl hnew, List.append_assoc]
    rfl
  obtain ⟨gap, hgap⟩ := exists_gap hold (isFiller_append j.left_isFiller j.right_isFiller) j.resumes h.suits
  obtain ⟨gap', hgap'⟩ := exists_gap hbroken j.isFiller_broken j.resumes (suits_broken h.suits)
  refine ⟨⟨origin, b.level + 1 + level, place, new, gap, gap', (List.mem_filter.mp h.spot).1,
    fun _ => hgap.trans hgap'.symm, hpath.trans_add b.path_place, ?_, ?_, ?_, ?_⟩, rfl, by simp, rfl, rfl⟩
  · intro m cur c' rest' hto hlast hc'
    obtain rfl := hlast.last_unique (hstep.add level) hto (hpath.trans_add hother)
    cases hc'.symm.trans hrest
    exact hreach
  · intro m cur c' rest' hto hon hc' hopen hopens hinside
    have hdirect : Directly cur c' rest' place := ⟨hc', hopen, hinside⟩
    have hlevel := (hdirect.path_to m).level_unique hon
    obtain rfl : m = b.level + level := by omega
    obtain rfl := hdirect.unique b.directly hto (hpath.trans_add b.path)
    cases hc'.symm.trans b.directly.rest_eq
    obtain ⟨hs, hsign⟩ := not_opens h.spot hopens
    exact hsign (h.colon hs)
  · intro hlists m cur last' w nodes' hto hon hw hword hfrom
    have hway : Path 0 cur 0 place := (hword.path rfl).trans hfrom
    have hlift := hway.add m
    rw [Nat.zero_add] at hlift
    obtain rfl : b.level + level + 1 = m := by
      have hlevel := hlift.level_unique hon
      omega
    have hbefore : place.rest.length < cur.rest.length :=
      Nat.lt_of_le_of_lt hfrom.length_le (hword.length_lt (by cases w <;> decide))
    exact h.words hlists hw (b.directly.path_inside (hpath.trans_add b.path) hto hway hbefore) hword hfrom
  · intro m cur cs q hto hon hreads hne hq hrefuses
    exact (h.lineMore hnew).refuses (Or.inr (h.getLast_ne hpath hto hon hreads)) hq hrefuses

theorem IsFree.site (h : j.IsFree s b last) (hnew : (Cursor.start j.broken).Reads j.front new) :
    Site s first last place new :=
  ⟨h.spot, ⟨b.level, b.path_place⟩, h.before, fun _ => h.getLast_ne .refl .refl b.path_place,
    ⟨j.left, h.lineMore hnew⟩, h.exists_place hnew⟩

end Joint

end ConfigSandbox.Peg
