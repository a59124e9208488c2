import Mathlib.Data.List.Basic
import ConfigSandbox.Interpreter.Basic
import ConfigSandbox.Interpreter.Report
import ConfigSandbox.Plugin.Catalog
import ConfigSandbox.Proofs.Source.Fits

/-!
# The snippet under an error

A location counts bytes, and a line ends for it at a line feed only. The library that draws is handed the
location as it is, takes it for a range of characters and knows more ends of lines. Where the two agree, that
is where the text up to the end of the location has one byte for each character and no other end of a line,
the report quotes the line of the location and marks exactly its characters. Nothing is assumed of the
drawing of a range that leaves its line.
-/
namespace ConfigSandbox.Report

/-! ### Lines -/

/-- The line terminators of Unicode that are one character. -/
def isLineEnd (c : Char) : Bool :=
  c = '\n' || c = '\r' || c = '\x0b' || c = '\x0c' || c = '\u0085' || c = '\u2028' || c = '\u2029'

/-- The end of a line, in front of the rest of a text. A carriage return and a line feed are one end. -/
inductive Ends : List Char → List Char → Prop
  | pair {rest : List Char} : Ends ['\r', '\n'] rest
  | single {c : Char} {rest : List Char} (hc : isLineEnd c = true)
    (hpair : c = '\r' → rest.head? ≠ some '\n') : Ends [c] rest

/-- The lines of a text, each with the characters that end it. Behind the last end there may be one more line,
which is empty. -/
inductive Lines : List Char → List (List Char) → Prop
  | none : Lines [] []
  | last {body : List Char} (hbody : ∀ c ∈ body, isLineEnd c = false) : Lines body [body]
  | ended {body ending rest : List Char} {lines : List (List Char)} (hbody : ∀ c ∈ body, isLineEnd c = false)
    (hend : Ends ending rest) (hrest : Lines rest lines) :
    Lines (body ++ ending ++ rest) ((body ++ ending) :: lines)

variable {before marked rest body ending more cs : List Char} {lines : List (List Char)}
  {split : List Char → List (List Char)} {draw : Request → List Row}

theorem noEnd_of_any (h : cs.any isLineEnd = false) : ∀ c ∈ cs, isLineEnd c = false :=
  fun c hc => (Bool.not_eq_true _).mp (List.any_eq_false.mp h c hc)

/-- The lines of a text of which the first begins with one more character. -/
def consLine (c : Char) : List (List Char) → List (List Char)
  | [] => [[c]]
  | line :: later => (c :: line) :: later

/-- The lines of a text, without one behind the last end. -/
def splitLines : List Char → List (List Char)
  | [] => []
  | '\r' :: '\n' :: rest => ['\r', '\n'] :: splitLines rest
  | c :: rest => if isLineEnd c then [c] :: splitLines rest else consLine c (splitLines rest)

theorem Lines.cons {c : Char} (h : Lines cs lines) (hc : isLineEnd c = false) :
    Lines (c :: cs) (consLine c lines) := by
  cases h with
  | none => exact .last (by simpa using hc)
  | last hbody => exact .last (List.forall_mem_cons.mpr ⟨hc, hbody⟩)
  | ended hbody hend hrest => exact .ended (List.forall_mem_cons.mpr ⟨hc, hbody⟩) hend hrest

theorem lines_splitLines (cs : List Char) : Lines cs (splitLines cs) := by
  fun_induction splitLines cs with
  | case1 => exact .none
  | case2 rest ih => exact @Lines.ended [] _ _ _ (by simp) .pair ih
  | case3 c rest hpair hc ih =>
    refine @Lines.ended [] _ _ _ (by simp) (.single hc ?_) ih
    rintro rfl hfeed
    obtain ⟨more, rfl⟩ : ∃ more, rest = '\n' :: more := by
      cases rest with
      | nil => cases hfeed
      | cons d more => exact ⟨more, by rw [Option.some.inj hfeed]⟩
    exact hpair _ rfl rfl
  | case4 c rest _ hc ih => exact ih.cons (by simpa using hc)

theorem splitLines_cons {c : Char} (hc : isLineEnd c = false) (rest : List Char) :
    splitLines (c :: rest) = consLine c (splitLines rest) := by
  rw [splitLines, hc, if_neg Bool.false_ne_true]
  rintro more rfl
  cases hc

theorem splitLines_body (hbody : ∀ c ∈ body, isLineEnd c = false) (hne : body ≠ []) :
    splitLines body = [body] := by
  induction body with
  | nil => exact absurd rfl hne
  | cons c body ih =>
    obtain ⟨hc, hbody⟩ := List.forall_mem_cons.mp hbody
    rw [splitLines_cons hc]
    cases body with
    | nil => rfl
    | cons d body => rw [ih hbody (by simp)]; rfl

theorem splitLines_ended (hbody : ∀ c ∈ body, isLineEnd c = false) (hend : Ends ending rest) :
    splitLines (body ++ ending ++ rest) = (body ++ ending) :: splitLines rest := by
  induction body with
  | nil =>
    cases hend with
    | pair => exact splitLines.eq_2 rest
    | @single c _ hc hpair =>
      rw [List.nil_append, List.singleton_append, splitLines, if_pos hc]
      rintro more rfl rfl
      exact hpair rfl rfl
  | cons c body ih =>
    obtain ⟨hc, hbody⟩ := List.forall_mem_cons.mp hbody
    rw [List.cons_append, List.cons_append, splitLines_cons hc, ih hbody]
    rfl

/-- Only the empty line behind the last end is left open. -/
theorem Lines.eq_splitLines (h : Lines cs lines) :
    lines = splitLines cs ∨ lines = splitLines cs ++ [[]] := by
  induction h with
  | none => exact .inl rfl
  | @last body hbody =>
    by_cases hne : body = []
    · subst hne
      exact .inr rfl
    · exact .inl (splitLines_body hbody hne).symm
  | ended hbody hend _ ih =>
    rw [splitLines_ended hbody hend]
    exact ih.imp (congrArg _) (congrArg _)

/-- Each line ends in a line feed, alone or after a carriage return. -/
def endsInFeeds : List Char → Bool
  | [] => true
  | '\r' :: '\n' :: rest => endsInFeeds rest
  | c :: rest => (c = '\n' || !isLineEnd c) && endsInFeeds rest

theorem endsInFeeds_append (hbody : ∀ c ∈ body, isLineEnd c = false) (rest : List Char) :
    endsInFeeds (body ++ rest) = endsInFeeds rest := by
  induction body with
  | nil => rfl
  | cons c body ih =>
    obtain ⟨hc, hbody⟩ := List.forall_mem_cons.mp hbody
    rw [List.cons_append, endsInFeeds, ih hbody, hc]
    · simp
    · rintro more rfl
      cases hc

theorem count_body (hbody : ∀ c ∈ body, isLineEnd c = false) : body.count '\n' = 0 := by
  refine List.count_eq_zero.mpr fun hmem => ?_
  have hfeed := hbody _ hmem
  cases hfeed

/-- An end of a line has its last character, which ends a line also by itself, and no line feed before that. -/
theorem Ends.eq_concat (h : Ends ending rest) :
    ∃ front c, ending = front ++ [c] ∧ isLineEnd c = true ∧ front.count '\n' = 0 := by
  cases h with
  | pair => exact ⟨['\r'], '\n', rfl, by decide, by decide⟩
  | @single c _ hc _ => exact ⟨[], c, rfl, hc, rfl⟩

/-- An end of a line among line feeds is one line feed, for a carriage return before it is no end then. -/
theorem Ends.count_eq (h : Ends ending (before ++ rest)) (hends : endsInFeeds (ending ++ before)) :
    ending.count '\n' = 1 ∧ endsInFeeds before := by
  cases h with
  | pair =>
    rw [List.cons_append, List.cons_append, endsInFeeds] at hends
    exact ⟨rfl, hends⟩
  | @single c _ hc hpair =>
    have halone : ∀ more, c = '\r' → before = '\n' :: more → False := by
      rintro more rfl rfl
      exact hpair rfl rfl
    rw [List.cons_append, List.nil_append, endsInFeeds.eq_3 _ _ halone, hc] at hends
    obtain ⟨hfeed, hbefore⟩ : c = '\n' ∧ endsInFeeds before := by simpa using hends
    exact ⟨by rw [hfeed]; rfl, hbefore⟩

/-- A place lies behind a line that has an end, or on it, for what is marked does not go past the end. -/
theorem Ends.behind_or_on (hend : Ends ending more) (hline : ∀ c ∈ marked, isLineEnd c = false)
    (hcs : body ++ ending ++ more = before ++ (marked ++ rest)) :
    (∃ behind, before = body ++ ending ++ behind ∧ more = behind ++ (marked ++ rest)) ∨
      ∃ right, body ++ ending = before ++ (marked ++ right) := by
  rcases List.append_eq_append_iff.mp hcs with hbehind | ⟨tail, htail, hrest⟩
  · exact .inl hbehind
  rcases List.append_eq_append_iff.mp hrest with ⟨right, hright, -⟩ | ⟨past, hpast, hmore⟩
  · exact .inr ⟨right, by rw [htail, hright]⟩
  rcases List.eq_nil_or_concat tail with rfl | ⟨init, last, rfl⟩
  · exact .inl ⟨[], by simpa using htail.symm, by simpa [hpast] using hmore⟩
  · obtain ⟨front, c, rfl, hc, -⟩ := hend.eq_concat
    have hlast : c = last := by
      have hsame := congrArg List.getLast? htail
      simpa [← List.append_assoc] using hsame
    have hfree := hline last (by simp [hpast])
    rw [← hlast, hc] at hfree
    cases hfree

/-- There is no line feed between the beginning of a line and a place on it. -/
theorem Ends.count_before (hend : Ends ending more) (hbody : ∀ c ∈ body, isLineEnd c = false) (hne : marked ≠ [])
    (hright : body ++ ending = before ++ (marked ++ rest)) : before.count '\n' = 0 := by
  obtain ⟨front, c, rfl, -, hfront⟩ := hend.eq_concat
  obtain ⟨init, last, hsplit⟩ : ∃ init last, marked ++ rest = init ++ [last] := by
    rcases List.eq_nil_or_concat (marked ++ rest) with hnil | ⟨init, last, hsplit⟩
    · exact absurd (List.append_eq_nil_iff.mp hnil).1 hne
    · exact ⟨init, last, by rw [hsplit, List.concat_eq_append]⟩
  have hinit : body ++ front = before ++ init := by
    rw [hsplit, ← List.append_assoc, ← List.append_assoc] at hright
    exact (List.append_inj' hright rfl).1
  have hzero := congrArg (List.count '\n') hinit
  rw [List.count_append, List.count_append, count_body hbody, hfront] at hzero
  omega

/-- The line of a place and the lines before it. -/
theorem Lines.exists_line (h : Lines cs lines) (hcs : cs = before ++ (marked ++ rest)) (hends : endsInFeeds before)
    (hne : marked ≠ []) (hline : ∀ c ∈ marked, isLineEnd c = false) : ∃ earlier left right later,
      lines = earlier ++ (left ++ marked ++ right) :: later ∧
        earlier.flatten ++ left = before ∧ earlier.length = before.count '\n' := by
  induction h generalizing before with
  | none => simp [hne] at hcs
  | last hbody =>
    subst hcs
    refine ⟨[], before, rest, [], by simp, rfl, ?_⟩
    exact (count_body fun c hc => hbody c (List.mem_append_left _ hc)).symm
  | @ended body ending more lines hbody hend _ ih =>
    rcases hend.behind_or_on hline hcs with ⟨behind, rfl, hmore⟩ | ⟨right, hright⟩
    · rw [hmore] at hend
      rw [List.append_assoc, endsInFeeds_append hbody] at hends
      obtain ⟨hcount, hbehind⟩ := hend.count_eq hends
      obtain ⟨earlier, left, right, later, hlines, hjoin, hlength⟩ := ih hmore hbehind
      refine ⟨(body ++ ending) :: earlier, left, right, later, by rw [hlines, List.cons_append], ?_, ?_⟩
      · rw [List.flatten_cons, List.append_assoc, hjoin]
      · rw [List.length_cons, hlength, List.count_append, List.count_append, count_body hbody, hcount]
        omega
    · exact ⟨[], before, right, lines, by rw [hright, List.append_assoc]; rfl, rfl,
        (hend.count_before hbody hne hright).symm⟩

/-! ### Offsets -/

theorem utf8Length_append (cs ds : List Char) : utf8Length (cs ++ ds) = utf8Length cs + utf8Length ds := by
  induction cs with
  | nil => rw [List.nil_append, utf8Length, Nat.zero_add]
  | cons c cs ih => rw [List.cons_append, utf8Length, utf8Length, ih, Nat.add_assoc]

theorem utf8Length_of_ascii (h : ∀ c ∈ cs, c.toNat < 0x80) : utf8Length cs = cs.length := by
  induction cs with
  | nil => rfl
  | cons c cs ih =>
    obtain ⟨hc, hcs⟩ := List.forall_mem_cons.mp h
    have hsize : c.utf8Size = 1 := Char.utf8Size_eq_one_iff.mpr (by
      rw [UInt32.le_iff_toNat_le]
      exact Nat.le_of_lt_succ hc)
    rw [utf8Length, hsize, ih hcs, List.length_cons, Nat.add_comm]

theorem exists_split {source : String} {offset : Nat} (h : String.Pos.Raw.IsValid source ⟨offset⟩) :
    ∃ before rest, source.toList = before ++ rest ∧ utf8Length before = offset := by
  obtain ⟨left, right, rfl, hoffset⟩ := String.Pos.Raw.isValid_iff_exists_append.mp h
  refine ⟨left.toList, right.toList, String.toList_append, ?_⟩
  rw [← utf8ByteSize_eq]
  exact congrArg String.Pos.Raw.byteIdx hoffset.symm

/-- The text around a location that is not empty. -/
theorem exists_marked {source : String} {loc : Location} (hfits : loc.Fits source)
    (hspan : loc.span.start < loc.span.stop) : ∃ before marked rest,
      source.toList = before ++ marked ++ rest ∧ utf8Length before = loc.span.start ∧
        utf8Length (before ++ marked) = loc.span.stop ∧ marked ≠ [] ∧
        (loc.span.text source).toList = marked := by
  obtain ⟨before, rest, hsplit, hstart⟩ := exists_split hfits.start_isValid
  obtain ⟨upto, rest', hsplit', hstop⟩ := exists_split hfits.stop_isValid
  have hlt : utf8Length before < utf8Length upto := by rwa [hstart, hstop]
  obtain ⟨marked, rfl⟩ : before <+: upto := by
    rcases List.prefix_or_prefix_of_prefix (hsplit ▸ List.prefix_append _ _)
      (hsplit' ▸ List.prefix_append _ _) with h | ⟨more, rfl⟩
    · exact h
    · rw [utf8Length_append] at hlt
      omega
  have hlength : loc.span.stop - loc.span.start = utf8Length marked := by
    rw [← hstart, ← hstop, utf8Length_append, Nat.add_sub_cancel_left]
  refine ⟨before, marked, rest', hsplit', hstart, hstop, ?_, ?_⟩
  · rintro rfl
    rw [List.append_nil] at hlt
    exact Nat.lt_irrefl _ hlt
  · rw [Span.text, hlength, hsplit', ← hstart, List.append_assoc, dropBytes_utf8Length,
      takeBytes_utf8Length, String.toList_ofList]

/-! ### The library -/

/-- What a drawing shows of the text, from top to bottom. -/
def shown (rows : List Row) : List Shown := rows.filterMap (·.shown)

/-- What is known of the library. -/
structure Documented (split : List Char → List (List Char)) (draw : Request → List Row) : Prop where
  /-- Lines end at line terminators. -/
  lines_split : ∀ cs, Lines cs (split cs)
  /-- Ranges count characters. If those of a label lie on one line, then this line is quoted under its number
  and the marks stand under these characters. -/
  ranges_count : ∀ (r : Request) (earlier : List (List Char)) (left marked right : List Char)
    (later : List (List Char)), r.color = false →
    split r.text.toList = earlier ++ (left ++ marked ++ right) :: later →
    marked ≠ [] → (∀ c ∈ marked, isLineEnd c = false) →
    r.range = ⟨earlier.flatten.length + left.length,
      earlier.flatten.length + left.length + marked.length⟩ →
    r.label.source = r.source → r.label.range = r.range →
    shown (draw r) = [.line (earlier.length + 1) (left ++ marked ++ right), .marker left.length marked.length]

/-- The library is handed the location of an error, if the text is long enough in bytes. -/
theorem rows_eq_draw {e : Error} {loc : Location} {source : String} (hloc : e.loc = some loc)
    (hsize : loc.span.stop ≤ source.utf8ByteSize) (color : Bool) :
    rows draw e source color = draw (request e.diagnostic loc.span source color) := by
  have hspan : e.diagnostic.span = some loc.span := by rw [Error.diagnostic, Error.span, hloc]; rfl
  rw [rows, hspan]
  exact if_pos hsize

/-- A report shows the line and the characters that the numbers of the location mean as counts of
characters. -/
theorem rows_shown (h : Documented split draw) {e : Error} {loc : Location} {source : String}
    (hloc : e.loc = some loc) (hsize : loc.span.stop ≤ source.utf8ByteSize)
    {earlier later : List (List Char)} {left right : List Char}
    (hsplit : splitLines source.toList = earlier ++ (left ++ marked ++ right) :: later)
    (hne : marked ≠ []) (hline : ∀ c ∈ marked, isLineEnd c = false)
    (hstart : loc.span.start = earlier.flatten.length + left.length)
    (hstop : loc.span.stop = earlier.flatten.length + left.length + marked.length) :
    shown (rows draw e source false) =
      [.line (earlier.length + 1) (left ++ marked ++ right), .marker left.length marked.length] := by
  obtain ⟨later, hsplit⟩ :
      ∃ later, split source.toList = earlier ++ (left ++ marked ++ right) :: later := by
    rcases (h.lines_split source.toList).eq_splitLines with hsame | hsame
    · exact ⟨later, hsame.trans hsplit⟩
    · exact ⟨later ++ [[]], by rw [hsame, hsplit, List.append_assoc, List.cons_append]⟩
  rw [rows_eq_draw hloc hsize]
  exact h.ranges_count _ earlier left marked right later rfl hsplit hne hline
    (congrArg₂ Span.mk hstart hstop) rfl rfl

/-! ### A library for characters of one column -/

/-- The number of the line that holds a character, the place of the character on it, and the line. -/
def findLine (number offset : Nat) : List (List Char) → Option (Nat × Nat × List Char)
  | [] => none
  | line :: later =>
    if offset < line.length then some (number, offset, line)
    else findLine (number + 1) (offset - line.length) later

theorem findLine_append (earlier : List (List Char)) {line : List Char} {offset : Nat} (number : Nat)
    (later : List (List Char)) (h : offset < line.length) :
    findLine number (earlier.flatten.length + offset) (earlier ++ line :: later) =
      some (number + earlier.length, offset, line) := by
  induction earlier generalizing number with
  | nil => simp [findLine, h]
  | cons content earlier ih =>
    have hlength : (content :: earlier).flatten.length + offset =
        content.length + (earlier.flatten.length + offset) := by
      rw [List.flatten_cons, List.length_append, Nat.add_assoc]
    rw [List.cons_append, findLine, hlength, if_neg (by omega), Nat.add_sub_cancel_left, ih]
    simp [Nat.add_comm, Nat.add_left_comm]

def Kind.word : Kind → String
  | error => "Error"
  | warning => "Warning"
  | advice => "Advice"

def repeated (c : Char) (count : Nat) : String := String.ofList (List.replicate count c)

/-- Draws a line in a frame, with an arrow from the middle of the marker to the message. -/
def frame (r : Request) : List Row :=
  let code := (r.code.map fun code => "[" ++ code ++ "] ").getD ""
  let headline := code ++ r.kind.word ++ ": " ++ r.message
  match findLine 1 r.range.start (splitLines r.text.toList) with
  | none => [⟨headline, none⟩]
  | some (number, first, line) =>
    let count := r.range.stop - r.range.start
    let width := (toString number).length + 2
    let margin := repeated ' ' width ++ "│"
    let quoted := String.ofList (line.filter fun c => !isLineEnd c)
    let before := repeated '─' (count / 2)
    let behind := repeated '─' (count - count / 2 - 1)
    [⟨headline, none⟩,
      ⟨repeated ' ' width ++ "╭─[ " ++ r.source ++ ":" ++ toString number ++ ":" ++ toString (first + 1) ++ " ]",
        none⟩,
      ⟨margin, none⟩,
      ⟨" " ++ toString number ++ " │ " ++ quoted, some (.line number line)⟩,
      ⟨margin ++ repeated ' ' (first + 1) ++ before ++ "┬" ++ behind ++ "  ", some (.marker first count)⟩,
      ⟨margin ++ repeated ' ' (first + 1 + count / 2) ++ "╰─" ++ behind ++ "─ " ++ r.label.message, none⟩] ++
    (match r.help with
      | some help => [⟨margin ++ " ", none⟩, ⟨margin ++ " Help: " ++ help, none⟩]
      | none => []) ++
    [⟨repeated '─' width ++ "╯", none⟩]

theorem documented_frame : Documented splitLines frame := by
  refine ⟨lines_splitLines, fun r earlier left marked right later _ hsplit hne _ hrange _ _ => ?_⟩
  have hlength : left.length < (left ++ marked ++ right).length := by
    have hpos := List.length_pos_iff.mpr hne
    simp only [List.length_append]
    omega
  have hfind : findLine 1 r.range.start (splitLines r.text.toList) =
      some (earlier.length + 1, left.length, left ++ marked ++ right) := by
    rw [hsplit, hrange, findLine_append earlier 1 later hlength, Nat.add_comm]
  have hcount : r.range.stop - r.range.start = marked.length := by
    rw [hrange]
    exact Nat.add_sub_cancel_left ..
  rw [frame, hfind, hcount]
  cases r.help <;> rfl

/-! ### Reports -/

/-- The report quotes the line on which a location starts, under the number of the location, and marks exactly
the characters of the location. -/
def Marks (rows : List Row) (source : String) (loc : Location) : Prop :=
  ∃ earlier left right later,
    let marked := (loc.span.text source).toList
    let line := left ++ marked ++ right
    Lines source.toList (earlier ++ line :: later) ∧
    earlier.length + 1 = loc.line ∧
    earlier.flatten ++ left = takeBytes loc.span.start source.toList ∧
    shown rows = [.line loc.line line, .marker left.length marked.length]

/-- A location on one line is marked if the text up to its end has one byte for each character, and the
lines before it end in line feeds only. -/
theorem rows_mark (h : Documented split draw) {e : Error} {source : String} {loc : Location}
    (hloc : e.loc = some loc) (hfits : loc.Fits source) (hspan : loc.span.start < loc.span.stop)
    (hline : ∀ c ∈ (loc.span.text source).toList, isLineEnd c = false)
    (hends : endsInFeeds (takeBytes loc.span.start source.toList))
    (hascii : ∀ c ∈ takeBytes loc.span.stop source.toList, c.toNat < 0x80) :
    Marks (rows draw e source false) source loc := by
  obtain ⟨before, marked, rest, hsource, hstart, hstop, hne, htext⟩ := exists_marked hfits hspan
  have hbefore : takeBytes loc.span.start source.toList = before := by
    rw [hsource, ← hstart, List.append_assoc, takeBytes_utf8Length]
  have hupto : takeBytes loc.span.stop source.toList = before ++ marked := by
    rw [hsource, ← hstop, takeBytes_utf8Length]
  rw [hupto] at hascii
  rw [hbefore] at hends
  rw [htext] at hline
  have hlines := lines_splitLines source.toList
  obtain ⟨earlier, left, right, later, hsplit, hjoin, hnumber⟩ :=
    hlines.exists_line (hsource.trans (List.append_assoc ..)) hends hne hline
  have hnumber' : earlier.length + 1 = loc.line := by rw [hfits.line_eq, hbefore, hnumber]
  -- one byte for each character, so the location counts characters after all
  have hstart' : loc.span.start = earlier.flatten.length + left.length := by
    rw [← hstart, utf8Length_of_ascii fun c hc => hascii c (List.mem_append_left _ hc), ← hjoin,
      List.length_append]
  have hstop' : loc.span.stop = earlier.flatten.length + left.length + marked.length := by
    rw [← hstop, utf8Length_of_ascii hascii, List.length_append, ← hjoin, List.length_append]
  refine ⟨earlier, left, right, later, ?_, hnumber', hjoin.trans hbefore.symm, ?_⟩
  · rwa [htext, ← hsplit]
  · rw [htext, ← hnumber']
    exact rows_shown h hloc hfits.stop_le_size hsplit hne hline hstart' hstop'

/-- The second line of a text, with a character of two bytes after the location. -/
theorem rows_mark_frame :
    let e : Error := ⟨.illegalSyntax "attribute access", some ⟨2, ⟨11, 14⟩⟩⟩
    let source := "x = 1\r\ny = a.b # é"
    Documented splitLines frame ∧ Location.Fits source ⟨2, ⟨11, 14⟩⟩ ∧
    (rows frame e source false).map (·.text) = ["[S002] Error: l.2: Illegal syntax",
      "   ╭─[ <submission>:2:5 ]", "   │", " 2 │ y = a.b # é", "   │     ─┬─  ",
      "   │      ╰─── Illegal syntax", "   │ ",
      "   │ Help: attribute access is not allowed here; only assignments and plugin calls are accepted",
      "───╯"] ∧
    Marks (rows frame e source false) source ⟨2, ⟨11, 14⟩⟩ := by
  intro e source
  have hstart : String.Pos.Raw.IsValid source ⟨11⟩ :=
    String.Pos.Raw.isValid_iff_exists_append.mpr ⟨"x = 1\r\ny = ", "a.b # é", by decide, by decide⟩
  have hstop : String.Pos.Raw.IsValid source ⟨14⟩ :=
    String.Pos.Raw.isValid_iff_exists_append.mpr ⟨"x = 1\r\ny = a.b", " # é", by decide, by decide⟩
  have hfits : Location.Fits source ⟨2, ⟨11, 14⟩⟩ :=
    ⟨by decide, by decide, hstart, hstop, by decide⟩
  have hline : (Span.text source ⟨11, 14⟩).toList.any isLineEnd = false := by decide
  have hascii : (takeBytes 14 source.toList).all (·.toNat < 0x80) = true := by decide
  refine ⟨documented_frame, hfits, by decide +kernel, ?_⟩
  exact rows_mark documented_frame rfl hfits (by decide) (noEnd_of_any hline) (by decide) fun c hc =>
    of_decide_eq_true (List.all_eq_true.mp hascii c hc)

/-- Elsewhere other characters may be marked, or the line be quoted under another number. A character of two
bytes in front of the location moves the marker, and a carriage return by itself ends a line for the library
only. -/
theorem rows_mark_elsewhere :
    let it := Interpreter.new Catalog.host
    let e (loc : Location) : Error := ⟨.illegalSyntax "attribute access", some loc⟩
    let wide := "x = [\"é\", a.b, c]"
    let returned := "x = 1\ry = a.b"
    ((it.check (.text wide)).map (fun _ => ()) = .error (e ⟨1, ⟨11, 14⟩⟩) ∧
      Location.Fits wide ⟨1, ⟨11, 14⟩⟩ ∧ Span.text wide ⟨11, 14⟩ = "a.b" ∧
      ∀ split draw, Documented split draw →
        shown (rows draw (e ⟨1, ⟨11, 14⟩⟩) wide false) = [.line 1 wide.toList, .marker 11 3] ∧
        ¬ Marks (rows draw (e ⟨1, ⟨11, 14⟩⟩) wide false) wide ⟨1, ⟨11, 14⟩⟩) ∧
    (it.check (.text returned)).map (fun _ => ()) = .error (e ⟨1, ⟨10, 13⟩⟩) ∧
      Location.Fits returned ⟨1, ⟨10, 13⟩⟩ ∧ Span.text returned ⟨10, 13⟩ = "a.b" ∧
      ∀ split draw, Documented split draw →
        shown (rows draw (e ⟨1, ⟨10, 13⟩⟩) returned false) = [.line 2 "y = a.b".toList, .marker 4 3] ∧
        ¬ Marks (rows draw (e ⟨1, ⟨10, 13⟩⟩) returned false) returned ⟨1, ⟨10, 13⟩⟩ := by
  intro it e wide returned
  have hfits : Location.Fits wide ⟨1, ⟨11, 14⟩⟩ := by
    refine ⟨by decide, by decide, ?_, ?_, by decide⟩
    · exact String.Pos.Raw.isValid_iff_exists_append.mpr ⟨"x = [\"é\", ", "a.b, c]", by decide, by decide⟩
    · exact String.Pos.Raw.isValid_iff_exists_append.mpr ⟨"x = [\"é\", a.b", ", c]", by decide, by decide⟩
  have hfits' : Location.Fits returned ⟨1, ⟨10, 13⟩⟩ := by
    refine ⟨by decide, by decide, ?_, ?_, by decide⟩
    · exact String.Pos.Raw.isValid_iff_exists_append.mpr ⟨"x = 1\ry = ", "a.b", by decide, by decide⟩
    · exact String.Pos.Raw.isValid_iff_exists_append.mpr ⟨"x = 1\ry = a.b", "", by decide, by decide⟩
  refine ⟨⟨by decide +kernel, hfits, by decide, fun split draw h => ?_⟩,
    by decide +kernel, hfits', by decide, fun split draw h => ?_⟩
  · have hsplit : splitLines wide.toList =
        [] ++ ("x = [\"é\", a".toList ++ ".b,".toList ++ " c]".toList) :: [] := by decide
    have hshown : shown (rows draw (e ⟨1, ⟨11, 14⟩⟩) wide false) = [.line 1 wide.toList, .marker 11 3] :=
      (rows_shown h rfl hfits.stop_le_size hsplit (by decide) (noEnd_of_any (by decide)) rfl rfl).trans (by decide)
    refine ⟨hshown, ?_⟩
    rintro ⟨earlier, left, right, later, -, hnumber, hjoin, hmarks⟩
    obtain rfl : earlier = [] := List.length_eq_zero_iff.mp (Nat.succ.inj hnumber)
    have hleft : left.length = 10 := by
      rw [List.flatten_nil, List.nil_append] at hjoin
      rw [hjoin]
      decide
    have hmarker := (List.cons.inj (List.cons.inj (hshown.symm.trans hmarks)).2).1
    have hcolumn : 11 = left.length := (Shown.marker.inj hmarker).1
    omega
  · have hsplit : splitLines returned.toList =
        ["x = 1\r".toList] ++ ("y = ".toList ++ "a.b".toList ++ []) :: [] := by decide
    have hshown : shown (rows draw (e ⟨1, ⟨10, 13⟩⟩) returned false) =
        [.line 2 "y = a.b".toList, .marker 4 3] :=
      (rows_shown h rfl hfits'.stop_le_size hsplit (by decide) (noEnd_of_any (by decide)) rfl rfl).trans (by decide)
    refine ⟨hshown, ?_⟩
    rintro ⟨earlier, left, right, later, -, -, -, hmarks⟩
    have hquoted := (List.cons.inj (hshown.symm.trans hmarks)).1
    have hnumber : 2 = 1 := (Shown.line.inj hquoted).1
    cases hnumber

end ConfigSandbox.Report
