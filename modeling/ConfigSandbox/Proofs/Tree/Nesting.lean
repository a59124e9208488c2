import ConfigSandbox.Proofs.Source.Reads
import ConfigSandbox.Tree.Nesting

/-!
# Steps of the bracket scan

What the scan does at a position, by the character there and by what it is inside of. The deepest level
never falls, and the level is at most the deepest one.
-/
namespace ConfigSandbox.Nesting

def isMark (c : Char) : Bool := c = '"' || c = '\''

def isOpening (c : Char) : Bool := c = '(' || c = '[' || c = '\x7b'

def isClosing (c : Char) : Bool := c = ')' || c = ']' || c = '\x7d'

/-- Outside strings and comments the scan passes such a character without a trace. -/
def isPlain (c : Char) : Bool := !isMark c && c ≠ '#' && !isOpening c && !isClosing c

/-- Continues a scan at a position. -/
def scanAt (mode : Mode) (cur : Cursor) (n : Nesting) : Nesting :=
  scan mode cur.offset cur.line n cur.rest

/-- The equation of the scan, worked out once for all the steps below. -/
theorem scan_eq : type_of% @scan.eq_def := @scan.eq_def

variable {cur last : Cursor} {c m : Char} {rest : List Char} {n : Nesting} {l : Nat}

/-! ### In code -/

theorem scanAt_plain (hc : cur.rest = c :: rest) (hp : isPlain c) :
    scanAt .code cur n = scanAt .code (cur.past c rest) n := by
  simp only [isPlain, isMark, isOpening, isClosing, Bool.and_eq_true, Bool.not_eq_true',
    Bool.or_eq_false_iff, decide_eq_false_iff_not, decide_eq_true_eq] at hp
  obtain ⟨⟨⟨⟨h1, h2⟩, h3⟩, ⟨h4, h5⟩, h6⟩, ⟨h7, h8⟩, h9⟩ := hp
  rw [scanAt, hc, scan_eq]
  dsimp only
  rw [if_neg (by simp [h1, h2]), if_neg h3, if_neg (by simp [h4, h5, h6]), if_neg (by simp [h7, h8, h9])]
  rfl

theorem scanAt_opening (hc : cur.rest = c :: rest) (ho : isOpening c) :
    scanAt .code cur n = scanAt .code (cur.past c rest) (n.enter cur.offset cur.line) := by
  rw [scanAt, hc, scan_eq]
  simp only [isOpening, Bool.or_eq_true, decide_eq_true_eq] at ho
  rcases ho with (rfl | rfl) | rfl <;> rfl

theorem scanAt_closing (hc : cur.rest = c :: rest) (ho : isClosing c) :
    scanAt .code cur n = scanAt .code (cur.past c rest) n.leave := by
  rw [scanAt, hc, scan_eq]
  simp only [isClosing, Bool.or_eq_true, decide_eq_true_eq] at ho
  rcases ho with (rfl | rfl) | rfl <;> rfl

/-! ### Comments -/

theorem scanAt_hash (hc : cur.rest = '#' :: rest) :
    scanAt .code cur n = scanAt .comment (cur.past '#' rest) n := by
  rw [scanAt, hc, scan_eq]
  rfl

theorem scanAt_comment (hc : cur.rest = c :: rest) (hl : c ≠ '\n') :
    scanAt .comment cur n = scanAt .comment (cur.past c rest) n := by
  rw [scanAt, hc, scan_eq]
  dsimp only
  rw [if_neg hl, scanAt, Cursor.past, if_neg hl]

theorem scanAt_comment_newline (hc : cur.rest = '\n' :: rest) :
    scanAt .comment cur n = scanAt .code (cur.past '\n' rest) n := by
  rw [scanAt, hc, scan_eq]
  rfl

/-- The end of the text or of a line. A carriage return ends a line only before a line feed. -/
def IsLineEnd (cs : List Char) : Prop :=
  cs = [] ∨ (∃ more, cs = '\n' :: more) ∨ ∃ more, cs = '\r' :: '\n' :: more

/-- A comment that ends where a line ends might as well have ended before. -/
theorem scanAt_comment_end (h : IsLineEnd cur.rest) : scanAt .comment cur n = scanAt .code cur n := by
  have newline {cur : Cursor} {more : List Char} (h : cur.rest = '\n' :: more) :
      scanAt .comment cur n = scanAt .code cur n := by
    rw [scanAt_comment_newline h, scanAt_plain h rfl]
  obtain h | ⟨more, h⟩ | ⟨more, h⟩ := h
  · rw [scanAt, scanAt, h]
    rfl
  · exact newline h
  · rw [scanAt_comment h (by decide), scanAt_plain h rfl]
    exact newline rfl

/-! ### Strings -/

variable {triple : Bool}

/-- Three quotes open a text of their own kind. -/
theorem scanAt_triple (hm : isMark m) (h : cur.Reads [m, m, m] last) :
    scanAt .code cur n = scanAt (.quoted m true) last n := by
  obtain ⟨more, hc, rfl⟩ := h.three
  simp only [isMark, Bool.or_eq_true, decide_eq_true_eq] at hm
  rw [scanAt, hc, scan_eq]
  dsimp only
  rw [if_pos hm, if_pos ⟨rfl, rfl⟩]
  rcases hm with rfl | rfl <;> rfl

/-- A quote that is not the first of three opens a text that ends with the line. -/
theorem scanAt_mark (hm : isMark m) (hc : cur.rest = m :: rest) (hne : rest ≠ [])
    (h : ¬ [m, m] <+: rest) : scanAt .code cur n = scanAt (.quoted m false) (cur.past m rest) n := by
  simp only [isMark, Bool.or_eq_true, decide_eq_true_eq] at hm
  have hpast : scanAt (.quoted m false) (cur.past m rest) n =
      scan (.quoted m false) (cur.offset + m.utf8Size) cur.line n rest := by
    rcases hm with rfl | rfl <;> rfl
  rw [hpast, scanAt, hc, scan_eq]
  dsimp only
  rw [if_pos hm]
  match rest with
  | [] => exact absurd rfl hne
  | [a] => rfl
  | a :: b :: more =>
    refine if_neg ?_
    rintro ⟨rfl, rfl⟩
    exact h (List.prefix_append _ more)

/-- A backslash hides what follows it. -/
theorem scanAt_escape (hc : cur.rest = '\\' :: c :: rest) :
    scanAt (.quoted m triple) cur n =
      scanAt (.quoted m triple) ((cur.past '\\' (c :: rest)).past c rest) n := by
  rw [scanAt, hc, scan_eq]
  rfl

/-- Inside quotes a character is passed unless it begins what ends the text. -/
theorem scanAt_quoted (hm : isMark m) (hc : cur.rest = c :: rest) (hescape : c ≠ '\\')
    (hne : rest ≠ []) (hmark : c = m → triple ∧ ¬ [m, m] <+: rest) (hline : c = '\n' → triple) :
    scanAt (.quoted m triple) cur n = scanAt (.quoted m triple) (cur.past c rest) n := by
  rw [scanAt, hc, scan_eq]
  dsimp only
  rw [if_neg hescape]
  by_cases hcm : c = m
  · subst hcm
    obtain ⟨htriple, hthree⟩ := hmark rfl
    have hfeed : c ≠ '\n' := by
      rintro rfl
      cases hm
    have hpast : scanAt (.quoted c triple) (cur.past c rest) n =
        scan (.quoted c true) (cur.offset + c.utf8Size) cur.line n rest := by
      rw [scanAt, Cursor.past, if_neg hfeed, htriple]
    rw [if_pos rfl, if_pos htriple, hpast]
    match rest with
    | [] => exact absurd rfl hne
    | [a] => rfl
    | a :: b :: more =>
      refine if_neg ?_
      rintro ⟨rfl, rfl⟩
      exact hthree (List.prefix_append _ more)
  · rw [if_neg hcm, if_neg]
    · rfl
    · simp only [Bool.not_eq_true', not_and, Bool.not_eq_false]
      exact hline

theorem scanAt_quoted_end (hm : isMark m) (hc : cur.rest = m :: rest) :
    scanAt (.quoted m false) cur n = scanAt .code (cur.past m rest) n := by
  simp only [isMark, Bool.or_eq_true, decide_eq_true_eq] at hm
  rw [scanAt, hc, scan_eq]
  rcases hm with rfl | rfl <;> rfl

theorem scanAt_triple_end (hm : isMark m) (h : cur.Reads [m, m, m] last) :
    scanAt (.quoted m true) cur n = scanAt .code last n := by
  obtain ⟨more, hc, rfl⟩ := h.three
  simp only [isMark, Bool.or_eq_true, decide_eq_true_eq] at hm
  rw [scanAt, hc, scan_eq]
  rcases hm with rfl | rfl <;> rfl

/-! ### Levels -/

/-- At least on the given level, and aware of it. -/
structure AtLeast (l : Nat) (n : Nesting) : Prop where
  level : l ≤ n.level
  deepest : n.level ≤ n.deepest

theorem flat_atLeast : AtLeast 1 flat := ⟨Nat.le_refl _, Nat.le_refl _⟩

theorem AtLeast.mono {k : Nat} (h : n.AtLeast l) (hk : k ≤ l) : n.AtLeast k :=
  ⟨Nat.le_trans hk h.level, h.deepest⟩

theorem AtLeast.enter (h : n.AtLeast l) (offset line : Nat) : (n.enter offset line).AtLeast (l + 1) := by
  have hlevel := h.level
  unfold Nesting.enter
  split
  · exact ⟨Nat.succ_le_succ hlevel, Nat.le_refl _⟩
  · rename_i hdeep
    exact ⟨Nat.succ_le_succ hlevel, Nat.le_of_not_lt hdeep⟩

/-- Level one is not left. -/
theorem AtLeast.leave (h : n.AtLeast l) (hl : 1 ≤ l) : n.leave.AtLeast (max (l - 1) 1) := by
  have hlevel := h.level
  have hdeepest := h.deepest
  constructor <;> simp only [Nesting.leave] <;> omega

theorem deepest_le_enter (n : Nesting) (offset line : Nat) :
    n.deepest ≤ (n.enter offset line).deepest := by
  unfold enter
  split
  · rename_i h
    exact Nat.le_of_lt h
  · exact Nat.le_refl _

theorem deepest_le_scan (mode : Mode) (offset line : Nat) (n : Nesting) (cs : List Char) :
    n.deepest ≤ (scan mode offset line n cs).deepest := by
  fun_induction scan mode offset line n cs
  case case7 hopen ih => exact Nat.le_trans (deepest_le_enter ..) ih
  case case8 hclose ih => exact ih
  all_goals first | assumption | exact Nat.le_refl _

/-! ### Places -/

variable {n' : Nesting}

theorem enter_congr (hlevel : n.level = n'.level) (hdeepest : n.deepest = n'.deepest)
    (offset line offset' line' : Nat) : (n.enter offset line).level = (n'.enter offset' line').level ∧
      (n.enter offset line).deepest = (n'.enter offset' line').deepest := by
  unfold enter
  rw [hlevel, hdeepest]
  split
  · exact ⟨rfl, rfl⟩
  · exact ⟨rfl, rfl⟩

/-- How deep the scan goes does not depend on where the text stands. -/
theorem deepest_scan_congr (mode : Mode) (offset line offset' line' : Nat) (cs : List Char)
    (hlevel : n.level = n'.level) (hdeepest : n.deepest = n'.deepest) :
    (scan mode offset line n cs).deepest = (scan mode offset' line' n' cs).deepest := by
  fun_induction scan mode offset line n cs generalizing offset' line' n'
  all_goals rw [scan_eq _ offset' line' n']
  all_goals dsimp only
  case case7 hmark hhash hopen ih =>
    rw [if_neg hmark, if_neg hhash, if_pos hopen]
    obtain ⟨hlevel', hdeepest'⟩ := enter_congr hlevel hdeepest _ _ offset' line'
    exact ih _ _ hlevel' hdeepest'
  case case8 hmark hhash hopen hclose ih =>
    rw [if_neg hmark, if_neg hhash, if_neg hopen, if_pos hclose]
    exact ih _ _ (by rw [leave, leave, hlevel]) hdeepest
  case case19 hescape hmark hline ih =>
    rw [if_neg hescape, if_neg hmark, if_pos hline]
    exact ih _ _ hlevel hdeepest
  -- elsewhere the nesting is passed on
  all_goals simp only [*, ↓reduceIte]
  all_goals first | exact hdeepest | solve_by_elim

/-- A line feed in code does not count. -/
theorem deepest_scan_newline (offset line : Nat) (n : Nesting) (cs : List Char) :
    (scan .code offset line n ('\n' :: cs)).deepest = (scan .code offset line n cs).deepest := by
  rw [scan_eq _ _ _ _ ('\n' :: cs)]
  exact deepest_scan_congr .code _ _ _ _ cs rfl rfl

end ConfigSandbox.Nesting
