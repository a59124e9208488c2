import ConfigSandbox.Proofs.Grammar.Phrases

/-!
# Statements on lines of their own

A statement begins with a name. It is found to be no statement of a reserved word, then an assignment is
tried, and what is none is read again as something else. A line is read with its end, if another one follows.
-/
namespace ConfigSandbox.Peg

variable {α : Type} {t : α → List Char} {Q : α → Node → Prop} {R : Node → Prop}
variable {cs w more tail : List Char} {xs : List α} {x : α}

/-! ### Targets -/

/-- Where a line ends. -/
def lineEnds : List (Option Char) := [none, some '\n']

theorem stops_of_lineEnd (h : tail.head? ∈ lineEnds) : Stops tail := by
  have hall : ∀ head ∈ lineEnds, head ∈ stops := by decide
  exact hall _ h

/-- The node of a list of one expression, which no comma follows. -/
def TargetNode (R : Node → Prop) (node : Node) : Prop :=
  ∃ first last e, node = .mk .targetList first last [e] ∧ R e

theorem takes_targetList (htest : Takes test cs tail (Sole R)) (hopens : Opens (cs ++ tail))
    (hhead : tail.head? ∈ some '=' :: lineEnds) : Takes (.rule .targetList) cs tail (Sole (TargetNode R)) := by
  have hstarred : Refuses (.rule .starred) (cs ++ tail) := hopens.refuses (by decide) (by decide)
  have hmore : Skips (.seq blanks (tokens [many (tokens [lit ",", starTest]), opt (.rule .trailingComma)])) tail :=
    skips_at _ hhead (by decide)
  have hlist : Takes Rule.targetList.body cs tail (Sole R) := (htest.orElse hstarred).before hmore
  refine hlist.rule.mono ?_
  rintro _ ⟨first, last, _, rfl, -, e, rfl, hR⟩
  exact ⟨_, rfl, first, last, e, rfl, hR⟩

theorem takes_value (h : Item test cs R) (htail : tail.head? ∈ lineEnds) :
    Takes (.rule .targetList) cs tail (Sole (TargetNode R)) :=
  takes_targetList (h.takes tail (stops_of_lineEnd htail)) (h.opens tail (stops_of_lineEnd htail))
    (List.mem_cons_of_mem _ htail)

/-- A name that is assigned is read with the space after it. -/
theorem takes_target (hw : isName w) :
    Takes (.rule .targetList) (w ++ [' ']) ('=' :: ' ' :: more)
      (Sole (TargetNode (RowNode (Single .identifier w Silent)))) := by
  have hmem : some '=' ∈ [some '='] := List.mem_cons_self
  have hspace : Takes blanks [' '] ('=' :: ' ' :: more) Silent :=
    takes_space (refuses_at [some '='] hmem (by decide)) (refuses_at [some '='] hmem (by decide))
  -- a comparison would begin with the same character
  have hblocked (e : Peg) (he : (blockedAt (some '=') e || e == lit "==") = true) :
      Refuses e ('=' :: ' ' :: more) := by
    rcases (Bool.or_eq_true _ _).mp he with he | he
    · exact blockedAt_refuses rfl e he
    · rw [beq_iff_eq.mp he]
      refine Refuses.lit fun hprefix => ?_
      have hsecond := (List.cons_prefix_cons.mp hprefix).2
      exact absurd (List.cons_prefix_cons.mp hsecond).1 (by decide)
  have hrest : Skips (tokens [many trailer,
      many (tokens [binaryOperator, many unaryOperator, primary, many trailer])]) ('=' :: ' ' :: more) := by
    have hholds := glance_holds hblocked (tokens [many trailer,
      many (tokens [binaryOperator, many unaryOperator, primary, many trailer])])
    have hskips : glance (fun e => blockedAt (some '=') e || e == lit "==") (tokens [many trailer,
      many (tokens [binaryOperator, many unaryOperator, primary, many trailer])]) = .skips := by decide
    rwa [hskips] at hholds
  have hend : Skips conditionalRest ('=' :: ' ' :: more) := skips_at [some '='] hmem (by decide)
  have hopens : OpensOperand (w ++ ([' '] ++ '=' :: ' ' :: more)) := opens_name hw rfl
  have htest := takes_test hopens (takes_nameOperand hw rfl) (hspace.before hrest) hend
  rw [← List.append_assoc] at hopens
  refine takes_targetList (htest.mono ?_) hopens.opens List.mem_cons_self
  rintro _ ⟨_, rfl, first, last, first', last', _, rfl, _, _, rfl, hname, rfl⟩
  exact ⟨_, rfl, first, last, first', last', _, rfl, by rwa [List.append_nil]⟩

/-! ### Statements -/

/-- A text that is read as a statement where the line ends after it. -/
structure Line (cs : List Char) (R : Node → Prop) : Prop where
  opens : ∀ tail, tail.head? ∈ lineEnds → Opens (cs ++ tail)
  unreserved : ∀ tail, tail.head? ∈ lineEnds → Refuses (.rule .reservedStatement) (cs ++ tail)
  takes : ∀ tail, tail.head? ∈ lineEnds → Takes simpleStatement cs tail (Sole R)

theorem refuses_reservedStatement (hw : isName w) (hb : breaksWord tail) :
    Refuses (.rule .reservedStatement) (w ++ tail) := by
  have hbody : ReadsWord Rule.reservedWord.body statementWords := readsWord_choice statementWords
  have hwords : ∀ word ∈ statementWords, word ∈ reservedWords := by decide
  have hne := ne_reserved_of_isName hw
  have hstatement : Refuses Rule.reservedStatement.body (w ++ tail) :=
    refuses_words hbody.rule endsWord_absent.seq hwords (isContinue_of_isWord (isWord_of_isName hw)) hb
      fun word hword => hne word (hwords word hword)
  exact hstatement.rule

/-- The node of an assignment to one name. -/
def AssignmentNode (w : List Char) (R : Node → Prop) (node : Node) : Prop :=
  ∃ first last target value, node = .mk .assignment first last [target, value] ∧
    TargetNode (RowNode (Single .identifier w Silent)) target ∧ TargetNode R value

theorem line_assignment (hw : isName w) (h : Item test cs R) :
    Line (w ++ ' ' :: '=' :: ' ' :: cs) (AssignmentNode w R) := by
  refine ⟨fun tail _ => ?_, fun tail _ => ?_, fun tail htail => ?_⟩
  · rw [List.append_assoc]
    exact (opens_name hw rfl).opens
  · rw [List.append_assoc]
    exact refuses_reservedStatement hw rfl
  · have hopens := h.opens tail (stops_of_lineEnd htail)
    have hequals : Refuses (lit "=") (cs ++ tail) := hopens.refuses (by decide) (by decide)
    have hsign : Takes assignSign ['=', ' '] (cs ++ tail) Silent := by
      have hspace : Takes (.seq blanks (.absent (lit "="))) [' '] (cs ++ tail) Silent :=
        hopens.space.before fun cur hrest => .absent (hequals cur hrest)
      exact hspace.after Takes.lit
    have hmore : Skips (.seq blanks (many (tokens [assignSign, .rule .targetList]))) tail :=
      skips_at lineEnds htail (by decide)
    have hvalue : Takes (many1 (tokens [assignSign, .rule .targetList])) ('=' :: ' ' :: cs) tail
        (Sole (TargetNode R)) :=
      Takes.before (((takes_value h htail).past hopens.skips_blanks).after hsign) hmore
    have hgap : Skips blanks ('=' :: ' ' :: cs ++ tail) :=
      skips_at [some '='] List.mem_cons_self (by decide)
    have hassignment : Takes Rule.assignment.body (w ++ [' '] ++ '=' :: ' ' :: cs) tail _ :=
      (takes_target hw).seq (hvalue.past hgap)
    rw [List.append_assoc] at hassignment
    refine hassignment.rule.alt.mono ?_
    rintro _ ⟨first, last, _, rfl, -, _, _, rfl, ⟨target, rfl, htarget⟩, value, rfl, hvalue⟩
    exact ⟨_, rfl, first, last, target, value, rfl, htarget, hvalue⟩

/-- The node of an expression that stands for itself. -/
def ExpressionNode (R : Node → Prop) (node : Node) : Prop :=
  ∃ first last value, node = .mk .expressionStatement first last [value] ∧ TargetNode R value

theorem line_expression (h : Item test cs R)
    (hunreserved : ∀ tail, tail.head? ∈ lineEnds → Refuses (.rule .reservedStatement) (cs ++ tail)) :
    Line cs (ExpressionNode R) := by
  refine ⟨fun tail htail => h.opens tail (stops_of_lineEnd htail), hunreserved, fun tail htail => ?_⟩
  have hvalue := takes_value h htail
  have hblanks : Skips blanks tail := skips_at lineEnds htail (by decide)
  have hassignment : Refuses Rule.assignment.body (cs ++ tail) := by
    have hsign : Refuses (many1 (tokens [assignSign, .rule .targetList])) tail :=
      refuses_at lineEnds htail (by decide)
    exact (hsign.past hblanks).after hvalue
  have haugmented : Refuses Rule.augmentedAssignment.body (cs ++ tail) := by
    have hsign : Refuses (.rule .augmentedOperator) tail := refuses_at lineEnds htail (by decide)
    exact (hsign.seq.past hblanks).after hvalue
  have hannotated : Refuses Rule.annotatedAssignment.body (cs ++ tail) := by
    have hcolon : Refuses (lit ":") tail := refuses_at lineEnds htail (by decide)
    exact (hcolon.seq.past hblanks).after (h.takes tail (stops_of_lineEnd htail))
  have hbody : Takes Rule.expressionStatement.body cs tail (Sole (TargetNode R)) := hvalue
  refine (((hbody.rule.orElse hannotated.rule).orElse haugmented.rule).orElse hassignment.rule).mono ?_
  rintro _ ⟨first, last, _, rfl, -, value, rfl, hR⟩
  exact ⟨_, rfl, first, last, value, rfl, hR⟩

/-! ### Lines -/

/-- Statements on lines of their own. -/
def script (t : α → List Char) (xs : List α) : List Char := ['\n'].intercalate (xs.map t)

/-- A statement with the line end after it, if others follow. -/
def lead (t : α → List Char) (x : α) : List α → List Char
  | [] => t x
  | _ :: _ => t x ++ ['\n']

theorem script_cons (x : α) (xs : List α) : script t (x :: xs) = lead t x xs ++ script t xs := by
  cases xs with
  | nil => simp [script, lead]
  | cons y rest => exact List.intercalate_cons_cons

/-- A line, or an empty one. -/
def line : Peg := choice [newline, statementLine]

/-- A statement is read with the line end after it, or without one at the end of the text. -/
theorem Line.takes_line {ds : List Char} (h : Line cs R) (hhead : (ds ++ tail).head? ∈ lineEnds)
    (hend : Takes (choice [newline, .ahead (.rule .endOfInput)]) ds tail Silent) :
    Takes line (cs ++ ds) tail (Sole R) := by
  have hmore : Skips (many (tokens [lit ";", simpleStatement])) (ds ++ tail) :=
    skips_at lineEnds hhead (by decide)
  have hsemicolon : Skips (opt (lit ";")) (ds ++ tail) := skips_at lineEnds hhead (by decide)
  have hblanks : Skips blanks (ds ++ tail) := skips_at lineEnds hhead (by decide)
  have hrest := ((((hend.past hblanks).past hsemicolon).past hblanks).past hmore).past hblanks
  have hstatement : Takes simpleStatements (cs ++ ds) tail (Sole R) := (h.takes (ds ++ tail) hhead).close hrest
  have hopens := h.opens (ds ++ tail) hhead
  have hreserved := h.unreserved (ds ++ tail) hhead
  have hnewline : Refuses newline (cs ++ (ds ++ tail)) := hopens.refuses (by decide) (by decide)
  rw [← List.append_assoc] at hreserved hnewline
  exact (hstatement.orElse hreserved).orElse hnewline

theorem Line.takes_ended (h : Line cs R) : Takes line (cs ++ ['\n']) tail (Sole R) :=
  have hmem : some '\n' ∈ lineEnds := by decide
  h.takes_line hmem Takes.lit.alt.alt

theorem gives_endOfInput {cur : Cursor} (hrest : cur.rest = []) :
    Gives (.rule .endOfInput) cur (some (cur, [.mk .endOfInput cur cur []])) := by
  have hnone : Gives (.one .any) cur none := .noOne (one?_eq_none (by rw [hrest]; exact nofun))
  have hempty : Gives Rule.endOfInput.body cur (some (cur, [])) := .absent hnone
  exact .rule hempty

theorem Line.takes_last (h : Line cs R) : Takes line cs [] (Sole R) := by
  have hmem : none ∈ lineEnds := by decide
  have hnewline : Refuses newline [] := refuses_at [none] List.mem_cons_self (by decide)
  have hend : Skips (choice [newline, .ahead (.rule .endOfInput)]) [] :=
    fun cur hrest => .orElse (hnewline cur hrest) (.ahead (gives_endOfInput hrest))
  have hline : Takes line (cs ++ []) [] (Sole R) := h.takes_line hmem hend.takes
  rwa [List.append_nil] at hline

theorem takes_lead (hx : Line (t x) R) : Takes line (lead t x xs) (script t xs) (Sole R) := by
  cases xs with
  | nil => exact hx.takes_last
  | cons y rest => exact hx.takes_ended

theorem opens_lead (hx : Line (t x) R) : Opens (lead t x xs ++ script t xs) := by
  cases xs with
  | nil => exact hx.opens [] (by decide)
  | cons y rest =>
    have hmem : some '\n' ∈ lineEnds := by decide
    have hopens := hx.opens ('\n' :: script t (y :: rest)) hmem
    rwa [List.append_cons] at hopens

theorem lead_ne_nil (hx : Line (t x) R) : lead t x xs ≠ [] := by
  cases xs with
  | nil =>
    have hopens := hx.opens [] (by decide)
    rw [List.append_nil] at hopens
    exact hopens.ne_nil (by decide)
  | cons y rest => exact List.append_ne_nil_of_right_ne_nil _ (List.cons_ne_nil _ _)

theorem takes_star_line (hxs : ∀ y ∈ xs, Line (t y) (Q y)) :
    Takes (.star (.seq blanks line)) (script t xs) [] (List.Forall₂ Q xs) := by
  induction xs with
  | nil =>
    have hnone : Skips (.star (.seq blanks line)) [] := skips_at [none] List.mem_cons_self (by decide)
    exact hnone.takes.mono fun _ h => h ▸ .nil
  | cons x rest ih =>
    obtain ⟨hx, hrest⟩ := List.forall_mem_cons.mp hxs
    have hline : Takes (.seq blanks line) (lead t x rest) (script t rest ++ []) (Sole (Q x)) := by
      rw [List.append_nil]
      exact (takes_lead hx).past (opens_lead hx).skips_blanks
    rw [script_cons]
    exact (hline.star (lead_ne_nil hx) (ih hrest)).mono fun _ => forall₂_of_both

/-- The node of a text with such statements. -/
def ModuleNode (Q : α → Node → Prop) (xs : List α) (node : Node) : Prop :=
  ∃ first last statements finish, node = .mk .module first last (statements ++ [finish]) ∧
    List.Forall₂ Q xs statements ∧ finish.rule = .endOfInput

theorem takes_many_line (hxs : ∀ y ∈ xs, Line (t y) (Q y)) :
    Takes (many line) (script t xs) [] (List.Forall₂ Q xs) := by
  cases xs with
  | nil =>
    have hnone : Skips (many line) [] := skips_at [none] List.mem_cons_self (by decide)
    exact hnone.takes.mono fun _ h => h ▸ .nil
  | cons x rest =>
    obtain ⟨hx, hrest⟩ := List.forall_mem_cons.mp hxs
    have hline : Takes line (lead t x rest) (script t rest ++ []) (Sole (Q x)) := by
      rw [List.append_nil]
      exact takes_lead hx
    rw [script_cons]
    exact (hline.seq (takes_star_line hrest)).opt.mono fun _ => forall₂_of_both

theorem takes_module (hxs : ∀ y ∈ xs, Line (t y) (Q y)) :
    Takes (.rule .module) (script t xs) [] (Sole (ModuleNode Q xs)) := by
  have hfinish : Takes (.rule .endOfInput) [] [] (Sole fun node => node.rule = .endOfInput) :=
    fun cur hrest => ⟨cur, _, gives_endOfInput hrest, .nothing cur, _, rfl, rfl⟩
  have hblanks : Skips blanks [] := skips_at [none] List.mem_cons_self (by decide)
  have hbegin : Skips blanks (script t xs ++ []) := by
    cases xs with
    | nil => exact hblanks
    | cons x rest =>
      rw [script_cons, List.append_nil]
      exact (opens_lead (hxs x List.mem_cons_self)).skips_blanks
  have hmodule : Takes Rule.module.body (script t xs) []
      (Both (List.Forall₂ Q xs) (Sole fun node => node.rule = .endOfInput)) := by
    have hlines := (takes_many_line hxs).seq (hfinish.past hblanks)
    rw [List.append_nil] at hlines
    exact (hlines.past hbegin).past fun cur _ => .empty cur
  refine hmodule.rule.mono ?_
  rintro _ ⟨first, last, _, rfl, -, statements, _, rfl, hstatements, finish, rfl, hrule⟩
  exact ⟨_, rfl, first, last, statements, finish, rfl, hstatements, hrule⟩

end ConfigSandbox.Peg
