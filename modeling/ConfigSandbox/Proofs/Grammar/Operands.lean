import ConfigSandbox.Proofs.Grammar.Literals

/-!
# Operands of a row

An expression begins with a character that begins nothing else, or with a word. The first tells which of the
operands is read, for all that are tried before it fail; of a word it has to be known which one it is not.
Where something stops the expression after its operand, the row ends there.
-/
namespace ConfigSandbox.Peg

variable {w cs ds text tail : List Char} {d m : Char} {e : Peg} {P Q : List Node → Prop}

/-! ### How expressions begin -/

/-- The characters with which operands begin that begin with no word. -/
def operandHeads : List (Option Char) :=
  some '(' :: some '[' :: some '\x7b' :: some '"' :: some '\'' :: digitHeads

/-- And those with which expressions begin. -/
def openers : List (Option Char) := some '-' :: some '+' :: some '~' :: operandHeads

/-- What fails where a word stands: all that cannot begin a word, and the other words. -/
def blockedAtWord (others : List String) : Peg → Bool
  | .text (d :: _) => !opensWord d
  | .one .decimal | .rule .strings => true
  | e => others.any fun word => e == chain [lit word, .absent (.one .identContinue)]

theorem not_isDigit_of_opensWord (h : opensWord d) : d.isDigit = false := by
  have hall : ∀ head ∈ digitHeads, head.all fun c => !opensWord c := by decide
  by_cases hdigit : d.isDigit
  · have hnot := hall _ (mem_digitHeads hdigit)
    simp [h] at hnot
  · simpa using hdigit

theorem blockedAtWord_refuses {others : List String} (hw : isWord w) (hb : breaksWord tail)
    (hothers : ∀ word ∈ others, word ∈ reservedWords ∧ word.toList ≠ w) (e : Peg)
    (he : blockedAtWord others e) : Refuses e (w ++ tail) := by
  have hcontinue := isContinue_of_isWord hw
  have hword (h : others.any fun word => e == chain [lit word, .absent (.one .identContinue)]) :
      Refuses e (w ++ tail) := by
    obtain ⟨word, hmem, heq⟩ := List.any_eq_true.mp h
    rw [beq_iff_eq.mp heq]
    exact refuses_word (hothers word hmem).1 hcontinue hb (hothers word hmem).2
  cases w with
  | nil => cases hw
  | cons c w =>
    have hopens : opensWord c := ((Bool.and_eq_true _ _).mp hw).1
    unfold blockedAtWord at he
    split at he
    · refine refuses_lit ?_
      rintro rfl
      simp [hopens] at he
    · refine blockedAt_refuses rfl _ ?_
      simp [blockedAt, CharClass.holds, not_isDigit_of_opensWord hopens]
    · exact refuses_strings hcontinue hb
    · exact hword he

/-- With one of some characters, or with a word, but not with one of some reserved ones. -/
inductive Begins (heads : List (Option Char)) (others : List String) : List Char → Prop
  | char {text : List Char} (h : text.head? ∈ heads) : Begins heads others text
  | word {w tail : List Char} (hw : isWord w) (hb : breaksWord tail)
      (hother : ∀ word ∈ others, word.toList ≠ w) : Begins heads others (w ++ tail)

/-- How the text of an expression begins, with what follows it. A lambda begins with a word of its own. -/
abbrev Opens : List Char → Prop := Begins openers ["lambda"]

/-- How the text of an operand begins. A negation begins with a word of its own too. -/
abbrev OpensOperand : List Char → Prop := Begins operandHeads ["lambda", "not"]

theorem OpensOperand.opens (h : OpensOperand text) : Opens text := by
  have hheads : ∀ head ∈ operandHeads, head ∈ openers := by decide
  cases h with
  | char h => exact .char (hheads _ h)
  | word hw hb hother =>
    refine .word hw hb fun word hword => hother word ?_
    rw [List.mem_singleton.mp hword]
    exact List.mem_cons_self

theorem operators_reserved : ∀ word ∈ ["lambda", "not"], word ∈ reservedWords := by decide

theorem opens_name (hw : isName w) (hb : breaksWord tail) : OpensOperand (w ++ tail) :=
  .word (isWord_of_isName hw) hb fun word hword =>
    ne_reserved_of_isName hw word (operators_reserved word hword)

section Begins

variable {heads : List (Option Char)} {others : List String}

theorem Begins.ne_nil (h : Begins heads others text) (hheads : none ∉ heads) : text ≠ [] := by
  cases h with
  | char h =>
    rintro rfl
    exact hheads h
  | @word w tail hw hb hother =>
    cases w with
    | nil => cases hw
    | cons c w => exact List.cons_ne_nil c (w ++ tail)

theorem Begins.glance_holds {result : Glance} (h : Begins heads others text)
    (hothers : ∀ word ∈ others, word ∈ reservedWords)
    (hchar : ∀ head ∈ heads, glance (blockedAt head) e = result)
    (hword : glance (blockedAtWord others) e = result) : result.Holds e text := by
  cases h with
  | char h =>
    rw [← hchar _ h]
    exact glance_at e text
  | word hw hb hother =>
    rw [← hword]
    exact Peg.glance_holds (blockedAtWord_refuses hw hb fun word hmem => ⟨hothers word hmem, hother word hmem⟩) e

end Begins

theorem Opens.skips (h : Opens text) (hchar : ∀ head ∈ openers, glance (blockedAt head) e = .skips)
    (hword : glance (blockedAtWord ["lambda"]) e = .skips) : Skips e text :=
  h.glance_holds (by decide) hchar hword

theorem Opens.refuses (h : Opens text) (hchar : ∀ head ∈ openers, glance (blockedAt head) e = .refuses)
    (hword : glance (blockedAtWord ["lambda"]) e = .refuses) : Refuses e text :=
  h.glance_holds (by decide) hchar hword

theorem OpensOperand.refuses_unary (h : OpensOperand text) : Refuses unaryOperator text := by
  have hchar : ∀ head ∈ operandHeads, glance (blockedAt head) unaryOperator = .refuses := by decide
  exact h.glance_holds operators_reserved hchar (by decide)

theorem Opens.skips_blanks (h : Opens text) : Skips blanks text := h.skips (by decide) (by decide)

theorem Opens.skips_lines (h : Opens text) : Skips lines text := h.skips (by decide) (by decide)

/-! ### A row of one operand -/

/-- What may follow the first operand of a row. -/
def operandRest : Peg :=
  .seq blanks (tokens [many trailer, many (tokens [binaryOperator, many unaryOperator, primary, many trailer])])

/-- What makes an expression conditional. -/
def conditionalRest : Peg :=
  .seq blanks (opt (tokens [.rule (.word .if), .rule .operation, .rule (.word .else), test]))

theorem Stops.operandRest (h : Stops tail) : Skips operandRest tail := skips_at stops h (by decide)

theorem Stops.conditionalRest (h : Stops tail) : Skips conditionalRest tail :=
  skips_at stops h (by decide)

/-- One node of the given kind. -/
def Sole (R : Node → Prop) (nodes : List Node) : Prop := ∃ node, nodes = [node] ∧ R node

/-- The node of an expression that is a row with such nodes. -/
def RowNode (P : List Node → Prop) (node : Node) : Prop :=
  ∃ first last first' last' children,
    node = .mk .conditional first last [.mk .operation first' last' children] ∧ P children

/-- An expression that is one operand with what follows it. -/
theorem takes_test (hopens : OpensOperand (cs ++ (ds ++ tail))) (hoperand : Takes primary cs (ds ++ tail) P)
    (hrest : Takes operandRest ds tail Q) (hend : Skips conditionalRest tail) :
    Takes test (cs ++ ds) tail (Sole (RowNode (Both P Q))) := by
  have hunary := hopens.refuses_unary.many
  have hblanks := hopens.opens.skips_blanks
  have hlambda : Refuses (.rule .lambda) (cs ++ (ds ++ tail)) :=
    hopens.opens.refuses (by decide) (by decide)
  rw [← List.append_assoc] at hunary hblanks hlambda
  have hrow : Takes Rule.operation.body (cs ++ ds) tail (Both P Q) :=
    ((hoperand.seq hrest).past hblanks).past hunary
  have hconditional : Takes Rule.conditional.body (cs ++ ds) tail
      (Single .operation (cs ++ ds) (Both P Q)) := hrow.rule.before hend
  refine (hconditional.rule.orElse hlambda).mono ?_
  rintro _ ⟨first, last, _, rfl, -, first', last', children, rfl, -, hchildren⟩
  exact ⟨_, rfl, first, last, first', last', children, rfl, hchildren⟩

/-! ### Operands -/

/-- In the order in which they are tried. -/
def operands : List Peg :=
  [.rule .ellipsis, .rule .float, .rule .integer, .rule .strings, .rule .trueLiteral, .rule .falseLiteral,
    .rule .noneLiteral, .rule .identifier, .rule .paren, .rule .list, .rule .brace]

theorem choice_operands : choice operands = primary := rfl

/-- Those that are tried before an operand. -/
def operandsBefore (e : Peg) : List Peg := operands.takeWhile (· != e)

theorem takes_primary (h : Takes e cs tail P) (hmem : e ∈ operands)
    (hbefore : ∀ b ∈ operandsBefore e, Refuses b (cs ++ tail)) : Takes primary cs tail P := by
  rw [← choice_operands]
  exact h.choice_of_mem hmem hbefore

/-- An operand that the first character tells. -/
theorem takes_primary_at (h : Takes e cs tail P) (heads : List (Option Char))
    (hhead : (cs ++ tail).head? ∈ heads) (hmem : e ∈ operands)
    (hbefore : ∀ head ∈ heads, ∀ b ∈ operandsBefore e, glance (blockedAt head) b = .refuses) :
    Takes primary cs tail P :=
  takes_primary h hmem fun b hb => refuses_at heads hhead fun head hh => hbefore head hh b hb

theorem takes_integerOperand (hd : d.isDigit) (hds : ∀ c ∈ ds, c.isDigit) (h : Stops tail) :
    Takes primary (d :: ds) tail (Single .integer (d :: ds) Silent) := by
  have hbefore : operandsBefore (.rule .integer) = [.rule .ellipsis, .rule .float] := by decide
  refine takes_primary (takes_integer hd hds h) (by decide) ?_
  rw [hbefore, List.forall_mem_cons, List.forall_mem_singleton]
  exact ⟨refuses_at digitHeads (mem_digitHeads hd) (by decide), refuses_float hd hds h⟩

theorem takes_stringOperand (hm : m = '"' ∨ m = '\'') (h : Quotable m cs) (htail : Stops tail) :
    Takes primary (m :: (cs ++ [m])) tail (Single .strings (m :: (cs ++ [m])) (LiteralNode m cs)) :=
  takes_primary_at (takes_strings hm h htail) [some '"', some '\''] (by simpa using hm) (by decide)
    (by decide)

theorem takes_listOperand (h : Takes (.rule .list) ('[' :: cs) tail P) : Takes primary ('[' :: cs) tail P :=
  takes_primary_at h [some '['] List.mem_cons_self (by decide) (by decide)

theorem takes_braceOperand (h : Takes (.rule .brace) ('\x7b' :: cs) tail P) :
    Takes primary ('\x7b' :: cs) tail P :=
  takes_primary_at h [some '\x7b'] List.mem_cons_self (by decide) (by decide)

theorem takes_nameOperand (hw : isName w) (hb : breaksWord tail) :
    Takes primary w tail (Single .identifier w Silent) := by
  have hglance : ∀ b ∈ operandsBefore (.rule .identifier),
      glance (blockedAtWord ["True", "False", "None"]) b = .refuses := by decide
  refine takes_primary (takes_identifier hw hb) (by decide) fun b hmem => ?_
  have hne := ne_reserved_of_isName hw
  have hreserved : ∀ word ∈ ["True", "False", "None"], word ∈ reservedWords := by decide
  have hholds := glance_holds (blockedAtWord_refuses (isWord_of_isName hw) hb
    fun word hword => ⟨hreserved word hword, hne word (hreserved word hword)⟩) b
  rwa [hglance b hmem] at hholds

/-- The words that are literals, with their rules. -/
def wordLiterals : List (String × Rule) :=
  [("True", .trueLiteral), ("False", .falseLiteral), ("None", .noneLiteral)]

theorem takes_wordOperand {word : String} {r : Rule} (hmem : (word, r) ∈ wordLiterals) (hb : breaksWord tail) :
    Takes primary word.toList tail (Single r word.toList Silent) := by
  have hfacts : ∀ p ∈ wordLiterals, p.2.body = chain [lit p.1, .absent (.one .identContinue)] ∧
      isWord p.1.toList ∧ .rule p.2 ∈ operands ∧ (∀ other ∈ reservedWords.erase p.1, other.toList ≠ p.1.toList) ∧
      ∀ b ∈ operandsBefore (.rule p.2),
        glance (blockedAtWord (reservedWords.erase p.1)) b = .refuses := by decide
  obtain ⟨hbody, hword, hoperand, hother, hglance⟩ := hfacts _ hmem
  have htakes : Takes (.rule r) word.toList tail (Single r word.toList Silent) := by
    refine Takes.rule ?_
    rw [hbody]
    exact takes_word word hb
  refine takes_primary htakes hoperand fun b hmem => ?_
  have hholds := glance_holds (blockedAtWord_refuses hword hb
    fun other h => ⟨List.mem_of_mem_erase h, hother other h⟩) b
  rwa [hglance b hmem] at hholds

end ConfigSandbox.Peg
