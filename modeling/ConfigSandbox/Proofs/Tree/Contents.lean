import ConfigSandbox.Proofs.Grammar.Rows
import ConfigSandbox.Proofs.Tree.Levels

/-!
# What stands inside a rule

For each rule whose nodes are read by their places: how many there are, and which of them are expressions.
-/
namespace ConfigSandbox

open Peg

/-- The rules whose nodes are expressions. -/
def Rule.isExpr (r : Rule) : Bool :=
  r.isPrimary || r ∈ [.operation, .conditional, .lambda, .starred, .slice]

variable {source : String} {r : Rule} {first last : Cursor} {children : List Node}

theorem exists_one {rules : List Rule} (h : (Node.mk r first last children).Matched source)
    (hrows : rows r.body = oneOf rules) (hrules : ∀ r' ∈ rules, r'.isExpr) :
    ∃ value, children = [value] ∧ value.rule.isExpr := by
  have hrow := h.row
  rw [hrows] at hrow
  obtain ⟨value, rfl, hvalue⟩ := hrow.one
  exact ⟨value, rfl, hrules _ hvalue⟩

theorem rows_test : rows test = oneOf (rulesIn test) := rows_of_isSingle (by decide)

/-- A sign before an operation. -/
theorem exists_operation (h : (Node.mk r first last children).Matched source)
    (hr : r = .starred ∨ r = .dictUnpack ∨ r = .doubleStarred) :
    ∃ value, children = [value] ∧ value.rule.isExpr := by
  have hrows : rows r.body = oneOf [.operation] := by
    rcases hr with rfl | rfl | rfl <;>
      simp only [Rule.body, rows_tokens_cons, rows_tokens_one, rows_lit, rows_rule, one_mul]
    rw [rows_of_isSilent rfl, one_mul]
  exact exists_one h hrows (by decide)

theorem exists_slicePart {part : SlicePart}
    (h : (Node.mk (.slicePart part) first last children).Matched source) :
    ∃ value, children = [value] ∧ value.rule.isExpr :=
  exists_one h rows_test (by decide)

theorem exists_member (h : (Node.mk .member first last children).Matched source) :
    ∃ name, children = [name] ∧ name.rule = .identifier := by
  have hrow := h.row
  simp only [Rule.body, rows_tokens_cons, rows_tokens_one, rows_lit, rows_rule, one_mul] at hrow
  obtain ⟨name, rfl, hname⟩ := hrow.one
  exact ⟨name, rfl, List.mem_singleton.mp hname⟩

theorem exists_pair (h : (Node.mk .dictItem first last children).Matched source) :
    ∃ key value, children = [key, value] ∧ key.rule.isExpr ∧ value.rule.isExpr := by
  have hrow := h.row
  simp only [Rule.body, rows_tokens_cons, rows_tokens_one, rows_lit, rows_lines, one_mul,
    rows_test] at hrow
  obtain ⟨key, rest, rfl, hkey, hrest⟩ := hrow.first
  obtain ⟨value, rfl, hvalue⟩ := hrest.one
  have htests : ∀ r ∈ rulesIn test, r.isExpr := by decide
  exact ⟨key, value, rfl, htests _ hkey, htests _ hvalue⟩

theorem exists_keyword (h : (Node.mk .keywordArgument first last children).Matched source) :
    ∃ name value, children = [name, value] ∧ name.rule = .identifier ∧ value.rule.isExpr := by
  have hrow := h.row
  have hsign : rows assignSign = 1 := rows_of_isSilent (by decide)
  simp only [Rule.body, rows_tokens_cons, rows_tokens_one, rows_rule, hsign, one_mul, rows_test] at hrow
  obtain ⟨name, rest, rfl, hname, hrest⟩ := hrow.first
  obtain ⟨value, rfl, hvalue⟩ := hrest.one
  have htests : ∀ r ∈ rulesIn test, r.isExpr := by decide
  exact ⟨name, value, rfl, List.mem_singleton.mp hname, htests _ hvalue⟩

/-- The word, the parameters if there are any, and the body. -/
theorem exists_lambda (h : (Node.mk .lambda first last children).Matched source) :
    ∃ word body, word.rule = .word .lambda ∧ body.rule.isExpr ∧
      (children = [word, body] ∨
        ∃ params, children = [word, params, body] ∧ params.rule = .lambdaParameters) := by
  have hrow := h.row
  simp only [Rule.body, rows_tokens_cons, rows_tokens_one, rows_rule, rows_opt, rows_lit, one_mul,
    rows_test] at hrow
  have htests : ∀ r ∈ rulesIn test, r.isExpr := by decide
  obtain ⟨word, rest, rfl, hword, hrest⟩ := hrow.first
  obtain ⟨params, bodies, rfl, hparams, hbodies⟩ := hrest.split
  obtain ⟨body, rfl, hbody⟩ := hbodies.one
  refine ⟨word, body, List.mem_singleton.mp hword, htests _ hbody, ?_⟩
  rcases hparams.either with hparams | hnone
  · obtain ⟨params, rfl, hrule⟩ := hparams.one
    exact Or.inr ⟨params, rfl, List.mem_singleton.mp hrule⟩
  · rw [hnone.empty]
    exact Or.inl rfl

/-- A row by itself, or two rows around a condition and the words between them. -/
theorem exists_conditional (h : (Node.mk .conditional first last children).Matched source) :
    ∃ body, body.rule.isExpr ∧ (children = [body] ∨ ∃ ifWord test elseWord orelse,
      children = [body, ifWord, test, elseWord, orelse] ∧ ifWord.rule = .word .if ∧ test.rule.isExpr ∧
        elseWord.rule = .word .else ∧ orelse.rule.isExpr) := by
  have hrow := h.row
  simp only [Rule.body, rows_tokens_cons, rows_tokens_one, rows_rule, rows_opt, rows_test] at hrow
  have hoperation : ∀ r ∈ [Rule.operation], r.isExpr := by decide
  have htests : ∀ r ∈ rulesIn test, r.isExpr := by decide
  obtain ⟨body, rest, rfl, hbody, hrest⟩ := hrow.first
  refine ⟨body, hoperation _ hbody, ?_⟩
  rcases hrest.either with hrest | hnone
  · obtain ⟨ifWord, rest, rfl, hif, hrest⟩ := hrest.first
    obtain ⟨test, rest, rfl, htest, hrest⟩ := hrest.first
    obtain ⟨elseWord, rest, rfl, helse, hrest⟩ := hrest.first
    obtain ⟨orelse, rfl, horelse⟩ := hrest.one
    exact Or.inr ⟨ifWord, test, elseWord, orelse, rfl, List.mem_singleton.mp hif, hoperation _ htest,
      List.mem_singleton.mp helse, htests _ horelse⟩
  · rw [hnone.empty]
    exact Or.inl rfl

/-- What is in parentheses or square brackets, if it is no comprehension. -/
theorem sequence_cases (h : (Node.mk r first last children).Matched source) (hr : r = .paren ∨ r = .list)
    (hc : isComprehension children = false) :
    ∀ child ∈ children, child.rule = .trailingComma ∨ child.rule.isExpr := by
  have hrules : ∀ r' ∈ rulesIn r.body,
      r' = .comprehensionFor ∨ r' = .trailingComma ∨ r'.isExpr := by
    rcases hr with rfl | rfl <;> decide
  intro child hchild
  refine (hrules _ (h.rule_mem child hchild)).resolve_left fun hfor => ?_
  rw [isComprehension, List.any_eq_false] at hc
  exact hc child hchild (by simp [hfor])

/-- What is in braces, if it is no comprehension: by the first of them, all are entries of a dict or all
are expressions. -/
theorem braces_cases (h : (Node.mk .brace first last children).Matched source)
    (hc : isComprehension children = false) :
    (beginsDict children → ∀ child ∈ children, child.rule = .dictItem ∨ child.rule = .dictUnpack) ∧
      (beginsDict children = false → ∀ child ∈ children, child.rule.isExpr) := by
  have hentries (he : ∀ child ∈ children, child.rule = .dictItem ∨ child.rule = .dictUnpack) :
      beginsDict children := by
    cases children with
    | nil => rfl
    | cons child rest => simpa [beginsDict] using he child List.mem_cons_self
  have hexprs (he : ∀ child ∈ children, child.rule.isExpr) (hb : beginsDict children) :
      children = [] := by
    cases children with
    | nil => rfl
    | cons child rest =>
      have hchild := he child List.mem_cons_self
      rcases (by simpa [beginsDict] using hb : child.rule = .dictItem ∨ child.rule = .dictUnpack) with hr | hr <;>
        (rw [hr] at hchild; cases hchild)
  have hcomprehension {x y : Node} (hy : y.rule ∈ [Rule.comprehensionFor]) :
      isComprehension [x, y] = true := by
    simp [isComprehension, List.mem_singleton.mp hy]
  have hrow := h.row
  simp only [Rule.body, bracketed, rows_tokens_cons, rows_tokens_one, rows_opt, rows_lit, rows_lines,
    one_mul, mul_one] at hrow
  rcases hrow.either with hrow | hnone
  · rcases hrow.either with hrow | hrow
    · simp only [rows_tokens_cons, rows_tokens_one, rows_rule] at hrow
      obtain ⟨x, rest, rfl, -, hrest⟩ := hrow.first
      obtain ⟨y, rfl, hy⟩ := hrest.one
      rw [hcomprehension hy] at hc
      cases hc
    rcases hrow.either with hrow | hrow
    · have hrules : ∀ r ∈ rulesIn (itemsWith (choice [.rule .dictItem, .rule .dictUnpack]) (opt (lit ","))),
          r = .dictItem ∨ r = .dictUnpack := by decide
      have hall := fun child hchild => hrules _ (hrow.rule_mem child hchild)
      exact ⟨fun _ => hall, fun hb => absurd (hentries hall) (by simp [hb])⟩
    rcases hrow.either with hrow | hrow
    · simp only [rows_tokens_cons, rows_tokens_one, rows_test, rows_rule] at hrow
      obtain ⟨x, rest, rfl, -, hrest⟩ := hrow.first
      obtain ⟨y, rfl, hy⟩ := hrest.one
      rw [hcomprehension hy] at hc
      cases hc
    · have hrules : ∀ r ∈ rulesIn (itemsWith starTest (opt (lit ","))), r.isExpr := by decide
      have hall := fun child hchild => hrules _ (hrow.rule_mem child hchild)
      exact ⟨fun hb => by simp [hexprs hall hb], fun _ => hall⟩
  · rw [hnone.empty]
    exact ⟨fun _ => List.forall_mem_nil _, fun _ => List.forall_mem_nil _⟩

end ConfigSandbox
