import ConfigSandbox.Proofs.Grammar.Rows
import ConfigSandbox.Proofs.Tree.Levels

/-!
# Rows of operators and their table

What may stand after what in an operation is told by two turns: an operand is awaited, or one stands to
the left. The row that the grammar has for an operation goes from the first turn to the second, so the
precedence parser never lacks an operand and meets no token that its table does not have. Where the parser
closes what is open to the left, it goes by the entries of the table and by nothing else.
-/
namespace ConfigSandbox

open Peg

/-- What is known of an operator: on which sides of it operands stand, and how tightly it binds. -/
inductive Binding where
  | before (level : Nat)
  | between (level : Nat) (isRightAssociative : Bool)
  | after
deriving DecidableEq, Repr

/-- The entry of a rule in the table of operators. -/
def Rule.binding? : Rule → Option Binding
  | .unary op => some (.before op.level)
  | .binary op => some (.between op.level op.isRightAssociative)
  | .call | .subscript | .member => some .after
  | _ => none

/-- Whether an operand stands to the left after a token, if the token may stand there. An operand has no
entry. -/
def turn : Bool → Option Binding → Option Bool
  | false, some (.before _) => some false
  | false, none => some true
  | true, some .after => some true
  | true, some (.between ..) => some false
  | _, _ => none

/-- Operands and operators take turns, and no operand is missing. -/
def isRow (tokens : List (Option Binding)) : Bool := tokens.foldlM turn false == some true

/-- Every row of the language leads from one turn to another. -/
def Leads (L : Language Rule) (held held' : Bool) : Prop :=
  ∀ rs ∈ L, (rs.map Rule.binding?).foldlM turn held = some held'

section Leads

variable {L M : Language Rule} {held held' held'' : Bool}

theorem Leads.mul (h : Leads L held held') (h' : Leads M held' held'') :
    Leads (L * M) held held'' := by
  intro rs hrs
  obtain ⟨xs, hx, ys, hy, rfl⟩ := Language.mem_mul.mp hrs
  rw [List.map_append, List.foldlM_append, h xs hx]
  exact h' ys hy

open scoped Computability in
theorem Leads.kstar (h : Leads L held held) : Leads L∗ held held := by
  intro rs hrs
  obtain ⟨rows, rfl, hrows⟩ := Language.mem_kstar.mp hrs
  clear hrs
  induction rows with
  | nil => rfl
  | cons row rows ih =>
    obtain ⟨hrow, hrest⟩ := List.forall_mem_cons.mp hrows
    rw [List.flatten_cons, List.map_append, List.foldlM_append, h row hrow]
    exact ih hrest

theorem leads_oneOf {rules : List Rule} (h : ∀ r ∈ rules, turn held r.binding? = some held') :
    Leads (oneOf rules) held held' := by
  intro rs hrs
  obtain ⟨r, hr, rfl⟩ := mem_oneOf.mp hrs
  rw [List.map_singleton, List.foldlM_cons, h r hr]
  rfl

end Leads

theorem leads_operation : Leads (rows Rule.operation.body) false true := by
  have hbefore : Leads (rows (many unaryOperator)) false false := by
    rw [rows_many, rows_of_isSingle (by decide)]
    exact (leads_oneOf (by decide)).kstar
  have hoperand : Leads (rows primary) false true := by
    rw [rows_of_isSingle (by decide)]
    exact leads_oneOf (by decide)
  have hafter : Leads (rows (many trailer)) true true := by
    rw [rows_many, rows_of_isSingle (by decide)]
    exact (leads_oneOf (by decide)).kstar
  have hbetween : Leads (rows binaryOperator) true false := by
    rw [rows_of_isSingle (by decide)]
    exact leads_oneOf (by decide)
  simp only [Rule.body, rows_tokens_cons, rows_tokens_one, rows_many (tokens _)]
  exact hbefore.mul (hoperand.mul (hafter.mul
    (hbetween.mul (hbefore.mul (hoperand.mul hafter))).kstar))

/-! ### The precedence parser -/

def Piece.binding? : Piece → Option Binding
  | .operand _ => none
  | .unary _ op => some (.before op.level)
  | .binary op => some (.between op.level op.isRightAssociative)
  | .trailer .. => some .after

/-- The entry of the operator that waits. -/
def Pending.binding : Pending → Binding
  | unary _ op => .before op.level
  | binary _ op => .between op.level op.isRightAssociative

/-- Whether an operator with this entry is ended by one of the given level between operands. -/
def Binding.endsBefore (level : Nat) : Binding → Bool
  | before own => level < own
  | between own isRightAssociative => if isRightAssociative then level < own else level ≤ own
  | after => true

theorem Pending.endsBefore_eq (level : Nat) (p : Pending) : p.endsBefore level = p.binding.endsBefore level := by
  cases p <;> rfl

/-- An operator of some level closes those that wait, from the innermost on, as far as their entries say so. -/
theorem closeFor_eq (level : Nat) (e : Expr) (stack : List Pending) : closeFor level e stack =
    (closeAll e (stack.takeWhile (·.binding.endsBefore level)), stack.dropWhile (·.binding.endsBefore level)) := by
  induction stack generalizing e with
  | nil => rfl
  | cons p rest ih =>
    rw [closeFor, p.endsBefore_eq, List.takeWhile_cons, List.dropWhile_cons]
    cases p.binding.endsBefore level with
    | true => exact ih (p.close e)
    | false => rfl

/-- What stands before its operand waits under its entry in the table. -/
theorem operandFirst_before {piece : Piece} {level : Nat} (h : piece.binding? = some (.before level))
    (stack : List Pending) (rest : List Piece) : ∃ p : Pending, p.binding = .before level ∧
      operandFirst stack (piece :: rest) = operandFirst (p :: stack) rest := by
  cases piece with
  | unary loc op => exact ⟨.unary loc op, Option.some.inj h, rfl⟩
  | operand | binary | trailer => cases h

/-- What stands between operands closes by the level of its entry, and then waits under this entry. -/
theorem operatorNext_between {piece : Piece} {level : Nat} {isRightAssociative : Bool}
    (h : piece.binding? = some (.between level isRightAssociative)) (stack : List Pending) (e : Expr)
    (rest : List Piece) : ∃ op, piece = .binary op ∧
      (∀ left, (Pending.binary left op).binding = .between level isRightAssociative) ∧
      operatorNext stack e (piece :: rest) =
        operandFirst (.binary (closeAll e (stack.takeWhile (·.binding.endsBefore level))) op ::
          stack.dropWhile (·.binding.endsBefore level)) rest := by
  cases piece with
  | binary op =>
    cases h
    exact ⟨op, rfl, fun _ => rfl, by rw [operatorNext, closeFor_eq]⟩
  | operand | unary | trailer => cases h

/-- A row has a tree: from either turn, whatever waits on the stack. -/
theorem isSome_of_leads {pieces : List Piece} :
    ((pieces.map Piece.binding?).foldlM turn false = some true →
      ∀ stack, (operandFirst stack pieces).isSome) ∧
    ((pieces.map Piece.binding?).foldlM turn true = some true →
      ∀ stack e, (operatorNext stack e pieces).isSome) := by
  induction pieces with
  | nil => exact ⟨fun h => absurd h (by decide), fun _ stack e => rfl⟩
  | cons piece rest ih =>
    obtain ⟨ihfirst, ihnext⟩ := ih
    constructor
    · intro h stack
      cases piece with
      | operand e => exact ihnext h stack e
      | unary loc op => exact ihfirst h _
      | binary | trailer => cases h
    · intro h stack e
      cases piece with
      | trailer loc t => exact ihnext h stack _
      | binary op => exact ihfirst h _
      | operand | unary => cases h

variable {source : String} {node : Node}

/-! ### Operations of a match -/

theorem operation_rules {r : Rule} (h : r ∈ rulesIn Rule.operation.body) : r.isPrimary ∨ r.binding?.isSome := by
  have hall : ((rulesIn Rule.operation.body).all fun r => r.isPrimary || r.binding?.isSome) = true := by decide
  simpa using List.all_eq_true.mp hall r h

/-- In an operation operands and operators take turns, and what has no entry in the table of operators is
an operand. -/
def Node.InTurns (node : Node) : Prop :=
  node.rule = .operation → isRow (node.children.map (·.rule.binding?)) ∧
    ∀ child ∈ node.children, child.rule.binding? = none → child.rule.isPrimary

theorem Node.Matched.inTurns (h : node.Matched source) : node.All Node.InTurns := by
  refine h.all fun r first last children hm _ hr => ?_
  cases hr
  have hrow := leads_operation _ hm.row
  rw [List.map_map] at hrow
  refine ⟨beq_iff_eq.mpr hrow, fun child hchild hnone => ?_⟩
  exact (operation_rules (hm.rule_mem child hchild)).resolve_right (by simp [hnone])

end ConfigSandbox
