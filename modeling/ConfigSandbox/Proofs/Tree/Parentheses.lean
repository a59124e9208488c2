import ConfigSandbox.Proofs.Grammar.Operations
import ConfigSandbox.Proofs.Tree.Alike
import ConfigSandbox.Proofs.Tree.Operators

/-!
# Parentheses only where operators need them

A tree of names under operators is written with parentheses around an operand that would fall apart without them.
What the row then is, operands and operators and nothing inside parentheses, is grouped as the tree was: after
each part of it, what the stack has on top of the operators that were there before closes to that part.
-/
namespace ConfigSandbox

open Peg (Term Operation RowPart tokensOf)

/-! ### The table -/

/-- The operators by how tightly they bind, the loosest first. The last level associates to the right, and all
others to the left. -/
def operatorTable : List (List (UnaryOp ⊕ BinaryOp)) :=
  [[.inr .or],
   [.inr .and],
   [.inl .not],
   [.inr .eq, .inr .ne, .inr .lt, .inr .le, .inr .gt, .inr .ge, .inr .isIn, .inr .notIn, .inr .is, .inr .isNot],
   [.inr .bitOr],
   [.inr .bitXor],
   [.inr .bitAnd],
   [.inr .shiftLeft, .inr .shiftRight],
   [.inr .add, .inr .sub],
   [.inr .mul, .inr .matMul, .inr .div, .inr .floorDiv, .inr .mod],
   [.inl .neg, .inl .pos, .inl .invert],
   [.inr .pow]]

def UnaryOp.rank (op : UnaryOp) : Nat := operatorTable.findIdx fun row => row.contains (.inl op)

def BinaryOp.rank (op : BinaryOp) : Nat := operatorTable.findIdx fun row => row.contains (.inr op)

/-- How tightly the operator on top binds. A name has none, and never falls apart. -/
def Expr.rank : Expr → Nat
  | .unary _ op _ => op.rank
  | .binary _ op _ _ => op.rank
  | _ => operatorTable.length

theorem UnaryOp.level_eq (op : UnaryOp) : op.level = op.rank + 1 := by
  cases op <;> decide

theorem BinaryOp.level_eq (op : BinaryOp) : op.level = op.rank + 1 := by
  cases op <;> decide

theorem BinaryOp.isRightAssociative_iff (op : BinaryOp) : op.isRightAssociative ↔ op = .pow := by
  cases op <;> decide

/-! ### Writing -/

/-- Names under operators. -/
inductive Expr.IsOperation : Expr → Prop
  | name (loc : Location) {id : String} (h : isName id.toList) : IsOperation (.name loc id)
  | unary (loc : Location) (op : UnaryOp) {e : Expr} (h : e.IsOperation) : IsOperation (.unary loc op e)
  | binary (loc : Location) (op : BinaryOp) {left right : Expr} (hleft : left.IsOperation)
      (hright : right.IsOperation) : IsOperation (.binary loc op left right)

/-- Whether an operand has parentheses behind a prefix: one that binds looser. -/
def UnaryOp.encloses (op : UnaryOp) (e : Expr) : Bool := e.rank < op.rank

/-- Whether an operand has parentheses to the left of an operator. -/
def BinaryOp.enclosesLeft (op : BinaryOp) (e : Expr) : Bool := e.rank < op.rank || e.rank == op.rank && op == .pow

/-- Whether an operand has parentheses to the right of an operator. -/
def BinaryOp.enclosesRight (op : BinaryOp) (e : Expr) : Bool := e.rank < op.rank || e.rank == op.rank && op != .pow

def enclosed (needed : Bool) (ts : List String) : List String := if needed then "(" :: ts ++ [")"] else ts

/-- The tokens of a tree. Everything but names under operators has none. -/
def Expr.tokens : Expr → List String
  | .name _ id => [id]
  | .unary _ op e => op.spelling :: enclosed (op.encloses e) e.tokens
  | .binary _ op left right =>
    enclosed (op.enclosesLeft left) left.tokens ++ op.spelling :: enclosed (op.enclosesRight right) right.tokens
  | _ => []

/-- The tokens of a tree as an operand of what stands in the same row. -/
def Expr.operandTokens : Expr → List String
  | .name _ id => [id]
  | e => "(" :: e.tokens ++ [")"]

/-! ### Rows -/

namespace Peg.Operation

variable {α : Type}

def single (x : α) : Operation α := ⟨⟨[], x⟩, []⟩

/-- An operand in place of the operation that its parentheses enclose. -/
def within (needed : Bool) (x : α) (o : Operation α) : Operation α := if needed then single x else o

/-- The operation with a prefix more. -/
def behind (op : UnaryOp) (o : Operation α) : Operation α := ⟨⟨op :: o.first.prefixes, o.first.operand⟩, o.more⟩

/-- Two operations with an operator between them. -/
def join (o : Operation α) (op : BinaryOp) (o' : Operation α) : Operation α :=
  ⟨o.first, o.more ++ (op, o'.first) :: o'.more⟩

def operands (o : Operation α) : List α := o.first.operand :: o.more.map (·.2.operand)

theorem parts_single (x : α) : (single x).parts = [.operand x] := rfl

theorem parts_behind (op : UnaryOp) (o : Operation α) : (behind op o).parts = .before op :: o.parts := rfl

theorem parts_join (o : Operation α) (op : BinaryOp) (o' : Operation α) :
    (o.join op o').parts = o.parts ++ .between op :: o'.parts := by
  simp [parts, join, pairsParts]

theorem operands_join (o : Operation α) (op : BinaryOp) (o' : Operation α) :
    (o.join op o').operands = o.operands ++ o'.operands := by
  simp [operands, join]

end Peg.Operation

/-- The row that a tree is written as; what has parentheses in it is an operand. -/
def Expr.operation : Expr → Operation Expr
  | .unary _ op e => .behind op (.within (op.encloses e) e e.operation)
  | .binary _ op left right =>
    .join (.within (op.enclosesLeft left) left left.operation) op
      (.within (op.enclosesRight right) right right.operation)
  | e => .single e

/-! ### Tokens of rows -/

variable {e left right : Expr} {op : BinaryOp} {needed : Bool}

theorem BinaryOp.rank_lt (op : BinaryOp) : op.rank < operatorTable.length := by
  cases op <;> decide

theorem UnaryOp.rank_lt (op : UnaryOp) : op.rank < operatorTable.length := by
  cases op <;> decide

theorem not_enclosesLeft_iff : op.enclosesLeft e = false ↔ op.rank ≤ e.rank ∧ (e.rank = op.rank → op ≠ .pow) := by
  simp [BinaryOp.enclosesLeft]

theorem not_enclosesRight_iff : op.enclosesRight e = false ↔ op.rank ≤ e.rank ∧ (e.rank = op.rank → op = .pow) := by
  simp [BinaryOp.enclosesRight]

theorem not_encloses_iff {op : UnaryOp} : op.encloses e = false ↔ op.rank ≤ e.rank := by
  simp [UnaryOp.encloses]

/-- What has parentheses is no name. -/
theorem rank_lt_of_encloses {op : UnaryOp} (h : op.encloses e) : e.rank < operatorTable.length := by
  have hlt : e.rank < op.rank := of_decide_eq_true h
  exact hlt.trans op.rank_lt

theorem rank_lt_of_enclosesLeft (h : op.enclosesLeft e) : e.rank < operatorTable.length := by
  have hlt := op.rank_lt
  simp only [BinaryOp.enclosesLeft, Bool.or_eq_true, decide_eq_true_eq, Bool.and_eq_true, beq_iff_eq] at h
  omega

theorem rank_lt_of_enclosesRight (h : op.enclosesRight e) : e.rank < operatorTable.length := by
  have hlt := op.rank_lt
  simp only [BinaryOp.enclosesRight, Bool.or_eq_true, decide_eq_true_eq, Bool.and_eq_true, beq_iff_eq] at h
  omega

theorem operandTokens_of_rank (h : e.rank < operatorTable.length) : e.operandTokens = "(" :: e.tokens ++ [")"] := by
  cases e with
  | name => exact absurd h (Nat.lt_irrefl _)
  | _ => rfl

theorem tokens_within (hneeded : needed → e.rank < operatorTable.length)
    (h : tokensOf Expr.operandTokens e.operation.parts = e.tokens) :
    tokensOf Expr.operandTokens (Operation.within needed e e.operation).parts = enclosed needed e.tokens := by
  cases needed with
  | false => exact h
  | true =>
    have htokens := operandTokens_of_rank (hneeded rfl)
    simp [Operation.within, Operation.parts_single, tokensOf, RowPart.tokens, enclosed, htokens]

theorem tokensOf_append {α : Type} {t : α → List String} (parts parts' : List (RowPart α)) :
    tokensOf t (parts ++ parts') = tokensOf t parts ++ tokensOf t parts' := List.flatMap_append

/-- A tree is written as its row. -/
theorem tokens_operation (he : e.IsOperation) : tokensOf Expr.operandTokens e.operation.parts = e.tokens := by
  induction he with
  | name => rfl
  | @unary loc op e _ ih =>
    have hwithin : tokensOf Expr.operandTokens (Operation.within (op.encloses e) e e.operation).parts =
        enclosed (op.encloses e) e.tokens := tokens_within rank_lt_of_encloses ih
    rw [Expr.operation, Operation.parts_behind, Expr.tokens, ← hwithin]
    rfl
  | @binary loc op left right _ _ ihleft ihright =>
    have hleft : tokensOf Expr.operandTokens (Operation.within (op.enclosesLeft left) left left.operation).parts =
        enclosed (op.enclosesLeft left) left.tokens := tokens_within rank_lt_of_enclosesLeft ihleft
    have hright :
        tokensOf Expr.operandTokens (Operation.within (op.enclosesRight right) right right.operation).parts =
          enclosed (op.enclosesRight right) right.tokens := tokens_within rank_lt_of_enclosesRight ihright
    rw [Expr.operation, Operation.parts_join, tokensOf_append, Expr.tokens, hleft, ← hright]
    rfl

/-! ### Grouping -/

/-- The part as the row of the tree has it. -/
def Peg.RowPart.piece : RowPart Expr → Piece
  | before op => .unary .synthetic op
  | between op => .binary op
  | operand e => .operand e

/-- What closes for the next operator closes down to what stays for it. -/
theorem closeFor_append {level : Nat} {inner stack : List Pending} (hinner : ∀ p ∈ inner, p.endsBefore level)
    (hstack : ∀ p ∈ stack.head?, p.endsBefore level = false) :
    closeFor level e (inner ++ stack) = (closeAll e inner, stack) := by
  have hcloses : ∀ p ∈ inner, p.binding.endsBefore level = true := fun p hp => p.endsBefore_eq level ▸ hinner p hp
  rw [closeFor_eq, List.takeWhile_append_of_pos hcloses, List.dropWhile_append_of_pos hcloses]
  cases stack with
  | nil => rw [List.takeWhile_nil, List.dropWhile_nil, List.append_nil]
  | cons p rest =>
    have hstays : p.binding.endsBefore level = false := p.endsBefore_eq level ▸ hstack p rfl
    rw [List.takeWhile_cons, List.dropWhile_cons, hstays]
    simp only [Bool.false_eq_true, if_false, List.append_nil]

/-- After the row, an operand is there and operators above the stack, which close to the tree, and which each
operator closes that may stand to the right of the tree. -/
def Leaves (o : Operation Expr) (stack : List Pending) (e : Expr) (closes : BinaryOp → Prop) : Prop :=
  ∃ inner last, (closeAll last inner).shape = e.shape ∧ (∀ op, closes op → ∀ p ∈ inner, p.endsBefore op.level) ∧
    ∀ rest, operandFirst stack (o.parts.map RowPart.piece ++ rest) = operatorNext (inner ++ stack) last rest

/-- What waits on the stack is not ended by operators that bind tighter than the tree. -/
def Holds (e : Expr) (stack : List Pending) : Prop :=
  ∀ p ∈ stack.head?, ∀ level, e.rank < level → p.endsBefore level = false

theorem Leaves.within {stack : List Pending}
    (h : needed = false → Leaves e.operation stack e fun op => op.enclosesLeft e = false) :
    Leaves (.within needed e e.operation) stack e fun op => needed = false → op.enclosesLeft e = false := by
  cases needed with
  | true => exact ⟨[], e, rfl, fun _ _ _ hp => absurd hp List.not_mem_nil, fun rest => rfl⟩
  | false =>
    obtain ⟨inner, last, hclose, hends, hread⟩ := h rfl
    exact ⟨inner, last, hclose, fun op hop => hends op (hop rfl), hread⟩

theorem closeAll_append (inner : List Pending) (p : Pending) (last : Expr) :
    closeAll last (inner ++ [p]) = p.close (closeAll last inner) := by
  rw [closeAll, List.foldl_append]
  rfl

theorem UnaryOp.rank_ne (op : UnaryOp) (op' : BinaryOp) : op.rank ≠ op'.rank := by
  cases op <;> cases op' <;> decide

theorem BinaryOp.eq_pow_of_rank (h : op.rank = BinaryOp.rank .pow) : op = .pow := by
  revert h
  cases op <;> decide

theorem Pending.endsBefore_binary {level : Nat} : (Pending.binary e op).endsBefore level ↔
    level ≤ op.rank ∨ level = op.rank + 1 ∧ op ≠ .pow := by
  have hlevel := op.level_eq
  rw [endsBefore]
  by_cases hpow : op = .pow
  · have hright : op.isRightAssociative = true := op.isRightAssociative_iff.mpr hpow
    rw [if_pos hright, decide_eq_true_eq]
    constructor
    · intro h
      exact .inl (by omega)
    · rintro (h | ⟨-, hne⟩)
      · omega
      · exact absurd hpow hne
  · have hright : ¬ op.isRightAssociative = true := fun h => hpow (op.isRightAssociative_iff.mp h)
    rw [if_neg hright, decide_eq_true_eq]
    constructor
    · intro h
      by_cases heq : level = op.rank + 1
      · exact .inr ⟨heq, hpow⟩
      · exact .inl (by omega)
    · omega

theorem Leaves.behind {o : Operation Expr} {stack : List Pending} {op : UnaryOp} {loc : Location}
    {closes closes' : BinaryOp → Prop} (h : Leaves o (.unary .synthetic op :: stack) e closes)
    (hcloses : ∀ next, closes' next → closes next ∧ next.rank < op.rank) :
    Leaves (.behind op o) stack (.unary loc op e) closes' := by
  obtain ⟨inner, last, hclose, hends, hread⟩ := h
  refine ⟨inner ++ [.unary .synthetic op], last, ?_, fun next hnext => ?_, fun rest => ?_⟩
  · rw [closeAll_append, Pending.close, Expr.shape, Expr.shape, hclose]
  · obtain ⟨hinner, hlow⟩ := hcloses next hnext
    refine List.forall_mem_append.mpr ⟨hends next hinner, List.forall_mem_singleton.mpr ?_⟩
    rw [Pending.endsBefore, decide_eq_true_eq, op.level_eq, next.level_eq]
    omega
  · rw [List.append_assoc]
    exact hread rest

theorem Leaves.join {o o' : Operation Expr} {stack : List Pending} {loc : Location}
    {closes closes' closes'' : BinaryOp → Prop} (hleft : Leaves o stack left closes) (hop : closes op)
    (hstack : ∀ p ∈ stack.head?, p.endsBefore op.level = false)
    (hright : ∀ left', Leaves o' (.binary left' op :: stack) right closes')
    (hcloses : ∀ next, closes'' next → closes' next ∧ next.rank ≤ op.rank ∧ (next.rank = op.rank → op ≠ .pow)) :
    Leaves (o.join op o') stack (.binary loc op left right) closes'' := by
  obtain ⟨inner, last, hclose, hends, hread⟩ := hleft
  obtain ⟨inner', last', hclose', hends', hread'⟩ := hright (closeAll last inner)
  have hcloseFor := closeFor_append (e := last) (hends op hop) hstack
  refine ⟨inner' ++ [.binary (closeAll last inner) op], last', ?_, fun next hnext => ?_, fun rest => ?_⟩
  · rw [closeAll_append, Pending.close, Expr.shape, Expr.shape, hclose, hclose']
  · obtain ⟨hinner, hle, hpow⟩ := hcloses next hnext
    refine List.forall_mem_append.mpr ⟨hends' next hinner, List.forall_mem_singleton.mpr ?_⟩
    rw [Pending.endsBefore_binary, next.level_eq]
    by_cases heq : next.rank = op.rank
    · exact .inr ⟨by rw [heq], hpow heq⟩
    · exact .inl (by omega)
  · rw [Operation.parts_join, List.map_append, List.append_assoc, hread, List.append_assoc]
    calc operatorNext (inner ++ stack) last (.binary op :: (_ ++ rest))
      _ = operandFirst (.binary (closeAll last inner) op :: stack) (_ ++ rest) := by
        rw [operatorNext, hcloseFor]
      _ = operatorNext (inner' ++ .binary (closeAll last inner) op :: stack) last' rest := hread' rest

theorem leaves_operation (he : e.IsOperation) {stack : List Pending} (hstack : Holds e stack) :
    Leaves e.operation stack e fun op => op.enclosesLeft e = false := by
  induction he generalizing stack with
  | name loc => exact ⟨[], _, rfl, fun _ _ _ hp => absurd hp List.not_mem_nil, fun rest => rfl⟩
  | @unary loc op e _ ih =>
    have hwaits (hneeded : op.encloses e = false) : Holds e (.unary .synthetic op :: stack) := by
      rintro _ ⟨⟩ level hlevel
      have hrank := not_encloses_iff.mp hneeded
      have hop := op.level_eq
      simp only [Pending.endsBefore, decide_eq_false_iff_not]
      omega
    refine (Leaves.within fun hneeded => ih (hwaits hneeded)).behind fun next hnext => ?_
    have hrank : next.rank ≤ op.rank := (not_enclosesLeft_iff.mp hnext).1
    have hne := op.rank_ne next
    refine ⟨fun hneeded => not_enclosesLeft_iff.mpr ?_, by omega⟩
    have hbinds := not_encloses_iff.mp hneeded
    exact ⟨by omega, fun heq => absurd heq (by omega)⟩
  | @binary loc op left right _ _ ihleft ihright =>
    have hholds (hneeded : op.enclosesLeft left = false) : Holds left stack := by
      intro p hp level hlevel
      have hrank := (not_enclosesLeft_iff.mp hneeded).1
      exact hstack p hp level (Nat.lt_of_le_of_lt hrank hlevel)
    have hwaits (left' : Expr) (hneeded : op.enclosesRight right = false) :
        Holds right (.binary left' op :: stack) := by
      rintro _ ⟨⟩ level hlevel
      obtain ⟨hrank, hpow⟩ := not_enclosesRight_iff.mp hneeded
      rw [← Bool.not_eq_true, Pending.endsBefore_binary]
      rintro (hlow | ⟨heq, hne⟩)
      · omega
      · exact hne (hpow (by omega))
    have hends : ∀ p ∈ stack.head?, p.endsBefore op.level = false := by
      intro p hp
      apply hstack p hp
      rw [op.level_eq]
      exact Nat.lt_succ_self _
    have hright (left' : Expr) := Leaves.within fun hneeded => ihright (hwaits left' hneeded)
    refine (Leaves.within fun hneeded => ihleft (hholds hneeded)).join id hends hright fun next hnext => ?_
    have hnext : next.rank ≤ op.rank ∧ (op.rank = next.rank → next ≠ .pow) := not_enclosesLeft_iff.mp hnext
    refine ⟨fun hneeded => not_enclosesLeft_iff.mpr ?_, hnext.1, fun heq hpow => ?_⟩
    · obtain ⟨hbinds, -⟩ := not_enclosesRight_iff.mp hneeded
      exact ⟨hnext.1.trans hbinds, fun heq => hnext.2 (by omega)⟩
    · apply hnext.2 heq.symm
      apply BinaryOp.eq_pow_of_rank
      rw [heq, hpow]

/-- The row of a tree is grouped as the tree, where no operator stands before it. -/
theorem ofPieces?_operation (he : e.IsOperation) :
    ∃ tree, Expr.ofPieces? (e.operation.parts.map RowPart.piece) = some tree ∧ tree.shape = e.shape := by
  have hholds : Holds e [] := by rintro _ ⟨⟩
  obtain ⟨inner, last, hclose, -, hread⟩ := leaves_operation he hholds
  have hrow := hread []
  rw [List.append_nil, List.append_nil] at hrow
  exact ⟨closeAll last inner, hrow, hclose⟩

/-! ### Operands of rows -/

/-- What has no parentheses in a row of operators that bind tighter than `not` does not begin with it. -/
theorem first_ne_not (he : e.IsOperation) (h : UnaryOp.rank .not < e.rank) :
    e.operation.first.prefixes.head? ≠ some .not := by
  induction he with
  | name => exact (Option.some_ne_none UnaryOp.not).symm
  | unary loc op he ih =>
    rintro ⟨⟩
    exact Nat.lt_irrefl _ h
  | @binary loc op left right _ _ ihleft ihright =>
    show (Operation.within (op.enclosesLeft left) left left.operation).first.prefixes.head? ≠ some .not
    cases hneeded : op.enclosesLeft left with
    | true => exact (Option.some_ne_none UnaryOp.not).symm
    | false => exact ihleft (Nat.lt_of_lt_of_le h (not_enclosesLeft_iff.mp hneeded).1)

theorem necks_operation (he : e.IsOperation) :
    ∀ p ∈ e.operation.more, p.1 = .is → p.2.prefixes.head? ≠ some .not := by
  have hwithin {needed : Bool} {e : Expr} (h : ∀ p ∈ e.operation.more, p.1 = .is → p.2.prefixes.head? ≠ some .not) :
      ∀ p ∈ (Operation.within needed e e.operation).more, p.1 = .is → p.2.prefixes.head? ≠ some .not := by
    cases needed with
    | true => exact fun p hp => absurd hp List.not_mem_nil
    | false => exact h
  induction he with
  | name => exact fun p hp => absurd hp List.not_mem_nil
  | unary loc op he ih => exact hwithin ih
  | @binary loc op left right _ hright ihleft ihright =>
    refine List.forall_mem_append.mpr ⟨hwithin ihleft, List.forall_mem_cons.mpr ⟨?_, hwithin ihright⟩⟩
    rintro rfl
    cases hneeded : BinaryOp.is.enclosesRight right with
    | true => exact (Option.some_ne_none UnaryOp.not).symm
    | false =>
      have hloose : UnaryOp.rank .not < BinaryOp.rank .is := by decide
      exact first_ne_not hright (Nat.lt_of_lt_of_le hloose (not_enclosesRight_iff.mp hneeded).1)

/-- What holds of names, and of what is in parentheses if it holds of the operands inside, holds of operands. -/
theorem forall_operands {S : Expr → Prop} (hname : ∀ loc id, isName id.toList → S (.name loc id))
    (hparen : ∀ x : Expr, x.IsOperation → x.rank < operatorTable.length →
      (∀ y ∈ x.operation.operands, S y) → S x) (he : e.IsOperation) : ∀ x ∈ e.operation.operands, S x := by
  have hwithin {needed : Bool} {e : Expr} (he : e.IsOperation) (hneeded : needed → e.rank < operatorTable.length)
      (h : ∀ x ∈ e.operation.operands, S x) : ∀ x ∈ (Operation.within needed e e.operation).operands, S x := by
    cases needed with
    | true => exact List.forall_mem_singleton.mpr (hparen e he (hneeded rfl) h)
    | false => exact h
  induction he with
  | name loc h => exact List.forall_mem_singleton.mpr (hname loc _ h)
  | unary loc op he ih => exact hwithin he rank_lt_of_encloses ih
  | binary loc op hleft hright ihleft ihright =>
    rw [Expr.operation, Operation.operands_join]
    exact List.forall_mem_append.mpr
      ⟨hwithin hleft rank_lt_of_enclosesLeft ihleft, hwithin hright rank_lt_of_enclosesRight ihright⟩

end ConfigSandbox
