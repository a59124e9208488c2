import ConfigSandbox.Tree.Basic

/-!
From a flat row of operands and operators to a tree.

What waits for its right operand stands on a stack, the innermost first. An operator that comes next
closes everything on the stack that binds at least as tightly, and then waits itself.
-/
namespace ConfigSandbox

/-- What may follow an operand directly. -/
inductive Trailer where
  | call (args : List Expr) (keywords : List Keyword)
  | subscript (index : Expr)
  | member (attr : String)

inductive Piece where
  | operand (e : Expr)
  | unary (loc : Location) (op : UnaryOp)
  | binary (op : BinaryOp)
  | trailer (loc : Location) (t : Trailer)

namespace Trailer

/-- An operand with what follows it; the place runs from the operand to the end of the trailer. -/
def apply (e : Expr) (loc : Location) : Trailer → Expr
  | call args keywords => .call (e.loc.through loc) e args keywords
  | subscript index => .subscript (e.loc.through loc) e index
  | member attr => .member (e.loc.through loc) e attr

end Trailer

/-- An operator that waits for its right operand. -/
inductive Pending where
  | unary (loc : Location) (op : UnaryOp)
  | binary (left : Expr) (op : BinaryOp)

namespace Pending

/-- Whether an operator of the given level leaves this one's right operand as it is and ends it. -/
def endsBefore (level : Nat) : Pending → Bool
  | unary _ op => level < op.level
  | binary _ op => if op.isRightAssociative then level < op.level else level ≤ op.level

def close (right : Expr) : Pending → Expr
  | unary loc op => .unary (loc.through right.loc) op right
  | binary left op => .binary (left.loc.through right.loc) op left right

end Pending

/-- Closes all that the next operator, of the given level, does not bind tighter than. -/
def closeFor (level : Nat) (e : Expr) : List Pending → Expr × List Pending
  | [] => (e, [])
  | p :: rest => if p.endsBefore level then closeFor level (p.close e) rest else (e, p :: rest)

def closeAll (e : Expr) (stack : List Pending) : Expr := stack.foldl (fun e p => p.close e) e

mutual

/-- The tree of a row that begins with an operand. -/
def operandFirst (stack : List Pending) : List Piece → Option Expr
  | .operand e :: rest => operatorNext stack e rest
  | .unary loc op :: rest => operandFirst (.unary loc op :: stack) rest
  | _ => none

/-- The tree of a row whose first operand is already known. -/
def operatorNext (stack : List Pending) (e : Expr) : List Piece → Option Expr
  | [] => some (closeAll e stack)
  | .trailer loc t :: rest => operatorNext stack (t.apply e loc) rest
  | .binary op :: rest =>
    let (left, stack) := closeFor op.level e stack
    operandFirst (.binary left op :: stack) rest
  | _ => none

end

/-- The tree of a row of pieces, unless an operand or an operator is missing. -/
def Expr.ofPieces? (pieces : List Piece) : Option Expr := operandFirst [] pieces

end ConfigSandbox
