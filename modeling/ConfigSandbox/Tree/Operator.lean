/-!
The operators that submissions may be written with. A higher level binds tighter; every binary
level associates to the left except that of `pow`.
-/
namespace ConfigSandbox

inductive UnaryOp where
  | not | neg | pos | invert
deriving DecidableEq, Repr, Inhabited

inductive BinaryOp where
  | or | and
  | eq | ne | lt | le | gt | ge | isIn | notIn | is | isNot
  | bitOr | bitXor | bitAnd
  | shiftLeft | shiftRight
  | add | sub
  | mul | matMul | div | floorDiv | mod
  | pow
deriving DecidableEq, Repr, Inhabited

namespace UnaryOp

/-- `not` stands between `and` and the comparisons, the others just below `pow`. -/
def level : UnaryOp → Nat
  | not => 3
  | neg | pos | invert => 11

end UnaryOp

namespace BinaryOp

def level : BinaryOp → Nat
  | or => 1
  | and => 2
  | eq | ne | lt | le | gt | ge | isIn | notIn | is | isNot => 4
  | bitOr => 5
  | bitXor => 6
  | bitAnd => 7
  | shiftLeft | shiftRight => 8
  | add | sub => 9
  | mul | matMul | div | floorDiv | mod => 10
  | pow => 12

def isRightAssociative : BinaryOp → Bool
  | pow => true
  | _ => false

/-- What the operator is called in messages. -/
def describe : BinaryOp → String
  | or | and => "boolean operator"
  | eq | ne | lt | le | gt | ge | isIn | notIn | is | isNot => "comparison"
  | _ => "binary operator"

end BinaryOp
end ConfigSandbox
