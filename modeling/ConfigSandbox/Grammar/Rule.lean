import ConfigSandbox.Tree.Operator

/-!
Names of the grammar's rules. A rule that matches leaves a node, and a rule that fails may be named
in the message, so every rule here is one that a reader of a submission could point at.
-/
namespace ConfigSandbox

/-- Reserved words that the grammar reads as tokens of their own. -/
inductive Word where
  | and | async | else | for | if | in | is | lambda | not | or
deriving DecidableEq, Repr, Inhabited

def Word.spelling : Word → String
  | .and => "and"
  | .async => "async"
  | .else => "else"
  | .for => "for"
  | .if => "if"
  | .in => "in"
  | .is => "is"
  | .lambda => "lambda"
  | .not => "not"
  | .or => "or"

/-- The four ways to quote a string. -/
inductive Quoting where
  | tripleDouble | tripleSingle | double | single
deriving DecidableEq, Repr, Inhabited

/-- The three places of a slice. -/
inductive SlicePart where
  | lower | upper | step
deriving DecidableEq, Repr, Inhabited

inductive Rule where
  | endOfInput
  | module
  | reservedStatement | reservedWord
  | assignment | augmentedAssignment | annotatedAssignment | expressionStatement
  | augmentedOperator
  | targetList | trailingComma
  | starred
  | lambda | lambdaParameters
  | conditional
  | operation
  | unary (op : UnaryOp)
  | binary (op : BinaryOp)
  | call | keywordArgument | doubleStarred
  | subscript | slice | slicePart (part : SlicePart)
  | member
  | paren | list | brace
  | dictItem | dictUnpack
  | comprehensionFor | comprehensionIf | comprehensionTarget
  | trueLiteral | falseLiteral | noneLiteral
  | ellipsis
  | integer | float
  | strings | stringLiteral | stringPrefix | stringContent (quoting : Quoting)
  | identifier
  | word (w : Word)
deriving DecidableEq, Repr, Inhabited

/-- What a message says was expected. -/
inductive Expectation where
  | endOfInput | expression | assignment | comma | literal | identifier
deriving DecidableEq, Repr, Inhabited

namespace Expectation

def text : Expectation → String
  | endOfInput => "end of input"
  | expression => "expression"
  | assignment => "assignment"
  | comma => "','"
  | literal => "literal"
  | identifier => "identifier"

/-- Joined by commas, the last by `or`. -/
def phrase : List Expectation → String
  | [] => "something else"
  | [only] => only.text
  | many => ", ".intercalate (many.dropLast.map text) ++ " or " ++ (many.getLast?.elim "" text)

end Expectation

namespace Rule

def expectation : Rule → Expectation
  | integer | float | strings | trueLiteral | falseLiteral | noneLiteral => .literal
  | identifier => .identifier
  | endOfInput => .endOfInput
  | trailingComma => .comma
  | augmentedOperator => .assignment
  | _ => .expression

/-- The order in which rules are considered for a message. -/
def inOrder : List Rule :=
  ([.endOfInput, .module, .reservedStatement, .reservedWord, .assignment, .augmentedAssignment,
   .annotatedAssignment, .expressionStatement, .augmentedOperator, .targetList, .trailingComma,
   .starred, .lambda, .lambdaParameters, .conditional, .operation] : List Rule)
  ++ ([.not, .neg, .pos, .invert] : List UnaryOp).map .unary
  ++ ([.or, .and, .notIn, .isNot, .is, .isIn, .eq, .ne, .le, .ge, .shiftLeft, .shiftRight, .lt, .gt,
       .bitOr, .bitXor, .bitAnd, .add, .sub, .pow, .mul, .matMul, .floorDiv, .div, .mod] :
       List BinaryOp).map .binary
  ++ ([.call, .keywordArgument, .doubleStarred, .subscript, .slice, .slicePart .lower,
      .slicePart .upper, .slicePart .step, .member, .paren, .list, .brace, .dictItem,
      .dictUnpack, .comprehensionFor, .comprehensionIf, .comprehensionTarget, .trueLiteral,
      .falseLiteral, .noneLiteral, .ellipsis, .integer, .float, .strings, .stringLiteral,
      .stringPrefix] : List Rule)
  ++ ([.tripleDouble, .tripleSingle, .double, .single] : List Quoting).map .stringContent
  ++ ([.identifier] : List Rule)
  ++ ([.and, .async, .else, .for, .if, .in, .is, .lambda, .not, .or] : List Word).map .word

/-- What a set of failed rules lets a reader expect, each expectation once. -/
def expectations (failed : List Rule) : List Expectation :=
  ((inOrder.filter (failed.contains ·)).map expectation).eraseDups

end Rule
end ConfigSandbox
