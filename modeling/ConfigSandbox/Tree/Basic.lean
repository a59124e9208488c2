import ConfigSandbox.Source.Location
import ConfigSandbox.Tree.Operator
import ConfigSandbox.Number.Binary64

/-!
Syntax trees of submissions. The tree is wider than what may run: validation and evaluation decide
that, and every node keeps its location so that they can say where.
-/
namespace ConfigSandbox

inductive Constant where
  | none
  | bool (b : Bool)
  | int (n : Int64)
  | float (x : Binary64)
  | str (s : String)
  | bytes (bs : List UInt8)
  | ellipsis
deriving DecidableEq, Repr, Inhabited

inductive ComprehensionKind where
  | list | set | dict | generator
deriving DecidableEq, Repr, Inhabited

mutual

inductive Expr where
  | name (loc : Location) (id : String)
  | constant (loc : Location) (value : Constant)
  | list (loc : Location) (items : List Expr)
  | tuple (loc : Location) (items : List Expr)
  | set (loc : Location) (items : List Expr)
  | dict (loc : Location) (entries : List DictEntry)
  | call (loc : Location) (func : Expr) (args : List Expr) (keywords : List Keyword)
  | member (loc : Location) (value : Expr) (attr : String)
  | subscript (loc : Location) (value index : Expr)
  | slice (loc : Location) (lower upper step : Option Expr)
  | binary (loc : Location) (op : BinaryOp) (left right : Expr)
  | unary (loc : Location) (op : UnaryOp) (operand : Expr)
  | conditional (loc : Location) (test body orelse : Expr)
  | lambda (loc : Location) (params : List String) (body : Expr)
  | starred (loc : Location) (value : Expr)
  /-- The parts of a comprehension are not kept. -/
  | comprehension (loc : Location) (kind : ComprehensionKind)
  /-- Only the text between the quotes of a format string is kept. -/
  | formatStr (loc : Location) (text : String)

inductive DictEntry where
  | pair (key value : Expr)
  | unpack (value : Expr)

inductive Keyword where
  | named (loc : Location) (name : String) (value : Expr)
  | unpack (loc : Location) (value : Expr)

end

instance : Inhabited Expr := ⟨.constant default .none⟩

namespace Expr

def loc : Expr → Location
  | name loc _ | constant loc _ | list loc _ | tuple loc _ | set loc _ | dict loc _
  | call loc _ _ _ | member loc _ _ | subscript loc _ _ | slice loc _ _ _
  | binary loc _ _ _ | unary loc _ _ | conditional loc _ _ _ | lambda loc _ _
  | starred loc _ | comprehension loc _ | formatStr loc _ => loc

def name? : Expr → Option String
  | name _ id => some id
  | _ => none

/-- What the construct is called in messages. -/
def describe : Expr → String
  | name .. => "name"
  | constant _ (.bytes _) => "bytes literal"
  | constant _ .ellipsis => "ellipsis"
  | constant .. => "constant"
  | list .. => "list"
  | tuple .. => "tuple"
  | set .. => "set"
  | dict .. => "dict"
  | call .. => "call"
  | member .. => "attribute access"
  | subscript .. => "subscript"
  | slice .. => "slice"
  | binary _ op _ _ => op.describe
  | unary .. => "unary operator"
  | conditional .. => "conditional expression"
  | lambda .. => "lambda"
  | starred .. => "unpacking"
  | comprehension .. => "comprehension"
  | formatStr .. => "format string"

end Expr

namespace DictEntry

def value : DictEntry → Expr
  | pair _ value | unpack value => value

end DictEntry

namespace Keyword

def loc : Keyword → Location
  | named loc _ _ | unpack loc _ => loc

def name? : Keyword → Option String
  | named _ name _ => some name
  | unpack .. => none

def value : Keyword → Expr
  | named _ _ value | unpack _ value => value

end Keyword

inductive StatementKind where
  /-- A chain `a = b = value` has several targets. -/
  | assign (targets : List Expr) (value : Expr)
  | augAssign (target : Expr) (op : String) (value : Expr)
  | annAssign (target annotation : Expr) (value : Option Expr)
  | expr (value : Expr)
  /-- A statement that a reserved word introduces; the rest of its line is not read. -/
  | reserved (word : String)

/-- What the statement is called in messages. -/
def StatementKind.describe : StatementKind → String
  | assign .. => "assignment"
  | augAssign .. => "augmented assignment"
  | annAssign .. => "annotated assignment"
  | expr _ => "expression statement"
  | reserved word =>
    if word ∈ ["import", "from"] then "import statement"
    else if word = "def" then "function definition"
    else if word = "class" then "class definition"
    else if word ∈ ["if", "elif", "else"] then "conditional"
    else if word ∈ ["for", "while", "break", "continue"] then "loop"
    else if word = "with" then "with statement"
    else if word ∈ ["try", "except", "finally", "raise"] then "exception handling"
    else if word ∈ ["return", "yield", "await"] then "control flow statement"
    else if word = "async" then "async statement"
    else "keyword statement"

structure Statement where
  loc : Location
  kind : StatementKind

/-- A whole submission, in source order. -/
structure Module where
  body : List Statement

end ConfigSandbox
