import ConfigSandbox.Grammar.Rule
import ConfigSandbox.Source.Location
import ConfigSandbox.Text.Quoted

/-!
Why a text is no submission.
-/
namespace ConfigSandbox

inductive StringFault where
  | mixedWithBytes
  | nonAsciiBytes
  | escape (fault : EscapeFault)
deriving DecidableEq, Repr

def StringFault.message : StringFault → String
  | mixedWithBytes => "cannot mix bytes and nonbytes literals"
  | nonAsciiBytes => "bytes can only contain ASCII literal characters"
  | escape fault => fault.message

inductive ParseFault where
  | unexpectedToken (expected : List Expectation)
  | invalidNumber (text : String)
  | invalidString (fault : StringFault)
  | positionalAfterKeyword
  | repeatedKeyword (name : String)
  | tooDeep (depth limit : Nat)
  /-- A tree that the grammar does not describe, or a search cut short. -/
  | malformedTree
deriving DecidableEq, Repr

namespace ParseFault

def message : ParseFault → String
  | unexpectedToken expected =>
    "expected " ++ Expectation.phrase expected ++ ", found unexpected token"
  | invalidNumber text => "invalid number literal '" ++ text ++ "'"
  | invalidString fault => "invalid string literal: " ++ fault.message
  | positionalAfterKeyword => "positional argument follows keyword argument"
  | repeatedKeyword name => "keyword argument repeated: " ++ name
  | tooDeep depth limit =>
    "nesting depth " ++ toString depth ++ " exceeds maximum of " ++ toString limit ++ " levels"
  | malformedTree => "malformed syntax tree"

def help : ParseFault → Option String
  | invalidNumber _ => some "integers must fit in 64 bits; check the number format"
  | tooDeep .. => some "reduce nesting or split the statement into several assignments"
  | positionalAfterKeyword => some "move positional arguments before keyword arguments"
  | _ => none

end ParseFault

structure ParseError where
  fault : ParseFault
  loc : Location
deriving DecidableEq, Repr

def ParseError.message (e : ParseError) : String :=
  "l." ++ toString e.loc.line ++ ": " ++ e.fault.message

end ConfigSandbox
