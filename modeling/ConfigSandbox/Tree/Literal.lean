import ConfigSandbox.Grammar.Node
import ConfigSandbox.Number.Decimal
import ConfigSandbox.Text.Quoted
import ConfigSandbox.Tree.Basic
import ConfigSandbox.Tree.ParseError

/-!
The constants that literals stand for.
-/
namespace ConfigSandbox

def withoutUnderscores (cs : List Char) : List Char := cs.filter (· != '_')

/-- The base of an integer literal and its digits. -/
def splitBase : List Char → Nat × List Char
  | '0' :: 'x' :: digits | '0' :: 'X' :: digits => (16, digits)
  | '0' :: 'o' :: digits | '0' :: 'O' :: digits => (8, digits)
  | '0' :: 'b' :: digits | '0' :: 'B' :: digits => (2, digits)
  | digits => (10, digits)

/-- The value of an integer literal, if it fits in 64 bits with a sign. -/
def integerOfLiteral? (text : List Char) : Option Int64 :=
  let (base, digits) := splitBase (withoutUnderscores text)
  let n := digitsValue base digits
  if n ≤ 0x7FFFFFFFFFFFFFFF then some (Int64.ofNat n) else none

def floatOfLiteral? (text : List Char) : Option Binary64 :=
  Binary64.ofText? (withoutUnderscores text)

/-- Adjacent string literals read so far: their text, and their bytes once one of them has been a
bytes literal. -/
structure StringParts where
  text : List Char
  bytes : Option (List UInt8)
  sawText : Bool
  isFormat : Bool

namespace StringParts

def none : StringParts := ⟨[], .none, false, false⟩

/-- Adds a literal with the given letters before its quote and the given text between its quotes. -/
def add (parts : StringParts) (letters content : List Char) : Except StringFault StringParts :=
  let resolved : Except StringFault (List Char) :=
    if letters.contains 'r' then .ok content
    else match unescape content with
      | .ok text => .ok text
      | .error fault => .error (.escape fault)
  if letters.contains 'b' then
    if parts.sawText then .error .mixedWithBytes
    else if !content.all (·.toNat < 0x80) then .error .nonAsciiBytes
    else do
      let bytes := (← resolved).map fun c => UInt8.ofNat c.toNat
      .ok { parts with bytes := some (parts.bytes.getD [] ++ bytes) }
  else if parts.bytes.isSome then .error .mixedWithBytes
  else do
    .ok { parts with
      text := parts.text ++ (← resolved)
      sawText := true
      isFormat := parts.isFormat || letters.contains 'f' }

def toExpr (parts : StringParts) (loc : Location) : Expr :=
  match parts.bytes with
  | some bytes => .constant loc (.bytes bytes)
  | .none =>
    if parts.isFormat then .formatStr loc (String.ofList parts.text)
    else .constant loc (.str (String.ofList parts.text))

/-- Adds a whole literal; a fault is reported at the literal. -/
def addNode (parts : StringParts) (literal : Node) : Except ParseError StringParts :=
  let textOf (wanted : Rule → Bool) : List Char :=
    ((literal.children.find? fun part => wanted part.rule).map Node.text).getD []
  let letters := (textOf (· == .stringPrefix)).map (·.toLower)
  match parts.add letters (textOf (· != .stringPrefix)) with
  | .ok parts => .ok parts
  | .error fault => .error ⟨.invalidString fault, literal.loc⟩

end StringParts

/-- The constant that adjacent string literals stand for. -/
def stringsToExpr (loc : Location) (literals : List Node) : Except ParseError Expr := do
  return (← literals.foldlM StringParts.addNode .none).toExpr loc

end ConfigSandbox
