import ConfigSandbox.Grammar.Rule
import ConfigSandbox.Text.Digits
import ConfigSandbox.Text.Identifier

/-!
Parsing expressions: ordered choice, greedy repetition, lookahead. Blanks between tokens are not
implicit; the combinators `tokens` and `many` place `blanks` where a token sequence allows them.
-/
namespace ConfigSandbox

inductive CharClass where
  | any | decimal | hexadecimal | octal | binary | identStart | identContinue
deriving DecidableEq, Repr, Inhabited

namespace CharClass

def holds : CharClass → Char → Bool
  | any, _ => true
  | decimal, c => c.isDigit
  | hexadecimal, c => isHexDigit c
  | octal, c => isOctalDigit c
  | binary, c => c == '0' || c == '1'
  | identStart, c => Identifier.isStart c
  | identContinue, c => Identifier.isContinue c

end CharClass

inductive Peg where
  | empty
  | text (cs : List Char)
  /-- Lower case characters, each matched in either case of ASCII. -/
  | textAnyCase (cs : List Char)
  | one (cls : CharClass)
  | seq (first second : Peg)
  | alt (first second : Peg)
  | star (body : Peg)
  | absent (body : Peg)
  | ahead (body : Peg)
  | rule (r : Rule)
deriving DecidableEq, Repr, Inhabited

namespace Peg

def lit (s : String) : Peg := .text s.toList

def litAnyCase (s : String) : Peg := .textAnyCase s.toList

def opt (e : Peg) : Peg := .alt e .empty

/-- One after another, with nothing between them. -/
def chain : List Peg → Peg
  | [] => .empty
  | [e] => e
  | e :: rest => .seq e (chain rest)

/-- The first that matches. -/
def choice : List Peg → Peg
  | [] => .absent .empty
  | [e] => e
  | e :: rest => .alt e (choice rest)

/-- A line end: a line feed, a carriage return, or both as one. -/
def newline : Peg := choice [lit "\n", lit "\r\n", lit "\r"]

/-- The rest of the line, without its end. -/
def restOfLine : Peg := .star (chain [.absent newline, .one .any])

/-- Space, tab, form feed, or a backslash at the end of a line. -/
def blank : Peg := choice [lit " ", lit "\t", lit "\x0c", chain [lit "\\", newline]]

def comment : Peg := chain [lit "#", restOfLine]

/-- What may stand between two tokens. -/
def blanks : Peg := chain [.star blank, .star (chain [comment, .star blank])]

/-- One after another, with blanks between them. -/
def tokens : List Peg → Peg
  | [] => .empty
  | [e] => e
  | e :: rest => .seq e (.seq blanks (tokens rest))

/-- Any number of times, with blanks between two matches and not after the last. -/
def many (e : Peg) : Peg := opt (.seq e (.star (.seq blanks e)))

/-- At least once; blanks after a single match are kept. -/
def many1 (e : Peg) : Peg := tokens [e, many e]

end Peg
end ConfigSandbox
