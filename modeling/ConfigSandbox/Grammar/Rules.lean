import ConfigSandbox.Grammar.Peg

/-!
The grammar of submissions. It reads a wide, familiar expression language, so that a construct
which may not run is still recognised and can be named; what may run is decided later.

Line ends separate statements and mean nothing inside brackets, where `lines` admits them.
-/
namespace ConfigSandbox.Peg

private def wordEnd : Peg := .absent (.one .identContinue)

private def word (w : Word) : Peg := .rule (.word w)

private def binaryOp (op : BinaryOp) : Peg := .rule (.binary op)

private def unaryOp (op : UnaryOp) : Peg := .rule (.unary op)

def lines : Peg := many newline

/-- An equals sign that does not begin a comparison. -/
def assignSign : Peg := tokens [lit "=", .absent (lit "=")]

/-! Statements -/

def simpleStatement : Peg :=
  choice [.rule .assignment, .rule .augmentedAssignment, .rule .annotatedAssignment,
    .rule .expressionStatement]

def simpleStatements : Peg :=
  tokens [simpleStatement, many (tokens [lit ";", simpleStatement]), opt (lit ";"),
    choice [newline, .ahead (.rule .endOfInput)]]

def statementLine : Peg := choice [.rule .reservedStatement, simpleStatements]

def statementWords : List String :=
  ["import", "from", "def", "class", "if", "elif", "else", "for", "while", "with", "try", "except",
   "finally", "return", "raise", "pass", "break", "continue", "del", "global", "nonlocal",
   "assert", "async", "yield", "await"]

def augmentedOperators : List String :=
  ["**=", "//=", ">>=", "<<=", "+=", "-=", "*=", "/=", "%=", "@=", "&=", "|=", "^="]

/-! Expressions -/

def test : Peg := choice [.rule .lambda, .rule .conditional]

def starTest : Peg := choice [.rule .starred, test]

def unaryOperator : Peg := choice [unaryOp .not, unaryOp .neg, unaryOp .pos, unaryOp .invert]

/-- An operator comes before every other one that begins it. -/
def binaryOperator : Peg :=
  choice (List.map binaryOp
    [.or, .and, .notIn, .isNot, .is, .isIn, .eq, .ne, .le, .ge, .shiftLeft, .shiftRight, .lt, .gt,
     .bitOr, .bitXor, .bitAnd, .add, .sub, .pow, .mul, .matMul, .floorDiv, .div, .mod])

def unarySpelling : UnaryOp → Peg
  | .not => word .not
  | .neg => lit "-"
  | .pos => lit "+"
  | .invert => lit "~"

def binarySpelling : BinaryOp → Peg
  | .or => word .or
  | .and => word .and
  | .notIn => tokens [word .not, word .in]
  | .isNot => tokens [word .is, word .not]
  | .is => word .is
  | .isIn => word .in
  | .eq => lit "=="
  | .ne => lit "!="
  | .le => lit "<="
  | .ge => lit ">="
  | .shiftLeft => lit "<<"
  | .shiftRight => lit ">>"
  | .lt => lit "<"
  | .gt => lit ">"
  | .bitOr => lit "|"
  | .bitXor => lit "^"
  | .bitAnd => lit "&"
  | .add => lit "+"
  | .sub => lit "-"
  | .pow => lit "**"
  | .mul => lit "*"
  | .matMul => lit "@"
  | .floorDiv => lit "//"
  | .div => lit "/"
  | .mod => lit "%"

def primary : Peg :=
  choice [.rule .ellipsis, .rule .float, .rule .integer, .rule .strings, .rule .trueLiteral,
    .rule .falseLiteral, .rule .noneLiteral, .rule .identifier, .rule .paren, .rule .list,
    .rule .brace]

def trailer : Peg := choice [.rule .call, .rule .subscript, .rule .member]

def callArgument : Peg :=
  choice [.rule .keywordArgument, .rule .doubleStarred, .rule .starred, test]

def subscriptItem : Peg := choice [.rule .slice, starTest]

/-- Items inside brackets, each followed by a comma or the end; line ends are free between them. -/
def itemsWith (item last : Peg) : Peg :=
  tokens [item, lines, many (tokens [lit ",", lines, item, lines]), last]

/-- Brackets around an optional body, line ends free on either side of it. -/
def bracketed (left right : String) (body : Peg) : Peg :=
  tokens [lit left, lines, opt (tokens [body, lines]), lit right]

def sequenceBody : Peg :=
  choice [tokens [test, .rule .comprehensionFor], itemsWith starTest (opt (.rule .trailingComma))]

def braceBody : Peg :=
  choice [
    tokens [.rule .dictItem, .rule .comprehensionFor],
    itemsWith (choice [.rule .dictItem, .rule .dictUnpack]) (opt (lit ",")),
    tokens [test, .rule .comprehensionFor],
    itemsWith starTest (opt (lit ","))]

def comprehensionAtom : Peg :=
  tokens [choice [.rule .identifier, .rule .paren, .rule .list], many trailer]

/-! Literals -/

private def underscored (cls : CharClass) : Peg := chain [opt (lit "_"), .one cls]

def digits : Peg := chain [.one .decimal, .star (underscored .decimal)]

def exponent : Peg := chain [litAnyCase "e", opt (choice [lit "+", lit "-"]), digits]

private def based (letter : String) (cls : CharClass) : Peg :=
  chain [lit "0", litAnyCase letter, underscored cls, .star (underscored cls)]

def integerLiteral : Peg :=
  chain [choice [based "x" .hexadecimal, based "o" .octal, based "b" .binary, digits], wordEnd]

def floatLiteral : Peg :=
  chain [choice [
      chain [digits, lit ".", opt digits, opt exponent],
      chain [lit ".", digits, opt exponent],
      chain [digits, exponent]],
    wordEnd]

def Quoting.mark : Quoting → String
  | .tripleDouble => "\"\"\""
  | .tripleSingle => "'''"
  | .double => "\""
  | .single => "'"

private def escapedPair : Peg := chain [lit "\\", .one .any]

/-- What stands between quotes. Three quotes end a text wherever they stand unescaped; a single
quote also refuses a line end. -/
def quotedContent : Quoting → Peg
  | q@.tripleDouble | q@.tripleSingle =>
    .star (chain [.absent (lit (Quoting.mark q)), choice [escapedPair, .one .any]])
  | q@.double | q@.single =>
    .star (choice [escapedPair,
      chain [.absent (choice [lit (Quoting.mark q), newline]), .one .any]])

def quoted (q : Quoting) : Peg :=
  chain [lit (Quoting.mark q), .rule (.stringContent q), lit (Quoting.mark q)]

/-! Identifiers -/

/-- Longer words come first, so that `assert` is not read as `as`. -/
def reservedWords : List String :=
  ["False", "None", "True", "and", "assert", "async", "as", "await", "break", "class", "continue",
   "def", "del", "elif", "else", "except", "finally", "for", "from", "global", "if", "import", "in",
   "is", "lambda", "nonlocal", "not", "or", "pass", "raise", "return", "try", "while", "with",
   "yield"]

def identifierText : Peg :=
  chain [.absent (chain [choice (reservedWords.map lit), wordEnd]),
    choice [.one .identStart, lit "_"], .star (.one .identContinue)]

end Peg

open Peg in
/-- What each rule matches. -/
def Rule.body : Rule → Peg
  | .endOfInput => .absent (.one .any)
  | .module => tokens [.empty, many (choice [newline, statementLine]), .rule .endOfInput]
  | .reservedStatement => chain [.rule .reservedWord, .absent (.one .identContinue), restOfLine]
  | .reservedWord => choice (statementWords.map lit)
  | .assignment =>
    tokens [.rule .targetList, many1 (tokens [assignSign, .rule .targetList])]
  | .augmentedAssignment =>
    tokens [.rule .targetList, .rule .augmentedOperator, .rule .targetList]
  | .annotatedAssignment =>
    tokens [test, lit ":", test, opt (tokens [assignSign, .rule .targetList])]
  | .expressionStatement => .rule .targetList
  | .augmentedOperator => choice (augmentedOperators.map lit)
  | .targetList => tokens [starTest, many (tokens [lit ",", starTest]), opt (.rule .trailingComma)]
  | .trailingComma => lit ","
  | .starred => tokens [lit "*", .absent (lit "*"), .rule .operation]
  | .lambda => tokens [.rule (.word .lambda), opt (.rule .lambdaParameters), lit ":", test]
  | .lambdaParameters =>
    tokens [.rule .identifier, many (tokens [lit ",", .rule .identifier]), opt (lit ",")]
  | .conditional =>
    tokens [.rule .operation,
      opt (tokens [.rule (.word .if), .rule .operation, .rule (.word .else), test])]
  | .operation =>
    tokens [many unaryOperator, primary, many trailer,
      many (tokens [binaryOperator, many unaryOperator, primary, many trailer])]
  | .unary op => unarySpelling op
  | .binary op => binarySpelling op
  | .call =>
    tokens [lit "(", lines,
      opt (tokens [callArgument, lines, many (tokens [lit ",", lines, callArgument, lines]),
        opt (tokens [lit ",", lines])]),
      lit ")"]
  | .keywordArgument => tokens [.rule .identifier, assignSign, test]
  | .doubleStarred => tokens [lit "**", .rule .operation]
  | .subscript =>
    tokens [lit "[", lines, itemsWith subscriptItem (opt (.rule .trailingComma)), lines, lit "]"]
  | .slice =>
    tokens [opt (.rule (.slicePart .lower)), lit ":", opt (.rule (.slicePart .upper)),
      opt (tokens [lit ":", opt (.rule (.slicePart .step))])]
  | .slicePart _ => test
  | .member => tokens [lit ".", .rule .identifier]
  | .paren => bracketed "(" ")" sequenceBody
  | .list => bracketed "[" "]" sequenceBody
  | .brace => bracketed "\x7b" "\x7d" braceBody
  | .dictItem => tokens [test, lit ":", lines, test]
  | .dictUnpack => tokens [lit "**", .rule .operation]
  | .comprehensionFor =>
    tokens [opt (.rule (.word .async)), .rule (.word .for), .rule .comprehensionTarget,
      .rule (.word .in), .rule .operation,
      many (choice [.rule .comprehensionFor, .rule .comprehensionIf])]
  | .comprehensionIf => tokens [.rule (.word .if), .rule .operation]
  | .comprehensionTarget =>
    tokens [comprehensionAtom, many (tokens [lit ",", comprehensionAtom]), opt (lit ",")]
  | .trueLiteral => chain [lit "True", .absent (.one .identContinue)]
  | .falseLiteral => chain [lit "False", .absent (.one .identContinue)]
  | .noneLiteral => chain [lit "None", .absent (.one .identContinue)]
  | .ellipsis => lit "..."
  | .integer => integerLiteral
  | .float => floatLiteral
  | .strings => many1 (.rule .stringLiteral)
  | .stringLiteral =>
    chain [opt (.rule .stringPrefix),
      choice [quoted .tripleDouble, quoted .tripleSingle, quoted .double, quoted .single]]
  | .stringPrefix => choice (["rb", "br", "rf", "fr", "r", "b", "u", "f"].map litAnyCase)
  | .stringContent q => quotedContent q
  | .identifier => identifierText
  | .word w => chain [lit w.spelling, .absent (.one .identContinue)]

end ConfigSandbox
