import ConfigSandbox.Tree.Literal
import ConfigSandbox.Tree.Precedence

/-!
From matched rules to the syntax tree. Parentheses vanish: the expression inside keeps its own
place. Every row of operators counts as a level of depth, and so does each operator in it that nests
however flat the row looks.
-/
namespace ConfigSandbox

/-- An operator that nests its operand: every prefix, and the one that associates to the right. -/
def Rule.nests : Rule → Bool
  | .unary _ => true
  | .binary op => op.isRightAssociative
  | _ => false

/-- Refuses the first operator of a row that nests beyond the limit. -/
def checkChain (limit : Nat) : Nat → List Node → Except ParseError Unit
  | _, [] => .ok ()
  | depth, node :: rest =>
    if node.rule.nests then
      if limit < depth + 1 then .error ⟨.tooDeep (depth + 1) limit, node.loc⟩
      else checkChain limit (depth + 1) rest
    else checkChain limit depth rest

def isComprehension (children : List Node) : Bool :=
  children.any fun node => node.rule == .comprehensionFor

/-- Empty braces are a dict; otherwise the first item decides. -/
def beginsDict : List Node → Bool
  | [] => true
  | node :: _ => node.rule == .dictItem || node.rule == .dictUnpack

/-- One item without a comma stands for itself; anything else is a tuple. -/
def tupleUnlessSingle (loc : Location) (children : List Node) (items : List Expr) : Expr :=
  match items with
  | [item] =>
    if children.any fun node => node.rule == .trailingComma then .tuple loc [item] else item
  | _ => .tuple loc items

private def malformed {α : Type} (loc : Location) : Except ParseError α :=
  .error ⟨.malformedTree, loc⟩

mutual

/-- The expression of a node that lies inside `depth` rows of operators. -/
def exprOf (limit depth : Nat) : Node → Except ParseError Expr
  | .mk rule first last children =>
    let loc := first.location last
    let text := first.textTo last
    match rule with
    | .operation =>
      if limit < depth + 1 then .error ⟨.tooDeep (depth + 1) limit, loc⟩
      else do
        checkChain limit (depth + 1) children
        match Expr.ofPieces? (← piecesOf limit (depth + 1) children) with
        | some e => .ok e
        | none => malformed loc
    | .conditional =>
      match children with
      | [body] => exprOf limit depth body
      | [body, _, test, _, orelse] => do
        let body ← exprOf limit depth body
        let test ← exprOf limit depth test
        let orelse ← exprOf limit depth orelse
        .ok (.conditional loc test body orelse)
      | _ => malformed loc
    | .lambda =>
      match children with
      | [_, body] => do .ok (.lambda loc [] (← exprOf limit depth body))
      | [_, params, body] => do
        let names := params.children.map fun p => String.ofList p.text
        .ok (.lambda loc names (← exprOf limit depth body))
      | _ => malformed loc
    | .starred =>
      match children with
      | [value] => do .ok (.starred loc (← exprOf limit depth value))
      | _ => malformed loc
    | .slice => do
      let parts ← slicePartsOf limit depth children
      .ok (.slice loc (parts.lookup .lower) (parts.lookup .upper) (parts.lookup .step))
    | .identifier => .ok (.name loc (String.ofList text))
    | .integer =>
      match integerOfLiteral? text with
      | some n => .ok (.constant loc (.int n))
      | none => .error ⟨.invalidNumber (String.ofList text), loc⟩
    | .float =>
      match floatOfLiteral? text with
      | some x => .ok (.constant loc (.float x))
      | none => .error ⟨.invalidNumber (String.ofList text), loc⟩
    | .trueLiteral => .ok (.constant loc (.bool true))
    | .falseLiteral => .ok (.constant loc (.bool false))
    | .noneLiteral => .ok (.constant loc .none)
    | .ellipsis => .ok (.constant loc .ellipsis)
    | .strings => stringsToExpr loc children
    | .paren =>
      if isComprehension children then .ok (.comprehension loc .generator)
      else do .ok (tupleUnlessSingle loc children (← itemsOf limit depth children))
    | .list =>
      if isComprehension children then .ok (.comprehension loc .list)
      else do .ok (.list loc (← itemsOf limit depth children))
    | .brace =>
      if isComprehension children then
        .ok (.comprehension loc (if beginsDict children then .dict else .set))
      else if beginsDict children then do .ok (.dict loc (← entriesOf limit depth children))
      else do .ok (.set loc (← itemsOf limit depth children))
    | _ => malformed loc

/-- The expressions of nodes, commas passed over. -/
def itemsOf (limit depth : Nat) : List Node → Except ParseError (List Expr)
  | [] => .ok []
  | node :: rest =>
    if node.rule == .trailingComma then itemsOf limit depth rest
    else do
      let item ← exprOf limit depth node
      .ok (item :: (← itemsOf limit depth rest))

def entriesOf (limit depth : Nat) : List Node → Except ParseError (List DictEntry)
  | [] => .ok []
  | .mk rule first last children :: rest => do
    let entry ←
      match rule, children with
      | .dictItem, [key, value] => do
        let key ← exprOf limit depth key
        .ok (DictEntry.pair key (← exprOf limit depth value))
      | .dictUnpack, [value] => do .ok (DictEntry.unpack (← exprOf limit depth value))
      | _, _ => malformed (first.location last)
    .ok (entry :: (← entriesOf limit depth rest))

def slicePartsOf (limit depth : Nat) : List Node → Except ParseError (List (SlicePart × Expr))
  | [] => .ok []
  | .mk rule first last children :: rest => do
    let part ←
      match rule, children with
      | .slicePart part, [value] => do .ok (part, ← exprOf limit depth value)
      | _, _ => malformed (first.location last)
    .ok (part :: (← slicePartsOf limit depth rest))

/-- Adds the arguments of a call to those already read. A repeated name is refused before its value
is looked at, and so is a positional argument after a keyword, unless it is unpacked. -/
def argumentsOf (limit depth : Nat) (args : List Expr) (keywords : List Keyword) :
    List Node → Except ParseError (List Expr × List Keyword)
  | [] => .ok (args, keywords)
  | node :: rest =>
    let positional := exprOf limit depth node
    match node with
    | .mk .keywordArgument first last [nameNode, value] =>
      let name := String.ofList nameNode.text
      if keywords.any fun k => k.name? == some name then
        .error ⟨.repeatedKeyword name, first.location last⟩
      else do
        let value ← exprOf limit depth value
        let keyword := Keyword.named (first.location last) name value
        argumentsOf limit depth args (keywords ++ [keyword]) rest
    | .mk .doubleStarred first last [value] => do
      let value ← exprOf limit depth value
      argumentsOf limit depth args (keywords ++ [.unpack (first.location last) value]) rest
    | .mk rule first last _ =>
      if rule != .starred && !keywords.isEmpty then
        .error ⟨.positionalAfterKeyword, first.location last⟩
      else do argumentsOf limit depth (args ++ [← positional]) keywords rest

/-- The operands and operators of a row. -/
def piecesOf (limit depth : Nat) : List Node → Except ParseError (List Piece)
  | [] => .ok []
  | node :: rest => do
    let operand := exprOf limit depth node
    let piece ←
      match node with
      | .mk (.unary op) first last _ => .ok (Piece.unary (first.location last) op)
      | .mk (.binary op) _ _ _ => .ok (Piece.binary op)
      | .mk .call first last children => do
        let (args, keywords) ← argumentsOf limit depth [] [] children
        .ok (Piece.trailer (first.location last) (.call args keywords))
      | .mk .subscript first last children => do
        let items ← itemsOf limit depth children
        let index := tupleUnlessSingle (first.location last) children items
        .ok (Piece.trailer (first.location last) (.subscript index))
      | .mk .member first last [name] =>
        .ok (Piece.trailer (first.location last) (.member (String.ofList name.text)))
      | .mk .. => do .ok (Piece.operand (← operand))
    .ok (piece :: (← piecesOf limit depth rest))

end

/-- The expression of a list that commas may separate. -/
def targetListOf (limit : Nat) (node : Node) : Except ParseError Expr := do
  let items ← itemsOf limit 0 node.children
  return tupleUnlessSingle node.loc node.children items

def statementOf (limit : Nat) (node : Node) : Except ParseError Statement :=
  let loc := node.loc
  match node.rule, node.children with
  | .assignment, parts => do
    let exprs ← parts.mapM (targetListOf limit)
    match exprs.getLast? with
    | some value => .ok ⟨loc, .assign exprs.dropLast value⟩
    | none => malformed loc
  | .augmentedAssignment, [target, op, value] => do
    let target ← targetListOf limit target
    .ok ⟨loc, .augAssign target (String.ofList op.text) (← targetListOf limit value)⟩
  | .annotatedAssignment, [target, annotation] => do
    let target ← exprOf limit 0 target
    .ok ⟨loc, .annAssign target (← exprOf limit 0 annotation) none⟩
  | .annotatedAssignment, [target, annotation, value] => do
    let target ← exprOf limit 0 target
    let annotation ← exprOf limit 0 annotation
    .ok ⟨loc, .annAssign target annotation (some (← targetListOf limit value))⟩
  | .expressionStatement, [value] => do .ok ⟨loc, .expr (← targetListOf limit value)⟩
  | .reservedStatement, word :: _ => .ok ⟨loc, .reserved (String.ofList word.text)⟩
  | _, _ => malformed loc

def moduleOf (limit : Nat) (node : Node) : Except ParseError Module := do
  return ⟨← (node.children.filter (·.rule != .endOfInput)).mapM (statementOf limit)⟩

end ConfigSandbox
