import ConfigSandbox.Proofs.Grammar.Words
import ConfigSandbox.Proofs.Tree.Outline
import ConfigSandbox.Value.Display

/-!
# Trees as text

The text of a tree of names, constants, lists, sets, dicts and calls, as a host would write it. Everything else
has no text here. A tree is canonical if its text is meant to be read as this tree, and two trees have one
shape if they differ in nothing but locations.
-/
namespace ConfigSandbox

open Value (commaSeparated)

/-! ### Text -/

def Constant.text : Constant → String
  | .none => "None"
  | .bool b => if b then "True" else "False"
  | .int n => toString n.toInt
  | .str s => quote s
  | _ => ""

mutual

def Expr.text : Expr → String
  | .name _ id => id
  | .constant _ value => value.text
  | .list _ items => "[" ++ commaSeparated (texts items) ++ "]"
  | .set _ items => "\x7b" ++ commaSeparated (texts items) ++ "\x7d"
  | .dict _ entries => "\x7b" ++ commaSeparated (entryTexts entries) ++ "\x7d"
  | .call _ func args keywords =>
    func.text ++ "(" ++ commaSeparated (texts args ++ keywordTexts keywords) ++ ")"
  | _ => ""

def texts : List Expr → List String
  | [] => []
  | e :: rest => e.text :: texts rest

def entryTexts : List DictEntry → List String
  | [] => []
  | .pair key value :: rest => (key.text ++ ": " ++ value.text) :: entryTexts rest
  | .unpack value :: rest => ("**" ++ value.text) :: entryTexts rest

def keywordTexts : List Keyword → List String
  | [] => []
  | .named _ name value :: rest => (name ++ "=" ++ value.text) :: keywordTexts rest
  | .unpack _ value :: rest => ("**" ++ value.text) :: keywordTexts rest

end

def Statement.text (s : Statement) : String :=
  match s.kind with
  | .assign [target] value => target.text ++ " = " ++ value.text
  | .expr value => value.text
  | _ => ""

def Module.text (m : Module) : String := "\n".intercalate (m.body.map Statement.text)

/-! ### Brackets -/

mutual

/-- How many pairs of brackets the text has around its innermost part. -/
def Expr.nesting : Expr → Nat
  | .list _ items | .set _ items => 1 + nestingIn items
  | .dict _ entries => 1 + entryNesting entries
  | .call _ func args keywords => max func.nesting (1 + max (nestingIn args) (keywordNesting keywords))
  | _ => 0

def nestingIn : List Expr → Nat
  | [] => 0
  | e :: rest => max e.nesting (nestingIn rest)

def entryNesting : List DictEntry → Nat
  | [] => 0
  | .pair key value :: rest => max (max key.nesting value.nesting) (entryNesting rest)
  | .unpack value :: rest => max value.nesting (entryNesting rest)

def keywordNesting : List Keyword → Nat
  | [] => 0
  | .named _ _ value :: rest | .unpack _ value :: rest => max value.nesting (keywordNesting rest)

end

def Module.nesting (m : Module) : Nat := nestingIn m.exprs

/-! ### Canonical trees -/

/-- Numbers below zero have no literal. -/
def Constant.isCanonical : Constant → Bool
  | .none | .bool _ | .str _ => true
  | .int n => 0 ≤ n
  | _ => false

mutual

/-- Names that are no reserved words, constants, brackets and calls. Empty braces are a dict, and no keyword
is given twice. -/
def Expr.isCanonical : Expr → Bool
  | .name _ id => isName id.toList
  | .constant _ value => value.isCanonical
  | .list _ items => allCanonical items
  | .set _ items => !items.isEmpty && allCanonical items
  | .dict _ entries => entriesCanonical entries
  | .call _ (.name _ func) args keywords =>
    isName func.toList && allCanonical args && keywordsCanonical keywords &&
      decide (keywords.map Keyword.name?).Nodup
  | _ => false

def allCanonical : List Expr → Bool
  | [] => true
  | e :: rest => e.isCanonical && allCanonical rest

def entriesCanonical : List DictEntry → Bool
  | [] => true
  | .pair key value :: rest => key.isCanonical && value.isCanonical && entriesCanonical rest
  | .unpack _ :: _ => false

def keywordsCanonical : List Keyword → Bool
  | [] => true
  | .named _ name value :: rest => isName name.toList && value.isCanonical && keywordsCanonical rest
  | .unpack _ _ :: _ => false

end

/-- Assignments to one name, and calls. -/
def Statement.isCanonical (s : Statement) : Bool :=
  match s.kind with
  | .assign [.name _ id] value => isName id.toList && value.isCanonical
  | .expr (.call loc func args keywords) => (Expr.call loc func args keywords).isCanonical
  | _ => false

theorem Statement.isCanonical_cases {s : Statement} (h : s.isCanonical) :
    (∃ loc target id value, s = ⟨loc, .assign [.name target id] value⟩ ∧ isName id.toList ∧
      value.isCanonical) ∨
    ∃ loc cloc floc func args keywords, s = ⟨loc, .expr (.call cloc (.name floc func) args keywords)⟩ ∧
      (Expr.call cloc (.name floc func) args keywords).isCanonical := by
  obtain ⟨loc, kind⟩ := s
  unfold isCanonical at h
  split at h
  · rename_i target id value hkind
    obtain rfl : kind = .assign [.name target id] value := hkind
    exact Or.inl ⟨loc, target, id, value, rfl, (Bool.and_eq_true _ _).mp h⟩
  · rename_i cloc func args keywords hkind
    obtain rfl : kind = .expr (.call cloc func args keywords) := hkind
    cases func with
    | name floc func => exact Or.inr ⟨loc, cloc, floc, func, args, keywords, rfl, h⟩
    | _ => cases h
  · cases h

def Module.isCanonical (m : Module) : Bool := m.body.all Statement.isCanonical

/-! ### Shapes -/

mutual

/-- The expression without its places. -/
def Expr.shape : Expr → Expr
  | .name _ id => .name .synthetic id
  | .constant _ value => .constant .synthetic value
  | .list _ items => .list .synthetic (shapes items)
  | .tuple _ items => .tuple .synthetic (shapes items)
  | .set _ items => .set .synthetic (shapes items)
  | .dict _ entries => .dict .synthetic (entryShapes entries)
  | .call _ func args keywords => .call .synthetic func.shape (shapes args) (keywordShapes keywords)
  | .member _ value attr => .member .synthetic value.shape attr
  | .subscript _ value index => .subscript .synthetic value.shape index.shape
  | .slice _ lower upper step => .slice .synthetic (partShape lower) (partShape upper) (partShape step)
  | .binary _ op left right => .binary .synthetic op left.shape right.shape
  | .unary _ op operand => .unary .synthetic op operand.shape
  | .conditional _ test body orelse => .conditional .synthetic test.shape body.shape orelse.shape
  | .lambda _ params body => .lambda .synthetic params body.shape
  | .starred _ value => .starred .synthetic value.shape
  | .comprehension _ kind => .comprehension .synthetic kind
  | .formatStr _ text => .formatStr .synthetic text

def shapes : List Expr → List Expr
  | [] => []
  | e :: rest => e.shape :: shapes rest

def entryShapes : List DictEntry → List DictEntry
  | [] => []
  | .pair key value :: rest => .pair key.shape value.shape :: entryShapes rest
  | .unpack value :: rest => .unpack value.shape :: entryShapes rest

def keywordShapes : List Keyword → List Keyword
  | [] => []
  | .named _ name value :: rest => .named .synthetic name value.shape :: keywordShapes rest
  | .unpack _ value :: rest => .unpack .synthetic value.shape :: keywordShapes rest

def partShape : Option Expr → Option Expr
  | none => none
  | some e => some e.shape

end

def StatementKind.shape : StatementKind → StatementKind
  | .assign targets value => .assign (shapes targets) value.shape
  | .augAssign target op value => .augAssign target.shape op value.shape
  | .annAssign target annotation value => .annAssign target.shape annotation.shape (partShape value)
  | .expr value => .expr value.shape
  | .reserved word => .reserved word

def Statement.shape (s : Statement) : Statement := ⟨.synthetic, s.kind.shape⟩

def Module.shape (m : Module) : Module := ⟨m.body.map Statement.shape⟩

end ConfigSandbox
