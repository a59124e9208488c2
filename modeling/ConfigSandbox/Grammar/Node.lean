import ConfigSandbox.Grammar.Rule
import ConfigSandbox.Source.Cursor

/-!
What a match leaves: a node for every rule that matched, from the outermost rule to the tokens.
-/
namespace ConfigSandbox

/-- A matched rule, the positions before and after its text, and the rules matched inside. -/
inductive Node where
  | mk (rule : Rule) (first last : Cursor) (children : List Node)
deriving Inhabited

namespace Node

def rule : Node → Rule
  | mk rule .. => rule

def children : Node → List Node
  | mk _ _ _ children => children

def loc : Node → Location
  | mk _ first last _ => first.location last

def text : Node → List Char
  | mk _ first last _ => first.textTo last

end Node
end ConfigSandbox
