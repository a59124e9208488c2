import ConfigSandbox.Grammar.Match
import ConfigSandbox.Tree.Nesting
import ConfigSandbox.Tree.OfNode

/-!
Reading a submission. Brackets are counted first, then the grammar is matched, then the tree is
built; the first of the three that refuses the text gives the error.
-/
namespace ConfigSandbox

/-- How deep a submission may nest if nothing else is asked for. -/
def defaultDepthLimit : Nat := 200

/-- One more than the number of line feeds before a byte offset. -/
def lineAt (source : List Char) (offset : Nat) : Nat :=
  (takeBytes offset source).count '\n' + 1

/-- The error of a text that the grammar refuses: it stands where the furthest rule failed. -/
def syntaxError (source : List Char) (att : Attempts) : ParseError :=
  ⟨.unexpectedToken (Rule.expectations att.failed.toList),
    ⟨lineAt source att.furthest, ⟨att.furthest, att.furthest⟩⟩⟩

/-- The tree of a submission, unless it nests deeper than the limit or is not well formed. -/
def Module.parse (limit : Nat) (source : String) : Except ParseError Module :=
  let cs := source.toList
  let nesting := Nesting.ofText cs
  if limit < nesting.deepest then .error ⟨.tooDeep nesting.deepest limit, nesting.loc⟩
  else
    match Rule.module.matchText cs with
    | (.matched _ [node], _) => moduleOf limit node
    | (.failed, att) => .error (syntaxError cs att)
    | _ => .error ⟨.malformedTree, ⟨1, ⟨0, source.utf8ByteSize⟩⟩⟩

end ConfigSandbox
