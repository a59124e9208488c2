import ConfigSandbox.Source.Location

/-!
How deep brackets nest in a text. The scan reads characters only and knows strings and comments,
where brackets do not count; it runs before the grammar, whose search descends at every bracket.
-/
namespace ConfigSandbox

/-- What the scan has seen: the level it is on, the deepest one, and the bracket that opened it.
Text outside all brackets is on level one. -/
structure Nesting where
  level : Nat
  deepest : Nat
  loc : Location
deriving DecidableEq, Repr

namespace Nesting

def flat : Nesting := ⟨1, 1, ⟨1, ⟨0, 0⟩⟩⟩

def enter (n : Nesting) (offset line : Nat) : Nesting :=
  if n.deepest < n.level + 1 then ⟨n.level + 1, n.level + 1, ⟨line, ⟨offset, offset + 1⟩⟩⟩
  else { n with level := n.level + 1 }

/-- A closing bracket too many is left for the grammar to refuse. -/
def leave (n : Nesting) : Nesting := { n with level := max (n.level - 1) 1 }

/-- What the scan is inside of. -/
inductive Mode where
  | code
  | comment
  | quoted (mark : Char) (triple : Bool)
deriving DecidableEq, Repr

private def lineAfter (c : Char) (line : Nat) : Nat := if c = '\n' then line + 1 else line

/-- Continues a scan at the given offset and line. A string in one pair of quotes ends with its line
at the latest, and a backslash inside quotes hides the character after it. -/
def scan (mode : Mode) (offset line : Nat) (n : Nesting) : List Char → Nesting
  | [] => n
  | c :: rest =>
    let next := offset + c.utf8Size
    match mode with
    | .code =>
      if c = '"' ∨ c = '\'' then
        match rest with
        | a :: b :: more =>
          if a = c ∧ b = c then scan (.quoted c true) (next + 2) line n more
          else scan (.quoted c false) next line n (a :: b :: more)
        | [a] => scan (.quoted c false) next line n [a]
        | [] => n
      else if c = '#' then scan .comment next line n rest
      else if c = '(' ∨ c = '[' ∨ c = '\x7b' then
        scan .code next line (n.enter offset line) rest
      else if c = ')' ∨ c = ']' ∨ c = '\x7d' then scan .code next line n.leave rest
      else scan .code next (lineAfter c line) n rest
    | .comment =>
      if c = '\n' then scan .code next (line + 1) n rest
      else scan .comment next line n rest
    | .quoted mark triple =>
      if c = '\\' then
        match rest with
        | hidden :: more =>
          scan (.quoted mark triple) (next + hidden.utf8Size) (lineAfter hidden line) n more
        | [] => n
      else if c = mark then
        if triple then
          match rest with
          | a :: b :: more =>
            if a = mark ∧ b = mark then scan .code (next + 2) line n more
            else scan (.quoted mark true) next line n (a :: b :: more)
          | [a] => scan (.quoted mark true) next line n [a]
          | [] => n
        else scan .code next line n rest
      else if c = '\n' ∧ !triple then scan .code next (line + 1) n rest
      else scan (.quoted mark triple) next (lineAfter c line) n rest
termination_by structural cs => cs

/-- The nesting of a whole text. -/
def ofText (source : List Char) : Nesting := scan .code 0 1 flat source

end Nesting
end ConfigSandbox
