/-!
Places in a submission. Offsets count bytes of the UTF-8 text, lines count from one, and a line
ends at a line feed only.
-/
namespace ConfigSandbox

/-- The bytes from `start` up to, but not including, `stop`. -/
structure Span where
  start : Nat
  stop : Nat
deriving DecidableEq, Repr, Inhabited

/-- The bytes a construct covers and the line on which it starts. -/
structure Location where
  line : Nat
  span : Span
deriving DecidableEq, Repr, Inhabited

namespace Location

/-- The place of whatever the interpreter itself adds to a submission; no source text has it. -/
def synthetic : Location := ⟨0, ⟨0, 0⟩⟩

/-- Covers both places and starts on the line of the first. -/
def through (first last : Location) : Location :=
  ⟨first.line, ⟨first.span.start, last.span.stop⟩⟩

end Location

/-- The longest run of leading characters that fits in the given number of bytes. -/
def takeBytes : Nat → List Char → List Char
  | _, [] => []
  | n, c :: rest => if c.utf8Size ≤ n then c :: takeBytes (n - c.utf8Size) rest else []

/-- What `takeBytes` leaves. -/
def dropBytes : Nat → List Char → List Char
  | _, [] => []
  | n, c :: rest => if c.utf8Size ≤ n then dropBytes (n - c.utf8Size) rest else c :: rest

/-- The text that a span covers. -/
def Span.text (source : String) (s : Span) : String :=
  String.ofList (takeBytes (s.stop - s.start) (dropBytes s.start source.toList))

end ConfigSandbox
