import ConfigSandbox.Text.Utf8

/-!
What a submission can be read from.
-/
namespace ConfigSandbox

/-- Why an input is no text: what kind of thing it was and what went wrong. -/
structure InputFault where
  typeName : String
  reason : String
deriving DecidableEq, Repr

/-- A stream of bytes that may break off with an error of its own. -/
structure Reader where
  typeName : String
  content : List UInt8
  failure : Option String
deriving Repr

inductive Input where
  | text (s : String)
  | bytes (content : List UInt8)
  | reader (r : Reader)
deriving Repr

namespace Input

/-- The text of an input. A stream that breaks off is never looked at as text. -/
def read : Input → Except InputFault String
  | text s => .ok s
  | bytes content =>
    match Utf8.decode content with
    | .ok s => .ok s
    | .error fault => .error ⟨"bytes", fault.message⟩
  | reader r =>
    match r.failure with
    | some reason => .error ⟨r.typeName, reason⟩
    | none =>
      match Utf8.decode r.content with
      | .ok s => .ok s
      | .error _ => .error ⟨r.typeName, "stream did not contain valid UTF-8"⟩

end Input
end ConfigSandbox
