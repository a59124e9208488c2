import ConfigSandbox.Interpreter.Error

/-!
An error reported to a reader of the submission. A library draws the report, with the line that the error
is about. What it is asked to draw is decided here, and how it draws is a parameter.
-/
namespace ConfigSandbox.Report

/-- The kinds of report that the library knows. -/
inductive Kind where
  | error
  | warning
  | advice
deriving DecidableEq, Repr

def Kind.ofSeverity : Severity → Kind
  | .error => error
  | .warning => warning
  | .info => advice

/-- The name that a text is reported under. -/
def sourceName : String := "<submission>"

/-- A part of a text with something to say about it. -/
structure Label where
  source : String
  range : Span
  message : String
deriving DecidableEq, Repr

/-- What the library is asked to draw. Whatever else it could be told is left at its default. -/
structure Request where
  kind : Kind
  /-- The name of the text that the report is about. -/
  source : String
  range : Span
  message : String
  color : Bool
  code : Option String
  label : Label
  help : Option String
  text : String
deriving DecidableEq, Repr

/-- What a row of a drawing shows of a text. -/
inductive Shown where
  /-- A line under its number. -/
  | line (number : Nat) (content : List Char)
  /-- Marks under so many characters of the line above, from the given one on. -/
  | marker (first count : Nat)
deriving DecidableEq, Repr

/-- A row of a drawing. Most rows show nothing of the text. -/
structure Row where
  text : String
  shown : Option Shown
deriving DecidableEq, Repr

/-- The range that an error is about is that of the report and of its only label. -/
def request (d : Diagnostic) (range : Span) (source : String) (color : Bool) : Request where
  kind := .ofSeverity d.severity
  source := sourceName
  range := range
  message :=
    match d.line with
    | some line => "l." ++ toString line ++ ": " ++ d.message
    | none => d.message
  color := color
  code := d.code
  label := ⟨sourceName, range, d.message⟩
  help := d.help
  text := source

/-- A report in plain words, of an error that has no place in the text. -/
def plain (e : Error) : List Row :=
  let code := (e.diagnostic.code.map fun code => " [" ++ code ++ "]").getD ""
  ⟨e.message ++ code, none⟩ :: e.diagnostic.help.toList.map fun help => ⟨"help: " ++ help, none⟩

/-- The rows that report an error about a text. -/
def rows (draw : Request → List Row) (e : Error) (source : String) (color : Bool) : List Row :=
  match e.diagnostic.span with
  | some range =>
    if range.stop ≤ source.utf8ByteSize then draw (request e.diagnostic range source color) else plain e
  | none => plain e

/-- The whole report; every row is ended. -/
def text (draw : Request → List Row) (e : Error) (source : String) (color : Bool) : String :=
  String.join ((rows draw e source color).map (·.text ++ "\n"))

end ConfigSandbox.Report
