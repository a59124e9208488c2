import ConfigSandbox.Interpreter.Input
import ConfigSandbox.Submission.Evaluation
import ConfigSandbox.Submission.Validation
import ConfigSandbox.Tree.ParseError

/-!
The errors that a host sees, whichever step of a submission they come from. Each kind has a code,
which tells the step, and a help text wherever there is something to advise.
-/
namespace ConfigSandbox

inductive ErrorKind where
  | syntaxFault (fault : ParseFault)
  | illegalSyntax (construct : String)
  | illegalAssignment (violation : AssignmentViolation)
  | unknownPlugin (name : String)
  | unboundName (name : String)
  | protectedKey (key : String)
  | input (fault : InputFault)
  | notCallable (name : String)
  | plugin (name : String) (error : PluginError)
  | unhashable (typeName : String)
  | duplicateKeyword (plugin keyword : String)
  | tooDeep (depth limit : Nat)
deriving DecidableEq, Repr

namespace ErrorKind

def message : ErrorKind → String
  | syntaxFault fault => fault.message
  | illegalSyntax _ => "Illegal syntax"
  | illegalAssignment violation => violation.message
  | unknownPlugin name => "Unknown plugin " ++ name
  | unboundName name => "name '" ++ name ++ "' is not defined"
  | protectedKey key => (EnvError.protectedKey key).message
  | input fault =>
    "Cannot read the contents of a " ++ fault.typeName ++ " variable: " ++ fault.reason
  | notCallable name => "plugin " ++ name ++ " is not callable"
  | plugin name error => name ++ "() failed: " ++ error.message
  | unhashable typeName => "unhashable type: '" ++ typeName ++ "'"
  | duplicateKeyword name keyword =>
    name ++ "() got multiple values for keyword argument '" ++ keyword ++ "'"
  | tooDeep depth limit => (ParseFault.tooDeep depth limit).message

def code : ErrorKind → String
  | syntaxFault _ => "S001"
  | illegalSyntax _ => "S002"
  | illegalAssignment _ => "S003"
  | unknownPlugin _ => "E001"
  | unboundName _ => "E002"
  | protectedKey _ => "E003"
  | notCallable _ => "E004"
  | plugin .. => "E005"
  | unhashable _ => "E006"
  | duplicateKeyword .. => "E007"
  | tooDeep .. => "E008"
  | input _ => "I001"

def help : ErrorKind → Option String
  | syntaxFault fault => fault.help
  | illegalSyntax construct =>
    some (construct ++
      " is not allowed here; only assignments and plugin calls are accepted")
  | illegalAssignment violation => some violation.help
  | unknownPlugin name => some ("no plugin named '" ++ name ++ "' is registered")
  | unboundName _ => some "names must be assigned before they are used"
  | notCallable _ => some "the plugin is a constant; refer to it without calling it"
  | unhashable _ => some "set elements and dict keys cannot be lists, sets or dicts"
  | tooDeep depth limit => (ParseFault.tooDeep depth limit).help
  | protectedKey _ | plugin .. | duplicateKeyword .. | input _ => none

def ofParseFault : ParseFault → ErrorKind
  | .tooDeep depth limit => tooDeep depth limit
  | fault => syntaxFault fault

def ofValidationFault : ValidationFault → ErrorKind
  | .illegalSyntax construct => illegalSyntax construct
  | .illegalAssignment violation => illegalAssignment violation

/-- A function that touched a hidden key is no failed function: the key is what is reported. -/
def ofExecutionFault : ExecutionFault → ErrorKind
  | .illegalSyntax construct => illegalSyntax construct
  | .existingName name => illegalAssignment (.existingName name)
  | .unknownPlugin name => unknownPlugin name
  | .unboundName name => unboundName name
  | .notCallable name => notCallable name
  | .plugin _ (.environment (.protectedKey key)) => protectedKey key
  | .plugin name error => plugin name error
  | .unhashable typeName => unhashable typeName
  | .duplicateKeyword name keyword => duplicateKeyword name keyword
  | .tooDeep depth limit => tooDeep depth limit

end ErrorKind

inductive Severity where
  | error
  | warning
  | info
deriving DecidableEq, Repr

def Severity.text : Severity → String
  | error => "error"
  | warning => "warning"
  | info => "info"

/-- What a reader is told of an error. -/
structure Diagnostic where
  severity : Severity
  /-- Without the line number in front. -/
  message : String
  line : Option Nat
  span : Option Span
  help : Option String
  code : Option String
deriving DecidableEq, Repr

/-- An error and the place in the submission it is about; an input that is no text has none. -/
structure Error where
  kind : ErrorKind
  loc : Option Location
deriving DecidableEq, Repr

namespace Error

def ofInput (fault : InputFault) : Error := ⟨.input fault, none⟩

def ofParse (e : ParseError) : Error := ⟨.ofParseFault e.fault, some e.loc⟩

def ofValidation (e : ValidationError) : Error := ⟨.ofValidationFault e.fault, some e.loc⟩

def ofExecution (e : ExecutionError) : Error := ⟨.ofExecutionFault e.fault, some e.loc⟩

def line (e : Error) : Option Nat := e.loc.map (·.line)

def span (e : Error) : Option Span := e.loc.map (·.span)

def message (e : Error) : String :=
  match e.line with
  | some line => "l." ++ toString line ++ ": " ++ e.kind.message
  | none => e.kind.message

/-- Every error is one to its reader, and none a mere warning. -/
def diagnostic (e : Error) : Diagnostic :=
  ⟨.error, e.kind.message, e.line, e.span, e.kind.help, some e.kind.code⟩

end Error
end ConfigSandbox
