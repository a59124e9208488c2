import ConfigSandbox.Environment.Basic
import ConfigSandbox.Plugin.Registry
import ConfigSandbox.Tree.Basic

/-!
Which submissions may run at all. A submission is a row of assignments to one new name and of plugin
calls, over names, constants, lists, sets, dicts and calls; the first construct outside of that
refuses the whole submission before any of it runs.
-/
namespace ConfigSandbox

/-- Why an assignment is refused. -/
inductive AssignmentViolation where
  | multipleTargets
  | notAName (construct : String)
  | pluginName (name : String)
  | hiddenName (name : String)
  | existingName (name : String)
deriving DecidableEq, Repr

namespace AssignmentViolation

def message : AssignmentViolation → String
  | multipleTargets => "Illegal assignment into multiple targets"
  | notAName construct => "Illegal assignment into " ++ construct
  | pluginName name => "Illegal assignment into plugin " ++ name
  | hiddenName name => "Illegal assignment into double-underscore variable " ++ name
  | existingName name => "Illegal assignment into existing variable " ++ name

def help : AssignmentViolation → String
  | multipleTargets => "assign each name in its own statement"
  | notAName _ => "only a plain name can be assigned"
  | pluginName _ => "plugin names cannot be reassigned"
  | hiddenName _ => "names starting and ending with '__' are reserved"
  | existingName _ => "a name can only be assigned once; choose a new name"

end AssignmentViolation

inductive ValidationFault where
  | illegalSyntax (construct : String)
  | illegalAssignment (violation : AssignmentViolation)
deriving DecidableEq, Repr

structure ValidationError where
  fault : ValidationFault
  loc : Location
deriving DecidableEq, Repr

namespace ValidationError

def message (e : ValidationError) : String :=
  "l." ++ toString e.loc.line ++ ": " ++
    match e.fault with
    | .illegalSyntax _ => "Illegal syntax"
    | .illegalAssignment violation => violation.message

def syntaxAt (loc : Location) (construct : String) : ValidationError :=
  ⟨.illegalSyntax construct, loc⟩

def assignmentAt (loc : Location) (violation : AssignmentViolation) : ValidationError :=
  ⟨.illegalAssignment violation, loc⟩

end ValidationError

/-- Whether a constant has a value that a submission may compute with. -/
def Constant.isAllowed : Constant → Bool
  | .bytes _ | .ellipsis => false
  | _ => true

mutual

def Expr.validate : Expr → Except ValidationError Unit
  | .name .. => .ok ()
  | .constant loc value =>
    if value.isAllowed then .ok ()
    else .error (.syntaxAt loc (Expr.constant loc value).describe)
  | .list _ items | .set _ items => validateAll items
  | .dict _ entries => do
    validateKeys entries
    validateValues entries
  | .call _ func args keywords => do
    if func.name?.isNone then .error (.syntaxAt func.loc func.describe)
    validateAll args
    validateKeywords keywords
  | e => .error (.syntaxAt e.loc e.describe)

def validateAll : List Expr → Except ValidationError Unit
  | [] => .ok ()
  | e :: rest => do
    e.validate
    validateAll rest

/-- All keys of a dict are looked at before any of its values. -/
def validateKeys : List DictEntry → Except ValidationError Unit
  | [] => .ok ()
  | .pair key _ :: rest => do
    key.validate
    validateKeys rest
  | .unpack value :: _ => .error (.syntaxAt value.loc "unpacking")

def validateValues : List DictEntry → Except ValidationError Unit
  | [] => .ok ()
  | .pair _ value :: rest | .unpack value :: rest => do
    value.validate
    validateValues rest

def validateKeywords : List Keyword → Except ValidationError Unit
  | [] => .ok ()
  | .named _ _ value :: rest => do
    value.validate
    validateKeywords rest
  | .unpack loc _ :: _ => .error (.syntaxAt loc "unpacking")

end

/-- Checks the target of an assignment and gives the name. -/
def validateTarget (reg : Registry) (target : Expr) : Except ValidationError Unit :=
  match target.name? with
  | none => .error (.assignmentAt target.loc (.notAName target.describe))
  | some name =>
    if reg.contains name then .error (.assignmentAt target.loc (.pluginName name))
    else if isHidden name then .error (.assignmentAt target.loc (.hiddenName name))
    else .ok ()

def Statement.validate (reg : Registry) (s : Statement) : Except ValidationError Unit :=
  match s.kind with
  | .expr value =>
    match value with
    | .call .. => value.validate
    | _ => .error (.syntaxAt value.loc value.describe)
  | .assign [target] value => do
    validateTarget reg target
    value.validate
  | .assign .. => .error (.assignmentAt s.loc .multipleTargets)
  | other => .error (.syntaxAt s.loc other.describe)

def validateStatements (reg : Registry) : List Statement → Except ValidationError Unit
  | [] => .ok ()
  | s :: rest => do
    s.validate reg
    validateStatements reg rest

/-- Refuses a submission at the first construct that may not run. -/
def Module.validate (reg : Registry) (m : Module) : Except ValidationError Unit :=
  validateStatements reg m.body

end ConfigSandbox
