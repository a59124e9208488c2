import ConfigSandbox.Plugin.Registry
import ConfigSandbox.Plugin.Script
import ConfigSandbox.Tree.Basic

/-!
What expressions evaluate to and what statements do. A name stands for the plugin of that name, or
else for its entry in the environment. Constructs that no submission may hold are refused here as
well, so a tree that nobody has validated is not misread either.
-/
namespace ConfigSandbox

inductive ExecutionFault where
  | illegalSyntax (construct : String)
  | existingName (name : String)
  | unknownPlugin (name : String)
  | unboundName (name : String)
  | notCallable (name : String)
  | plugin (name : String) (error : PluginError)
  | unhashable (typeName : String)
  | duplicateKeyword (plugin keyword : String)
  | tooDeep (depth limit : Nat)
deriving DecidableEq, Repr

structure ExecutionError where
  fault : ExecutionFault
  loc : Location
deriving DecidableEq, Repr

namespace ExecutionFault

def message : ExecutionFault → String
  | illegalSyntax _ => "Illegal syntax"
  | existingName name => "Illegal assignment into existing variable " ++ name
  | unknownPlugin name => "Unknown plugin " ++ name
  | unboundName name => "name '" ++ name ++ "' is not defined"
  | notCallable name => "plugin " ++ name ++ " is not callable"
  | plugin name error => name ++ "() failed: " ++ error.message
  | unhashable typeName => "unhashable type: '" ++ typeName ++ "'"
  | duplicateKeyword name keyword =>
    name ++ "() got multiple values for keyword argument '" ++ keyword ++ "'"
  | tooDeep depth limit =>
    "evaluation depth " ++ toString depth ++ " exceeds maximum of " ++ toString limit ++ " levels"

end ExecutionFault

def ExecutionError.message (e : ExecutionError) : String :=
  "l." ++ toString e.loc.line ++ ": " ++ e.fault.message

/-- The keyword under which a function receives the environment. -/
def handleKeyword : String := "env"

/-- The hidden name of the environment while a submission runs. -/
def handleKey : String := "__env__"

/-- The hidden name that stands for the absence of built-in functions while a submission runs. -/
def builtinsKey : String := "__builtins__"

namespace Keyword

/-- The keyword that passes the environment to a function that asks for it. -/
def handle : Keyword := .named .synthetic handleKeyword (.name .synthetic handleKey)

/-- Whether a keyword is the one that was added, and not one that a submission wrote. -/
def isHandle : Keyword → Bool
  | .named loc name (.name valueLoc id) =>
    loc = .synthetic && name = handleKeyword && valueLoc = .synthetic && id = handleKey
  | _ => false

end Keyword

namespace Plugin

/-- Whether a call with these keywords still lacks the environment that the plugin asks for. -/
def lacksHandle (p : Plugin) (keywords : List Keyword) : Bool :=
  p.wantsEnvironment && !keywords.any (·.isHandle)

/-- The keywords of a call with the environment added, if it is lacking. -/
def addHandle (p : Plugin) (keywords : List Keyword) : List Keyword :=
  if p.lacksHandle keywords then keywords ++ [.handle] else keywords

end Plugin

/-- What a submission runs against, apart from the environment. -/
structure Setting where
  registry : Registry
  host : Host
  /-- How deep expressions may nest. -/
  limit : Nat

/-- A function call as it was made, with the environment before it. -/
structure Invocation where
  function : Function
  call : Call
  environment : Environment

/-- The environment so far and the calls made so far, the latest first. -/
structure Machine where
  environment : Environment
  calls : List Invocation

abbrev Eval := ExceptT ExecutionError (StateM Machine)

namespace Eval

def fail {α : Type} (loc : Location) (fault : ExecutionFault) : Eval α :=
  throw ⟨fault, loc⟩

/-- Refuses an expression that lies inside as many others as the limit allows. -/
def checkDepth (st : Setting) (depth : Nat) (loc : Location) : Eval Unit :=
  if st.limit ≤ depth then fail loc (.tooDeep (depth + 1) st.limit) else pure ()

def checkHashable (value : Value) (loc : Location) : Eval Unit :=
  if value.isHashable then pure () else fail loc (.unhashable value.typeName)

def lookup (st : Setting) (loc : Location) (name : String) : Eval Value := do
  match st.registry.get? name with
  | some p => return p.value
  | none =>
    match (← get).environment.get? name with
    | some value => return value
    | none => fail loc (.unboundName name)

def constant (loc : Location) : Constant → Eval Value
  | .none => return .none
  | .bool b => return .bool b
  | .int n => return .int n
  | .float x => return .float x
  | .str s => return .str s
  | c@(.bytes _) | c@.ellipsis => fail loc (.illegalSyntax (Expr.constant loc c).describe)

/-- The function that a call of the given name invokes. -/
def callee (st : Setting) (loc : Location) (name : String) : Eval (Plugin × Function) :=
  match st.registry.get? name with
  | none => fail loc (.unknownPlugin name)
  | some p =>
    match p.function? with
    | none => fail loc (.notCallable name)
    | some f => return (p, f)

/-- The keyword arguments of a call so far. The environment is not one of them: it is passed apart,
as the handle. -/
structure Passed where
  kwargs : List (String × Value)
  hasHandle : Bool

/-- Adds a keyword argument of a call to the plugin of the given name. -/
def addKeyword (loc : Location) (plugin : String) (passed : Passed) (name : String)
    (value : Value) : Eval Passed :=
  if passed.kwargs.any (·.1 == name) || (name == handleKeyword && passed.hasHandle) then
    fail loc (.duplicateKeyword plugin name)
  else
    match value with
    | .environment =>
      if name == handleKeyword then return { passed with hasHandle := true }
      else return { passed with kwargs := passed.kwargs ++ [(name, value)] }
    | _ => return { passed with kwargs := passed.kwargs ++ [(name, value)] }

/-- Adds the environment to the arguments of a call that still lacks it. -/
def passHandle (st : Setting) (depth : Nat) (loc : Location) (plugin : String) (p : Plugin)
    (keywords : List Keyword) (passed : Passed) : Eval Passed :=
  if p.lacksHandle keywords then do
    checkDepth st depth .synthetic
    let handle ← lookup st .synthetic handleKey
    addKeyword loc plugin passed handleKeyword handle
  else pure passed

/-- Calls a function with its evaluated arguments. -/
def invoke (st : Setting) (loc : Location) (plugin : String) (f : Function) (args : List Value)
    (passed : Passed) : Eval Value := do
  let machine ← get
  let call : Call := ⟨args, passed.kwargs, passed.hasHandle⟩
  let (result, env) := (st.host machine.calls.length f call).run machine.environment passed.hasHandle
  set { environment := env, calls := ⟨f, call, machine.environment⟩ :: machine.calls : Machine }
  match result with
  | .ok value => return value
  | .error e => fail loc (.plugin plugin e)

mutual

/-- The value of an expression that lies inside `depth` others. -/
def expr (st : Setting) (depth : Nat) (e : Expr) : Eval Value := do
  checkDepth st depth e.loc
  match e with
  | .name loc id => lookup st loc id
  | .constant loc value => constant loc value
  | .list _ items => return .list (← exprs st (depth + 1) items)
  | .set _ items => return .setOf (← hashables st (depth + 1) items)
  | .dict loc entries => return .dictOf (← dictEntries st (depth + 1) loc entries)
  | .call loc func args keywords =>
    match func.name? with
    | none => fail func.loc (.illegalSyntax func.describe)
    | some name =>
      let (p, f) ← callee st loc name
      let args ← exprs st (depth + 1) args
      let passed ← namedArguments st (depth + 1) loc name ⟨[], false⟩ keywords
      let passed ← passHandle st (depth + 1) loc name p keywords passed
      invoke st loc name f args passed
  | other => fail other.loc (.illegalSyntax other.describe)

def exprs (st : Setting) (depth : Nat) : List Expr → Eval (List Value)
  | [] => return []
  | e :: rest => do
    let value ← expr st depth e
    return value :: (← exprs st depth rest)

/-- The items of a set; each is looked at before the next is evaluated. -/
def hashables (st : Setting) (depth : Nat) : List Expr → Eval (List Value)
  | [] => return []
  | e :: rest => do
    let value ← expr st depth e
    checkHashable value e.loc
    return value :: (← hashables st depth rest)

def dictEntries (st : Setting) (depth : Nat) (loc : Location) :
    List DictEntry → Eval (List (Value × Value))
  | [] => return []
  | .pair key value :: rest => do
    let k ← expr st depth key
    checkHashable k key.loc
    let v ← expr st depth value
    return (k, v) :: (← dictEntries st depth loc rest)
  | .unpack _ :: _ => fail loc (.illegalSyntax "unpacking")

/-- Evaluates the keywords of a call at `loc` to the plugin of the given name. -/
def namedArguments (st : Setting) (depth : Nat) (loc : Location) (plugin : String)
    (passed : Passed) : List Keyword → Eval Passed
  | [] => return passed
  | .named _ name value :: rest => do
    let v ← expr st depth value
    namedArguments st depth loc plugin (← addKeyword loc plugin passed name v) rest
  | .unpack _ _ :: _ => fail loc (.illegalSyntax "unpacking")

end

/-- Binds a name that is not bound yet. -/
def bindNew (loc : Location) (name : String) (value : Value) : Eval Unit := do
  if (← get).environment.contains name then fail loc (.existingName name)
  else modify fun machine =>
    { machine with environment := (machine.environment.insert name value).2 }

def statement (st : Setting) (s : Statement) : Eval Unit :=
  match s.kind with
  | .assign [target] value =>
    match target.name? with
    | none => fail target.loc (.illegalSyntax target.describe)
    | some name => do bindNew s.loc name (← expr st 0 value)
  | .assign .. => fail s.loc (.illegalSyntax "multiple assignment")
  | .expr (.call loc func args keywords) => discard (expr st 0 (.call loc func args keywords))
  | other => fail s.loc (.illegalSyntax other.describe)

/-- Runs statements in order; the first error ends the run. -/
def statements (st : Setting) : List Statement → Eval Unit
  | [] => return ()
  | s :: rest => do
    statement st s
    statements st rest

end Eval
end ConfigSandbox
