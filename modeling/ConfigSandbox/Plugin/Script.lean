import ConfigSandbox.Environment.View

/-!
What a host function does when it is called: it looks at its arguments, asks the view of the
environment any number of questions, each of which may hang on the answers before, and ends with a
value or an error. There is no other way for a function to reach the environment.
-/
namespace ConfigSandbox

inductive PluginError where
  | environment (error : EnvError)
  | argument (message : String)
  | failed (message : String)
deriving DecidableEq, Repr

def PluginError.message : PluginError → String
  | environment error => error.message
  | argument message => "invalid argument: " ++ message
  | failed message => message

/-- What a function is called with. -/
structure Call where
  args : List Value
  /-- Keyword arguments in the order of the call. -/
  kwargs : List (String × Value)
  /-- Whether the environment may be asked. -/
  hasHandle : Bool
deriving Inhabited

namespace Call

def arg? (call : Call) (i : Nat) : Option Value := call.args[i]?

def kwarg? (call : Call) (name : String) : Option Value := call.kwargs.lookup name

def intArg (call : Call) (i : Nat) : Except PluginError Int64 :=
  match call.arg? i with
  | some (.int n) => .ok n
  | some other =>
    .error (.argument ("argument " ++ toString i ++ " must be int, not " ++ other.typeName))
  | none => .error (.argument ("missing positional argument " ++ toString i))

def expectArity (call : Call) (count : Nat) : Except PluginError Unit :=
  if call.args.length = count then .ok ()
  else
    .error (.argument ("expected " ++ toString count ++ " positional argument(s), got "
      ++ toString call.args.length))

end Call

/-- The error of a function that asks the environment without having been given it. -/
def PluginError.noHandle : PluginError := .argument "environment handle not provided"

inductive Script (α : Type) : Type where
  | done (result : Except PluginError α)
  | ask (op : ViewOp) (next : op.Reply → Script α)

namespace Script

def bind {α β : Type} : Script α → (α → Script β) → Script β
  | done (.ok a), f => f a
  | done (.error e), _ => done (.error e)
  | ask op next, f => ask op fun reply => (next reply).bind f

instance : Monad Script where
  pure a := done (.ok a)
  bind := bind

def throw {α : Type} (e : PluginError) : Script α := done (.error e)

def ofExcept {α : Type} (result : Except PluginError α) : Script α := done result

/-- Asks the environment; an error of the view becomes an error of the function. -/
def request {α : Type} (op : ViewOp) (value : op.Reply → Except EnvError α) : Script α :=
  ask op fun reply =>
    match value reply with
    | .ok a => done (.ok a)
    | .error e => done (.error (.environment e))

/-- Runs a script on an environment, or without one. -/
def run {α : Type} (env : Environment) (hasHandle : Bool) :
    Script α → Except PluginError α × Environment
  | done result => (result, env)
  | ask op next =>
    if hasHandle then
      let (reply, env) := op.run env
      (next reply).run env hasHandle
    else (.error .noHandle, env)

end Script

/-- What the functions of a host do. A function may remember: its first argument counts the calls made
before it in the run, so that the same call may be answered otherwise at another time. -/
abbrev Host := Nat → Function → Call → Script Value

end ConfigSandbox
