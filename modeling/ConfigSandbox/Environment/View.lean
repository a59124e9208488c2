import ConfigSandbox.Environment.Basic

/-!
The view of an environment that functions are given. Hidden entries do not exist in it: what names
one is refused, what counts or lists entries passes over them, and nothing moves or changes them.
-/
namespace ConfigSandbox

inductive EnvError where
  | protectedKey (key : String)
  | missingKey (key : String)
  | empty
deriving DecidableEq, Repr

def EnvError.message : EnvError → String
  | protectedKey key => "key '" ++ key ++ "' is protected"
  | missingKey key => "key '" ++ key ++ "' not found"
  | empty => "environment is empty"

namespace Environment

/-- The entries that the view shows. -/
def visible (env : Environment) : List Entry := env.toList.filter fun e => !isHidden e.1

/-- Takes hidden entries off the end, up to and including the first visible one. What was taken is
returned apart, the entry nearest to the end last. -/
def unstack : Nat → Environment → List Entry → Option Entry × List Entry × Environment
  | 0, env, taken => (none, taken, env)
  | n + 1, env, taken =>
    match env.popLast with
    | (some entry, env) =>
      if isHidden entry.1 then unstack n env (entry :: taken) else (some entry, taken, env)
    | (none, env) => (none, taken, env)

end Environment

namespace View

def size (env : Environment) : Nat := env.visible.length

def isEmpty (env : Environment) : Bool := env.visible.isEmpty

def contains (env : Environment) (key : String) : Bool := !isHidden key && env.contains key

def keys (env : Environment) : List String := env.visible.map Prod.fst

/-- Removes every visible entry. -/
def clear (env : Environment) : Environment :=
  (keys env).foldl (fun env key => (env.remove key).2) env

def get (env : Environment) (key : String) : Except EnvError Value :=
  if isHidden key then .error (.protectedKey key)
  else
    match env.get? key with
    | some value => .ok value
    | none => .error (.missingKey key)

def getOr (env : Environment) (key : String) (default : Value) : Value :=
  match get env key with
  | .ok value => value
  | .error _ => default

def insert (env : Environment) (key : String) (value : Value) :
    Except EnvError (Option Value) × Environment :=
  if isHidden key then (.error (.protectedKey key), env)
  else
    let (former, env) := env.insert key value
    (.ok former, env)

def remove (env : Environment) (key : String) : Except EnvError Value × Environment :=
  if isHidden key then (.error (.protectedKey key), env)
  else
    match env.remove key with
    | (some value, env) => (.ok value, env)
    | (none, env) => (.error (.missingKey key), env)

def removeOr (env : Environment) (key : String) (default : Value) : Value × Environment :=
  if isHidden key then (default, env)
  else
    let (found, env) := env.remove key
    (found.getD default, env)

/-- Removes the visible entry bound last. Hidden entries bound after it are put back as they
were. -/
def popLast (env : Environment) : Except EnvError Entry × Environment :=
  let (found, taken, env) := env.unstack (env.size + 1) []
  let env := env.insertAll taken
  match found with
  | some entry => (.ok entry, env)
  | none => (.error .empty, env)

/-- The value of a key, bound to the default first if it is absent. -/
def setDefault (env : Environment) (key : String) (default : Value) :
    Except EnvError Value × Environment :=
  if isHidden key then (.error (.protectedKey key), env)
  else
    let env := if env.contains key then env else (env.insert key default).2
    match env.get? key with
    | some value => (.ok value, env)
    | none => (.error (.missingKey key), env)

/-- Binds the visible ones of some entries; the others are dropped. -/
def update (env : Environment) (entries : List Entry) : Environment :=
  env.insertAll (entries.filter fun e => !isHidden e.1)

def display (env : Environment) : String :=
  "ProtectedEnv(" ++ displayBindings env.visible ++ ")"

end View

/-- Everything that a function can ask of the environment. -/
inductive ViewOp where
  | size
  | isEmpty
  | contains (key : String)
  | keys
  | items
  | clear
  | get (key : String)
  | getOr (key : String) (default : Value)
  | insert (key : String) (value : Value)
  | remove (key : String)
  | pop (key : String)
  | removeOr (key : String) (default : Value)
  | popLast
  | setDefault (key : String) (default : Value)
  | update (entries : List Entry)
  | display

namespace ViewOp

/-- The type of the answer to an operation. -/
def Reply : ViewOp → Type
  | size => Nat
  | isEmpty | contains _ => Bool
  | keys => List String
  | items => List Entry
  | clear | update _ => Unit
  | get _ | remove _ | pop _ | setDefault .. => Except EnvError Value
  | getOr .. | removeOr .. => Value
  | insert .. => Except EnvError (Option Value)
  | popLast => Except EnvError Entry
  | display => String

/-- The answer to an operation and the environment after it. -/
def run (env : Environment) : (op : ViewOp) → op.Reply × Environment
  | size => (View.size env, env)
  | isEmpty => (View.isEmpty env, env)
  | contains key => (View.contains env key, env)
  | keys => (View.keys env, env)
  | items => (env.visible, env)
  | clear => ((), View.clear env)
  | get key => (View.get env key, env)
  | getOr key default => (View.getOr env key default, env)
  | insert key value => View.insert env key value
  | remove key | pop key => View.remove env key
  | removeOr key default => View.removeOr env key default
  | popLast => View.popLast env
  | setDefault key default => View.setDefault env key default
  | update entries => ((), View.update env entries)
  | display => (View.display env, env)

end ViewOp
end ConfigSandbox
