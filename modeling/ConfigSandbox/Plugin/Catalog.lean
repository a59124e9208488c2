import ConfigSandbox.Number.Decimal
import ConfigSandbox.Plugin.Registry
import ConfigSandbox.Plugin.Script

/-!
A stock of functions for hosts: small ones on values, and one for each operation of the view.
-/
namespace ConfigSandbox.Catalog

private def stringArg (call : Call) : Script String :=
  match call.arg? 0 with
  | some (.str s) => pure s
  | _ => .throw (.argument "argument 0 must be str")

private def secondArg (call : Call) : Value := (call.arg? 1).getD .none

private def pairs (entries : List (String × Value)) : List Value :=
  entries.map fun (name, value) => .tuple [.str name, value]

private def typeNames (call : Call) : List String := call.args.map (·.typeName)

private def size (n : Nat) : Value := .int (Int64.ofNat n)

/-- Answers with what an operation of the view answers. -/
private def asking {α : Type} (op : ViewOp) (result : op.Reply → Except EnvError α)
    (value : α → Value) : Script Value := do
  return value (← .request op result)

/-- The functions that only look at their arguments. -/
def plain : List (String × (Call → Script Value)) := [
  ("double", fun call => do
    let n ← .ofExcept (call.intArg 0)
    let twice := Int64.ofInt (2 * n.toInt)
    if twice.toInt = 2 * n.toInt then return .int twice
    else .throw (.failed "overflow")),
  ("collect", fun call => return .list (call.args ++ pairs call.kwargs)),
  ("fail", fun call =>
    match call.arg? 0 with
    | some (.str s) => .throw (.failed s)
    | _ => .throw (.failed "boom")),
  ("reject", fun call => .throw (.argument (",".intercalate (typeNames call)))),
  ("second", fun call => return .int (← .ofExcept (call.intArg 1))),
  ("tuple", fun call => return .tuple call.args),
  ("setof", fun call => return .setOf call.args),
  ("dictof", fun call => return .dictOf (call.kwargs.map fun (name, v) => (.str name, v))),
  ("float", fun call => do
    match Binary64.ofText? (← stringArg call).toList with
    | some x => return .float x
    | none => .throw (.failed "not a float")),
  ("same", fun call => do
    .ofExcept (call.expectArity 2)
    return .bool (((call.arg? 0).getD .none).equals (secondArg call))),
  ("typename", fun call => return .list ((typeNames call).map .str)),
  ("text", fun call => return .str ("|".intercalate (call.args.map (·.display)))),
  ("hasenv", fun call => return .bool call.hasHandle),
  ("pair", fun call => do
    .ofExcept (call.expectArity 1)
    return .tuple [(call.arg? 0).getD .none, (call.kwarg? "right").getD .none]),
  ("kw", fun call => return (call.kwarg? (← stringArg call)).getD .none)]

/-- The functions that ask for the environment. -/
def withEnvironment : List (String × (Call → Script Value)) := [
  ("ctx", fun _ => asking .size .ok size),
  ("keys", fun _ => asking .keys .ok fun keys => .list (keys.map .str)),
  ("get", fun call => do asking (.get (← stringArg call)) id id),
  ("get_or", fun call => do asking (.getOr (← stringArg call) (secondArg call)) .ok id),
  ("has", fun call => do asking (.contains (← stringArg call)) .ok .bool),
  ("put", fun call => do
    asking (.insert (← stringArg call) (secondArg call)) id (·.getD .none)),
  ("delete", fun call => do asking (.remove (← stringArg call)) id id),
  ("pop", fun call => do asking (.pop (← stringArg call)) id id),
  ("pop_or", fun call => do asking (.removeOr (← stringArg call) (secondArg call)) .ok id),
  ("take", fun _ => asking .popLast id fun (key, value) => .tuple [.str key, value]),
  ("setdefault", fun call => do
    asking (.setDefault (← stringArg call) (secondArg call)) id id),
  ("merge", fun call => asking (.update call.kwargs) .ok fun _ => .none),
  ("wipe", fun _ => asking .clear .ok fun _ => .none),
  ("show", fun _ => asking .display .ok .str),
  ("blank", fun _ => asking .isEmpty .ok .bool),
  ("seen", fun call => do
    let visible ← if call.hasHandle then asking .size .ok size else pure .none
    return .list [visible, .list (pairs call.kwargs), .list call.args])]

def wantsEnvironment (name : String) : Bool := (withEnvironment.lookup name).isSome

def names : List String := (plain ++ withEnvironment).map (·.1)

/-- What the function of a name does; a name that is not in stock does nothing. -/
def host : Host := fun _ f call =>
  match (plain ++ withEnvironment).lookup f.name with
  | some behaviour => behaviour call
  | none => return .none

end ConfigSandbox.Catalog
