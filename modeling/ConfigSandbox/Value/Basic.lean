import ConfigSandbox.Number.Binary64

/-!
The values that submissions compute with. Sets and dicts keep the order in which their items were
first given.
-/
namespace ConfigSandbox

/-- A function that the host offers. Only its identity matters for equality; what it does is told
by the host that offers it. -/
structure Function where
  name : String
  /-- Whether the function asks for the environment when it is called. -/
  wantsEnvironment : Bool
  identity : Nat
deriving DecidableEq, Repr, Inhabited

inductive Value where
  | none
  | bool (b : Bool)
  | int (n : Int64)
  | float (x : Binary64)
  | str (s : String)
  | list (items : List Value)
  /-- There is no tuple literal; only functions return tuples. -/
  | tuple (items : List Value)
  | set (items : List Value)
  | dict (entries : List (Value × Value))
  | function (f : Function)
  /-- A handle to the environment in which the value is used. -/
  | environment
deriving Inhabited

namespace Value

/-- What the type of a value is called in messages. -/
def typeName : Value → String
  | none => "NoneType"
  | bool _ => "bool"
  | int _ => "int"
  | float _ => "float"
  | str _ => "str"
  | list _ => "list"
  | tuple _ => "tuple"
  | set _ => "set"
  | dict _ => "dict"
  | function _ => "function"
  | environment => "ProtectedEnv"

mutual

/-- Whether a value may be an item of a set or a key of a dict. -/
def isHashable : Value → Bool
  | list _ | set _ | dict _ | environment => false
  | tuple items => allHashable items
  | _ => true

def allHashable : List Value → Bool
  | [] => true
  | item :: rest => item.isHashable && allHashable rest

end

def isNone : Value → Bool
  | none => true
  | _ => false

def bool? : Value → Option Bool
  | bool b => some b
  | _ => .none

def int? : Value → Option Int64
  | int n => some n
  | _ => .none

def float? : Value → Option Binary64
  | float x => some x
  | _ => .none

def str? : Value → Option String
  | str s => some s
  | _ => .none

/-- The items of a list, tuple or set. -/
def items? : Value → Option (List Value)
  | list items | tuple items | set items => some items
  | _ => .none

def entries? : Value → Option (List (Value × Value))
  | dict entries => some entries
  | _ => .none

def function? : Value → Option Function
  | function f => some f
  | _ => .none

/-- The integer that a value counts as: truth values count as zero and one. -/
def integer? : Value → Option Int64
  | bool b => some (if b then 1 else 0)
  | int n => some n
  | _ => .none

end Value
end ConfigSandbox
