import ConfigSandbox.Value.Basic

/-!
The names that a host binds for submissions: functions to call and constants to refer to.
-/
namespace ConfigSandbox

inductive Plugin where
  | function (f : Function)
  | constant (value : Value)
deriving Inhabited

namespace Plugin

/-- A function stays callable, however it is handed over. -/
def ofValue : Value → Plugin
  | .function f => function f
  | value => constant value

/-- What a call of the plugin invokes. -/
def function? : Plugin → Option Function
  | function f => some f
  | constant value => value.function?

/-- The name that a plugin carries itself. -/
def name? (p : Plugin) : Option String := p.function?.map (·.name)

def wantsEnvironment (p : Plugin) : Bool := p.function?.any (·.wantsEnvironment)

/-- What the plugin's name stands for in an expression. -/
def value : Plugin → Value
  | function f => .function f
  | constant value => value

end Plugin

inductive RegistryError where
  | unknownPlugin (name : String)
  | unnamed
deriving DecidableEq, Repr

def RegistryError.message : RegistryError → String
  | unknownPlugin name => "unknown plugin '" ++ name ++ "'"
  | unnamed => "plugin has no name; pass one explicitly"

/-- Bindings of names to plugins, no name twice. -/
structure Registry where
  bindings : List (String × Plugin)
deriving Inhabited

namespace Registry

def empty : Registry := ⟨[]⟩

def get? (reg : Registry) (name : String) : Option Plugin := reg.bindings.lookup name

def contains (reg : Registry) (name : String) : Bool := (reg.get? name).isSome

def size (reg : Registry) : Nat := reg.bindings.length

def isEmpty (reg : Registry) : Bool := reg.bindings.isEmpty

def erase (reg : Registry) (name : String) : Registry :=
  ⟨reg.bindings.filter fun b => b.1 != name⟩

/-- Binds a name; what it stood for before is gone. -/
def insert (reg : Registry) (name : String) (p : Plugin) : Registry :=
  ⟨(name, p) :: (reg.erase name).bindings⟩

/-- Binds a plugin to the given name, or else to its own. -/
def add (reg : Registry) (p : Plugin) (name : Option String) : Except RegistryError Registry :=
  match name.or p.name? with
  | some name => .ok (reg.insert name p)
  | none => .error .unnamed

def get (reg : Registry) (name : String) : Except RegistryError Plugin :=
  match reg.get? name with
  | some p => .ok p
  | none => .error (.unknownPlugin name)

/-- The bound names in the order of their code points. -/
def names (reg : Registry) : List String :=
  (reg.bindings.map (·.1)).mergeSort fun a b => decide (a ≤ b)

end Registry
end ConfigSandbox
