import ConfigSandbox.Environment.Index
import ConfigSandbox.Value.Display
import ConfigSandbox.Value.Equality

/-!
The store of names and values that all submissions share. Entries stand in the order in which their
names were first bound; an index finds the place of a name.
-/
namespace ConfigSandbox

/-- A key is hidden if it begins and ends with two underscores that do not overlap. -/
def isHidden (key : String) : Bool :=
  let cs := key.toList
  4 ≤ cs.length && cs.take 2 == ['_', '_'] && cs.reverse.take 2 == ['_', '_']

structure Environment where
  entries : Array Entry
  /-- The place in `entries` of each name. -/
  index : Index
  indexed : index.Matches entries

namespace Environment

def empty : Environment := ⟨#[], ∅, .empty⟩

instance : Inhabited Environment := ⟨empty⟩

def toList (env : Environment) : List Entry := env.entries.toList

def size (env : Environment) : Nat := env.entries.size

def isEmpty (env : Environment) : Bool := env.entries.isEmpty

def keys (env : Environment) : List String := env.toList.map Prod.fst

def contains (env : Environment) (key : String) : Bool := env.index.contains key

def get? (env : Environment) (key : String) : Option Value :=
  match env.index[key]? with
  | some i => env.entries[i]?.map (·.2)
  | none => none

/-- Binds a name. A bound name keeps its place; its former value is returned. -/
def insert (env : Environment) (key : String) (value : Value) : Option Value × Environment :=
  match h : env.index[key]? with
  | some i =>
    (env.entries[i]?.map (·.2),
      ⟨env.entries.modify i fun e => (e.1, value), env.index, env.indexed.modify i value⟩)
  | none =>
    (none,
      ⟨env.entries.push (key, value), env.index.insert key env.entries.size,
        env.indexed.push h value⟩)

/-- Unbinds a name; the entries after it move up by one. -/
def remove (env : Environment) (key : String) : Option Value × Environment :=
  match h : env.index[key]? with
  | some i =>
    (env.entries[i]?.map (·.2),
      ⟨env.entries.eraseIdxIfInBounds i, Index.moveUp (env.index.erase key) (env.toList.drop (i + 1)),
        env.indexed.erase h⟩)
  | none => (none, env)

/-- Removes the entry bound last. -/
def popLast (env : Environment) : Option Entry × Environment :=
  match h : env.entries.back? with
  | some entry => (some entry, ⟨env.entries.pop, env.index.erase entry.1, env.indexed.pop h⟩)
  | none => (none, env)

/-- Removes every entry, the hidden ones included. -/
def clear (_ : Environment) : Environment := empty

/-- Binds several names, one after the other. -/
def insertAll (env : Environment) (entries : List Entry) : Environment :=
  entries.foldl (fun env e => (env.insert e.1 e.2).2) env

def ofList (entries : List Entry) : Environment := empty.insertAll entries

/-- The same names in the same order, with equal values. -/
def equals (env other : Environment) : Bool :=
  env.keys == other.keys &&
    Value.equalsAll (env.toList.map (·.2)) (other.toList.map (·.2))

end Environment

def displayBindings (entries : List Entry) : String :=
  "\x7b" ++ Value.commaSeparated (entries.map fun e => quote e.1 ++ ": " ++ e.2.display) ++ "\x7d"

/-- All entries, the hidden ones included. -/
def Environment.display (env : Environment) : String := displayBindings env.toList

end ConfigSandbox
