import ConfigSandbox.Value.Basic

/-!
When two values count as the same.

Numbers are compared by value across types: an integer equals a double if rounding it to a double
gives that double. Sets and dicts ignore order. Of two sets of one size it is enough that every item
of the first occurs in the second.
-/
namespace ConfigSandbox.Value

/-- Equality of two values that contain no others. -/
def scalarEquals : Value → Value → Bool
  | none, none => true
  | str s, str t => s == t
  | function f, function g => f.identity == g.identity
  | environment, environment => true
  | float x, float y => x.equals y
  | float x, other | other, float x =>
    match other.integer? with
    | some n => (Binary64.ofInt n.toInt).equals x
    | .none => false
  | a, b =>
    match a.integer?, b.integer? with
    | some m, some n => m == n
    | _, _ => false

mutual

def equals : Value → Value → Bool
  | list xs, list ys | tuple xs, tuple ys => equalsAll xs ys
  | set xs, set ys => xs.length == ys.length && isSubset xs ys
  | dict xs, dict ys => xs.length == ys.length && isSubdict xs ys
  | a, b => scalarEquals a b
termination_by a b => sizeOf a + sizeOf b

/-- Whether two lists have equal items in equal places. -/
def equalsAll : List Value → List Value → Bool
  | [], [] => true
  | x :: xs, y :: ys => x.equals y && equalsAll xs ys
  | _, _ => false
termination_by xs ys => sizeOf xs + sizeOf ys

/-- Whether every item of the first list occurs in the second. -/
def isSubset : List Value → List Value → Bool
  | [], _ => true
  | x :: xs, ys => occursIn x ys && isSubset xs ys
termination_by xs ys => sizeOf xs + sizeOf ys

/-- Whether some item of a list equals a value. -/
def occursIn : Value → List Value → Bool
  | _, [] => false
  | x, y :: ys => y.equals x || occursIn x ys
termination_by x ys => sizeOf x + sizeOf ys

/-- Whether every entry of the first list occurs in the second. -/
def isSubdict : List (Value × Value) → List (Value × Value) → Bool
  | [], _ => true
  | (k, v) :: xs, ys => entryOccursIn k v ys && isSubdict xs ys
termination_by xs ys => sizeOf xs + sizeOf ys

def entryOccursIn : Value → Value → List (Value × Value) → Bool
  | _, _, [] => false
  | k, v, (k', v') :: ys => k.equals k' && v.equals v' || entryOccursIn k v ys
termination_by k v ys => sizeOf k + sizeOf v + sizeOf ys

end

theorem occursIn_eq_any (x : Value) (ys : List Value) :
    occursIn x ys = ys.any fun y => y.equals x := by
  induction ys with
  | nil => simp [occursIn]
  | cons y ys ih => simp [occursIn, ih]

theorem isSubset_eq_all (xs ys : List Value) : isSubset xs ys = xs.all fun x => occursIn x ys := by
  induction xs with
  | nil => simp [isSubset]
  | cons x xs ih => simp [isSubset, ih]

/-- Keeps an item unless an equal one is already there. -/
def addItem (kept : List Value) (item : Value) : List Value :=
  if occursIn item kept then kept else kept ++ [item]

/-- The set of some items: of equal ones the first is kept. -/
def setOf (items : List Value) : Value := set (items.foldl addItem [])

/-- Puts a value under a key. A key that is already there keeps its place and its form. -/
def addEntry (key value : Value) : List (Value × Value) → List (Value × Value)
  | [] => [(key, value)]
  | (k, v) :: rest =>
    if k.equals key then (k, value) :: rest else (k, v) :: addEntry key value rest

/-- The dict of some entries: a repeated key keeps its first place and takes the last value. -/
def dictOf (entries : List (Value × Value)) : Value :=
  dict (entries.foldl (fun kept (k, v) => addEntry k v kept) [])

/-- The value under a key, if the first argument is a dict that has it. -/
def lookup? : Value → Value → Option Value
  | dict entries, key => (entries.find? fun entry => entry.1.equals key).map (·.2)
  | _, _ => .none

end ConfigSandbox.Value
