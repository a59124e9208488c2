import ConfigSandbox.Proofs.Tree.Printed
import ConfigSandbox.Proofs.Value.WellFormed

/-!
# Values that are displayed as literals

The display of a value is the text of an expression, if the value has a literal: no number below zero, no
empty set, nothing that only functions return. Sets and dicts that are well formed are built from their items
as they are, since of these no two are equal.
-/
namespace ConfigSandbox.Value

mutual

/-- Whether a value has a literal. -/
def isLiteral : Value → Bool
  | none | bool _ | str _ => true
  | int n => 0 ≤ n
  | list items => allLiteral items
  | set items => !items.isEmpty && allLiteral items
  | dict entries => entriesLiteral entries
  | _ => false

def allLiteral : List Value → Bool
  | [] => true
  | item :: rest => item.isLiteral && allLiteral rest

def entriesLiteral : List (Value × Value) → Bool
  | [] => true
  | (key, value) :: rest => key.isLiteral && value.isLiteral && entriesLiteral rest

end

mutual

/-- The literal of a value that has one. -/
def literal : Value → Expr
  | bool b => .constant .synthetic (.bool b)
  | int n => .constant .synthetic (.int n)
  | str s => .constant .synthetic (.str s)
  | list items => .list .synthetic (literals items)
  | set items => .set .synthetic (literals items)
  | dict entries => .dict .synthetic (entryLiterals entries)
  | _ => .constant .synthetic .none

def literals : List Value → List Expr
  | [] => []
  | item :: rest => item.literal :: literals rest

def entryLiterals : List (Value × Value) → List DictEntry
  | [] => []
  | (key, value) :: rest => .pair key.literal value.literal :: entryLiterals rest

end

mutual

/-- How many lists, sets and dicts are around the innermost part of a value. -/
def nesting : Value → Nat
  | list items | tuple items | set items => 1 + nestingOfAll items
  | dict entries => 1 + nestingOfEntries entries
  | _ => 0

def nestingOfAll : List Value → Nat
  | [] => 0
  | item :: rest => max item.nesting (nestingOfAll rest)

def nestingOfEntries : List (Value × Value) → Nat
  | [] => 0
  | (key, value) :: rest => max (max key.nesting value.nesting) (nestingOfEntries rest)

end

/-! ### The text of a literal -/

mutual

theorem text_literal : (v : Value) → v.isLiteral → v.literal.text = v.display
  | none, _ | int _, _ | str _, _ => rfl
  | bool b, _ => by cases b <;> rfl
  | list items, h => by rw [literal, Expr.text, texts_literals items h, display]
  | set [], h => by cases h
  | set (item :: rest), h => by
    have hall : allLiteral (item :: rest) := h
    rw [literal, Expr.text, texts_literals (item :: rest) hall, display]
    exact nofun
  | dict entries, h => by rw [literal, Expr.text, texts_entryLiterals entries h, display]

theorem texts_literals : (items : List Value) → allLiteral items → texts (literals items) = displayAll items
  | [], _ => rfl
  | item :: rest, h => by
    rw [allLiteral, Bool.and_eq_true] at h
    rw [literals, texts, displayAll, text_literal item h.1, texts_literals rest h.2]

theorem texts_entryLiterals : (entries : List (Value × Value)) → entriesLiteral entries →
    entryTexts (entryLiterals entries) = displayEntries entries
  | [], _ => rfl
  | (key, value) :: rest, h => by
    simp only [entriesLiteral, Bool.and_eq_true] at h
    rw [entryLiterals, entryTexts, displayEntries, text_literal key h.1.1, text_literal value h.1.2,
      texts_entryLiterals rest h.2]

end

mutual

theorem isCanonical_literal : (v : Value) → v.isLiteral → v.literal.isCanonical
  | none, _ | bool _, _ | str _, _ => rfl
  | int _, h => h
  | list items, h => allCanonical_literals items h
  | set items, h => by
    rw [isLiteral, Bool.and_eq_true] at h
    rw [literal, Expr.isCanonical, allCanonical_literals items h.2, Bool.and_true]
    cases items with
    | nil => cases h.1
    | cons item rest => rfl
  | dict entries, h => entriesCanonical_literals entries h

theorem allCanonical_literals : (items : List Value) → allLiteral items → allCanonical (literals items)
  | [], _ => rfl
  | item :: rest, h => by
    rw [allLiteral, Bool.and_eq_true] at h
    rw [literals, allCanonical, isCanonical_literal item h.1, allCanonical_literals rest h.2, Bool.and_true]

theorem entriesCanonical_literals : (entries : List (Value × Value)) → entriesLiteral entries →
    entriesCanonical (entryLiterals entries)
  | [], _ => rfl
  | (key, value) :: rest, h => by
    simp only [entriesLiteral, Bool.and_eq_true] at h
    rw [entryLiterals, entriesCanonical, isCanonical_literal key h.1.1, isCanonical_literal value h.1.2,
      entriesCanonical_literals rest h.2]
    rfl

end

mutual

theorem nesting_literal : (v : Value) → v.isLiteral → v.literal.nesting = v.nesting
  | none, _ | bool _, _ | str _, _ | int _, _ => rfl
  | list items, h => by rw [literal, Expr.nesting, nesting, nestingIn_literals items h]
  | set items, h => by
    rw [literal, Expr.nesting, nesting, nestingIn_literals items ((Bool.and_eq_true _ _).mp h).2]
  | dict entries, h => by rw [literal, Expr.nesting, nesting, entryNesting_literals entries h]

theorem nestingIn_literals : (items : List Value) → allLiteral items →
    nestingIn (literals items) = nestingOfAll items
  | [], _ => rfl
  | item :: rest, h => by
    rw [allLiteral, Bool.and_eq_true] at h
    rw [literals, nestingIn, nestingOfAll, nesting_literal item h.1, nestingIn_literals rest h.2]

theorem entryNesting_literals : (entries : List (Value × Value)) → entriesLiteral entries →
    entryNesting (entryLiterals entries) = nestingOfEntries entries
  | [], _ => rfl
  | (key, value) :: rest, h => by
    simp only [entriesLiteral, Bool.and_eq_true] at h
    rw [entryLiterals, entryNesting, nestingOfEntries, nesting_literal key h.1.1, nesting_literal value h.1.2,
      entryNesting_literals rest h.2]

end

/-! ### Sets and dicts of unequal items -/

variable {kept items : List Value} {entries added : List (Value × Value)} {item key value : Value}

theorem addItem_of_areKeys (h : areKeys (kept ++ [item])) : addItem kept item = kept ++ [item] := by
  obtain ⟨hhashable, hdistinct⟩ := areKeys_iff.mp h
  refine if_neg fun hoccurs => ?_
  rw [occursIn_eq_any, List.any_eq_true] at hoccurs
  obtain ⟨x, hx, heq⟩ := hoccurs
  have hnew := (List.pairwise_append.mp hdistinct).2.2 x hx item List.mem_cons_self
  rw [equals_comm item x (hhashable item (List.mem_append_right kept List.mem_cons_self)), heq] at hnew
  cases hnew

theorem areKeys_of_append (h : areKeys (kept ++ items)) : areKeys kept := by
  obtain ⟨hhashable, hdistinct⟩ := areKeys_iff.mp h
  exact areKeys_iff.mpr
    ⟨fun x hx => hhashable x (List.mem_append_left items hx), (List.pairwise_append.mp hdistinct).1⟩

theorem foldl_addItem_of_areKeys (h : areKeys (kept ++ items)) : items.foldl addItem kept = kept ++ items := by
  induction items generalizing kept with
  | nil => exact (List.append_nil kept).symm
  | cons item rest ih =>
    rw [List.append_cons] at h ⊢
    rw [List.foldl_cons, addItem_of_areKeys (areKeys_of_append h), ih h]

theorem setOf_eq_set (h : areKeys items) : setOf items = set items :=
  congrArg set (foldl_addItem_of_areKeys h)

theorem addEntry_of_areKeys (h : areKeys (entries.map Prod.fst ++ [key])) :
    addEntry key value entries = entries ++ [(key, value)] := by
  induction entries with
  | nil => rfl
  | cons e rest ih =>
    obtain ⟨k, v⟩ := e
    obtain ⟨hhashable, hdistinct⟩ := areKeys_iff.mp h
    rw [List.map_cons, List.cons_append, List.pairwise_cons] at hdistinct
    have hnew := hdistinct.1 key (List.mem_append_right _ List.mem_cons_self)
    rw [equals_comm key k (hhashable key (List.mem_append_right _ List.mem_cons_self))] at hnew
    have hrest : areKeys (rest.map Prod.fst ++ [key]) :=
      areKeys_iff.mpr ⟨fun x hx => hhashable x (List.mem_cons_of_mem _ hx), hdistinct.2⟩
    rw [addEntry, hnew, ih hrest]
    rfl

theorem foldl_addEntry_of_areKeys (h : areKeys ((entries ++ added).map Prod.fst)) :
    added.foldl (fun kept (k, v) => addEntry k v kept) entries = entries ++ added := by
  induction added generalizing entries with
  | nil => exact (List.append_nil entries).symm
  | cons e rest ih =>
    obtain ⟨k, v⟩ := e
    rw [List.append_cons] at h ⊢
    have hkeys : areKeys (entries.map Prod.fst ++ [k]) := by
      rw [List.map_append, List.map_append] at h
      exact areKeys_of_append h
    rw [List.foldl_cons]
    dsimp only
    rw [addEntry_of_areKeys hkeys, ih h]

theorem dictOf_eq_dict (h : areKeys (entries.map Prod.fst)) : dictOf entries = dict entries :=
  congrArg dict (foldl_addEntry_of_areKeys h)

end ConfigSandbox.Value
