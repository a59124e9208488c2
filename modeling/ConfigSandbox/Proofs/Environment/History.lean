import ConfigSandbox.Proofs.Environment.Row

/-!
# The life of a store

A store begins empty and changes only by the operations of its owner and of those who hold a view of
it. Whatever they do and in whatever order, the names in its row stay apart, the index holds these
names and no other, each with its place, and the answers are those of a plain row of entries that is
searched from the front.
-/
namespace ConfigSandbox

namespace ViewOp

/-- The operation on a whole row, hidden entries included: the visible ones give the answer and say
what becomes of the row. -/
def onEntries (row : List Entry) (op : ViewOp) : op.Reply × List Entry :=
  let visible := row.filter fun e => !isHidden e.1
  ((op.onVisible visible).1, if op.refusal?.isSome then row else op.onRow visible row)

theorem run_eq (env : Environment) (op : ViewOp) :
    (op.run env).1 = (op.onEntries env.toList).1 ∧
      (op.run env).2.toList = (op.onEntries env.toList).2 := by
  refine ⟨(op.agrees env).1, ?_⟩
  cases hr : op.refusal? with
  | some reply => simp only [onEntries, run_of_refusal env hr, hr, Option.isSome_some, if_true]
  | none =>
    rw [toList_run env hr]
    simp only [onEntries, hr, Option.isSome_none, Bool.false_eq_true, if_false]
    rfl

end ViewOp

/-- Everything that is done to a store, by its owner or through a view. -/
inductive StoreOp where
  | new
  | size
  | isEmpty
  | keys
  | items
  | contains (key : String)
  | get (key : String)
  | insert (key : String) (value : Value)
  | remove (key : String)
  | popLast
  | clear
  | extend (added : List Entry)
  | view (op : ViewOp)

namespace StoreOp

/-- The type of the answer to an operation. -/
def Reply : StoreOp → Type
  | size => Nat
  | isEmpty | contains _ => Bool
  | keys => List String
  | items => List Entry
  | get _ | insert .. | remove _ => Option Value
  | popLast => Option Entry
  | new | clear | extend _ => Unit
  | view op => op.Reply

/-- The answer of the indexed store, and the store after it. -/
def run (env : Environment) : (op : StoreOp) → op.Reply × Environment
  | new => ((), .empty)
  | size => (env.size, env)
  | isEmpty => (env.isEmpty, env)
  | keys => (env.keys, env)
  | items => (env.toList, env)
  | contains key => (env.contains key, env)
  | get key => (env.get? key, env)
  | insert key value => env.insert key value
  | remove key => env.remove key
  | popLast => env.popLast
  | clear => ((), env.clear)
  | extend added => ((), env.insertAll added)
  | view op => op.run env

/-- The same operation on a plain row of entries. -/
def onRow (row : List Entry) : (op : StoreOp) → op.Reply × List Entry
  | new => ((), [])
  | size => (row.length, row)
  | isEmpty => (row.isEmpty, row)
  | keys => (OrderedMap.keys row, row)
  | items => (row, row)
  | contains key => ((OrderedMap.get? row key).isSome, row)
  | get key => (OrderedMap.get? row key, row)
  | insert key value => (OrderedMap.get? row key, OrderedMap.insert key value row)
  | remove key => (OrderedMap.get? row key, OrderedMap.erase row key)
  | popLast => (row.getLast?, row.dropLast)
  | clear => ((), [])
  | extend added => ((), OrderedMap.insertAll row added)
  | view op => op.onEntries row

open Environment

/-- One operation. -/
theorem run_eq (env : Environment) (op : StoreOp) :
    (op.run env).1 = (op.onRow env.toList).1 ∧ (op.run env).2.toList = (op.onRow env.toList).2 := by
  cases op with
  | new | keys | items | clear => exact ⟨rfl, rfl⟩
  | size => exact ⟨Array.length_toList.symm, rfl⟩
  | isEmpty => exact ⟨Array.isEmpty_toList.symm, rfl⟩
  | contains key => exact ⟨contains_eq env key, rfl⟩
  | get key => exact ⟨get?_eq env key, rfl⟩
  | insert key value => exact insert_eq env key value
  | remove key => exact remove_eq env key
  | popLast => exact popLast_eq env
  | extend added => exact ⟨rfl, toList_insertAll env added⟩
  | view op => exact op.run_eq env

/-- An operation with its answer. -/
abbrev Answered := (op : StoreOp) × op.Reply

/-- The answers to a row of operations, each on the state that the one before left. -/
def answers {σ : Type} (step : σ → (op : StoreOp) → op.Reply × σ) :
    σ → List StoreOp → List Answered × σ
  | s, [] => ([], s)
  | s, op :: rest =>
    let next := answers step (step s op).2 rest
    (⟨op, (step s op).1⟩ :: next.1, next.2)

theorem answers_eq (env : Environment) (ops : List StoreOp) :
    (answers run env ops).1 = (answers onRow env.toList ops).1 ∧
      (answers run env ops).2.toList = (answers onRow env.toList ops).2 := by
  induction ops generalizing env with
  | nil => exact ⟨rfl, rfl⟩
  | cons op ops ih =>
    obtain ⟨hreply, hrow⟩ := op.run_eq env
    obtain ⟨hanswers, hend⟩ := ih (op.run env).2
    simp only [answers]
    rw [← hreply, ← hrow]
    exact ⟨by rw [hanswers], hend⟩

end StoreOp

namespace Environment

/-- The index holds the names of the row, each with its place. -/
theorem index_iff (env : Environment) (key : String) (i : Nat) :
    env.index[key]? = some i ↔ env.keys[i]? = some key := by
  rw [env.indexed key i, keys, toList, List.getElem?_map, Array.getElem?_toList]

theorem mem_index_iff (env : Environment) (key : String) : key ∈ env.index ↔ key ∈ env.keys := by
  rw [Std.HashMap.mem_iff_isSome_getElem?, List.mem_iff_getElem?, Option.isSome_iff_exists]
  exact exists_congr fun i => index_iff env key i

variable {env : Environment} {key : String} {i : Nat}

/-- A place that the index gives is a place of the row. -/
theorem place_lt (h : env.index[key]? = some i) : ∃ value, env.entries[i]? = some (key, value) :=
  env.indexed.bound h

/-- The names behind a place are all in the index, with a place that can be moved up by one. -/
theorem place_later (h : key ∈ (env.toList.drop (i + 1)).map Prod.fst) :
    ∃ k, i < k ∧ env.index[key]? = some k :=
  (env.indexed.mem_later i key).mp h

/-- A store reached by any row of operations answers and holds what a plain row of entries does. Its
names are pairwise distinct, its index holds exactly these names, each with its place, and no lookup
or renumbering leaves the row. -/
theorem reached_eq (ops : List StoreOp) :
    let reached := (StoreOp.answers StoreOp.run .empty ops).2
    (StoreOp.answers StoreOp.run .empty ops).1 = (StoreOp.answers StoreOp.onRow [] ops).1 ∧
    reached.toList = (StoreOp.answers StoreOp.onRow [] ops).2 ∧
    reached.keys.Nodup ∧
    (∀ key, key ∈ reached.index ↔ key ∈ reached.keys) ∧
    (∀ (key : String) (i : Nat), reached.index[key]? = some i ↔ reached.keys[i]? = some key) ∧
    (∀ (key : String) (i : Nat), reached.index[key]? = some i →
      ∃ value, reached.entries[i]? = some (key, value)) ∧
    (∀ (key : String) (i : Nat), key ∈ (reached.toList.drop (i + 1)).map Prod.fst →
      ∃ k, i < k ∧ reached.index[key]? = some k) := by
  obtain ⟨hanswers, hrow⟩ := StoreOp.answers_eq .empty ops
  generalize (StoreOp.answers StoreOp.run .empty ops).2 = reached at hrow ⊢
  exact ⟨hanswers, hrow, reached.keys_nodup, reached.mem_index_iff, reached.index_iff,
    fun _ _ => place_lt, fun _ _ => place_later⟩

/-- A row says all of a store: two stores with one row find every name in one place. -/
theorem index_eq_of_toList_eq {other : Environment} (h : env.toList = other.toList) (key : String) :
    env.index[key]? = other.index[key]? := by
  apply Option.ext
  intro i
  rw [index_iff, index_iff, keys, keys, h]

end Environment

/-- What the view takes off the end is its own last entry. The row loses that entry and nothing else:
all others, the hidden ones behind it too, keep their values and their order, and the index follows
them. Where the view shows nothing, the store is left as it was. -/
theorem View.popLast_removes_one (env : Environment) :
    (∃ front entry back, env.toList = front ++ entry :: back ∧
      env.visible.getLast? = some entry ∧ (∀ e ∈ back, isHidden e.1) ∧
      (View.popLast env).1 = .ok entry ∧ (View.popLast env).2.toList = front ++ back ∧
      ∀ (key : String) (i : Nat), (View.popLast env).2.index[key]? = some i ↔
        ((front ++ back)[i]?.map Prod.fst) = some key) ∨
    (env.visible = [] ∧ (View.popLast env).1 = .error .empty ∧
      (View.popLast env).2.entries = env.entries ∧
      ∀ key : String, (View.popLast env).2.index[key]? = env.index[key]?) := by
  obtain ⟨front, entry, back, hrow, hvisible, hback, hok, hafter⟩ | ⟨hall, hempty, hsame⟩ :=
    View.popLast_eq env
  · have hlast : env.visible.getLast? = some entry := by
      have hnone : back.filter (fun e => !isHidden e.1) = [] := by
        rw [List.filter_eq_nil_iff]
        intro e he
        simp [hback e he]
      rw [Environment.visible, hrow, List.filter_append, List.filter_cons_of_pos (by simp [hvisible]), hnone,
        List.getLast?_concat]
    refine Or.inl ⟨front, entry, back, hrow, hlast, hback, hok, hafter, fun key i => ?_⟩
    rw [Environment.index_iff, Environment.keys, hafter, List.getElem?_map]
  · have hnone : env.visible = [] := by
      rw [Environment.visible, List.filter_eq_nil_iff]
      intro e he
      simp [hall e he]
    exact Or.inr ⟨hnone, hempty, Array.toList_inj.mp hsame, Environment.index_eq_of_toList_eq hsame⟩

end ConfigSandbox
