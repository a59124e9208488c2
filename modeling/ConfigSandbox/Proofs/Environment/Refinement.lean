import ConfigSandbox.Proofs.Environment.View

/-!
# What can be seen through the view

The operations of the view beside those of an ordinary map that holds the visible entries and nothing
else. From one operation the statement passes to rows of them and to scripts, where each question may
hang on the answers before.
-/
namespace ConfigSandbox

namespace ViewOp

/-- The operation of an ordinary map, to which no name is special. -/
def onMap (entries : List Entry) : (op : ViewOp) → op.Reply × List Entry
  | size => (entries.length, entries)
  | isEmpty => (entries.isEmpty, entries)
  | contains key => ((OrderedMap.get? entries key).isSome, entries)
  | keys => (OrderedMap.keys entries, entries)
  | items => (entries, entries)
  | clear => ((), [])
  | get key => ((OrderedMap.get? entries key).elim (.error (.missingKey key)) .ok, entries)
  | getOr key default => ((OrderedMap.get? entries key).getD default, entries)
  | insert key value => (.ok (OrderedMap.get? entries key), OrderedMap.insert key value entries)
  | remove key | pop key =>
    ((OrderedMap.get? entries key).elim (.error (.missingKey key)) .ok, OrderedMap.erase entries key)
  | removeOr key default =>
    ((OrderedMap.get? entries key).getD default, OrderedMap.erase entries key)
  | popLast => (entries.getLast?.elim (.error .empty) .ok, entries.dropLast)
  | setDefault key default =>
    (.ok ((OrderedMap.get? entries key).getD default),
      if (OrderedMap.get? entries key).isSome then entries else OrderedMap.insert key default entries)
  | update added => ((), OrderedMap.insertAll entries added)
  | display => ("ProtectedEnv(" ++ displayBindings entries ++ ")", entries)

/-- The answer to an operation whose key is hidden. -/
def refusal? : (op : ViewOp) → Option op.Reply
  | contains key => if isHidden key then some false else none
  | get key | remove key | pop key | setDefault key _ =>
    if isHidden key then some (.error (.protectedKey key)) else none
  | insert key _ => if isHidden key then some (.error (.protectedKey key)) else none
  | getOr key default | removeOr key default => if isHidden key then some default else none
  | _ => none

/-- The operation on the visible entries alone. A hidden key is refused, and hidden entries of an
update are dropped; all else is the ordinary map. -/
def onVisible (entries : List Entry) : (op : ViewOp) → op.Reply × List Entry
  | update added => onMap entries (update (added.filter fun e => !isHidden e.1))
  | op =>
    match op.refusal? with
    | some reply => (reply, entries)
    | none => op.onMap entries

theorem onVisible_eq (entries : List Entry) {op : ViewOp} (hu : ∀ added, op ≠ update added) :
    op.onVisible entries =
      match op.refusal? with
      | some reply => (reply, entries)
      | none => op.onMap entries := by
  cases op with
  | update added => exact absurd rfl (hu added)
  | _ => rfl

theorem onVisible_of_refusal (entries : List Entry) {op : ViewOp} {reply : op.Reply}
    (h : op.refusal? = some reply) : op.onVisible entries = (reply, entries) := by
  have hu : ∀ added, op ≠ update added := by
    intro added he
    subst he
    cases h
  rw [onVisible_eq entries hu, h]

theorem onVisible_of_none (entries : List Entry) {op : ViewOp} (h : op.refusal? = none)
    (hu : ∀ added, op ≠ update added) : op.onVisible entries = op.onMap entries := by
  rw [onVisible_eq entries hu, h]

theorem run_of_refusal (env : Environment) {op : ViewOp} {reply : op.Reply}
    (h : op.refusal? = some reply) : op.run env = (reply, env) := by
  cases op with
  | size | isEmpty | keys | items | clear | popLast | update | display => cases h
  | contains key | get key | getOr key | insert key | remove key | pop key | removeOr key
  | setDefault key =>
    by_cases hk : isHidden key
    · simp only [refusal?, hk, if_true] at h
      cases h
      simp only [run, View.contains, View.get, View.getOr, View.insert, View.remove, View.removeOr,
        View.setDefault, hk, if_true, Bool.not_true, Bool.false_and] <;> rfl
    · simp [refusal?, hk] at h

/-- Hidden entries of an update might as well not have been given. -/
theorem run_update (env : Environment) (added : List Entry) :
    run env (update added) = run env (update (added.filter fun e => !isHidden e.1)) := by
  change ((), View.update env added) = ((), View.update env _)
  rw [View.update, View.update, List.filter_filter]
  simp only [Bool.and_self]

/-- An operation agrees with the map if it answers as the map of the visible entries does, leaves the
visible entries that the map leaves, and the hidden ones as they were. -/
def Agrees (env : Environment) (op : ViewOp) : Prop :=
  (op.run env).1 = (op.onVisible env.visible).1 ∧
    (op.run env).2.visible = (op.onVisible env.visible).2 ∧ (op.run env).2.hidden = env.hidden

variable {env : Environment} {key : String}

theorem agrees_of_refusal {op : ViewOp} {reply : op.Reply} (h : op.refusal? = some reply) :
    op.Agrees env := by
  rw [Agrees, onVisible_of_refusal _ h, run_of_refusal env h]
  exact ⟨rfl, rfl, rfl⟩

end ViewOp

namespace View

variable {env : Environment} {key : String}

open Environment

theorem get_eq (hk : isHidden key = false) : get env key =
    (OrderedMap.get? env.visible key).elim (.error (.missingKey key)) .ok := by
  rw [get, if_neg (by simp [hk]), get?_visible hk, get?_eq]
  cases OrderedMap.get? env.toList key <;> rfl

theorem getOr_eq (hk : isHidden key = false) (default : Value) :
    getOr env key default = (OrderedMap.get? env.visible key).getD default := by
  rw [getOr, get_eq hk]
  cases OrderedMap.get? env.visible key <;> rfl

theorem insert_eq (hk : isHidden key = false) (value : Value) : insert env key value =
    (.ok (OrderedMap.get? env.visible key), (env.insert key value).2) := by
  rw [insert, if_neg (by simp [hk]), get?_visible hk, ← insert_fst env key value]

theorem remove_eq (hk : isHidden key = false) : remove env key =
    ((OrderedMap.get? env.visible key).elim (.error (.missingKey key)) .ok,
      (env.remove key).2) := by
  rw [remove, if_neg (by simp [hk]), get?_visible hk, ← remove_fst env key]
  rcases env.remove key with ⟨_ | value, rest⟩ <;> rfl

theorem removeOr_eq (hk : isHidden key = false) (default : Value) : removeOr env key default =
    ((OrderedMap.get? env.visible key).getD default, (env.remove key).2) := by
  rw [removeOr, if_neg (by simp [hk]), get?_visible hk, ← remove_fst env key]

theorem setDefault_eq (hk : isHidden key = false) (default : Value) : setDefault env key default =
    (.ok ((OrderedMap.get? env.visible key).getD default),
      if (OrderedMap.get? env.visible key).isSome then env else (env.insert key default).2) := by
  rw [setDefault, if_neg (by simp [hk]), get?_visible hk]
  simp only [contains_eq, get?_eq]
  cases hf : OrderedMap.get? env.toList key with
  | none =>
    simp only [Option.isSome_none, Bool.false_eq_true, if_false, toList_insert, OrderedMap.get?_insert,
      if_true]
    rfl
  | some value =>
    simp only [Option.isSome_some, if_true, hf]
    rfl

end View

namespace ViewOp

open Environment

variable {env : Environment} {key : String}

theorem agrees_popLast : popLast.Agrees env := by
  have hrun : popLast.run env = View.popLast env := rfl
  have hspec : popLast.onVisible env.visible =
      (env.visible.getLast?.elim (.error .empty) .ok, env.visible.dropLast) := rfl
  rw [Agrees, hrun, hspec]
  obtain ⟨before, e, after, hsplit, he, hall, hreply, hafter⟩ | ⟨hall, hreply, hsame⟩ :=
    View.popLast_eq env
  · have hnone : OrderedMap.only (fun key => !isHidden key) after = [] :=
      OrderedMap.only_eq_nil fun e' hm => by simp [hall e' hm]
    have hlast : OrderedMap.only (fun key => !isHidden key) (e :: after) = [e] := by
      rw [← List.singleton_append, OrderedMap.only_append, hnone]
      simp [OrderedMap.only, he]
    have hcut : OrderedMap.only isHidden (e :: after) = OrderedMap.only isHidden after := by
      simp [OrderedMap.only, he]
    rw [hreply, visible_eq, hsplit, OrderedMap.only_append, hlast, List.getLast?_concat,
      List.dropLast_concat]
    refine ⟨rfl, ?_, ?_⟩
    · rw [visible_eq, hafter, OrderedMap.only_append, hnone, List.append_nil]
    · rw [hidden_eq, hidden_eq, hafter, hsplit, OrderedMap.only_append, OrderedMap.only_append, hcut]
  · have hvis : env.visible = [] := by
      rw [visible_eq]
      exact OrderedMap.only_eq_nil fun e hm => by simp [hall e hm]
    have hvis' : (View.popLast env).2.visible = env.visible := by
      rw [visible_eq, hsame, visible_eq]
    rw [hreply, hvis', hvis]
    refine ⟨rfl, rfl, ?_⟩
    rw [hidden_eq, hsame, hidden_eq]

/-- One operation. Hidden keys are refused before anything is looked at; all others meet the visible
entries only. -/
theorem agrees (env : Environment) (op : ViewOp) : op.Agrees env := by
  cases hr : op.refusal? with
  | some reply => exact agrees_of_refusal hr
  | none =>
    cases op with
    | size | isEmpty | keys | items | display => exact ⟨rfl, rfl, rfl⟩
    | clear => exact ⟨rfl, View.visible_clear env, View.hidden_clear env⟩
    | popLast => exact agrees_popLast
    | update added =>
      have hall : ∀ e ∈ added.filter fun e => !isHidden e.1, isHidden e.1 = false := by
        intro e he
        simpa using (List.mem_filter.mp he).2
      exact ⟨rfl, visible_insertAll env _ hall⟩
    | contains key =>
      have hk : isHidden key = false := by simpa [refusal?] using hr
      have hrun : View.contains env key = (OrderedMap.get? env.visible key).isSome := by
        rw [View.contains, hk, contains_eq, get?_visible hk]
        rfl
      rw [Agrees, onVisible_of_none _ hr (by simp)]
      exact ⟨hrun, rfl, rfl⟩
    | get key =>
      have hk : isHidden key = false := by simpa [refusal?] using hr
      rw [Agrees, onVisible_of_none _ hr (by simp)]
      exact ⟨View.get_eq hk, rfl, rfl⟩
    | getOr key default =>
      have hk : isHidden key = false := by simpa [refusal?] using hr
      rw [Agrees, onVisible_of_none _ hr (by simp)]
      exact ⟨View.getOr_eq hk default, rfl, rfl⟩
    | insert key value =>
      have hk : isHidden key = false := by simpa [refusal?] using hr
      rw [Agrees, onVisible_of_none _ hr (by simp), run, View.insert_eq hk]
      exact ⟨rfl, visible_insert hk, hidden_insert hk⟩
    | remove key | pop key =>
      have hk : isHidden key = false := by simpa [refusal?] using hr
      rw [Agrees, onVisible_of_none _ hr (by simp), run, View.remove_eq hk]
      exact ⟨rfl, visible_remove, hidden_remove hk⟩
    | removeOr key default =>
      have hk : isHidden key = false := by simpa [refusal?] using hr
      rw [Agrees, onVisible_of_none _ hr (by simp), run, View.removeOr_eq hk]
      exact ⟨rfl, visible_remove, hidden_remove hk⟩
    | setDefault key default =>
      have hk : isHidden key = false := by simpa [refusal?] using hr
      rw [Agrees, onVisible_of_none _ hr (by simp), run, View.setDefault_eq hk]
      refine ⟨rfl, ?_⟩
      by_cases hf : (OrderedMap.get? env.visible key).isSome
      · simp only [onMap, hf, if_true]
        exact ⟨trivial, trivial⟩
      · simp only [onMap, hf]
        exact ⟨visible_insert hk, hidden_insert hk⟩

/-- An operation with its answer. -/
abbrev Answered := (op : ViewOp) × op.Reply

/-- The answers to a row of operations, each on the state that the one before left. -/
def answers {σ : Type} (step : σ → (op : ViewOp) → op.Reply × σ) : σ → List ViewOp → List Answered × σ
  | s, [] => ([], s)
  | s, op :: rest =>
    let next := answers step (step s op).2 rest
    (⟨op, (step s op).1⟩ :: next.1, next.2)

theorem answers_agree (env : Environment) (ops : List ViewOp) :
    (answers run env ops).1 = (answers onVisible env.visible ops).1 ∧
      (answers run env ops).2.visible = (answers onVisible env.visible ops).2 ∧
      (answers run env ops).2.hidden = env.hidden := by
  induction ops generalizing env with
  | nil => exact ⟨rfl, rfl, rfl⟩
  | cons op ops ih =>
    obtain ⟨hreply, hv, hh⟩ := agrees env op
    obtain ⟨hanswers, hv', hh'⟩ := ih (op.run env).2
    simp only [answers]
    rw [← hreply, ← hv]
    exact ⟨by rw [hanswers], hv', hh'.trans hh⟩

end ViewOp

/-- A script learns nothing but what the visible entries tell, whatever it asks and however it goes on
from the answers. -/
theorem Script.run_of_visible {α : Type} (script : Script α) (hasHandle : Bool)
    (env env' : Environment) (h : env.visible = env'.visible) :
    (script.run env hasHandle).1 = (script.run env' hasHandle).1 ∧
      (script.run env hasHandle).2.visible = (script.run env' hasHandle).2.visible := by
  induction script generalizing env env' with
  | done result => exact ⟨rfl, h⟩
  | ask op next ih =>
    obtain ⟨hreply, hv, -⟩ := op.agrees env
    obtain ⟨hreply', hv', -⟩ := op.agrees env'
    cases hasHandle with
    | false => exact ⟨rfl, h⟩
    | true =>
      have hsame : (op.run env).1 = (op.run env').1 := by rw [hreply, hreply', h]
      have hnext := ih (op.run env).1 (op.run env).2 (op.run env').2 (by rw [hv, hv', h])
      have hrun (env : Environment) : (ask op next).run env true =
          (next (op.run env).1).run (op.run env).2 true := rfl
      rw [hrun, hrun, ← hsame]
      exact hnext

theorem Script.run_hidden {α : Type} (script : Script α) (hasHandle : Bool) (env : Environment) :
    (script.run env hasHandle).2.hidden = env.hidden := by
  induction script generalizing env with
  | done result => rfl
  | ask op next ih =>
    cases hasHandle with
    | false => rfl
    | true => exact (ih _ _).trans (op.agrees env).2.2

namespace View

/-- The view is a map of the visible entries, for one operation, for a row of them and for a script.
An operation on a hidden key changes nothing at all, and of two environments with the same visible
entries nobody who has only the view can tell which one it is. -/
theorem refines_map (env : Environment) :
    (∀ op : ViewOp, (op.run env).1 = (op.onVisible env.visible).1 ∧
      (op.run env).2.visible = (op.onVisible env.visible).2 ∧
      (op.run env).2.hidden = env.hidden) ∧
    (∀ (op : ViewOp) (reply : op.Reply), op.refusal? = some reply → op.run env = (reply, env)) ∧
    (∀ added : List Entry, ViewOp.run env (.update added) =
      ViewOp.run env (.update (added.filter fun e => !isHidden e.1))) ∧
    (∀ ops : List ViewOp,
      (ViewOp.answers ViewOp.run env ops).1 =
        (ViewOp.answers ViewOp.onVisible env.visible ops).1 ∧
      (ViewOp.answers ViewOp.run env ops).2.visible =
        (ViewOp.answers ViewOp.onVisible env.visible ops).2 ∧
      (ViewOp.answers ViewOp.run env ops).2.hidden = env.hidden) ∧
    (∀ env' : Environment, env.visible = env'.visible →
      (∀ ops : List ViewOp, (ViewOp.answers ViewOp.run env ops).1 =
        (ViewOp.answers ViewOp.run env' ops).1) ∧
      ∀ (α : Type) (script : Script α) (hasHandle : Bool),
        (script.run env hasHandle).1 = (script.run env' hasHandle).1) := by
  refine ⟨ViewOp.agrees env, fun op reply h => ViewOp.run_of_refusal env h,
    ViewOp.run_update env, ViewOp.answers_agree env, ?_⟩
  intro env' h
  constructor
  · intro ops
    rw [(ViewOp.answers_agree env ops).1, (ViewOp.answers_agree env' ops).1, h]
  · intro α script hasHandle
    exact (script.run_of_visible hasHandle env env' h).1

/-- Two environments that differ in a hidden entry only. -/
theorem refines_map_secret :
    (Environment.ofList [("a", .int 1), ("__key__", .str "secret")]).visible =
        (Environment.ofList [("a", .int 1)]).visible ∧
      ∀ ops : List ViewOp,
        (ViewOp.answers ViewOp.run
          (Environment.ofList [("a", .int 1), ("__key__", .str "secret")]) ops).1 =
        (ViewOp.answers ViewOp.run (Environment.ofList [("a", .int 1)]) ops).1 := by
  have h : (Environment.ofList [("a", .int 1), ("__key__", .str "secret")]).visible =
      (Environment.ofList [("a", .int 1)]).visible := by
    rw [Environment.visible_eq, Environment.visible_eq, Environment.ofList, Environment.ofList,
      Environment.toList_insertAll, Environment.toList_insertAll]
    rfl
  exact ⟨h, ((refines_map _).2.2.2.2 _ h).1⟩

end View
end ConfigSandbox
