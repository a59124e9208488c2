import ConfigSandbox.Proofs.Environment.Refinement

/-!
# Where the hidden entries stand

The map of the visible entries says nothing about the row that they share with the hidden ones. Here
each operation of the view is followed on the whole row. What it does there is told by the visible
entries, and it is the same whichever hidden entries stand in the row and wherever they stand.
-/
namespace ConfigSandbox

namespace OrderedMap

variable {p q : String → Bool} {entries : List Entry}

theorem only_only (hp : ∀ key, q key → p key) : only q (only p entries) = only q entries := by
  rw [only, only, only, List.filter_filter]
  apply List.filter_congr
  intro e _
  by_cases hq : q e.1
  · simp [hq, hp e.1 hq]
  · simp [hq]

theorem only_foldl_erase (names : List String) :
    only p (names.foldl erase entries) = names.foldl erase (only p entries) := by
  induction names generalizing entries with
  | nil => rfl
  | cons name names ih => rw [List.foldl_cons, List.foldl_cons, ih, only_erase]

theorem only_insertAll {added : List Entry} (ha : ∀ e ∈ added, p e.1) :
    only p (insertAll entries added) = insertAll (only p entries) added := by
  induction added generalizing entries with
  | nil => rfl
  | cons e added ih =>
    have hrest : ∀ e' ∈ added, p e'.1 := fun e' he' => ha e' (List.mem_cons_of_mem _ he')
    have hstep : only p (insert e.1 e.2 entries) = insert e.1 e.2 (only p entries) :=
      only_insert_of_pos (ha e List.mem_cons_self)
    change only p (insertAll (insert e.1 e.2 entries) added) = insertAll (insert e.1 e.2 _) added
    rw [ih hrest, hstep]

end OrderedMap

theorem View.toList_clear (env : Environment) :
    (View.clear env).toList = (OrderedMap.keys env.visible).foldl OrderedMap.erase env.toList := by
  change ((OrderedMap.keys env.visible).foldl (fun env key => (env.remove key).2) env).toList = _
  generalize OrderedMap.keys env.visible = names
  induction names generalizing env with
  | nil => rfl
  | cons name names ih => rw [List.foldl_cons, List.foldl_cons, ih, Environment.toList_remove]

/-- Taking the last visible entry is deleting it. -/
theorem View.toList_popLast (env : Environment) : (View.popLast env).2.toList =
    env.visible.getLast?.elim env.toList fun e => OrderedMap.erase env.toList e.1 := by
  have hreply : (View.popLast env).1 = env.visible.getLast?.elim (.error .empty) .ok :=
    (ViewOp.agrees env .popLast).1
  obtain ⟨before, e, after, hsplit, -, -, hok, hafter⟩ | ⟨-, herror, hsame⟩ := View.popLast_eq env
  · have hlast : env.visible.getLast? = some e := by
      rw [hok] at hreply
      cases hl : env.visible.getLast? with
      | none =>
        rw [hl] at hreply
        cases hreply
      | some e' =>
        rw [hl] at hreply
        cases hreply
        rfl
    have hnodup := env.keys_nodup
    rw [hsplit, OrderedMap.keys, List.map_append, List.map_cons, List.nodup_append,
      List.nodup_cons] at hnodup
    have hbefore : e.1 ∉ OrderedMap.keys before :=
      fun hm => hnodup.2.2 e.1 hm e.1 List.mem_cons_self rfl
    rw [hlast, hafter, hsplit]
    exact (OrderedMap.erase_at hbefore hnodup.2.1.1).symm
  · have hlast : env.visible.getLast? = none := by
      rw [herror] at hreply
      cases hl : env.visible.getLast? with
      | none => rfl
      | some e' =>
        rw [hl] at hreply
        cases hreply
    rw [hlast, hsame]
    rfl

namespace ViewOp

open Environment

/-- What an operation makes of the whole row, when these are the visible entries in it. -/
def onRow (visible row : List Entry) : ViewOp → List Entry
  | clear => (OrderedMap.keys visible).foldl OrderedMap.erase row
  | insert key value => OrderedMap.insert key value row
  | remove key | pop key | removeOr key _ => OrderedMap.erase row key
  | popLast => visible.getLast?.elim row fun e => OrderedMap.erase row e.1
  | setDefault key default =>
    if (OrderedMap.get? visible key).isSome then row else OrderedMap.insert key default row
  | update added => OrderedMap.insertAll row (added.filter fun e => !isHidden e.1)
  | _ => row

/-- An operation that is not refused leaves the row that these edits leave. -/
theorem toList_run (env : Environment) {op : ViewOp} (h : op.refusal? = none) :
    (op.run env).2.toList = op.onRow env.visible env.toList := by
  cases op with
  | size | isEmpty | keys | items | display | contains | get | getOr => rfl
  | clear => exact View.toList_clear env
  | popLast => exact View.toList_popLast env
  | update added => exact toList_insertAll env _
  | insert key value =>
    have hk : isHidden key = false := by simpa [refusal?] using h
    rw [run, View.insert_eq hk, onRow, toList_insert]
  | remove key | pop key =>
    have hk : isHidden key = false := by simpa [refusal?] using h
    rw [run, View.remove_eq hk, onRow, toList_remove]
  | removeOr key default =>
    have hk : isHidden key = false := by simpa [refusal?] using h
    rw [run, View.removeOr_eq hk, onRow, toList_remove]
  | setDefault key default =>
    have hk : isHidden key = false := by simpa [refusal?] using h
    rw [run, View.setDefault_eq hk, onRow]
    split
    · rfl
    · exact toList_insert env key default

variable {p : String → Bool}

/-- Entries that the view does not show may be left out before an operation or after it. -/
theorem only_onRow (hp : ∀ key, isHidden key = false → p key) (visible row : List Entry)
    {op : ViewOp} (h : op.refusal? = none) :
    OrderedMap.only p (op.onRow visible row) = op.onRow visible (OrderedMap.only p row) := by
  cases op with
  | size | isEmpty | keys | items | display | contains | get | getOr => rfl
  | clear => exact OrderedMap.only_foldl_erase _
  | remove | pop | removeOr => exact OrderedMap.only_erase
  | popLast =>
    simp only [onRow]
    cases visible.getLast? with
    | none => rfl
    | some e => exact OrderedMap.only_erase
  | update added =>
    refine OrderedMap.only_insertAll fun e he => hp e.1 ?_
    simpa using (List.mem_filter.mp he).2
  | insert key value =>
    have hk : isHidden key = false := by simpa [refusal?] using h
    exact OrderedMap.only_insert_of_pos (hp key hk)
  | setDefault key default =>
    have hk : isHidden key = false := by simpa [refusal?] using h
    simp only [onRow]
    split
    · rfl
    · exact OrderedMap.only_insert_of_pos (hp key hk)

theorem visible_eq_of_only (hp : ∀ key, isHidden key = false → p key) {env env' : Environment}
    (h : OrderedMap.only p env.toList = OrderedMap.only p env'.toList) :
    env.visible = env'.visible := by
  have hq : ∀ key, (!isHidden key) = true → p key := fun key hk => hp key (by simpa using hk)
  rw [visible_eq, visible_eq, ← OrderedMap.only_only hq, h, OrderedMap.only_only hq]

/-- Two rows that differ in hidden entries only give one answer, and differ in the same entries
afterwards. -/
theorem run_only (hp : ∀ key, isHidden key = false → p key) (op : ViewOp) {env env' : Environment}
    (h : OrderedMap.only p env.toList = OrderedMap.only p env'.toList) :
    (op.run env).1 = (op.run env').1 ∧
      OrderedMap.only p (op.run env).2.toList = OrderedMap.only p (op.run env').2.toList := by
  have hvisible := visible_eq_of_only hp h
  refine ⟨by rw [(op.agrees env).1, (op.agrees env').1, hvisible], ?_⟩
  cases hr : op.refusal? with
  | some reply =>
    rw [run_of_refusal env hr, run_of_refusal env' hr]
    exact h
  | none =>
    rw [toList_run env hr, toList_run env' hr, hvisible, only_onRow hp _ _ hr, h,
      only_onRow hp _ _ hr]

end ViewOp

/-- A whole script in two rows that differ in hidden entries only. -/
theorem Script.run_only {α : Type} {p : String → Bool} (hp : ∀ key, isHidden key = false → p key)
    (script : Script α) (hasHandle : Bool) {env env' : Environment}
    (h : OrderedMap.only p env.toList = OrderedMap.only p env'.toList) :
    (script.run env hasHandle).1 = (script.run env' hasHandle).1 ∧
      OrderedMap.only p (script.run env hasHandle).2.toList =
        OrderedMap.only p (script.run env' hasHandle).2.toList := by
  induction script generalizing env env' with
  | done result => exact ⟨rfl, h⟩
  | ask op next ih =>
    cases hasHandle with
    | false => exact ⟨rfl, h⟩
    | true =>
      obtain ⟨hreply, hrow⟩ := op.run_only hp h
      have hrun (env : Environment) : (ask op next).run env true =
          (next (op.run env).1).run (op.run env).2 true := rfl
      rw [hrun, hrun, ← hreply]
      exact ih (op.run env).1 hrow

end ConfigSandbox
