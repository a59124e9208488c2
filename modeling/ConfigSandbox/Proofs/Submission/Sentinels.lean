import ConfigSandbox.Plugin.Catalog
import ConfigSandbox.Proofs.Environment.Refinement
import ConfigSandbox.Proofs.Submission.Effects
import ConfigSandbox.Proofs.Submission.Validated

/-!
# The life of the two sentinels

While a submission runs, both sentinels are bound to what they were bound to at its start. Functions
cannot reach them because they are hidden, and assignments cannot because they are bound. At the end
they are gone, whatever the outcome, and a validated submission has touched no other hidden entry.
-/
namespace ConfigSandbox

theorem isHidden_builtinsKey : isHidden builtinsKey = true := rfl

theorem isHidden_handleKey : isHidden handleKey = true := rfl

theorem builtinsKey_ne_handleKey : builtinsKey ≠ handleKey := by decide

/-- Whether a name is none of the two that are bound while a submission runs. -/
def isNoSentinel (key : String) : Bool := key ≠ builtinsKey && key ≠ handleKey

namespace Environment

/-- Both sentinels are bound to their values. -/
structure HoldsSentinels (env : Environment) : Prop where
  builtins : env.get? builtinsKey = some (.dict [])
  handle : env.get? handleKey = some .environment

/-- Whether the sentinels are held is told by the hidden entries. -/
theorem HoldsSentinels.of_hidden {env env' : Environment} (h : env.HoldsSentinels)
    (hh : env'.hidden = env.hidden) : env'.HoldsSentinels := by
  have hget (key : String) (hk : isHidden key) : env'.get? key = env.get? key := by
    rw [get?_eq, get?_eq, ← get?_hidden hk, hh, get?_hidden hk]
  exact ⟨(hget builtinsKey rfl).trans h.builtins, (hget handleKey rfl).trans h.handle⟩

theorem HoldsSentinels.insert {env : Environment} (h : env.HoldsSentinels) {key : String}
    (hk : env.contains key = false) (value : Value) :
    (env.insert key value).2.HoldsSentinels := by
  have hne {name : String} {held : Value} (hn : env.get? name = some held) : key ≠ name := by
    rintro rfl
    rw [contains_eq, ← get?_eq, hn] at hk
    cases hk
  constructor
  · rw [get?_eq, toList_insert, OrderedMap.get?_insert, if_neg (hne h.builtins), ← get?_eq]
    exact h.builtins
  · rw [get?_eq, toList_insert, OrderedMap.get?_insert, if_neg (hne h.handle), ← get?_eq]
    exact h.handle

theorem toList_withSentinels (env : Environment) : env.withSentinels.toList =
    OrderedMap.insert handleKey .environment
      (OrderedMap.insert builtinsKey (.dict []) env.toList) := by
  rw [withSentinels, toList_insertAll]
  rfl

theorem withSentinels_holds (env : Environment) : env.withSentinels.HoldsSentinels := by
  constructor
  · rw [get?_eq, toList_withSentinels, OrderedMap.get?_insert,
      if_neg builtinsKey_ne_handleKey.symm, OrderedMap.get?_insert, if_pos rfl]
  · rw [get?_eq, toList_withSentinels, OrderedMap.get?_insert, if_pos rfl]

theorem toList_withoutSentinels (env : Environment) : env.withoutSentinels.toList =
    OrderedMap.erase (OrderedMap.erase env.toList builtinsKey) handleKey := by
  rw [withoutSentinels, toList_remove, toList_remove]

theorem toList_withoutSentinels_eq_only (env : Environment) :
    env.withoutSentinels.toList = OrderedMap.only isNoSentinel env.toList := by
  rw [toList_withoutSentinels, OrderedMap.erase, OrderedMap.erase, List.filter_filter]
  apply List.filter_congr
  intro e _
  simp [isNoSentinel, Bool.and_comm]

theorem withoutSentinels_lacks (env : Environment) :
    env.withoutSentinels.contains builtinsKey = false ∧
      env.withoutSentinels.contains handleKey = false := by
  constructor
  · rw [contains_eq, toList_withoutSentinels, OrderedMap.get?_erase,
      if_neg builtinsKey_ne_handleKey.symm, OrderedMap.get?_erase, if_pos rfl]
    rfl
  · rw [contains_eq, toList_withoutSentinels, OrderedMap.get?_erase, if_pos rfl]
    rfl

/-- Binding and unbinding the sentinels leaves the other hidden entries, in their order. -/
theorem hidden_withoutSentinels {env final : Environment}
    (h : final.hidden = env.withSentinels.hidden) :
    final.withoutSentinels.hidden =
      env.hidden.filter fun e => e.1 ≠ builtinsKey ∧ e.1 ≠ handleKey := by
  have hstart : env.withSentinels.hidden = OrderedMap.insert handleKey .environment
      (OrderedMap.insert builtinsKey (.dict []) env.hidden) := by
    rw [hidden_eq, toList_withSentinels, OrderedMap.only_insert_of_pos isHidden_handleKey,
      OrderedMap.only_insert_of_pos isHidden_builtinsKey, hidden_eq]
  have hend : final.withoutSentinels.hidden =
      OrderedMap.erase (OrderedMap.erase final.hidden builtinsKey) handleKey := by
    rw [hidden_eq, toList_withoutSentinels, OrderedMap.only_erase, OrderedMap.only_erase, hidden_eq]
  -- the outer insertion stands in the way of the first erasure and has to be passed first
  rw [hend, h, hstart, OrderedMap.erase_insert_of_ne builtinsKey_ne_handleKey.symm,
    OrderedMap.erase_insert_self, OrderedMap.erase_insert_self, OrderedMap.erase,
    OrderedMap.erase, List.filter_filter]
  apply List.filter_congr
  intro e _
  simp [Bool.and_comm]

end Environment

theorem ViewOp.answers_hold {env : Environment} (h : env.HoldsSentinels) (ops : List ViewOp) :
    (ViewOp.answers ViewOp.run env ops).2.HoldsSentinels :=
  h.of_hidden (ViewOp.answers_agree env ops).2.2

namespace Eval

variable {st : Setting} {loc : Location}

/-! ### While statements run -/

/-- From a machine that holds the sentinels, only machines and calls that hold them are reached. -/
def Guarded (m m' : Machine) : Prop :=
  m.environment.HoldsSentinels → m'.environment.HoldsSentinels ∧
    ∀ i ∈ m'.calls, i ∈ m.calls ∨ i.environment.HoldsSentinels

theorem Guarded.refl (m : Machine) : Guarded m m := fun h => ⟨h, fun _ hi => Or.inl hi⟩

theorem Guarded.trans (m m' m'' : Machine) (h : Guarded m m') (h' : Guarded m' m'') :
    Guarded m m'' := by
  intro hm
  obtain ⟨hm', hcalls⟩ := h hm
  obtain ⟨hm'', hcalls'⟩ := h' hm'
  refine ⟨hm'', fun i hi => ?_⟩
  rcases hcalls' i hi with hi | hi
  · exact hcalls i hi
  · exact Or.inr hi

theorem respects_guarded (st : Setting) : Respects st Guarded := by
  refine ⟨Guarded.refl, Guarded.trans, ?_⟩
  intro loc plugin p f args passed _ _ m hm
  rw [exec_invoke]
  refine ⟨hm.of_hidden (Script.run_hidden _ _ _), fun i hi => ?_⟩
  rcases List.mem_cons.mp hi with rfl | hi
  · exact Or.inr hm
  · exact Or.inl hi

theorem bindNew_guarded (name : String) (value : Value) :
    Moves Guarded (bindNew loc name value) := by
  intro m hm
  rw [exec_bindNew]
  split
  · exact Guarded.refl m hm
  · rename_i hc
    exact ⟨hm.insert (by simpa using hc) value, fun i hi => Or.inl hi⟩

theorem statement_guarded (st : Setting) (s : Statement) : Moves Guarded (statement st s) :=
  (respects_guarded st).statement fun _ name _ _ v => bindNew_guarded name v

theorem statements_guarded (st : Setting) (body : List Statement) :
    Moves Guarded (statements st body) :=
  statements_closed (respects_guarded st).closed fun s _ => statement_guarded st s

/-! ### The other hidden entries -/

/-- No hidden entry has come, gone or changed. -/
def KeepsHidden (m m' : Machine) : Prop := m'.environment.hidden = m.environment.hidden

theorem respects_keepsHidden (st : Setting) : Respects st KeepsHidden := by
  refine ⟨fun m => rfl, fun m m' m'' h h' => Eq.trans h' h, ?_⟩
  intro loc plugin p f args passed _ _ m
  rw [exec_invoke]
  exact Script.run_hidden _ _ _

theorem bindNew_keepsHidden {name : String} (hn : isHidden name = false) (value : Value) :
    Moves KeepsHidden (bindNew loc name value) := by
  intro m
  rw [exec_bindNew]
  split
  · rfl
  · exact Environment.hidden_insert hn

theorem statement_keepsHidden {reg : Registry} {s : Statement} (hs : s.validate reg = .ok ()) :
    Moves KeepsHidden (statement st s) := by
  refine (respects_keepsHidden st).statement fun tloc name value hkind v => ?_
  obtain ⟨-, hn, -⟩ := (Statement.validate_assign_iff hkind).mp hs
  exact bindNew_keepsHidden hn v

theorem statements_keepsHidden {reg : Registry} {body : List Statement}
    (hb : validateStatements reg body = .ok ()) : Moves KeepsHidden (statements st body) :=
  statements_closed (respects_keepsHidden st).closed fun s hs =>
    statement_keepsHidden (validateStatements_ok_iff.mp hb s hs)

end Eval

namespace Module

/-- The machine of a run after the given statements, or where one of them failed. -/
def machineAfter (st : Setting) (env : Environment) (done : List Statement) : Machine :=
  (Eval.exec (Eval.statements st done) ⟨env.withSentinels, []⟩).2

theorem machineAfter_guarded (st : Setting) (env : Environment) (done : List Statement) :
    (machineAfter st env done).environment.HoldsSentinels ∧
      ∀ i ∈ (machineAfter st env done).calls, i.environment.HoldsSentinels := by
  let start : Machine := ⟨env.withSentinels, []⟩
  obtain ⟨hlast, hcalls⟩ := Eval.statements_guarded st done start env.withSentinels_holds
  refine ⟨hlast, fun i hi => ?_⟩
  rcases hcalls i hi with hi | hi
  · cases hi
  · exact hi

theorem run_environment (st : Setting) (env : Environment) (m : Module) :
    (m.run st env).environment = (machineAfter st env m.body).environment.withoutSentinels := rfl

theorem run_calls (st : Setting) (env : Environment) (m : Module) :
    (m.run st env).calls = (machineAfter st env m.body).calls := rfl

/-- A run is what its statements do between the binding and the unbinding of the sentinels. -/
theorem run_of_exec {st : Setting} {env : Environment} {m : Module} {result : Except ExecutionError Unit}
    {last : Machine}
    (h : Eval.exec (Eval.statements st m.body) ⟨env.withSentinels, []⟩ = (result, last)) :
    (m.run st env).result = result ∧
      (m.run st env).environment = last.environment.withoutSentinels := by
  change (Eval.exec (Eval.statements st m.body) ⟨env.withSentinels, []⟩).1 = _ ∧
    (Eval.exec (Eval.statements st m.body) ⟨env.withSentinels, []⟩).2.environment.withoutSentinels = _
  rw [h]
  exact ⟨rfl, rfl⟩

/-- Whatever the environment held before: the sentinels are bound after each statement, before each
call and after whatever its function has asked by then. They are unbound at the end of each run, which is
the machine after all of its statements but for that. Only of validated submissions is it claimed that all
else that is hidden stays. -/
theorem run_guards_sentinels (st : Setting) (env : Environment) (m : Module) :
    (m.run st env).environment = (machineAfter st env m.body).environment.withoutSentinels ∧
    (m.run st env).calls = (machineAfter st env m.body).calls ∧
    (∀ done rest, m.body = done ++ rest →
      (machineAfter st env done).environment.HoldsSentinels) ∧
    (∀ i ∈ (m.run st env).calls, ∀ ops : List ViewOp,
      (ViewOp.answers ViewOp.run i.environment ops).2.HoldsSentinels) ∧
    (m.run st env).environment.contains builtinsKey = false ∧
    (m.run st env).environment.contains handleKey = false ∧
    (∀ reg, m.validate reg = .ok () → (m.run st env).environment.hidden =
      env.hidden.filter fun e => e.1 ≠ builtinsKey ∧ e.1 ≠ handleKey) := by
  obtain ⟨hbuiltins, hhandle⟩ := (machineAfter st env m.body).environment.withoutSentinels_lacks
  refine ⟨run_environment st env m, run_calls st env m, fun done rest _ => (machineAfter_guarded st env done).1, ?_,
    hbuiltins, hhandle, ?_⟩
  · intro i hi ops
    rw [run_calls] at hi
    exact ViewOp.answers_hold ((machineAfter_guarded st env m.body).2 i hi) ops
  · intro reg hv
    rw [run_environment]
    apply Environment.hidden_withoutSentinels
    exact Eval.statements_keepsHidden hv ⟨env.withSentinels, []⟩

/-- A function that deletes all it can leaves the entry that is none of its business. -/
theorem run_guards_sentinels_wipe :
    let wipe : Statement := ⟨.synthetic, .expr (.call .synthetic (.name .synthetic "wipe") [] [])⟩
    let x : Statement := ⟨.synthetic, .assign [.name .synthetic "x"] (.constant .synthetic (.int 1))⟩
    let env := Environment.ofList [("__key__", .str "secret"), ("a", .int 1), (handleKey, .int 2)]
    let st : Setting := ⟨Registry.empty.insert "wipe" (.function ⟨"wipe", true, 0⟩), Catalog.host, 9⟩
    [wipe, x] = [wipe] ++ [x] ∧ (⟨[wipe, x]⟩ : Module).validate st.registry = .ok () ∧
      (machineAfter st env [wipe]).environment.HoldsSentinels ∧
      ((⟨[wipe, x]⟩ : Module).run st env).environment.hidden = [("__key__", .str "secret")] := by
  intro wipe x env st
  have hv : (⟨[wipe, x]⟩ : Module).validate st.registry = .ok () := rfl
  have henv : env.toList = [("__key__", .str "secret"), ("a", .int 1), (handleKey, .int 2)] :=
    Environment.toList_insertAll _ _
  obtain ⟨-, -, hstep, -, -, -, hhidden⟩ := run_guards_sentinels st env ⟨[wipe, x]⟩
  refine ⟨rfl, hv, hstep [wipe] [x] rfl, (hhidden st.registry hv).trans ?_⟩
  rw [Environment.hidden_eq, henv]
  rfl

end Module
end ConfigSandbox
