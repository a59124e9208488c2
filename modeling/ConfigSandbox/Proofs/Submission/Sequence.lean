import ConfigSandbox.Proofs.Environment.Row
import ConfigSandbox.Proofs.Submission.Passing
import ConfigSandbox.Proofs.Submission.Sentinels
import ConfigSandbox.Proofs.Submission.Twins

/-!
# One submission or two

A submission may be cut anywhere and run in two parts. Between the parts the sentinels are unbound and
bound again, so that from then on they stand elsewhere in the row. No statement and no function can
tell, and at the end they are gone from both rows. The calls of functions are not compared: each notes
the environment before it, and there the sentinels do stand elsewhere.
-/
namespace ConfigSandbox

/-- The functions of the host answer by the call and by what they ask, whatever was called before. -/
def Host.IsPure (host : Host) : Prop := ∀ n n' f call, host n f call = host n' f call

theorem isNoSentinel_of_visible (key : String) (hk : isHidden key = false) : isNoSentinel key := by
  have hne {name : String} (hn : isHidden name = true) : key ≠ name := by
    rintro rfl
    rw [hn] at hk
    cases hk
  simp [isNoSentinel, hne isHidden_builtinsKey, hne isHidden_handleKey]

namespace Eval

variable {st : Setting} {loc : Location}

/-- Both machines hold the sentinels, and their rows differ in nothing but the place of these. -/
structure Displaced (m m' : Machine) : Prop where
  row : OrderedMap.only isNoSentinel m.environment.toList =
    OrderedMap.only isNoSentinel m'.environment.toList
  first : m.environment.HoldsSentinels
  second : m'.environment.HoldsSentinels

namespace Displaced

variable {m m' : Machine}

theorem get?_eq (h : Displaced m m') (name : String) :
    m.environment.get? name = m'.environment.get? name := by
  by_cases hb : name = builtinsKey
  · rw [hb, h.first.builtins, h.second.builtins]
  by_cases hh : name = handleKey
  · rw [hh, h.first.handle, h.second.handle]
  have hn : isNoSentinel name := by simp [isNoSentinel, hb, hh]
  have hrow (env : Environment) :
      env.get? name = OrderedMap.get? (OrderedMap.only isNoSentinel env.toList) name := by
    rw [Environment.get?_eq, OrderedMap.get?_only, if_pos hn]
  rw [hrow, hrow, h.row]

theorem contains_eq (h : Displaced m m') (name : String) :
    m.environment.contains name = m'.environment.contains name := by
  rw [Environment.contains_eq, Environment.contains_eq, ← Environment.get?_eq, h.get?_eq name,
    Environment.get?_eq]

/-- A name that is free in one row is free in the other, and no sentinel. -/
theorem insert (h : Displaced m m') {name : String} (hn : m.environment.contains name = false)
    (value : Value) : Displaced { m with environment := (m.environment.insert name value).2 }
      { m' with environment := (m'.environment.insert name value).2 } := by
  refine ⟨?_, h.first.insert hn value, h.second.insert ((h.contains_eq name).symm.trans hn) value⟩
  rw [Environment.toList_insert, Environment.toList_insert]
  by_cases hk : isNoSentinel name
  · rw [OrderedMap.only_insert_of_pos hk, OrderedMap.only_insert_of_pos hk, h.row]
  · rw [OrderedMap.only_insert_of_neg hk, OrderedMap.only_insert_of_neg hk, h.row]

theorem invoke (hst : st.host.IsPure) (plugin : String) (f : Function) (args : List Value)
    (passed : Passed) : Twins Displaced (invoke st loc plugin f args passed) := by
  intro m m' h
  rw [exec_invoke, exec_invoke]
  dsimp only
  -- the second run may have begun after the first half, and has counted fewer calls then
  rw [hst m.calls.length m'.calls.length]
  obtain ⟨hresult, hrow⟩ := Script.run_only isNoSentinel_of_visible
    (st.host m'.calls.length f ⟨args, passed.kwargs, passed.hasHandle⟩) passed.hasHandle h.row
  refine ⟨by rw [hresult], hrow, ?_, ?_⟩
  · exact h.first.of_hidden (Script.run_hidden _ _ _)
  · exact h.second.of_hidden (Script.run_hidden _ _ _)

theorem coupling (hst : st.host.IsPure) : Coupling st Displaced where
  handle := fun _ _ h => h.get?_eq handleKey
  invoke := fun _ plugin _ f args passed _ _ => invoke hst plugin f args passed

theorem statements (hst : st.host.IsPure) (body : List Statement) :
    Twins Displaced (statements st body) := by
  refine statements_closed Twins.closed fun s _ => (coupling hst).statement ?_ ?_
  · exact fun name _ _ m m' h => h.get?_eq name
  · intro _ name _ _ v
    exact bindNew_twins (fun m m' h => h.contains_eq name) fun m m' h hn => h.insert hn v

end Displaced

theorem statements_append (first second : List Statement) : statements st (first ++ second) =
    (statements st first >>= fun _ => statements st second) := by
  induction first with
  | nil => rw [List.nil_append, statements, pure_bind]
  | cons s rest ih =>
    rw [List.cons_append, statements, statements, ih, bind_assoc]

end Eval

namespace Module

variable {st : Setting}

/-- Two submissions, one after the other. If the first fails, the second does not run. -/
def runBoth (st : Setting) (env : Environment) (first second : Module) :
    Except ExecutionError Unit × Environment :=
  match (first.run st env).result with
  | .ok () =>
    let outcome := second.run st (first.run st env).environment
    (outcome.result, outcome.environment)
  | .error e => (.error e, (first.run st env).environment)

/-- The sentinels that are bound for a second part stand elsewhere, and that is all. -/
theorem displaced_again {m : Machine} (h : m.environment.HoldsSentinels) :
    Eval.Displaced m ⟨m.environment.withoutSentinels.withSentinels, []⟩ := by
  refine ⟨?_, h, ?_⟩
  · rw [Environment.toList_withSentinels, OrderedMap.only_insert_of_neg (by simp [isNoSentinel]),
      OrderedMap.only_insert_of_neg (by simp [isNoSentinel]),
      Environment.toList_withoutSentinels_eq_only, OrderedMap.only_only fun _ => id]
  · dsimp only
    exact Environment.withSentinels_holds _

/-- Cutting a submission in two changes neither its result nor any entry it leaves, hidden ones
included, nor their order. -/
theorem run_append (hst : st.host.IsPure) (env : Environment) (first second : Module) :
    let whole : Module := ⟨first.body ++ second.body⟩
    (whole.run st env).result = (runBoth st env first second).1 ∧
      (whole.run st env).environment.toList = (runBoth st env first second).2.toList := by
  intro whole
  let start : Machine := ⟨env.withSentinels, []⟩
  have hbody : Eval.statements st whole.body =
      (Eval.statements st first.body >>= fun _ => Eval.statements st second.body) :=
    Eval.statements_append first.body second.body
  rcases hr : Eval.exec (Eval.statements st first.body) start with ⟨e | ⟨⟩, m⟩
  · have hwhole : Eval.exec (Eval.statements st whole.body) start = (.error e, m) := by
      rw [hbody, Eval.exec_bind_error hr]
    obtain ⟨hresult, henv⟩ := run_of_exec hwhole
    obtain ⟨hresult', henv'⟩ := run_of_exec hr
    rw [runBoth, hresult', hresult, henv, henv']
    exact ⟨rfl, rfl⟩
  · have hheld : m.environment.HoldsSentinels := by
      have hguarded := (machineAfter_guarded st env first.body).1
      rwa [machineAfter, hr] at hguarded
    rcases hr' : Eval.exec (Eval.statements st second.body) m with ⟨result, last⟩
    rcases hr'' : Eval.exec (Eval.statements st second.body)
      ⟨m.environment.withoutSentinels.withSentinels, []⟩ with ⟨result', last'⟩
    have hwhole : Eval.exec (Eval.statements st whole.body) start = (result, last) := by
      rw [hbody, Eval.exec_bind_ok hr, hr']
    obtain ⟨hsame, hend⟩ := Eval.Displaced.statements hst second.body _ _ (displaced_again hheld)
    rw [hr', hr''] at hsame hend
    obtain ⟨hresult, henv⟩ := run_of_exec hwhole
    obtain ⟨hok, hmid⟩ := run_of_exec hr
    obtain ⟨hresult', henv'⟩ := run_of_exec (m := second) hr''
    rw [runBoth, hok, hmid, hresult, henv]
    refine ⟨hsame.trans hresult'.symm, ?_⟩
    calc last.environment.withoutSentinels.toList
        = last'.environment.withoutSentinels.toList := by
          rw [Environment.toList_withoutSentinels_eq_only, hend.row,
            Environment.toList_withoutSentinels_eq_only]
      _ = (second.run st m.environment.withoutSentinels).environment.toList := by rw [henv']

/-- The last entry is taken across the sentinels, and across a hidden entry of the host. -/
theorem run_append_take :
    let a : Statement := ⟨.synthetic, .assign [.name .synthetic "a"] (.constant .synthetic (.int 1))⟩
    let take : Statement := ⟨.synthetic, .expr (.call .synthetic (.name .synthetic "take") [] [])⟩
    let env := Environment.ofList [("b", .int 2), (handleKey, .none), ("__key__", .str "secret")]
    let st : Setting := ⟨Registry.empty.insert "take" (.function ⟨"take", true, 0⟩), Catalog.host, 9⟩
    st.host.IsPure ∧
      ((⟨[a, take, take]⟩ : Module).run st env).environment.toList = [("__key__", .str "secret")] ∧
      (runBoth st env ⟨[a]⟩ ⟨[take, take]⟩).2.toList = [("__key__", .str "secret")] := by
  intro a take env st
  have henv : env.toList = [("b", .int 2), (handleKey, .none), ("__key__", .str "secret")] :=
    Environment.toList_insertAll _ _
  have htake {m : Machine} {e : Entry} (hm : m.environment.HoldsSentinels)
      (hlast : m.environment.visible.getLast? = some e) :
      ∃ m', Eval.exec (Eval.statement st take) m = (.ok (), m') ∧ m'.environment.HoldsSentinels ∧
        m'.environment.toList = OrderedMap.erase m.environment.toList e.1 := by
    obtain ⟨hreply, -, hhidden⟩ := ViewOp.agrees m.environment .popLast
    have hanswer : (ViewOp.run m.environment .popLast).1 = Except.ok e := by
      rw [hreply]
      change m.environment.visible.getLast?.elim _ _ = _
      rw [hlast]
      rfl
    have hcall : Eval.exec (Eval.expr st 0 (.call .synthetic (.name .synthetic "take") [] [])) m =
        (.ok (.tuple [.str e.1, e.2]), ⟨(View.popLast m.environment).2, _ :: m.calls⟩) :=
      Eval.exec_call_ask .popLast (by decide) rfl rfl rfl rfl hm rfl (by rw [hanswer]; rfl)
    refine ⟨_, Eval.exec_bind_ok hcall, hm.of_hidden hhidden, ?_⟩
    rw [View.toList_popLast, hlast]
    rfl
  have hstart : env.withSentinels.toList = [("b", .int 2), (handleKey, .environment), ("__key__", .str "secret"),
      (builtinsKey, .dict [])] := by
    rw [Environment.toList_withSentinels, henv]
    rfl
  have hfree : env.withSentinels.contains "a" = false := by
    rw [Environment.contains_eq, hstart]
    rfl
  have hassign : Eval.exec (Eval.statement st a) ⟨env.withSentinels, []⟩ =
      (.ok (), ⟨(env.withSentinels.insert "a" (.int 1)).2, []⟩) := Eval.exec_bindNew_free .synthetic (.int 1) hfree
  have hbound : (env.withSentinels.insert "a" (.int 1)).2.toList = [("b", .int 2), (handleKey, .environment),
      ("__key__", .str "secret"), (builtinsKey, .dict []), ("a", .int 1)] := by
    rw [Environment.toList_insert, hstart]
    rfl
  have hheld : (env.withSentinels.insert "a" (.int 1)).2.HoldsSentinels := env.withSentinels_holds.insert hfree _
  obtain ⟨m, hfirst, hheld', hrow⟩ :=
    htake (m := ⟨_, []⟩) (e := ("a", .int 1)) hheld (by rw [Environment.visible_eq, hbound]; rfl)
  rw [hbound] at hrow
  obtain ⟨last, hsecond, -, hend⟩ := htake (e := ("b", .int 2)) hheld' (by rw [Environment.visible_eq, hrow]; rfl)
  rw [hrow] at hend
  have hrun : Eval.exec (Eval.statements st [a, take, take]) ⟨env.withSentinels, []⟩ = (.ok (), last) :=
    (Eval.exec_bind_ok hassign).trans ((Eval.exec_bind_ok hfirst).trans (Eval.exec_bind_ok hsecond))
  have hwhole : ((⟨[a, take, take]⟩ : Module).run st env).environment.toList = [("__key__", .str "secret")] := by
    rw [(run_of_exec hrun).2, Environment.toList_withoutSentinels_eq_only, hend]
    rfl
  have hpure : st.host.IsPure := fun _ _ _ _ => rfl
  exact ⟨hpure, hwhole, (run_append hpure env ⟨[a]⟩ ⟨[take, take]⟩).2.symm.trans hwhole⟩

end Module
end ConfigSandbox
