import ConfigSandbox.Proofs.Interpreter.Rejection
import ConfigSandbox.Proofs.Submission.Sentinels
import ConfigSandbox.Proofs.Submission.Twins

/-!
# What a submission learns of hidden entries

Two interpreters that differ in hidden entries only. Functions cannot tell them apart, and assignments
bind visible names. Expressions can: a name is looked up among all entries, so a submission that writes
a hidden name reads its entry. The names it reads are the only way, which is what is shown here.
-/
namespace ConfigSandbox

/-- The name is looked up when the submission runs. -/
def Module.Reads (m : Module) (name : String) : Prop := ∃ s ∈ m.body, s.Reads name

namespace Eval

variable {st : Setting} {names : String → Prop}

/-- The visible entries are the same, and so are the entries of certain hidden names. -/
structure SameSight (names : String → Prop) (m m' : Machine) : Prop where
  visible : m.environment.visible = m'.environment.visible
  shared : ∀ name, isHidden name → names name →
    m.environment.get? name = m'.environment.get? name
  calls : m.calls.length = m'.calls.length

namespace SameSight

variable {m m' : Machine} {name : String}

theorem get?_visible (h : SameSight names m m') (hn : isHidden name = false) :
    m.environment.get? name = m'.environment.get? name := by
  rw [Environment.get?_eq, ← Environment.get?_visible hn, h.visible, Environment.get?_visible hn,
    Environment.get?_eq]

theorem get?_eq (h : SameSight names m m') (hn : isHidden name → names name) :
    m.environment.get? name = m'.environment.get? name := by
  by_cases hk : isHidden name
  · exact h.shared name hk (hn hk)
  · exact h.get?_visible (by simpa using hk)

theorem contains_eq (h : SameSight names m m') (hn : isHidden name = false) :
    m.environment.contains name = m'.environment.contains name := by
  rw [Environment.contains_eq, Environment.contains_eq, ← Environment.get?_eq, h.get?_visible hn,
    Environment.get?_eq]

/-- What leaves the hidden entries as they are leaves the shared ones shared. -/
theorem of_hidden (h : SameSight names m m') {env env' : Environment} {calls calls' : List Invocation}
    (hv : env.visible = env'.visible) (hh : env.hidden = m.environment.hidden)
    (hh' : env'.hidden = m'.environment.hidden) (hc : calls.length = calls'.length) :
    SameSight names ⟨env, calls⟩ ⟨env', calls'⟩ := by
  refine ⟨hv, fun name hk hn => ?_, hc⟩
  have hget {before after : Environment} (hsame : after.hidden = before.hidden) :
      after.get? name = before.get? name := by
    rw [Environment.get?_eq, ← Environment.get?_hidden hk, hsame, Environment.get?_hidden hk,
      Environment.get?_eq]
  exact (hget hh).trans ((h.shared name hk hn).trans (hget hh').symm)

theorem coupling (hhandle : names handleKey) : Coupling st (SameSight names) where
  handle := fun _ _ h => h.shared handleKey isHidden_handleKey hhandle
  invoke := by
    intro loc plugin _ f args passed _ _ m m' h
    rw [exec_invoke, exec_invoke]
    dsimp only
    rw [h.calls]
    obtain ⟨hresult, hvisible⟩ := Script.run_of_visible
      (st.host m'.calls.length f ⟨args, passed.kwargs, passed.hasHandle⟩) passed.hasHandle
      m.environment m'.environment h.visible
    refine ⟨by rw [hresult], h.of_hidden hvisible ?_ ?_ ?_⟩
    · exact Script.run_hidden _ _ _
    · exact Script.run_hidden _ _ _
    · simp only [List.length_cons, h.calls]

/-- An accepted submission, whose names stand for the same on both sides. -/
theorem statements {reg : Registry} {body : List Statement}
    (hb : validateStatements reg body = .ok ()) (hhandle : names handleKey)
    (hnames : ∀ s ∈ body, ∀ name, s.Reads name → st.registry.get? name = none →
      isHidden name → names name) : Twins (SameSight names) (statements st body) := by
  refine statements_closed Twins.closed fun s hs => (coupling hhandle).statement ?_ ?_
  · exact fun name hr hp m m' h => h.get?_eq fun hk => hnames s hs name hr hp hk
  · intro tloc name value hkind v
    obtain ⟨-, hn, -⟩ := (Statement.validate_assign_iff hkind).mp (validateStatements_ok_iff.mp hb s hs)
    refine bindNew_twins (fun m m' h => h.contains_eq hn) fun m m' h _ => ?_
    refine h.of_hidden ?_ (Environment.hidden_insert hn) (Environment.hidden_insert hn) h.calls
    rw [Environment.visible_insert hn, Environment.visible_insert hn, h.visible]

end SameSight
end Eval

namespace Environment

variable {env env' : Environment}

/-- Binding the sentinels is not seen. -/
theorem visible_withSentinels (env : Environment) : env.withSentinels.visible = env.visible := by
  rw [visible_eq, toList_withSentinels, OrderedMap.only_insert_of_neg (by decide),
    OrderedMap.only_insert_of_neg (by decide), visible_eq]

theorem visible_withoutSentinels (env : Environment) : env.withoutSentinels.visible = env.visible := by
  rw [visible_eq, toList_withoutSentinels, OrderedMap.only_erase_of_neg (by decide),
    OrderedMap.only_erase_of_neg (by decide), visible_eq]

/-- With the sentinels bound, a hidden name stands for a sentinel or for what the host bound it to. -/
theorem get?_withSentinels (env : Environment) (name : String) : env.withSentinels.get? name =
    if handleKey = name then some .environment
    else if builtinsKey = name then some (.dict []) else env.get? name := by
  rw [get?_eq, toList_withSentinels, OrderedMap.get?_insert, OrderedMap.get?_insert, get?_eq]

end Environment

namespace Module

theorem run_of_visible {st : Setting} {m : Module} (hv : m.validate st.registry = .ok ())
    {env env' : Environment} (hvisible : env.visible = env'.visible)
    (hread : ∀ name, m.Reads name → isHidden name → isNoSentinel name →
      st.registry.get? name = none → env.get? name = env'.get? name) :
    (m.run st env).result = (m.run st env').result ∧
      (m.run st env).environment.visible = (m.run st env').environment.visible := by
  let shared (name : String) : Prop := env.withSentinels.get? name = env'.withSentinels.get? name
  have hstart : Eval.SameSight shared ⟨env.withSentinels, []⟩ ⟨env'.withSentinels, []⟩ := by
    refine ⟨?_, fun _ _ hn => hn, rfl⟩
    dsimp only
    rw [Environment.visible_withSentinels, Environment.visible_withSentinels, hvisible]
  have hhandle : shared handleKey := by
    simp only [shared, Environment.get?_withSentinels, if_true]
  have hnames : ∀ s ∈ m.body, ∀ name, s.Reads name → st.registry.get? name = none →
      isHidden name → shared name := by
    intro s hs name hr hp hk
    simp only [shared, Environment.get?_withSentinels]
    split
    · rfl
    · split
      · rfl
      · rename_i hh hb
        refine hread name ⟨s, hs, hr⟩ hk ?_ hp
        simp [isNoSentinel, Ne.symm hh, Ne.symm hb]
  obtain ⟨hresult, hend⟩ := Eval.SameSight.statements hv hhandle hnames _ _ hstart
  rcases hrun : Eval.exec (Eval.statements st m.body) ⟨env.withSentinels, []⟩ with ⟨result, last⟩
  rcases hrun' : Eval.exec (Eval.statements st m.body) ⟨env'.withSentinels, []⟩ with ⟨result', last'⟩
  rw [hrun, hrun'] at hresult hend
  obtain ⟨hr, henv⟩ := run_of_exec hrun
  obtain ⟨hr', henv'⟩ := run_of_exec hrun'
  rw [hr, hr', henv, henv', Environment.visible_withoutSentinels,
    Environment.visible_withoutSentinels]
  exact ⟨hresult, hend.visible⟩

/-- An assignment of a name to a free name succeeds exactly if the first is bound, hidden or not. -/
theorem run_of_copy {st : Setting} {env : Environment} {target name : String}
    (sloc tloc loc : Location) (hlimit : 0 < st.limit) (hp : st.registry.get? name = none)
    (ht : env.withSentinels.contains target = false) :
    ((⟨[⟨sloc, .assign [.name tloc target] (.name loc name)⟩]⟩ : Module).run st env).result =
      match env.withSentinels.get? name with
      | some _ => .ok ()
      | none => .error ⟨.unboundName name, loc⟩ := by
  let start : Machine := ⟨env.withSentinels, []⟩
  have hvalue : Eval.expr st 0 (.name loc name) = Eval.lookup st loc name := by
    rw [Eval.expr, Eval.checkDepth, if_neg (Nat.not_le.mpr hlimit), pure_bind]
  have hlookup : Eval.exec (Eval.lookup st loc name) start =
      (match env.withSentinels.get? name with
        | some value => .ok value
        | none => .error ⟨.unboundName name, loc⟩, start) := by
    rw [Eval.lookup, hp]
    dsimp only
    rw [Eval.exec_get_bind]
    cases env.withSentinels.get? name <;> rfl
  rw [← hvalue] at hlookup
  cases hget : env.withSentinels.get? name with
  | none =>
    rw [hget] at hlookup
    exact (run_of_exec (Eval.exec_bind_error (Eval.exec_bind_error hlookup))).1
  | some value =>
    rw [hget] at hlookup
    have hbind : Eval.exec (Eval.bindNew sloc target value) start =
        (.ok (), { start with environment := (start.environment.insert target value).2 }) := by
      rw [Eval.bindNew, Eval.exec_get_bind, ht]
      rfl
    exact (run_of_exec (Eval.exec_bind_ok ((Eval.exec_bind_ok hlookup).trans hbind))).1

end Module

namespace Interpreter

/-- A submission whose hidden names, if it has any, stand for the same in both environments, ends the
same way in both and leaves the same visible entries. Names of plugins and of the sentinels stand for
the same anyway. -/
theorem submit_of_visible (it : Interpreter) (env' : Environment) (input : Input)
    (hvisible : it.environment.visible = env'.visible)
    (hread : ∀ m, it.check input = .ok m → ∀ name, m.Reads name → isHidden name →
      isNoSentinel name → it.registry.get? name = none →
        it.environment.get? name = env'.get? name) :
    (it.submit input).1 = ({ it with environment := env' }.submit input).1 ∧
      (it.submit input).2.environment.visible =
        ({ it with environment := env' }.submit input).2.environment.visible := by
  have hcheck : { it with environment := env' }.check input = it.check input := rfl
  cases hc : it.check input with
  | error e =>
    rw [submit_of_check_error hc, submit_of_check_error (hcheck.trans hc)]
    exact ⟨rfl, hvisible⟩
  | ok m =>
    have hv : m.validate it.setting.registry = .ok () := validate_of_check hc
    obtain ⟨hresult, hend⟩ := Module.run_of_visible hv hvisible (hread m hc)
    rw [submit, submit, hcheck, hc]
    exact ⟨congrArg (Except.mapError Error.ofExecution) hresult, hend⟩

/-! ### Hidden names that are written -/

/-- Whether a submission does nothing but bind one name to what another, at the given place, stands
for. -/
def copies (it : Interpreter) (input : Input) (target : String) (loc : Location) (name : String) :
    Bool :=
  match it.check input with
  | .ok ⟨[⟨_, .assign [.name _ a] (.name l b)⟩]⟩ => a == target && l == loc && b == name
  | _ => false

variable {it : Interpreter} {input : Input} {target name : String} {loc : Location}

theorem check_of_copies (h : it.copies input target loc name) : ∃ sloc tloc,
    it.check input = .ok ⟨[⟨sloc, .assign [.name tloc target] (.name loc name)⟩]⟩ := by
  unfold copies at h
  split at h
  · rename_i sloc tloc a l b hc
    simp only [Bool.and_eq_true, beq_iff_eq] at h
    obtain ⟨⟨rfl, rfl⟩, rfl⟩ := h
    exact ⟨sloc, tloc, hc⟩
  · cases h

theorem reads_of_copies (h : it.copies input target loc name) {m : Module}
    (hc : it.check input = .ok m) {read : String} (hr : m.Reads read) : read = name := by
  obtain ⟨sloc, tloc, hcheck⟩ := check_of_copies h
  cases hc.symm.trans hcheck
  obtain ⟨s, hs, hread⟩ := hr
  cases List.mem_singleton.mp hs
  obtain ⟨depth, rloc, hreach⟩ := hread
  cases hreach
  rfl

/-- Such a submission succeeds exactly if the name is bound, hidden or not. -/
theorem submit_of_copies (h : it.copies input target loc name) (hlimit : 0 < it.limit)
    (hp : it.registry.get? name = none)
    (ht : it.environment.withSentinels.contains target = false) :
    (it.submit input).1 = match it.environment.withSentinels.get? name with
      | some _ => .ok ()
      | none => .error ⟨.unboundName name, some loc⟩ := by
  obtain ⟨sloc, tloc, hcheck⟩ := check_of_copies h
  have hrun := @Module.run_of_copy it.setting it.environment target name sloc tloc loc hlimit hp ht
  rw [submit, hcheck]
  dsimp only
  rw [hrun]
  cases it.environment.withSentinels.get? name <;> rfl

/-- The hidden name that is read stands for the same in both, the other one does not. -/
theorem submit_of_visible_shared :
    let it : Interpreter := ⟨.ofList [("__a__", .int 1), ("__b__", .int 2)], .empty, Catalog.host, 9⟩
    let env' := Environment.ofList [("__a__", .int 1), ("__b__", .int 3), ("__c__", .int 4)]
    it.environment.visible = env'.visible ∧
      (it.submit (.text "x = __a__")).1 =
        ({ it with environment := env' }.submit (.text "x = __a__")).1 := by
  intro it env'
  have hrow : it.environment.toList = [("__a__", .int 1), ("__b__", .int 2)] :=
    Environment.toList_insertAll _ _
  have hrow' : env'.toList = [("__a__", .int 1), ("__b__", .int 3), ("__c__", .int 4)] :=
    Environment.toList_insertAll _ _
  have hvisible : it.environment.visible = env'.visible := by
    rw [Environment.visible_eq, Environment.visible_eq, hrow, hrow']
    rfl
  have hcopies : it.copies (.text "x = __a__") "x" ⟨1, ⟨4, 9⟩⟩ "__a__" = true := by decide +kernel
  refine ⟨hvisible, (submit_of_visible it env' _ hvisible fun m hc name hr _ _ _ => ?_).1⟩
  rw [reads_of_copies hcopies hc hr, Environment.get?_eq, Environment.get?_eq, hrow, hrow']
  rfl

/-- A submission can tell whether a hidden name is bound: it assigns the name to one of its own. -/
theorem submit_tells_hidden :
    let it : Interpreter := ⟨.ofList [("__key__", .str "secret")], .empty, Catalog.host, 9⟩
    let it' : Interpreter := { it with environment := .empty }
    it.environment.visible = it'.environment.visible ∧
      (∀ env ∈ [it.environment, it'.environment],
        env.contains builtinsKey = false ∧ env.contains handleKey = false) ∧
      (it.submit (.text "x = __key__")).1 = .ok () ∧
      (it'.submit (.text "x = __key__")).1 = .error ⟨.unboundName "__key__", some ⟨1, ⟨4, 11⟩⟩⟩ := by
  intro it it'
  have hrow : it.environment.toList = [("__key__", .str "secret")] := Environment.toList_insertAll _ _
  have hrow' : it'.environment.toList = [] := rfl
  have hcopies : it.copies (.text "x = __key__") "x" ⟨1, ⟨4, 11⟩⟩ "__key__" = true := by
    decide +kernel
  have hcopies' : it'.copies (.text "x = __key__") "x" ⟨1, ⟨4, 11⟩⟩ "__key__" = true := by
    decide +kernel
  refine ⟨?_, ?_, ?_, ?_⟩
  · rw [Environment.visible_eq, Environment.visible_eq, hrow, hrow']
    rfl
  · intro env henv
    rw [Environment.contains_eq, Environment.contains_eq]
    rcases List.mem_cons.mp henv with rfl | henv
    · rw [hrow]
      exact ⟨rfl, rfl⟩
    · rw [List.mem_singleton.mp henv, hrow']
      exact ⟨rfl, rfl⟩
  · rw [submit_of_copies hcopies (by decide) rfl]
    · rw [Environment.get?_withSentinels, Environment.get?_eq, hrow]
      rfl
    · rw [Environment.contains_eq, Environment.toList_withSentinels, hrow]
      rfl
  · rw [submit_of_copies hcopies' (by decide) rfl]
    · rw [Environment.get?_withSentinels, Environment.get?_eq, hrow']
      rfl
    · rw [Environment.contains_eq, Environment.toList_withSentinels, hrow']
      rfl

end Interpreter
end ConfigSandbox
