import ConfigSandbox.Proofs.Submission.Passing

/-!
# Submissions only append

Where no function changes what is bound, a run adds entries at the end of the row and does nothing
else to it. There is one for each assignment that the run came through, in the order of the source. Two
submissions in a row, or functions that do change the environment, are not looked at here.
-/
namespace ConfigSandbox

/-- No function that is registered changes what is bound, whatever it is called with. -/
def Setting.ReadsOnly (st : Setting) : Prop :=
  ∀ name p f, st.registry.get? name = some p → p.function? = some f →
    ∀ n call env, ((st.host n f call).run env call.hasHandle).2.toList = env.toList

/-- The name that an assignment binds. -/
def Statement.target? (s : Statement) : Option String :=
  match s.kind with
  | .assign [.name _ name] _ => some name
  | _ => none

namespace Eval

variable {st : Setting}

/-- Statements that completed, one after the other, and the entries they bound. An entry has the value
that the expression of its assignment had at that point of the run. -/
inductive Completes (st : Setting) : Machine → List Statement → List Entry → Machine → Prop
  | nil (m : Machine) : Completes st m [] [] m
  | assign {m m' m'' last : Machine} {s : Statement} {rest : List Statement} {tloc : Location}
      {name : String} {value : Expr} {v : Value} {added : List Entry}
      (hkind : s.kind = .assign [.name tloc name] value)
      (hvalue : exec (expr st 0 value) m = (.ok v, m'))
      (hbind : exec (bindNew s.loc name v) m' = (.ok (), m''))
      (hrest : Completes st m'' rest added last) :
      Completes st m (s :: rest) ((name, v) :: added) last
  | call {m m' last : Machine} {s : Statement} {rest : List Statement} {loc : Location} {func : Expr}
      {args : List Expr} {keywords : List Keyword} {v : Value} {added : List Entry}
      (hkind : s.kind = .expr (.call loc func args keywords))
      (hvalue : exec (expr st 0 (.call loc func args keywords)) m = (.ok v, m'))
      (hrest : Completes st m' rest added last) : Completes st m (s :: rest) added last

/-- How far a row of statements comes: to its end, or to the first that fails. -/
theorem statements_completes (st : Setting) (body : List Statement) (m : Machine) :
    ∃ done rest added last, body = done ++ rest ∧ Completes st m done added last ∧
      ((rest = [] ∧ exec (statements st body) m = (.ok (), last)) ∨
        ∃ s later e m', rest = s :: later ∧ exec (statement st s) last = (.error e, m') ∧
          exec (statements st body) m = (.error e, m')) := by
  induction body generalizing m with
  | nil => exact ⟨[], [], [], m, rfl, .nil m, .inl ⟨rfl, rfl⟩⟩
  | cons s later ih =>
    rcases hs : exec (statement st s) m with ⟨e | ⟨⟩, m'⟩
    · exact ⟨[], s :: later, [], m, rfl, .nil m, .inr ⟨s, later, e, m', rfl, hs,
        exec_bind_error hs⟩⟩
    · obtain ⟨done, rest, added, last, hbody, hdone, hend⟩ := ih m'
      have hrun : exec (statements st (s :: later)) m = exec (statements st later) m' :=
        exec_bind_ok hs
      rw [hrun]
      rcases statement_cases st s with ⟨tloc, name, value, hkind, hexec⟩ |
        ⟨loc, func, args, keywords, hkind, hexec⟩ | ⟨⟨loc, construct, hexec⟩, -⟩
      · rw [hexec, exec_bind_ok_iff] at hs
        obtain ⟨v, mid, hv, hb⟩ := hs
        exact ⟨s :: done, rest, (name, v) :: added, last, by rw [hbody]; rfl,
          .assign hkind hv hb hdone, hend⟩
      · rw [hexec, exec_bind_ok_iff] at hs
        obtain ⟨v, mid, hv, hpure⟩ := hs
        cases hpure
        exact ⟨s :: done, rest, added, last, by rw [hbody]; rfl, .call hkind hv hdone, hend⟩
      · rw [hexec] at hs
        cases hs

theorem Completes.keys {m last : Machine} {done : List Statement} {added : List Entry}
    (h : Completes st m done added last) :
    OrderedMap.keys added = done.filterMap Statement.target? := by
  induction h with
  | nil => rfl
  | @assign _ _ _ _ s _ _ name _ _ _ hkind _ _ _ ih =>
    have htarget : s.target? = some name := by rw [Statement.target?, hkind]
    rw [List.filterMap_cons_some htarget, ← ih]
    rfl
  | @call _ _ _ s _ _ _ _ _ _ _ hkind _ _ ih =>
    have htarget : s.target? = none := by rw [Statement.target?, hkind]
    rw [List.filterMap_cons_none htarget, ih]

/-! ### With functions that only read -/

/-- What is bound is the same, in the same order. -/
def SameRow (m m' : Machine) : Prop := m'.environment.toList = m.environment.toList

theorem respects_sameRow (hst : st.ReadsOnly) : Respects st SameRow := by
  refine ⟨fun m => rfl, fun m m' m'' h h' => Eq.trans h' h, ?_⟩
  intro loc plugin p f args passed hp hf m
  rw [exec_invoke]
  exact hst plugin p f hp hf _ ⟨args, passed.kwargs, passed.hasHandle⟩ m.environment

/-- A name that was free is bound at the end of the row, any other is an error that binds nothing. -/
theorem bindNew_cases (loc : Location) (name : String) (value : Value) (m : Machine) :
    exec (bindNew loc name value) m = (.error ⟨.existingName name, loc⟩, m) ∨
      ∃ m', exec (bindNew loc name value) m = (.ok (), m') ∧
        m'.environment.toList = m.environment.toList ++ [(name, value)] := by
  rw [exec_bindNew]
  split
  · exact Or.inl rfl
  · rename_i hc
    have habsent : name ∉ OrderedMap.keys m.environment.toList := by
      rw [Environment.contains_eq] at hc
      rw [← OrderedMap.get?_eq_none_iff]
      simpa using hc
    refine Or.inr ⟨_, rfl, ?_⟩
    dsimp only
    rw [Environment.toList_insert, OrderedMap.insert_absent habsent]

theorem Completes.toList (hst : st.ReadsOnly) {m last : Machine} {done : List Statement}
    {added : List Entry} (h : Completes st m done added last) :
    last.environment.toList = m.environment.toList ++ added := by
  have hsame {e : Expr} {m m' : Machine} {v : Value} (hv : exec (expr st 0 e) m = (.ok v, m')) :
      m'.environment.toList = m.environment.toList := by
    have hmoves := (respects_sameRow hst).expr 0 e m
    rwa [hv] at hmoves
  induction h with
  | nil m => rw [List.append_nil]
  | @assign m m' m'' last s rest tloc name value v added hkind hvalue hbind hrest ih =>
    obtain hb | ⟨mid, hb, hrow⟩ := bindNew_cases s.loc name v m'
    · rw [hb] at hbind
      cases hbind
    · rw [hb] at hbind
      cases hbind
      rw [ih, hrow, hsame hvalue, List.append_assoc]
      rfl
  | call hkind hvalue hrest ih => rw [ih, hsame hvalue]

/-- Where a statement fails, the value of its expression may have been known already. -/
theorem statement_error_sameRow (hst : st.ReadsOnly) {s : Statement} {m m' : Machine}
    {e : ExecutionError} (h : exec (statement st s) m = (.error e, m')) :
    m'.environment.toList = m.environment.toList := by
  have hsame {e : Expr} {m m' : Machine} {result : Except ExecutionError Value}
      (hv : exec (expr st 0 e) m = (result, m')) : m'.environment.toList = m.environment.toList := by
    have hmoves := (respects_sameRow hst).expr 0 e m
    rwa [hv] at hmoves
  rcases statement_cases st s with ⟨tloc, name, value, hkind, hexec⟩ |
    ⟨loc, func, args, keywords, hkind, hexec⟩ | ⟨⟨loc, construct, hexec⟩, -⟩
  · rw [hexec, exec_bind_error_iff] at h
    obtain hv | ⟨v, mid, hv, hb⟩ := h
    · exact hsame hv
    · obtain hfail | ⟨last, hok, -⟩ := bindNew_cases s.loc name v mid
      · rw [hfail] at hb
        cases hb
        exact hsame hv
      · rw [hok] at hb
        cases hb
  · rw [hexec, exec_bind_error_iff] at h
    obtain hv | ⟨v, mid, -, hpure⟩ := h
    · exact hsame hv
    · cases hpure
  · rw [hexec] at h
    cases h
    rfl

end Eval

namespace Module

variable {st : Setting}

/-- What is bound while the sentinels are has a name that was free before, and no sentinel's. -/
theorem free_of_added {env final : Environment} {added : List Entry}
    (h : final.toList = env.withSentinels.toList ++ added) {name : String}
    (hn : name ∈ OrderedMap.keys added) : env.contains name = false ∧ isNoSentinel name := by
  have hnodup := final.keys_nodup
  rw [h, OrderedMap.keys, List.map_append, List.nodup_append] at hnodup
  have habsent : name ∉ OrderedMap.keys env.withSentinels.toList :=
    fun hm => hnodup.2.2 name hm name hn rfl
  rw [← OrderedMap.get?_eq_none_iff, Environment.toList_withSentinels, OrderedMap.get?_insert,
    OrderedMap.get?_insert] at habsent
  by_cases hh : handleKey = name
  · simp [hh] at habsent
  by_cases hb : builtinsKey = name
  · simp [hh, hb] at habsent
  rw [if_neg hh, if_neg hb] at habsent
  exact ⟨by rw [Environment.contains_eq, habsent]; rfl,
    by simp [isNoSentinel, Ne.symm hh, Ne.symm hb]⟩

theorem toList_withoutSentinels_append {env final : Environment} {added : List Entry}
    (h : final.toList = env.withSentinels.toList ++ added) :
    final.withoutSentinels.toList = OrderedMap.only isNoSentinel env.toList ++ added := by
  have hadded : OrderedMap.only isNoSentinel added = added :=
    List.filter_eq_self.mpr fun e he => (free_of_added h (List.mem_map_of_mem he)).2
  rw [Environment.toList_withoutSentinels_eq_only, h, OrderedMap.only_append, hadded,
    Environment.toList_withSentinels, OrderedMap.only_insert_of_neg (by simp [isNoSentinel]),
    OrderedMap.only_insert_of_neg (by simp [isNoSentinel])]

/-- A run adds one entry for each assignment that completed, in the order of the source, to the entries
that were there before. The names are new. The statements that completed are those before the one that
failed, or all of them. -/
theorem run_appends (hst : st.ReadsOnly) (env : Environment) (m : Module) :
    ∃ done rest added last, m.body = done ++ rest ∧
      Eval.Completes st ⟨env.withSentinels, []⟩ done added last ∧
      (m.run st env).environment.toList = OrderedMap.only isNoSentinel env.toList ++ added ∧
      OrderedMap.keys added = done.filterMap Statement.target? ∧
      (OrderedMap.keys added).Nodup ∧ (∀ name ∈ OrderedMap.keys added, env.contains name = false) ∧
      match (m.run st env).result with
      | .ok () => rest = []
      | .error e => ∃ s later m', rest = s :: later ∧
          Eval.exec (Eval.statement st s) last = (.error e, m') := by
  obtain ⟨done, rest, added, last, hbody, hdone, hend⟩ :=
    Eval.statements_completes st m.body ⟨env.withSentinels, []⟩
  have hrow : last.environment.toList = env.withSentinels.toList ++ added := hdone.toList hst
  have hnodup := last.environment.keys_nodup
  rw [hrow, OrderedMap.keys, List.map_append, List.nodup_append] at hnodup
  refine ⟨done, rest, added, last, hbody, hdone, ?_, hdone.keys, hnodup.2.1,
    fun name hn => (free_of_added hrow hn).1, ?_⟩
  · rcases hend with ⟨-, hrun⟩ | ⟨s, later, e, m', -, hfail, hrun⟩
    · rw [(run_of_exec hrun).2]
      exact toList_withoutSentinels_append hrow
    · rw [(run_of_exec hrun).2]
      exact toList_withoutSentinels_append ((Eval.statement_error_sameRow hst hfail).trans hrow)
  · rcases hend with ⟨hrest, hrun⟩ | ⟨s, later, e, m', hrest, hfail, hrun⟩
    · rw [(run_of_exec hrun).1]
      exact hrest
    · rw [(run_of_exec hrun).1]
      exact ⟨s, later, m', hrest, hfail⟩

/-- A function that counts what is bound, and after it an assignment to a name of the host. -/
theorem run_appends_count :
    let x : Statement := ⟨.synthetic, .assign [.name .synthetic "x"]
      (.call .synthetic (.name .synthetic "ctx") [] [])⟩
    let b : Statement := ⟨.synthetic, .assign [.name .synthetic "b"] (.constant .synthetic (.int 1))⟩
    let env := Environment.ofList [("b", .int 2), (handleKey, .none), ("__key__", .str "secret")]
    let st : Setting := ⟨Registry.empty.insert "ctx" (.function ⟨"ctx", true, 0⟩), Catalog.host, 9⟩
    st.ReadsOnly ∧ ∃ added, ((⟨[x, b]⟩ : Module).run st env).environment.toList =
      [("b", .int 2), ("__key__", .str "secret")] ++ added ∧ added = [("x", .int 1)] ∧
        (OrderedMap.keys added).Nodup ∧ "b" ∉ OrderedMap.keys added := by
  intro x b env st
  have hst : st.ReadsOnly := by
    intro name p f hp hf n call env
    have hctx : p = .function ⟨"ctx", true, 0⟩ := by
      have hlookup : List.lookup name [("ctx", Plugin.function ⟨"ctx", true, 0⟩)] = some p := hp
      rw [List.lookup_cons] at hlookup
      split at hlookup
      · exact (Option.some.inj hlookup).symm
      · cases hlookup
    subst hctx
    cases hf
    obtain ⟨args, kwargs, hasHandle⟩ := call
    cases hasHandle <;> rfl
  have henv : env.toList = [("b", .int 2), (handleKey, .none), ("__key__", .str "secret")] :=
    Environment.toList_insertAll _ _
  have hrow : env.withSentinels.toList = [("b", .int 2), (handleKey, .environment), ("__key__", .str "secret"),
      (builtinsKey, .dict [])] := by
    rw [Environment.toList_withSentinels, henv]
    rfl
  -- only `b` is visible, so the function counts one entry
  have hcall : Eval.exec (Eval.expr st 0 (.call .synthetic (.name .synthetic "ctx") [] [])) ⟨env.withSentinels, []⟩ =
      (.ok (.int 1), ⟨env.withSentinels, [⟨⟨"ctx", true, 0⟩, ⟨[], [], true⟩, env.withSentinels⟩]⟩) := by
    refine Eval.exec_call_ask .size (by decide) rfl rfl rfl rfl env.withSentinels_holds rfl ?_
    dsimp only
    rw [ViewOp.run, View.size, Environment.visible_eq, hrow]
    rfl
  have hfree : env.withSentinels.contains "x" = false := by
    rw [Environment.contains_eq, hrow]
    rfl
  let calls : List Invocation := [⟨⟨"ctx", true, 0⟩, ⟨[], [], true⟩, env.withSentinels⟩]
  have hx : Eval.exec (Eval.statement st x) ⟨env.withSentinels, []⟩ =
      (.ok (), ⟨(env.withSentinels.insert "x" (.int 1)).2, calls⟩) :=
    (Eval.exec_bind_ok hcall).trans (Eval.exec_bindNew_free .synthetic (.int 1) hfree)
  have hrow' : (env.withSentinels.insert "x" (.int 1)).2.toList = [("b", .int 2), (handleKey, .environment),
      ("__key__", .str "secret"), (builtinsKey, .dict []), ("x", .int 1)] := by
    rw [Environment.toList_insert, hrow]
    rfl
  have hb : Eval.exec (Eval.statement st b) ⟨(env.withSentinels.insert "x" (.int 1)).2, calls⟩ =
      (.error ⟨.existingName "b", .synthetic⟩, ⟨(env.withSentinels.insert "x" (.int 1)).2, calls⟩) := by
    refine (Eval.exec_bindNew "b" (.int 1) _).trans (if_pos ?_)
    rw [Environment.contains_eq, hrow']
    rfl
  have hrun : Eval.exec (Eval.statements st [x, b]) ⟨env.withSentinels, []⟩ =
      (.error ⟨.existingName "b", .synthetic⟩, ⟨(env.withSentinels.insert "x" (.int 1)).2, calls⟩) :=
    (Eval.exec_bind_ok hx).trans (Eval.exec_bind_error hb)
  have hend : ((⟨[x, b]⟩ : Module).run st env).environment.toList =
      [("b", .int 2), ("__key__", .str "secret"), ("x", .int 1)] := by
    rw [(run_of_exec hrun).2, Environment.toList_withoutSentinels_eq_only, hrow']
    rfl
  obtain ⟨_, _, added, _, -, -, happends, -, hnodup, hnew, -⟩ := run_appends hst env ⟨[x, b]⟩
  have hbound : env.contains "b" = true := by
    rw [Environment.contains_eq, henv]
    rfl
  rw [henv, hend] at happends
  have hadded : [("b", Value.int 2), ("__key__", .str "secret")] ++ [("x", .int 1)] =
      [("b", .int 2), ("__key__", .str "secret")] ++ added := happends
  refine ⟨hst, added, hend.trans happends, (List.append_cancel_left hadded).symm, hnodup, fun hm => ?_⟩
  rw [hnew "b" hm] at hbound
  cases hbound

end Module
end ConfigSandbox
