import ConfigSandbox.Proofs.Submission.Arrivals
import ConfigSandbox.Proofs.Submission.Keywords

/-!
# What a call passes to its function

Keywords with names of their own are collected in their order. Whatever is given as `env` and is the environment
is set apart as the handle, and the environment that a plugin asks for is added like one more keyword. It is
refused if the name has been given, whether as the handle or not.
-/
namespace ConfigSandbox

def Value.isEnvironment : Value → Bool
  | .environment => true
  | _ => false

/-- Whether a keyword argument hands over the environment. It is passed as the handle then. -/
def passesHandle (given : String × Value) : Bool := given.1 == handleKeyword && given.2.isEnvironment

namespace Eval

variable {st : Setting} {depth : Nat} {loc : Location} {plugin : String} {machine mid last : Machine}

/-- What a function receives of the keyword arguments that a call gives. -/
def Passed.of (given : List (String × Value)) : Passed :=
  ⟨given.filter fun k => !passesHandle k, given.any passesHandle⟩

variable {given : List (String × Value)} {name : String} {keywords : List Keyword}

/-- The test for a keyword that is given twice finds all that have been given. -/
theorem Passed.gives_iff : ((Passed.of given).kwargs.any (·.1 == name) ||
    (name == handleKeyword && (Passed.of given).hasHandle)) = true ↔ name ∈ given.map Prod.fst := by
  simp only [Bool.or_eq_true, Bool.and_eq_true, List.any_eq_true, beq_iff_eq, List.mem_map, Passed.of,
    List.mem_filter, Bool.not_eq_true']
  constructor
  · rintro (⟨k, ⟨hk, -⟩, hname⟩ | ⟨hname, k, hk, hhandle⟩)
    · exact ⟨k, hk, hname⟩
    · rw [passesHandle, Bool.and_eq_true, beq_iff_eq] at hhandle
      exact ⟨k, hk, hhandle.1.trans hname.symm⟩
  · rintro ⟨k, hk, hname⟩
    by_cases hhandle : passesHandle k = true
    · have hkey := hhandle
      rw [passesHandle, Bool.and_eq_true, beq_iff_eq] at hkey
      exact Or.inr ⟨hname.symm.trans hkey.1, k, hk, hhandle⟩
    · exact Or.inl ⟨k, ⟨hk, Bool.eq_false_iff.mpr hhandle⟩, hname⟩

/-- The handle is set apart, any other value is kept in its place. -/
theorem Passed.of_snoc (value : Value) : Passed.of (given ++ [(name, value)]) =
    if passesHandle (name, value) then { Passed.of given with hasHandle := true }
    else { Passed.of given with kwargs := (Passed.of given).kwargs ++ [(name, value)] } := by
  by_cases hhandle : passesHandle (name, value) = true
  · simp [Passed.of, hhandle]
  · simp [Passed.of, hhandle]

theorem addKeyword_of (value : Value) : addKeyword loc plugin (.of given) name value =
    if name ∈ given.map Prod.fst then fail loc (.duplicateKeyword plugin name)
    else pure (.of (given ++ [(name, value)])) := by
  unfold addKeyword
  by_cases hname : name ∈ given.map Prod.fst
  · rw [if_pos (Passed.gives_iff.mpr hname), if_pos hname]
  · rw [if_neg fun h => hname (Passed.gives_iff.mp h), if_neg hname, Passed.of_snoc]
    cases value with
    | environment =>
      by_cases hkey : name = handleKeyword
      · simp [passesHandle, Value.isEnvironment, hkey]
      · simp [passesHandle, Value.isEnvironment, hkey]
    | _ => simp [passesHandle, Value.isEnvironment]

/-- Keywords with names of their own are evaluated like positional arguments, and then collected. -/
theorem namedArguments_of (hnamed : ∀ kloc v, .unpack kloc v ∉ keywords)
    (hnodup : (given.map Prod.fst ++ keywordNames keywords).Nodup) :
    namedArguments st depth loc plugin (.of given) keywords =
      (exprs st depth (keywords.map Keyword.value) >>= fun values =>
        pure (.of (given ++ (keywordNames keywords).zip values))) := by
  induction keywords generalizing given with
  | nil => simp [namedArguments, exprs, keywordNames]
  | cons k rest ih =>
    cases k with
    | unpack kloc v => exact absurd List.mem_cons_self (hnamed kloc v)
    | named kloc name v =>
      have hnames : keywordNames (.named kloc name v :: rest) = name :: keywordNames rest := rfl
      rw [hnames] at hnodup ⊢
      have hfresh : name ∉ given.map Prod.fst := by
        intro hmem
        exact (List.nodup_append.mp hnodup).2.2 name hmem name List.mem_cons_self rfl
      have hmore {value : Value} :
          ((given ++ [(name, value)]).map Prod.fst ++ keywordNames rest).Nodup := by
        rwa [List.map_append, List.append_assoc]
      simp only [namedArguments, addKeyword_of, if_neg hfresh, pure_bind, List.map_cons, exprs, bind_assoc,
        Keyword.value, List.zip_cons_cons]
      congr 1
      funext value
      rw [ih (fun kloc v hv => hnamed kloc v (List.mem_cons_of_mem _ hv)) hmore]
      simp only [List.append_assoc, List.singleton_append]

/-! ### The steps of a call after its operands -/

/-- Adds the environment, if the plugin asks for it, and calls the function. -/
def finish (st : Setting) (depth : Nat) (loc : Location) (name : String) (p : Plugin) (f : Function)
    (keywords : List Keyword) (values : List Value) (given : List (String × Value)) : Eval Value := do
  let passed ← passHandle st depth loc name p keywords (.of given)
  invoke st loc name f values passed

variable {func : Expr} {args : List Expr} {p : Plugin} {f : Function} {values named : List Value}

/-- A call is the evaluation of its operands, positional arguments first, and what comes after it. -/
theorem expr_call (hdepth : depth < st.limit) (hn : func.name? = some name)
    (hp : st.registry.get? name = some p) (hf : p.function? = some f)
    (hnamed : ∀ kloc v, .unpack kloc v ∉ keywords) (hnodup : (keywordNames keywords).Nodup) :
    expr st depth (.call loc func args keywords) = (do
      let values ← exprs st (depth + 1) args
      let named ← exprs st (depth + 1) (keywords.map Keyword.value)
      finish st (depth + 1) loc name p f keywords values ((keywordNames keywords).zip named)) := by
  have hc : callee st loc name = pure (p, f) := by simp only [callee, hp, hf]
  have hcollect : namedArguments st (depth + 1) loc name (.of []) keywords =
      (exprs st (depth + 1) (keywords.map Keyword.value) >>= fun values =>
        pure (.of ([] ++ (keywordNames keywords).zip values))) := namedArguments_of hnamed hnodup
  rw [expr.eq_def, checkDepth, if_neg (Nat.not_le.mpr hdepth)]
  simp only [hn, hc, pure_bind]
  congr 1
  funext values
  change (namedArguments st (depth + 1) loc name (.of []) keywords >>= _) = _
  rw [hcollect, bind_assoc]
  simp only [pure_bind, List.nil_append]
  rfl

/-- Once the environment has been added it is not added again. -/
theorem addHandle_addHandle (p : Plugin) (keywords : List Keyword) :
    p.addHandle (p.addHandle keywords) = p.addHandle keywords := by
  by_cases hlacks : p.lacksHandle keywords
  · have hadded : p.lacksHandle (keywords ++ [.handle]) = false := by
      have hhandle : Keyword.handle.isHandle = true := by decide
      rw [Plugin.lacksHandle, List.any_append, List.any_cons, hhandle, Bool.true_or, Bool.or_true, Bool.not_true,
        Bool.and_false]
    rw [Plugin.addHandle, Plugin.addHandle, if_pos hlacks, hadded, if_neg Bool.false_ne_true]
  · rw [Plugin.addHandle, Plugin.addHandle, if_neg hlacks, if_neg hlacks]

/-- Of a keyword that was written none is the one that passes the environment. -/
theorem lacksHandle_eq (hwritten : ∀ k ∈ keywords, k.isHandle = false) :
    p.lacksHandle keywords = p.wantsEnvironment := by
  have hnone : keywords.any (·.isHandle) = false := by
    rw [List.any_eq_false]
    intro k hk
    simp [hwritten k hk]
  rw [Plugin.lacksHandle, hnone, Bool.not_false, Bool.and_true]

theorem expr_handle : expr st depth Keyword.handle.value =
    (checkDepth st depth .synthetic >>= fun _ => lookup st .synthetic handleKey) := rfl

theorem namedArguments_append (passed : Passed) (keywords more : List Keyword) :
    namedArguments st depth loc plugin passed (keywords ++ more) =
      (namedArguments st depth loc plugin passed keywords >>= fun passed =>
        namedArguments st depth loc plugin passed more) := by
  induction keywords generalizing passed with
  | nil => rw [List.nil_append, namedArguments, pure_bind]
  | cons k rest ih =>
    cases k with
    | unpack kloc v => rfl
    | named kloc name v => simp only [List.cons_append, namedArguments, bind_assoc, ih]

/-- To pass the environment is to evaluate the keyword that is added for it. -/
theorem namedArguments_addHandle (p : Plugin) (passed : Passed) (keywords : List Keyword) :
    namedArguments st depth loc plugin passed (p.addHandle keywords) =
      (namedArguments st depth loc plugin passed keywords >>= passHandle st depth loc plugin p keywords) := by
  rw [Plugin.addHandle]
  split
  · rename_i hlacks
    rw [namedArguments_append]
    congr 1
    funext passed
    have hvalue : expr st depth (.name .synthetic handleKey) =
        (checkDepth st depth .synthetic >>= fun _ => lookup st .synthetic handleKey) := expr_handle
    rw [passHandle, if_pos hlacks, Keyword.handle]
    simp only [namedArguments, bind_pure, hvalue, bind_assoc]
  · rename_i hlacks
    have hnothing : passHandle st depth loc plugin p keywords = pure := by
      funext passed
      rw [passHandle, if_neg hlacks]
    rw [hnothing, bind_pure]

/-- The environment is looked up one level deeper and added like a keyword. -/
theorem passHandle_of (hwritten : ∀ k ∈ keywords, k.isHandle = false) :
    passHandle st depth loc name p keywords (.of given) =
      if p.wantsEnvironment then do
        let handle ← expr st depth Keyword.handle.value
        if handleKeyword ∈ given.map Prod.fst then fail loc (.duplicateKeyword name handleKeyword)
        else pure (.of (given ++ [(handleKeyword, handle)]))
      else pure (.of given) := by
  rw [passHandle, lacksHandle_eq hwritten, expr_handle, bind_assoc]
  simp only [addKeyword_of]

theorem handle_still (machine : Machine) : (exec (expr st depth Keyword.handle.value) machine).2 = machine := by
  rw [expr_handle]
  rcases hcheck : exec (checkDepth st depth .synthetic) machine with ⟨err | _, mid⟩
  · rw [exec_bind_error hcheck]
    exact eq_of_still checkDepth_still hcheck
  · rw [exec_bind_ok hcheck, lookup_still]
    exact eq_of_still checkDepth_still hcheck

/-- Looking the environment up does nothing else, and finds it as long as statements run. -/
theorem exec_handle {handle : Value} (h : exec (expr st depth Keyword.handle.value) machine = (.ok handle, mid)) :
    mid = machine ∧ (st.registry.get? handleKey = none → machine.environment.HoldsSentinels →
      handle = .environment) := by
  rw [expr_handle] at h
  obtain ⟨_, mid', hcheck, hlookup⟩ := exec_bind_ok_iff.mp h
  obtain rfl := eq_of_still checkDepth_still hcheck
  obtain rfl := eq_of_still (lookup_still handleKey) hlookup
  refine ⟨rfl, fun hfree hm => ?_⟩
  simp only [lookup, hfree, exec_get_bind, hm.handle] at hlookup
  cases hlookup
  rfl

theorem handle_quiet : Quiet (expr st depth Keyword.handle.value) := by
  rw [expr_handle]
  exact checkDepth_quiet.bind fun _ => lookup_quiet handleKey

theorem invoke_invoked {passed : Passed} {i : Invocation} {earlier : List Invocation}
    (h : Occurs (invoke st loc name f values passed) machine (.invoked i earlier)) :
    i = ⟨f, ⟨values, passed.kwargs, passed.hasHandle⟩, machine.environment⟩ ∧
      earlier = machine.calls := by
  obtain ⟨hnow, hbefore⟩ := h
  rw [exec_invoke] at hnow
  have hcons := (List.suffix_cons_iff.mp hnow).resolve_right hbefore
  exact List.cons.inj hcons

theorem invoke_not_clashed {passed : Passed} {keyword : String} {cloc : Location} :
    ¬ Occurs (invoke st loc name f values passed) machine (.clashed plugin keyword cloc) := by
  intro h
  simp only [Occurs, exec_invoke] at h
  generalize (st.host _ _ _).run _ _ = answer at h
  obtain ⟨result, env⟩ := answer
  cases result <;> cases h

section Finish

variable (hwritten : ∀ k ∈ keywords, k.isHandle = false)
include hwritten

/-- A plugin that asks for the environment and has been given the keyword for it gets nothing at all. -/
theorem finish_clash (hwants : p.wantsEnvironment) (hgiven : handleKeyword ∈ given.map Prod.fst) :
    finish st depth loc name p f keywords values given =
      (expr st depth Keyword.handle.value >>= fun _ => fail loc (.duplicateKeyword name handleKeyword)) := by
  simp only [finish, passHandle_of hwritten, if_pos hwants, if_pos hgiven, bind_assoc]
  rfl

theorem exec_finish_duplicate {handle : Value} (hwants : p.wantsEnvironment)
    (hgiven : handleKeyword ∈ given.map Prod.fst)
    (hhandle : exec (expr st depth Keyword.handle.value) machine = (.ok handle, mid)) :
    exec (finish st depth loc name p f keywords values given) machine =
      (.error ⟨.duplicateKeyword name handleKeyword, loc⟩, machine) := by
  obtain rfl := eq_of_still handle_still hhandle
  rw [finish_clash hwritten hwants hgiven]
  exact exec_bind_ok hhandle

theorem exec_finish_clash (hwants : p.wantsEnvironment) (hgiven : handleKeyword ∈ given.map Prod.fst) :
    ∃ err, exec (finish st depth loc name p f keywords values given) machine = (.error err, machine) := by
  rcases hhandle : exec (expr st depth Keyword.handle.value) machine with ⟨err | handle, last⟩
  · obtain rfl := eq_of_still handle_still hhandle
    rw [finish_clash hwritten hwants hgiven]
    exact ⟨err, exec_bind_error hhandle⟩
  · exact ⟨_, exec_finish_duplicate hwritten hwants hgiven hhandle⟩

/-- A function that is invoked is given the operands and what the plugin asks for, and the rest of the call is
what it does with them. -/
theorem finish_invoked {i : Invocation} {earlier : List Invocation}
    (hfree : st.registry.get? handleKey = none) (hm : machine.environment.HoldsSentinels)
    (h : Occurs (finish st depth loc name p f keywords values given) machine (.invoked i earlier)) :
    ¬ (p.wantsEnvironment ∧ handleKeyword ∈ given.map Prod.fst) ∧ earlier = machine.calls ∧
      i = ⟨f, ⟨values, given.filter fun k => !passesHandle k, p.wantsEnvironment || given.any passesHandle⟩,
        machine.environment⟩ ∧
      exec (finish st depth loc name p f keywords values given) machine =
        exec (invoke st loc name f values ⟨i.call.kwargs, i.call.hasHandle⟩) machine := by
  by_cases hclash : p.wantsEnvironment ∧ handleKeyword ∈ given.map Prod.fst
  · rw [finish_clash hwritten hclash.1 hclash.2] at h
    obtain ⟨handle, mid, -, hfail⟩ := h.next handle_quiet
    exact absurd hfail.1 hfail.2
  · refine ⟨hclash, ?_⟩
    by_cases hwants : p.wantsEnvironment
    · have hgiven : handleKeyword ∉ given.map Prod.fst := fun hmem => hclash ⟨hwants, hmem⟩
      simp only [finish, passHandle_of hwritten, if_pos hwants, if_neg hgiven, bind_assoc, pure_bind] at h ⊢
      obtain ⟨handle, mid, hhandle, hinvoke⟩ := h.next handle_quiet
      obtain ⟨rfl, hvalue⟩ := exec_handle hhandle
      obtain rfl := hvalue hfree hm
      obtain ⟨rfl, hearlier⟩ := invoke_invoked hinvoke
      have hpassed : Passed.of (given ++ [(handleKeyword, .environment)]) =
          { Passed.of given with hasHandle := true } := Passed.of_snoc .environment
      refine ⟨hearlier, ?_, exec_bind_ok hhandle⟩
      rw [hpassed, hwants]
      rfl
    · simp only [finish, passHandle_of hwritten, if_neg hwants, pure_bind] at h ⊢
      obtain ⟨rfl, hearlier⟩ := invoke_invoked h
      refine ⟨hearlier, ?_, rfl⟩
      rw [Bool.not_eq_true] at hwants
      rw [hwants]
      rfl

theorem finish_clashed {keyword : String} {cloc : Location}
    (h : Occurs (finish st depth loc name p f keywords values given) machine (.clashed plugin keyword cloc)) :
    (p.wantsEnvironment ∧ handleKeyword ∈ given.map Prod.fst) ∧ plugin = name ∧ keyword = handleKeyword ∧
      cloc = loc := by
  by_cases hwants : p.wantsEnvironment
  · by_cases hgiven : handleKeyword ∈ given.map Prod.fst
    · rw [finish_clash hwritten hwants hgiven] at h
      obtain ⟨handle, mid, -, hfail⟩ := h.next handle_quiet
      cases hfail
      exact ⟨⟨hwants, hgiven⟩, rfl, rfl, rfl⟩
    · simp only [finish, passHandle_of hwritten, if_pos hwants, if_neg hgiven, bind_assoc, pure_bind] at h
      obtain ⟨handle, mid, -, hinvoke⟩ := h.next handle_quiet
      exact absurd hinvoke invoke_not_clashed
  · simp only [finish, passHandle_of hwritten, if_neg hwants, pure_bind] at h
    exact absurd h invoke_not_clashed

end Finish

/-- A call without arguments of a function that asks for the environment, while the sentinels are bound. -/
theorem exec_call_bare {nloc : Location} (hdepth : depth + 1 < st.limit)
    (hp : st.registry.get? name = some p) (hf : p.function? = some f) (hwants : p.wantsEnvironment)
    (hfree : st.registry.get? handleKey = none) (hm : machine.environment.HoldsSentinels) :
    exec (expr st depth (.call loc (.name nloc name) [] [])) machine =
      exec (invoke st loc name f [] ⟨[], true⟩) machine := by
  have hhandle : exec (expr st (depth + 1) Keyword.handle.value) machine = (.ok .environment, machine) := by
    rw [expr_handle, checkDepth, if_neg (Nat.not_le.mpr hdepth), pure_bind, lookup, hfree, exec_get_bind,
      hm.handle]
    rfl
  rw [expr_call (Nat.lt_of_succ_lt hdepth) rfl hp hf (fun _ _ => List.not_mem_nil) List.nodup_nil]
  simp only [List.map_nil, exprs, pure_bind, finish, passHandle_of (fun _ hk => absurd hk List.not_mem_nil),
    if_pos hwants, keywordNames, bind_assoc]
  exact exec_bind_ok hhandle

/-- Such a call of a function that asks one thing only. -/
theorem exec_call_ask {nloc : Location} (op : ViewOp) {next : op.Reply → Script Value} {value : Value}
    (hdepth : depth + 1 < st.limit) (hp : st.registry.get? name = some p) (hf : p.function? = some f)
    (hwants : p.wantsEnvironment) (hfree : st.registry.get? handleKey = none)
    (hm : machine.environment.HoldsSentinels)
    (hasks : st.host machine.calls.length f ⟨[], [], true⟩ = .ask op next)
    (hends : next (op.run machine.environment).1 = .done (.ok value)) :
    exec (expr st depth (.call loc (.name nloc name) [] [])) machine =
      (.ok value, ⟨(op.run machine.environment).2, ⟨f, ⟨[], [], true⟩, machine.environment⟩ :: machine.calls⟩) := by
  have hscript : (Script.ask op next).run machine.environment true =
      (.ok value, (op.run machine.environment).2) := by
    simp only [Script.run, if_true, hends]
  rw [exec_call_bare hdepth hp hf hwants hfree hm, exec_invoke]
  dsimp only
  rw [hasks, hscript]
  rfl

end Eval
end ConfigSandbox
