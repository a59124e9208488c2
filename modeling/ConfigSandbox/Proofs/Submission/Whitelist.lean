import ConfigSandbox.Plugin.Catalog
import ConfigSandbox.Proofs.Submission.Effects
import ConfigSandbox.Proofs.Submission.Validated

/-!
# One whitelist, checked twice

Evaluation refuses constructs on its own, without knowing what validation accepted. Here the two are
compared on every tree. What is accepted is never refused later, and what runs to its end would have
been accepted, but for hidden names, which evaluation has no opinion about.
-/
namespace ConfigSandbox

/-- The parts that a run comes to have been looked at. -/
theorem Reaches.validate {depth inner : Nat} {e part : Expr} (h : Reaches depth e inner part) :
    e.validate = .ok () → part.validate = .ok () := by
  induction h with
  | here => exact id
  | listItem he _ ih => exact fun hv => ih (validateAll_ok_iff.mp hv _ he)
  | setItem he _ ih => exact fun hv => ih (validateAll_ok_iff.mp hv _ he)
  | key he _ ih => exact fun hv => ih ((Expr.validate_dict_iff.mp hv).2 _ _ he).1
  | value he _ ih => exact fun hv => ih ((Expr.validate_dict_iff.mp hv).2 _ _ he).2
  | argument he _ ih => exact fun hv => ih ((Expr.validate_call_iff.mp hv).2.1 _ he)
  | keyword hk _ ih => exact fun hv => ih ((Expr.validate_call_iff.mp hv).2.2.2 _ hk)

/-- The error is not about a construct. -/
def ExecutionError.IsLegal (e : ExecutionError) : Prop :=
  ∀ construct, e.fault ≠ .illegalSyntax construct

namespace Eval

variable {α : Type} {st : Setting} {depth : Nat} {loc : Location}

/-! ### What is accepted is not refused later -/

theorem Raises.closed {E : ExecutionError → Prop} : Closed fun _ => Raises E :=
  ⟨Raises.pure, Raises.bind⟩

theorem fail_isLegal {fault : ExecutionFault} (h : ∀ construct, fault ≠ .illegalSyntax construct) :
    Raises ExecutionError.IsLegal (fail loc fault : Eval α) := Raises.fail h

theorem checkDepth_isLegal : Raises ExecutionError.IsLegal (checkDepth st depth loc) := by
  unfold checkDepth
  split
  · exact fail_isLegal (by simp)
  · exact Raises.pure ()

theorem checkHashable_isLegal (value : Value) :
    Raises ExecutionError.IsLegal (checkHashable value loc) := by
  unfold checkHashable
  split
  · exact Raises.pure ()
  · exact fail_isLegal (by simp)

theorem lookup_isLegal (name : String) : Raises ExecutionError.IsLegal (lookup st loc name) := by
  unfold lookup
  split
  · exact Raises.pure _
  · refine Raises.bind (fun m e m' h => by cases h) fun m => ?_
    split
    · exact Raises.pure _
    · exact fail_isLegal (by simp)

theorem addKeyword_isLegal (plugin : String) (passed : Passed) (name : String) (value : Value) :
    Raises ExecutionError.IsLegal (addKeyword loc plugin passed name value) := by
  unfold addKeyword
  split
  · exact fail_isLegal (by simp)
  · split
    · split <;> exact Raises.pure _
    · exact Raises.pure _

theorem passHandle_isLegal (plugin : String) (p : Plugin) (keywords : List Keyword)
    (passed : Passed) :
    Raises ExecutionError.IsLegal (passHandle st depth loc plugin p keywords passed) := by
  unfold passHandle
  split
  · refine Raises.bind checkDepth_isLegal fun _ => ?_
    refine Raises.bind (lookup_isLegal handleKey) fun handle => ?_
    exact addKeyword_isLegal plugin passed handleKeyword handle
  · exact Raises.pure passed

theorem invoke_isLegal (plugin : String) (f : Function) (args : List Value) (passed : Passed) :
    Raises ExecutionError.IsLegal (invoke st loc plugin f args passed) := by
  intro m e m' h
  rw [exec_invoke] at h
  dsimp only at h
  generalize (st.host m.calls.length f _).run m.environment passed.hasHandle = answer at h
  obtain ⟨result, env⟩ := answer
  cases result with
  | ok value => cases h
  | error fault =>
    cases h
    intro construct hc
    cases hc

/-- The steps at an accepted expression. Those that refuse a construct are never taken there. -/
theorem steps_isLegal {e : Expr} (hv : e.validate = .ok ()) :
    StepsAt (fun _ => Raises ExecutionError.IsLegal) st depth e := by
  constructor
  case entered => exact checkDepth_isLegal
  case name => exact fun loc id _ => lookup_isLegal id
  case item => exact fun _ _ _ _ _ value => checkHashable_isLegal value
  case key => exact fun _ _ _ _ _ _ value => checkHashable_isLegal value
  case refused =>
    intro he
    rw [Expr.validate_of_refused he] at hv
    cases hv
  case unpacked =>
    rintro loc entries rfl v hm
    exact absurd hm ((Expr.validate_dict_iff.mp hv).1 v)
  case call =>
    rintro loc func args keywords rfl
    obtain ⟨hfunc, -, hunpack, -⟩ := Expr.validate_call_iff.mp hv
    constructor
    case unnamed => exact fun hn => absurd hn hfunc
    case unpacked => exact fun kloc v hm => absurd hm (hunpack kloc v)
    case unknown => exact fun _ _ _ => fail_isLegal (by simp)
    case uncallable => exact fun _ _ _ _ _ => fail_isLegal (by simp)
    case named =>
      exact fun plugin _ name _ _ _ passed value => addKeyword_isLegal plugin passed name value
    case handle => exact fun name p _ _ passed => passHandle_isLegal name p keywords passed
    case invoked => exact fun name p f _ _ _ args passed => invoke_isLegal name f args passed

theorem expr_isLegal {e : Expr} (hv : e.validate = .ok ()) :
    Raises ExecutionError.IsLegal (expr st depth e) :=
  expr_closed Raises.closed st depth e fun _ _ hr => steps_isLegal (hr.validate hv)

theorem bindNew_isLegal (name : String) (value : Value) :
    Raises ExecutionError.IsLegal (bindNew loc name value) := by
  unfold bindNew
  refine Raises.bind (fun m e m' h => by cases h) fun m => ?_
  split
  · exact fail_isLegal (by simp)
  · intro m e m' h
    cases h

theorem statement_isLegal {reg : Registry} {s : Statement} (hs : s.validate reg = .ok ()) :
    Raises ExecutionError.IsLegal (statement st s) := by
  refine statement_closed Raises.closed ?_ ?_ ?_
  · intro tloc name value hkind
    obtain ⟨-, -, hv⟩ := (Statement.validate_assign_iff hkind).mp hs
    exact ⟨expr_isLegal hv, fun v => bindNew_isLegal name v⟩
  · intro loc func args keywords hkind
    exact expr_isLegal ((Statement.validate_call_iff hkind).mp hs)
  · exact fun hinvalid => absurd hs (hinvalid reg)

theorem statements_isLegal {reg : Registry} {body : List Statement}
    (hb : validateStatements reg body = .ok ()) : Raises ExecutionError.IsLegal (statements st body) :=
  statements_closed Raises.closed fun s hs =>
    statement_isLegal (validateStatements_ok_iff.mp hb s hs)

/-! ### What runs to its end would have been accepted -/

theorem exprs_succeeds {items : List Expr} (h : Succeeds (exprs st depth items)) :
    ∀ e ∈ items, Succeeds (expr st depth e) := by
  induction items with
  | nil => exact fun e he => by cases he
  | cons e rest ih =>
    obtain ⟨he, value, h⟩ := Succeeds.of_bind h
    exact List.forall_mem_cons.mpr ⟨he, ih h.of_bind.1⟩

theorem hashables_succeeds {items : List Expr} (h : Succeeds (hashables st depth items)) :
    ∀ e ∈ items, Succeeds (expr st depth e) := by
  induction items with
  | nil => exact fun e he => by cases he
  | cons e rest ih =>
    obtain ⟨he, value, h⟩ := Succeeds.of_bind h
    obtain ⟨-, -, h⟩ := h.of_bind
    exact List.forall_mem_cons.mpr ⟨he, ih h.of_bind.1⟩

theorem dictEntries_succeeds {entries : List DictEntry}
    (h : Succeeds (dictEntries st depth loc entries)) : (∀ v, .unpack v ∉ entries) ∧
      ∀ k v, .pair k v ∈ entries → Succeeds (expr st depth k) ∧ Succeeds (expr st depth v) := by
  induction entries with
  | nil => simp
  | cons entry rest ih =>
    cases entry with
    | unpack v => exact absurd h (not_succeeds_fail loc _)
    | pair key value =>
      obtain ⟨hkey, k, h⟩ := Succeeds.of_bind h
      obtain ⟨-, -, h⟩ := h.of_bind
      obtain ⟨hvalue, v, h⟩ := h.of_bind
      obtain ⟨hunpack, hpairs⟩ := ih h.of_bind.1
      constructor
      · intro v' hm
        rcases List.mem_cons.mp hm with hm | hm
        · cases hm
        · exact hunpack v' hm
      · intro k' v' hm
        rcases List.mem_cons.mp hm with hm | hm
        · cases hm
          exact ⟨hkey, hvalue⟩
        · exact hpairs k' v' hm

theorem namedArguments_succeeds {plugin : String} {keywords : List Keyword} {passed : Passed}
    (h : Succeeds (namedArguments st depth loc plugin passed keywords)) :
    (∀ kloc v, .unpack kloc v ∉ keywords) ∧
      ∀ k ∈ keywords, Succeeds (expr st depth k.value) := by
  induction keywords generalizing passed with
  | nil => simp
  | cons keyword rest ih =>
    cases keyword with
    | unpack kloc v => exact absurd h (not_succeeds_fail loc _)
    | named kloc name v =>
      obtain ⟨hv, value, h⟩ := Succeeds.of_bind h
      obtain ⟨-, after, h⟩ := h.of_bind
      obtain ⟨hunpack, hvalues⟩ := ih h
      refine ⟨fun kloc' v' hm => ?_, List.forall_mem_cons.mpr ⟨hv, hvalues⟩⟩
      rcases List.mem_cons.mp hm with hm | hm
      · cases hm
      · exact hunpack kloc' v' hm

theorem call_succeeds {func : Expr} {args : List Expr} {keywords : List Keyword}
    (h : Succeeds (expr st depth (.call loc func args keywords))) : func.name? ≠ none ∧
      (∀ e ∈ args, Succeeds (expr st (depth + 1) e)) ∧ (∀ kloc v, .unpack kloc v ∉ keywords) ∧
        ∀ k ∈ keywords, Succeeds (expr st (depth + 1) k.value) := by
  obtain ⟨-, -, h⟩ := Succeeds.of_bind h
  dsimp only at h
  cases hn : func.name? with
  | none =>
    rw [hn] at h
    exact absurd h (not_succeeds_fail func.loc _)
  | some name =>
    rw [hn] at h
    obtain ⟨-, callee, h⟩ := Succeeds.of_bind h
    obtain ⟨hargs, values, h⟩ := h.of_bind
    obtain ⟨hkeywords, -⟩ := h.of_bind
    exact ⟨by simp, exprs_succeeds hargs, namedArguments_succeeds hkeywords⟩

theorem validate_of_succeeds {e : Expr} (h : Succeeds (expr st depth e)) : e.validate = .ok () := by
  -- a success of the whole is one of each part, on some machine; which one does not matter
  induction e using Expr.induction_on_forms generalizing depth with
  | name loc id => rfl
  | constant loc value hv => rw [Expr.validate, if_pos hv]
  | list loc items ih =>
    obtain ⟨-, -, h⟩ := Succeeds.of_bind h
    have hitems := exprs_succeeds h.of_bind.1
    exact validateAll_ok_iff.mpr fun e he => ih e he (hitems e he)
  | set loc items ih =>
    obtain ⟨-, -, h⟩ := Succeeds.of_bind h
    have hitems := hashables_succeeds h.of_bind.1
    exact validateAll_ok_iff.mpr fun e he => ih e he (hitems e he)
  | dict loc entries ih =>
    obtain ⟨-, -, h⟩ := Succeeds.of_bind h
    obtain ⟨hunpack, hpairs⟩ := dictEntries_succeeds h.of_bind.1
    refine Expr.validate_dict_iff.mpr ⟨hunpack, fun k v he => ?_⟩
    obtain ⟨ihk, ihv⟩ := ih k v he
    exact ⟨ihk (hpairs k v he).1, ihv (hpairs k v he).2⟩
  | call loc func args keywords ihargs ihkeywords =>
    obtain ⟨hfunc, hargs, hunpack, hkeywords⟩ := call_succeeds h
    refine Expr.validate_call_iff.mpr ⟨hfunc, ?_, hunpack, ?_⟩
    · exact fun e he => ihargs e he (hargs e he)
    · exact fun k hk => ihkeywords k hk (hkeywords k hk)
  | refused e he =>
    rw [Expr.eval_of_refused st depth he] at h
    obtain ⟨-, -, h⟩ := h.of_bind
    exact absurd h (not_succeeds_fail e.loc _)

end Eval

/-- Without plugins, validation accepts or minds a hidden name and nothing else. -/
def OnlyHiddenNames (result : Except ValidationError Unit) : Prop :=
  result = .ok () ∨ ∃ loc name, result = .error (.assignmentAt loc (.hiddenName name))

theorem Statement.validate_of_succeeds {st : Setting} {s : Statement}
    (h : Eval.Succeeds (Eval.statement st s)) : OnlyHiddenNames (s.validate .empty) := by
  rcases Eval.statement_cases st s with ⟨tloc, name, value, hkind, hrun⟩ |
    ⟨loc, func, args, keywords, hkind, hrun⟩ | ⟨⟨loc, construct, hrun⟩, -⟩
  · rw [hrun] at h
    have hv := Eval.validate_of_succeeds h.of_bind.1
    by_cases hn : isHidden name
    · refine Or.inr ⟨tloc, name, ?_⟩
      have ht : validateTarget .empty (.name tloc name) =
          .error (.assignmentAt tloc (.hiddenName name)) := by
        simp [validateTarget, Expr.name?, Registry.contains, Registry.get?, Registry.empty, hn,
          Expr.loc]
      rw [validate, hkind]
      change (validateTarget .empty (.name tloc name) >>= fun _ => value.validate) = _
      rw [ht]
      rfl
    · exact Or.inl ((validate_assign_iff hkind).mpr ⟨rfl, by simpa using hn, hv⟩)
  · rw [hrun] at h
    exact Or.inl ((validate_call_iff hkind).mpr (Eval.validate_of_succeeds h.of_bind.1))
  · rw [hrun] at h
    exact absurd h (Eval.not_succeeds_fail loc _)

theorem validateStatements_of_succeeds {st : Setting} {body : List Statement}
    (h : Eval.Succeeds (Eval.statements st body)) :
    OnlyHiddenNames (validateStatements .empty body) := by
  induction body with
  | nil => exact Or.inl rfl
  | cons s rest ih =>
    obtain ⟨hs, -, h⟩ := Eval.Succeeds.of_bind h
    rw [validateStatements]
    rcases Statement.validate_of_succeeds hs with hs | ⟨loc, name, hs⟩
    · rw [hs]
      exact ih h
    · rw [hs]
      exact Or.inr ⟨loc, name, rfl⟩

namespace Module

variable {st : Setting} {env : Environment} {m : Module}

theorem run_isLegal {reg : Registry} (hv : m.validate reg = .ok ()) {e : ExecutionError}
    (h : (m.run st env).result = .error e) : e.IsLegal :=
  Eval.statements_isLegal hv ⟨env.withSentinels, []⟩ e _ (Prod.ext h rfl)

theorem validate_of_run (h : (m.run st env).result = .ok ()) :
    OnlyHiddenNames (m.validate .empty) := by
  apply validateStatements_of_succeeds
  exact ⟨⟨env.withSentinels, []⟩, (), _, Prod.ext h rfl⟩

/-- Validation and evaluation agree on the constructs that may run, whatever the plugins of the one
and of the other are, and however deep evaluation may go. -/
theorem run_agrees_with_validate (m : Module) :
    (∀ reg, m.validate reg = .ok () → ∀ st env e, (m.run st env).result = .error e →
      ∀ construct, e.fault ≠ .illegalSyntax construct) ∧
    (∀ st env, (m.run st env).result = .ok () → m.validate .empty = .ok () ∨
      ∃ loc name, m.validate .empty = .error (.assignmentAt loc (.hiddenName name))) :=
  ⟨fun _ hv _ _ _ h => run_isLegal hv h, fun _ _ h => validate_of_run h⟩

/-- A call that runs with its plugin and fails lawfully without. -/
theorem run_agrees_with_validate_call :
    let call : Expr := .call .synthetic (.name .synthetic "typename") [.list .synthetic []] []
    let m : Module := ⟨[⟨.synthetic, .expr call⟩]⟩
    let reg := Registry.empty.insert "typename" (.function ⟨"typename", false, 0⟩)
    m.validate reg = .ok () ∧ (m.run ⟨reg, Catalog.host, 9⟩ .empty).result = .ok () ∧
      (m.run ⟨.empty, Catalog.host, 9⟩ .empty).result =
        .error ⟨.unknownPlugin "typename", .synthetic⟩ ∧
      (∀ construct, ExecutionFault.unknownPlugin "typename" ≠ .illegalSyntax construct) ∧
      (m.validate .empty = .ok () ∨
        ∃ loc name, m.validate .empty = .error (.assignmentAt loc (.hiddenName name))) := by
  intro call m reg
  have hv : m.validate reg = .ok () := rfl
  have hrun : (m.run ⟨reg, Catalog.host, 9⟩ .empty).result = .ok () := rfl
  have hfail : (m.run ⟨.empty, Catalog.host, 9⟩ .empty).result =
      .error ⟨.unknownPlugin "typename", .synthetic⟩ := rfl
  obtain ⟨hlegal, haccepted⟩ := run_agrees_with_validate m
  exact ⟨hv, hrun, hfail, hlegal reg hv _ _ _ hfail, haccepted _ _ hrun⟩

end Module
end ConfigSandbox
