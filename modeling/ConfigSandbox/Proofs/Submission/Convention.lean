import ConfigSandbox.Proofs.Submission.Depth
import ConfigSandbox.Proofs.Submission.Passing

/-!
# How functions are called

The builder, the rule that adds the environment and the evaluator each look for keywords that are given twice.
Of a text that was parsed the names are distinct already, so the evaluator can find one only that was added; the
added one is told from a written one by its place, which no text has.
-/
namespace ConfigSandbox

/-- The expression that a statement evaluates, if it is one that may run. -/
def StatementKind.value? : StatementKind → Option Expr
  | .assign [_] value | .expr value => some value
  | _ => none

/-- A call, and the machine with which a run arrives at it. -/
structure CallAt where
  depth : Nat
  loc : Location
  func : Expr
  args : List Expr
  keywords : List Keyword
  before : Machine

namespace CallAt

def call (c : CallAt) : Expr := .call c.loc c.func c.args c.keywords

/-- The names of its keywords, in source order. -/
def names (c : CallAt) : List String := keywordNames c.keywords

/-- The plugin that it calls, and the name by which it does. -/
def Calls (c : CallAt) (st : Setting) (name : String) (p : Plugin) : Prop :=
  c.func.name? = some name ∧ st.registry.get? name = some p

/-- Its operands, evaluated in source order and the positional ones first, have these values, which leaves the
last machine. -/
def Evaluates (c : CallAt) (st : Setting) (values named : List Value) (last : Machine) : Prop :=
  ∃ mid, Eval.exec (Eval.exprs st (c.depth + 1) c.args) c.before = (.ok values, mid) ∧
    Eval.exec (Eval.exprs st (c.depth + 1) (c.keywords.map Keyword.value)) mid = (.ok named, last)

/-- It writes the keyword for the environment, and its plugin asks for the environment. -/
def Clashes (c : CallAt) (p : Plugin) : Prop := p.wantsEnvironment = true ∧ handleKeyword ∈ c.names

/-- It is not too deep, and the event occurs once its operands are evaluated. -/
def Ends (c : CallAt) (st : Setting) (event : Eval.Event) : Prop :=
  c.depth < st.limit ∧ ∃ name p f values named last, c.Calls st name p ∧ p.function? = some f ∧
    c.Evaluates st values named last ∧
    Eval.Occurs (Eval.finish st (c.depth + 1) c.loc name p f c.keywords values (c.names.zip named)) last event

end CallAt

/-- Keywords as a text that is parsed and validated has them. -/
structure Keyword.ArePlain (keywords : List Keyword) : Prop where
  named : ∀ loc value, .unpack loc value ∉ keywords
  nodup : (keywordNames keywords).Nodup
  written : ∀ k ∈ keywords, k.isHandle = false

namespace Eval

variable {st : Setting} {depth : Nat} {loc : Location} {machine : Machine} {event : Event} {func : Expr}
  {args : List Expr} {keywords : List Keyword}

theorem callee_quiet {name : String} : Quiet (callee st loc name) := by
  unfold callee
  split
  · exact .fail fun _ _ h => by cases h
  · split
    · exact .fail fun _ _ h => by cases h
    · exact .pure _

theorem callee_ok {name : String} {p : Plugin} {f : Function} {mid : Machine}
    (h : exec (callee st loc name) machine = (.ok (p, f), mid)) :
    st.registry.get? name = some p ∧ p.function? = some f := by
  unfold callee at h
  split at h
  · cases h
  · rename_i hp
    split at h
    · cases h
    · rename_i hf
      cases h
      exact ⟨hp, hf⟩

/-- What happens at a call happens at an operand or after all of them. -/
theorem call_occurs (hplain : Keyword.ArePlain keywords)
    (h : Occurs (expr st depth (.call loc func args keywords)) machine event) :
    OccursIn st (depth + 1) (args ++ keywords.map Keyword.value) machine event ∨
      (CallAt.mk depth loc func args keywords machine).Ends st event := by
  obtain ⟨_, mid, hcheck, hbody⟩ := h.next checkDepth_quiet
  obtain ⟨hdepth, rfl⟩ := exec_checkDepth_iff.mp hcheck
  dsimp only at hbody
  cases hn : func.name? with
  | none =>
    rw [hn] at hbody
    exact absurd hbody (Quiet.fail (fun _ _ h => by cases h) _ _)
  | some name =>
    rw [hn] at hbody
    obtain ⟨⟨p, f⟩, _, hcallee, -⟩ := hbody.next callee_quiet
    obtain ⟨hp, hf⟩ := callee_ok hcallee
    rw [expr_call hdepth hn hp hf hplain.named hplain.nodup] at h
    rcases h.bind with h | ⟨values, mid, hargs, h⟩
    · exact Or.inl ((OccursIn.split h).append_left _)
    · rcases h.bind with h | ⟨named, last, hkeywords, h⟩
      · exact Or.inl (.append_right hargs (.split h))
      · exact Or.inr ⟨hdepth, name, p, f, values, named, last, ⟨hn, hp⟩, hf, ⟨mid, hargs, hkeywords⟩, h⟩

theorem expr_occurs_cases {e : Expr}
    (hplain : ∀ loc func args keywords, e = .call loc func args keywords → Keyword.ArePlain keywords)
    (h : Occurs (expr st depth e) machine event) : OccursIn st (depth + 1) e.operands machine event ∨
      ∃ c : CallAt, c.depth = depth ∧ c.call = e ∧ c.before = machine ∧ c.Ends st event := by
  by_cases hrefused : e.isRefused
  · rw [Expr.eval_of_refused st depth hrefused] at h
    exact absurd h (checkDepth_quiet.bind (fun _ => .fail fun _ _ h => by cases h) machine event)
  · have hsteps := h
    rw [expr.eq_def] at hsteps
    obtain ⟨_, mid, hcheck, hbody⟩ := hsteps.next checkDepth_quiet
    obtain ⟨-, rfl⟩ := exec_checkDepth_iff.mp hcheck
    cases e with
    | name loc id => exact absurd hbody (lookup_quiet id mid event)
    | constant loc value => exact absurd hbody (constant_quiet value mid event)
    | list loc items => exact Or.inl (.split (hbody.first fun _ => .pure _))
    | set loc items => exact Or.inl (hashables_occurs (hbody.first fun _ => .pure _))
    | dict loc entries => exact Or.inl (dictEntries_occurs (hbody.first fun _ => .pure _))
    | call loc func args keywords =>
      rcases call_occurs (hplain loc func args keywords rfl) h with hin | hends
      · exact Or.inl hin
      · exact Or.inr ⟨_, rfl, rfl, rfl, hends⟩
    | _ => exact absurd rfl hrefused

/-- What happens while an expression is evaluated happens at a call in it, after the operands of the call. -/
theorem expr_occurs {e : Expr} (hplain : ∀ inner loc func args keywords,
      Reaches depth e inner (.call loc func args keywords) → Keyword.ArePlain keywords)
    (h : Occurs (expr st depth e) machine event) :
    ∃ c : CallAt, Arrives st depth e machine c.depth c.call c.before ∧ c.Ends st event := by
  induction e using Expr.induction_on_operands generalizing depth machine with
  | step e ih =>
    have hhere (loc func args keywords) (he : e = .call loc func args keywords) :
        Keyword.ArePlain keywords := hplain depth loc func args keywords (he ▸ .here ..)
    rcases expr_occurs_cases hhere h with ⟨front, next, back, values, mid, hsplit, hfront, hnext⟩ |
      ⟨c, rfl, rfl, rfl, hends⟩
    · have hmem : next ∈ e.operands := hsplit ▸ List.mem_append_right _ List.mem_cons_self
      have hbelow := fun inner loc func args keywords hr =>
        hplain inner loc func args keywords (.operand hmem hr)
      obtain ⟨c, harrives, hends⟩ := ih next hmem hbelow hnext
      exact ⟨c, .operand hsplit hfront harrives, hends⟩
    · exact ⟨c, .here .., hends⟩

/-! ### Runs -/

theorem statement_occurs {s : Statement} (h : Occurs (statement st s) machine event) :
    ∃ e, s.kind.value? = some e ∧ Occurs (expr st 0 e) machine event := by
  rcases statement_cases st s with ⟨tloc, name, value, hkind, hrun⟩ |
    ⟨loc, func, args, keywords, hkind, hrun⟩ | ⟨⟨loc, construct, hrun⟩, -⟩
  · rw [hrun] at h
    exact ⟨value, by rw [hkind]; rfl, h.first fun v => bindNew_quiet name v⟩
  · rw [hrun] at h
    exact ⟨_, by rw [hkind]; rfl, h.first fun _ => .pure ()⟩
  · rw [hrun] at h
    exact absurd h (Quiet.fail (fun _ _ h => by cases h) machine event)

theorem statements_occurs {body : List Statement} (h : Occurs (statements st body) machine event) :
    ∃ done s rest mid, body = done ++ s :: rest ∧ exec (statements st done) machine = (.ok (), mid) ∧
      Occurs (statement st s) mid event := by
  induction body generalizing machine with
  | nil => exact absurd h (Quiet.pure () machine event)
  | cons s rest ih =>
    rcases h.bind with h | ⟨_, mid, hs, h⟩
    · exact ⟨[], s, rest, machine, rfl, rfl, h⟩
    · obtain ⟨done, s', rest, last, rfl, hdone, hstatement⟩ := ih h
      refine ⟨s :: done, s', rest, last, rfl, ?_, hstatement⟩
      rw [statements, exec_bind_ok hs, hdone]

theorem exprs_length {es : List Expr} {values : List Value} {mid : Machine}
    (h : exec (exprs st depth es) machine = (.ok values, mid)) : values.length = es.length := by
  induction es generalizing machine values with
  | nil =>
    cases h
    rfl
  | cons e rest ih =>
    obtain ⟨value, mid, -, h⟩ := exec_bind_ok_iff.mp h
    obtain ⟨more, last, hrest, h⟩ := exec_bind_ok_iff.mp h
    cases h
    rw [List.length_cons, List.length_cons, ih hrest]

theorem lt_of_expr {e : Expr} {value : Value} {mid : Machine}
    (h : exec (expr st depth e) machine = (.ok value, mid)) : depth < st.limit := by
  rw [expr.eq_def] at h
  obtain ⟨_, mid, hcheck, -⟩ := exec_bind_ok_iff.mp h
  exact (exec_checkDepth_iff.mp hcheck).1

theorem lt_of_exprs {e : Expr} {es : List Expr} {values : List Value} {mid : Machine}
    (h : exec (exprs st depth es) machine = (.ok values, mid)) (he : e ∈ es) : depth < st.limit := by
  cases es with
  | nil => cases he
  | cons first rest =>
    obtain ⟨value, mid, hfirst, -⟩ := exec_bind_ok_iff.mp h
    exact lt_of_expr hfirst

theorem exec_expr_beyond (hlimit : st.limit ≤ depth) (e : Expr) (machine : Machine) :
    exec (expr st depth e) machine = (.error ⟨.tooDeep (depth + 1) st.limit, e.loc⟩, machine) := by
  rw [expr.eq_def, checkDepth, if_pos hlimit]
  rfl

/-- Where the first of them is too deep, none is evaluated. -/
theorem exec_exprs_beyond {es : List Expr} (hlimit : st.limit ≤ depth) (machine : Machine) :
    (exec (exprs st depth es) machine).2 = machine := by
  cases es with
  | nil => rfl
  | cons e rest => rw [exprs, exec_bind_error (exec_expr_beyond hlimit e machine)]

theorem exprs_hold {es : List Expr} {result : Except ExecutionError (List Value)} {mid : Machine}
    (h : exec (exprs st depth es) machine = (result, mid)) (hm : machine.environment.HoldsSentinels) :
    mid.environment.HoldsSentinels := by
  have hguarded : Moves Guarded (exprs st depth es) :=
    exprs_closed (respects_guarded st).closed fun e _ => (respects_guarded st).expr depth e
  have hmid := (hguarded machine hm).1
  rwa [h] at hmid

theorem Arrives.holds {e part : Expr} {inner : Nat} {last : Machine}
    (h : Arrives st depth e machine inner part last) (hm : machine.environment.HoldsSentinels) :
    last.environment.HoldsSentinels := by
  induction h with
  | here => exact hm
  | operand _ hfront _ ih => exact ih (exprs_hold hfront hm)

end Eval

theorem Plugin.function_of_wantsEnvironment {p : Plugin} (h : p.wantsEnvironment) :
    ∃ f, p.function? = some f := by
  unfold Plugin.wantsEnvironment at h
  cases hf : p.function? with
  | none =>
    rw [hf] at h
    cases h
  | some f => exact ⟨f, rfl⟩

namespace CallAt

variable {c : CallAt} {st : Setting} {values named : List Value} {last : Machine}

theorem Evaluates.holds (h : c.Evaluates st values named last)
    (hc : c.before.environment.HoldsSentinels) : last.environment.HoldsSentinels := by
  obtain ⟨mid, hargs, hkeywords⟩ := h
  exact Eval.exprs_hold hkeywords (Eval.exprs_hold hargs hc)

theorem Evaluates.length_eq (h : c.Evaluates st values named last) (hplain : Keyword.ArePlain c.keywords) :
    c.names.length = named.length := by
  obtain ⟨mid, -, hkeywords⟩ := h
  rw [Eval.exprs_length hkeywords, List.length_map]
  exact length_keywordNames hplain.named

theorem Evaluates.names_eq (h : c.Evaluates st values named last) (hplain : Keyword.ArePlain c.keywords) :
    (c.names.zip named).map Prod.fst = c.names :=
  List.map_fst_zip (Nat.le_of_eq (h.length_eq hplain))

theorem Evaluates.lt_limit (h : c.Evaluates st values named last) (hwrites : handleKeyword ∈ c.names) :
    c.depth < st.limit := by
  obtain ⟨mid, -, hkeywords⟩ := h
  obtain ⟨k, hk, -⟩ := List.mem_filterMap.mp hwrites
  have hlt : c.depth + 1 < st.limit := Eval.lt_of_exprs hkeywords (List.mem_map_of_mem hk)
  omega

/-- What remains of a call once its operands are evaluated. -/
theorem Evaluates.exec_eq {name : String} {p : Plugin} {f : Function} (h : c.Evaluates st values named last)
    (hplain : Keyword.ArePlain c.keywords) (hdepth : c.depth < st.limit) (hcalls : c.Calls st name p)
    (hf : p.function? = some f) : Eval.exec (Eval.expr st c.depth c.call) c.before =
      Eval.exec (Eval.finish st (c.depth + 1) c.loc name p f c.keywords values (c.names.zip named)) last := by
  obtain ⟨mid, hargs, hkeywords⟩ := h
  rw [call, Eval.expr_call hdepth hcalls.1 hcalls.2 hf hplain.named hplain.nodup, Eval.exec_bind_ok hargs,
    Eval.exec_bind_ok hkeywords]
  rfl

/-- A call that clashes fails, and leaves the machine as its operands leave it. -/
theorem Clashes.exec_eq {name : String} {p : Plugin} (h : c.Clashes p) (hplain : Keyword.ArePlain c.keywords)
    (hcalls : c.Calls st name p) : ∃ err, Eval.exec (Eval.expr st c.depth c.call) c.before =
      (.error err, (Eval.exec (Eval.exprs st (c.depth + 1) c.call.operands) c.before).2) := by
  by_cases hdepth : c.depth < st.limit
  · obtain ⟨f, hf⟩ := Plugin.function_of_wantsEnvironment h.1
    rw [call, Eval.expr_call hdepth hcalls.1 hcalls.2 hf hplain.named hplain.nodup, Expr.operands,
      Eval.exprs_append]
    rcases hargs : Eval.exec (Eval.exprs st (c.depth + 1) c.args) c.before with ⟨err | values, mid⟩
    · exact ⟨err, by rw [Eval.exec_bind_error hargs, Eval.exec_bind_error hargs]⟩
    · rw [Eval.exec_bind_ok hargs, Eval.exec_bind_ok hargs]
      rcases hkeywords : Eval.exec (Eval.exprs st (c.depth + 1) (c.keywords.map Keyword.value)) mid with
        ⟨err | named, last⟩
      · exact ⟨err, by rw [Eval.exec_bind_error hkeywords, Eval.exec_bind_error hkeywords]⟩
      · have hevaluates : c.Evaluates st values named last := ⟨mid, hargs, hkeywords⟩
        have hgiven := h.2
        rw [← hevaluates.names_eq hplain] at hgiven
        rw [Eval.exec_bind_ok hkeywords, Eval.exec_bind_ok hkeywords]
        exact Eval.exec_finish_clash hplain.written h.1 hgiven
  · have hlimit := Nat.not_lt.mp hdepth
    rw [Eval.exec_exprs_beyond (Nat.le_succ_of_le hlimit)]
    exact ⟨_, Eval.exec_expr_beyond hlimit _ _⟩

end CallAt

namespace Module

variable {limit : Nat} {source : String} {st : Setting} {env : Environment} {m : Module} {c : CallAt}

/-- A run arrives at the call. -/
def ArrivesAt (st : Setting) (env : Environment) (m : Module) (c : CallAt) : Prop :=
  ∃ done s rest e mid, m.body = done ++ s :: rest ∧ s.kind.value? = some e ∧
    Eval.exec (Eval.statements st done) ⟨env.withSentinels, []⟩ = (.ok (), mid) ∧
    Eval.Arrives st 0 e mid c.depth c.call c.before

theorem mem_exprs_of_value? {done rest : List Statement} {s : Statement} {e : Expr}
    (hbody : m.body = done ++ s :: rest) (hvalue : s.kind.value? = some e) : e ∈ m.exprs := by
  have hmem : s ∈ m.body := by simp [hbody]
  refine List.mem_flatMap.mpr ⟨s, hmem, ?_⟩
  unfold StatementKind.value? at hvalue
  split at hvalue
  · rename_i target value hkind
    cases hvalue
    simp [hkind, StatementKind.exprs]
  · rename_i value hkind
    cases hvalue
    simp [hkind, StatementKind.exprs]
  · cases hvalue

theorem ArrivesAt.reaches (h : m.ArrivesAt st env c) : m.Reaches c.depth c.call := by
  obtain ⟨done, s, rest, e, mid, hbody, hvalue, -, harrives⟩ := h
  exact ⟨e, mem_exprs_of_value? hbody hvalue, harrives.reaches⟩

theorem ArrivesAt.holds (h : m.ArrivesAt st env c) : c.before.environment.HoldsSentinels := by
  obtain ⟨done, s, rest, e, mid, -, -, hdone, harrives⟩ := h
  have hmid := (Eval.statements_guarded st done ⟨env.withSentinels, []⟩ env.withSentinels_holds).1
  rw [hdone] at hmid
  exact harrives.holds hmid

theorem keywords_arePlain {inner : Nat} {loc : Location} {func : Expr} {args : List Expr}
    {keywords : List Keyword} {reg : Registry} (hm : Module.parse limit source = .ok m)
    (hv : m.validate reg = .ok ()) (hr : m.Reaches inner (.call loc func args keywords)) :
    Keyword.ArePlain keywords := by
  refine ⟨?_, nodup_keywordNames hm hr, not_isHandle hm hr⟩
  obtain ⟨e, he, hr⟩ := hr
  exact (Expr.validate_call_iff.mp (hr.validate (validate_exprs hv he))).2.2.1

theorem run_occurs {event : Eval.Event} {reg : Registry} (hm : Module.parse limit source = .ok m)
    (hv : m.validate reg = .ok ())
    (h : Eval.Occurs (Eval.statements st m.body) ⟨env.withSentinels, []⟩ event) :
    ∃ c, m.ArrivesAt st env c ∧ c.Ends st event := by
  obtain ⟨done, s, rest, mid, hbody, hdone, h⟩ := Eval.statements_occurs h
  obtain ⟨e, hvalue, h⟩ := Eval.statement_occurs h
  have he := mem_exprs_of_value? hbody hvalue
  obtain ⟨c, harrives, hends⟩ := Eval.expr_occurs
    (fun inner loc func args keywords hr => keywords_arePlain hm hv ⟨e, he, hr⟩) h
  exact ⟨c, ⟨done, s, rest, e, mid, hbody, hvalue, hdone, harrives⟩, hends⟩

/-! ### What is passed, and what is refused -/

/-- How functions are called. A function that is invoked receives the values of the positional arguments and of
the keywords of its call, each in source order; no name is given twice, and what is given as `env` and is the
environment is passed as the handle instead. There is a handle if it is given so, or if the plugin asks for it.
The host runs the function with just this, and its answer is that of the call.
A call that writes `env` to a plugin that asks for the environment leaves the machine as its operands leave it,
and if they evaluate and the environment does too, the keyword is refused as given twice. Nothing else is. -/
theorem run_convention {reg : Registry} (hm : Module.parse limit source = .ok m)
    (hv : m.validate reg = .ok ()) (hfree : st.registry.get? handleKey = none) :
    (∀ i earlier, i :: earlier <:+ (m.run st env).calls → ∃ c name p named, m.ArrivesAt st env c ∧
      c.Calls st name p ∧ p.function? = some i.function ∧
      c.Evaluates st i.call.args named ⟨i.environment, earlier⟩ ∧ c.names.length = named.length ∧
      c.names.Nodup ∧ (i.call.kwargs.map Prod.fst).Nodup ∧
      i.call.kwargs = (c.names.zip named).filter (fun given => !passesHandle given) ∧
      (i.call.hasHandle = true ↔
        p.wantsEnvironment = true ∨ ∃ given ∈ c.names.zip named, passesHandle given = true) ∧
      (let answer := (st.host earlier.length i.function i.call).run i.environment i.call.hasHandle
       Eval.exec (Eval.expr st c.depth c.call) c.before =
        (answer.1.mapError fun err => ⟨.plugin name err, c.loc⟩, ⟨answer.2, i :: earlier⟩)) ∧
      ¬ c.Clashes p) ∧
    (∀ c name p, m.ArrivesAt st env c → c.Calls st name p → c.Clashes p →
      (∃ err, Eval.exec (Eval.expr st c.depth c.call) c.before =
        (.error err, (Eval.exec (Eval.exprs st (c.depth + 1) c.call.operands) c.before).2)) ∧
      ∀ values named last handle last', c.Evaluates st values named last →
        Eval.exec (Eval.expr st (c.depth + 1) Keyword.handle.value) last = (.ok handle, last') →
        Eval.exec (Eval.expr st c.depth c.call) c.before =
          (.error ⟨.duplicateKeyword name handleKeyword, c.loc⟩, last)) ∧
    (∀ plugin keyword loc, (m.run st env).result = .error ⟨.duplicateKeyword plugin keyword, loc⟩ →
      keyword = handleKeyword ∧ ∃ c p, m.ArrivesAt st env c ∧ c.loc = loc ∧ c.Calls st plugin p ∧
        c.Clashes p ∧ (Eval.exec (Eval.expr st c.depth c.call) c.before).1 =
          .error ⟨.duplicateKeyword plugin keyword, loc⟩) := by
  refine ⟨fun i earlier hi => ?_, fun c name p hc hcalls hclash => ?_, fun plugin keyword loc h => ?_⟩
  · have hoccurs : Eval.Occurs (Eval.statements st m.body) ⟨env.withSentinels, []⟩ (.invoked i earlier) :=
      ⟨hi, by simp⟩
    obtain ⟨c, hc, hdepth, name, p, f, values, named, last, hcalls, hf, hevaluates, hends⟩ :=
      run_occurs hm hv hoccurs
    have hplain := keywords_arePlain hm hv hc.reaches
    obtain ⟨hclash, rfl, rfl, hinvoke⟩ := Eval.finish_invoked hplain.written hfree (hevaluates.holds hc.holds) hends
    rw [hevaluates.names_eq hplain] at hclash
    rw [← hevaluates.exec_eq hplain hdepth hcalls hf, Eval.exec_invoke] at hinvoke
    have hkept : (((c.names.zip named).filter fun given => !passesHandle given).map Prod.fst).Nodup := by
      refine List.Nodup.sublist (List.filter_sublist.map Prod.fst) ?_
      rw [hevaluates.names_eq hplain]
      exact hplain.nodup
    refine ⟨c, name, p, named, hc, hcalls, hf, hevaluates, hevaluates.length_eq hplain, hplain.nodup, hkept,
      rfl, ?_, hinvoke, hclash⟩
    rw [Bool.or_eq_true, List.any_eq_true]
  · have hplain := keywords_arePlain hm hv hc.reaches
    refine ⟨hclash.exec_eq hplain hcalls, fun values named last handle last' hevaluates hhandle => ?_⟩
    obtain ⟨f, hf⟩ := Plugin.function_of_wantsEnvironment hclash.1
    have hgiven := hclash.2
    rw [← hevaluates.names_eq hplain] at hgiven
    rw [hevaluates.exec_eq hplain (hevaluates.lt_limit hclash.2) hcalls hf]
    exact Eval.exec_finish_duplicate hplain.written hclash.1 hgiven hhandle
  · have hoccurs : Eval.Occurs (Eval.statements st m.body) ⟨env.withSentinels, []⟩
        (.clashed plugin keyword loc) := h
    obtain ⟨c, hc, -, name, p, f, values, named, last, hcalls, hf, hevaluates, hends⟩ :=
      run_occurs hm hv hoccurs
    have hplain := keywords_arePlain hm hv hc.reaches
    obtain ⟨hclash, rfl, rfl, rfl⟩ := Eval.finish_clashed hplain.written hends
    rw [hevaluates.names_eq hplain] at hclash
    refine ⟨rfl, c, p, hc, rfl, hcalls, hclash, ?_⟩
    rw [hevaluates.exec_eq hplain (hevaluates.lt_limit hclash.2) hcalls hf]
    exact hends

/-- The environment given to a function that does not ask for it, by the name of a constant. -/
theorem run_convention_given :
    let st : Setting := ⟨(Registry.empty.insert "seen" (.function ⟨"seen", false, 0⟩)).insert "here"
      (.constant .environment), Catalog.host, 9⟩
    ∃ m i, Module.parse 9 "seen(1, env=here, b=2)" = .ok m ∧ m.validate st.registry = .ok () ∧
      st.registry.get? handleKey = none ∧ (m.run st .empty).calls = [i] ∧ i.call.hasHandle = true ∧
      i.call.kwargs.map Prod.fst = ["b"] ∧
      ∃ c name p named, m.ArrivesAt st .empty c ∧ c.Calls st name p ∧ p.wantsEnvironment = false ∧
        ∃ given ∈ c.names.zip named, passesHandle given = true := by
  intro st
  have htest : ((Module.parse 9 "seen(1, env=here, b=2)").map fun m => m.validate st.registry) =
      .ok (.ok ()) := by decide +kernel
  have hmade : ((Module.parse 9 "seen(1, env=here, b=2)").map fun m => (m.run st .empty).calls.map fun i =>
      (i.function.wantsEnvironment, i.call.hasHandle, i.call.kwargs.map Prod.fst)) =
      .ok [(false, true, ["b"])] := by decide +kernel
  obtain ⟨m, hm, hv⟩ := exists_of_map_eq_ok htest
  rw [hm] at hmade
  obtain ⟨i, hcalls, hi⟩ := List.map_eq_singleton_iff.mp (Except.ok.inj hmade)
  simp only [Prod.mk.injEq] at hi
  obtain ⟨hwants, hhandle, hnames⟩ := hi
  have hfree : st.registry.get? handleKey = none := by decide +kernel
  have hsuffix : i :: [] <:+ (m.run st .empty).calls := hcalls.symm ▸ List.suffix_refl _
  obtain ⟨c, name, p, named, hc, hcallee, hf, -, -, -, -, -, hpassed, -⟩ :=
    (run_convention hm hv hfree).1 i [] hsuffix
  have hplain : p.wantsEnvironment = false := by rw [Plugin.wantsEnvironment, hf, Option.any_some, hwants]
  have hgiven := (hpassed.mp hhandle).resolve_left (by simp [hplain])
  exact ⟨m, i, hm, hv, hfree, hcalls, hhandle, hnames, c, name, p, named, hc, hcallee, hplain, hgiven⟩

end Module
end ConfigSandbox
