import ConfigSandbox.Proofs.Submission.Blame

/-!
# A run under a higher limit

The limit is looked at where an expression is entered and where a handle is passed, and whoever finds it
exceeded ends the run. A higher limit therefore makes a difference only to runs that the lower one ends.
-/
namespace ConfigSandbox

/-- The same plugins and functions, under another limit. -/
def Setting.withLimit (st : Setting) (limit : Nat) : Setting := { st with limit := limit }

namespace Eval

variable {α β : Type} {st : Setting} {limit limit' depth : Nat} {loc : Location}

/-- From every machine the first computation ends with an error of depth, or the second does the same. -/
def Outlasted (x y : Eval α) : Prop :=
  ∀ m, (∃ err m', exec x m = (.error err, m') ∧ err.fault.isDepth) ∨ exec y m = exec x m

theorem Outlasted.refl (x : Eval α) : Outlasted x x := fun _ => Or.inr rfl

theorem Outlasted.bind {x y : Eval α} {f g : α → Eval β} (hx : Outlasted x y)
    (hf : ∀ a, Outlasted (f a) (g a)) : Outlasted (x >>= f) (y >>= g) := by
  intro m
  obtain ⟨err, m', hr, hdepth⟩ | hsame := hx m
  · exact Or.inl ⟨err, m', exec_bind_error hr, hdepth⟩
  · rcases hr : exec x m with ⟨err | a, m'⟩ <;> rw [hr] at hsame
    · right
      rw [exec_bind_error hr, exec_bind_error hsame]
    · rw [exec_bind_ok hr, exec_bind_ok hsame]
      exact hf a m'

/-! ### Expressions -/

variable (hlimit : limit ≤ limit')
include hlimit

theorem checkDepth_outlasted :
    Outlasted (checkDepth (st.withLimit limit) depth loc) (checkDepth (st.withLimit limit') depth loc) := by
  intro m
  have hrun (limit : Nat) : checkDepth (st.withLimit limit) depth loc =
      if limit ≤ depth then fail loc (.tooDeep (depth + 1) limit) else pure () := rfl
  rw [hrun, hrun]
  by_cases hd : limit ≤ depth
  · rw [if_pos hd]
    exact Or.inl ⟨_, m, exec_fail _ _ m, rfl⟩
  · right
    rw [if_neg hd, if_neg fun hd' => hd (Nat.le_trans hlimit hd')]

theorem passHandle_outlasted (plugin : String) (p : Plugin) (keywords : List Keyword) (passed : Passed) :
    Outlasted (passHandle (st.withLimit limit) depth loc plugin p keywords passed)
      (passHandle (st.withLimit limit') depth loc plugin p keywords passed) := by
  unfold passHandle
  split
  · exact .bind (checkDepth_outlasted hlimit) fun _ => .refl _
  · exact .refl _

omit hlimit

theorem exprs_outlasted {items : List Expr} (h : ∀ e ∈ items,
      Outlasted (expr (st.withLimit limit) depth e) (expr (st.withLimit limit') depth e)) :
    Outlasted (exprs (st.withLimit limit) depth items) (exprs (st.withLimit limit') depth items) := by
  induction items with
  | nil => exact .refl _
  | cons e rest ih =>
    obtain ⟨he, hrest⟩ := List.forall_mem_cons.mp h
    exact .bind he fun value => .bind (ih hrest) fun values => .refl _

theorem hashables_outlasted {items : List Expr} (h : ∀ e ∈ items,
      Outlasted (expr (st.withLimit limit) depth e) (expr (st.withLimit limit') depth e)) :
    Outlasted (hashables (st.withLimit limit) depth items)
      (hashables (st.withLimit limit') depth items) := by
  induction items with
  | nil => exact .refl _
  | cons e rest ih =>
    obtain ⟨he, hrest⟩ := List.forall_mem_cons.mp h
    exact .bind he fun value => .bind (.refl _) fun _ => .bind (ih hrest) fun values => .refl _

theorem dictEntries_outlasted {entries : List DictEntry} (h : ∀ k v, .pair k v ∈ entries →
      Outlasted (expr (st.withLimit limit) depth k) (expr (st.withLimit limit') depth k) ∧
        Outlasted (expr (st.withLimit limit) depth v) (expr (st.withLimit limit') depth v)) :
    Outlasted (dictEntries (st.withLimit limit) depth loc entries)
      (dictEntries (st.withLimit limit') depth loc entries) := by
  induction entries with
  | nil => exact .refl _
  | cons entry rest ih =>
    cases entry with
    | unpack v => exact .refl _
    | pair k v =>
      obtain ⟨hkey, hvalue⟩ := h k v List.mem_cons_self
      refine .bind hkey fun key => .bind (.refl _) fun _ => .bind hvalue fun value => .bind ?_ fun _ => .refl _
      exact ih fun k' v' he => h k' v' (List.mem_cons_of_mem _ he)

theorem namedArguments_outlasted {keywords : List Keyword} (h : ∀ k ∈ keywords,
      Outlasted (expr (st.withLimit limit) depth k.value) (expr (st.withLimit limit') depth k.value))
    (plugin : String) (passed : Passed) :
    Outlasted (namedArguments (st.withLimit limit) depth loc plugin passed keywords)
      (namedArguments (st.withLimit limit') depth loc plugin passed keywords) := by
  induction keywords generalizing passed with
  | nil => exact .refl _
  | cons k rest ih =>
    obtain ⟨hk, hrest⟩ := List.forall_mem_cons.mp h
    cases k with
    | unpack kloc v => exact .refl _
    | named kloc name v => exact .bind hk fun value => .bind (.refl _) fun passed => ih hrest passed

include hlimit

theorem expr_outlasted (depth : Nat) (e : Expr) :
    Outlasted (expr (st.withLimit limit) depth e) (expr (st.withLimit limit') depth e) := by
  induction e using Expr.induction_on_forms generalizing depth with
  | name | constant => exact .bind (checkDepth_outlasted hlimit) fun _ => .refl _
  | list loc items ih =>
    refine .bind (checkDepth_outlasted hlimit) fun _ => .bind ?_ fun values => .refl _
    exact exprs_outlasted fun e he => ih e he (depth + 1)
  | set loc items ih =>
    refine .bind (checkDepth_outlasted hlimit) fun _ => .bind ?_ fun values => .refl _
    exact hashables_outlasted fun e he => ih e he (depth + 1)
  | dict loc entries ih =>
    refine .bind (checkDepth_outlasted hlimit) fun _ => .bind ?_ fun values => .refl _
    exact dictEntries_outlasted fun k v he => ⟨(ih k v he).1 (depth + 1), (ih k v he).2 (depth + 1)⟩
  | call loc func args keywords ihargs ihkeywords =>
    refine .bind (checkDepth_outlasted hlimit) fun _ => ?_
    dsimp only
    split
    · exact .refl _
    · rename_i name hname
      refine .bind (.refl (callee st loc name)) fun found => ?_
      refine .bind (exprs_outlasted fun e he => ihargs e he (depth + 1)) fun values => ?_
      refine .bind (namedArguments_outlasted (fun k hk => ihkeywords k hk (depth + 1)) _ _) fun passed => ?_
      exact .bind (passHandle_outlasted hlimit name found.1 keywords passed) fun passed => .refl _
  | refused e he =>
    rw [Expr.eval_of_refused _ depth he, Expr.eval_of_refused _ depth he]
    exact .bind (checkDepth_outlasted hlimit) fun _ => .refl _

/-! ### Statements -/

theorem statement_outlasted (s : Statement) :
    Outlasted (statement (st.withLimit limit) s) (statement (st.withLimit limit') s) := by
  unfold statement
  split
  · split
    · exact .refl _
    · exact .bind (expr_outlasted hlimit 0 _) fun v => .refl _
  · exact .refl _
  · exact .bind (expr_outlasted hlimit 0 _) fun _ => .refl _
  · exact .refl _

theorem statements_outlasted (body : List Statement) :
    Outlasted (statements (st.withLimit limit) body) (statements (st.withLimit limit') body) := by
  induction body with
  | nil => exact .refl _
  | cons s rest ih => exact .bind (statement_outlasted hlimit s) fun _ => ih

end Eval

/-- A run that does not end with an error of depth is the same under every higher limit. -/
theorem Module.run_of_limit_le (st : Setting) {limit limit' : Nat} (hlimit : limit ≤ limit')
    (env : Environment) (m : Module) :
    (∃ err, (m.run (st.withLimit limit) env).result = .error err ∧ err.fault.isDepth) ∨
      m.run (st.withLimit limit') env = m.run (st.withLimit limit) env := by
  have hbody : Eval.Outlasted (Eval.statements (st.withLimit limit) m.body)
      (Eval.statements (st.withLimit limit') m.body) := Eval.statements_outlasted hlimit m.body
  obtain ⟨err, m', hrun, hdepth⟩ | hsame := hbody ⟨env.withSentinels, []⟩
  · exact Or.inl ⟨err, (run_of_exec hrun).1, hdepth⟩
  · right
    unfold Eval.exec at hsame
    rw [run, run, hsame]

end ConfigSandbox
