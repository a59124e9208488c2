import ConfigSandbox.Proofs.Submission.Effects

/-!
# Two runs side by side

One computation on two machines. As long as the machines are alike in what the computation looks at,
its result is the same and the machines stay alike. What alike means is left open: each kind of
likeness only has to answer for the look-ups, for the calls and for the binding of a name.
-/
namespace ConfigSandbox

/-- The name is looked up when the expression is evaluated, unless evaluation fails before. The name
of a function that is called is not looked up: it stands for a plugin or for nothing. -/
def Expr.Reads (e : Expr) (name : String) : Prop :=
  ∃ depth loc, Reaches 0 e depth (.name loc name)

def Statement.Reads (s : Statement) (name : String) : Prop :=
  match s.kind with
  | .assign _ value | .expr value => value.Reads name
  | _ => False

namespace Eval

variable {α β : Type} {R : Machine → Machine → Prop}

/-- On machines that are alike the computation has one result, and leaves them alike. -/
def Twins (R : Machine → Machine → Prop) (x : Eval α) : Prop :=
  ∀ m m', R m m' → (exec x m).1 = (exec x m').1 ∧ R (exec x m).2 (exec x m').2

theorem Twins.pure (a : α) : Twins R (pure a : Eval α) := fun _ _ h => ⟨rfl, h⟩

theorem Twins.fail (loc : Location) (fault : ExecutionFault) : Twins R (fail loc fault : Eval α) :=
  fun _ _ h => ⟨rfl, h⟩

theorem Twins.bind {x : Eval α} {f : α → Eval β} (hx : Twins R x) (hf : ∀ a, Twins R (f a)) :
    Twins R (x >>= f) := by
  intro m m' h
  obtain ⟨hresult, halike⟩ := hx m m' h
  rcases hr : exec x m with ⟨e | a, n⟩ <;> rcases hr' : exec x m' with ⟨e' | a', n'⟩ <;>
    rw [hr, hr'] at hresult halike <;> cases hresult
  · rw [exec_bind_error hr, exec_bind_error hr']
    exact ⟨rfl, halike⟩
  · rw [exec_bind_ok hr, exec_bind_ok hr']
    exact hf a n n' halike

theorem Twins.closed : Closed fun _ => Twins R := ⟨Twins.pure, Twins.bind⟩

/-! ### The steps -/

variable {st : Setting} {depth : Nat} {loc : Location}

theorem checkDepth_twins : Twins R (checkDepth st depth loc) := by
  unfold checkDepth
  split
  · exact Twins.fail loc _
  · exact Twins.pure ()

theorem checkHashable_twins (value : Value) : Twins R (checkHashable value loc) := by
  unfold checkHashable
  split
  · exact Twins.pure ()
  · exact Twins.fail loc _

theorem addKeyword_twins (plugin : String) (passed : Passed) (name : String) (value : Value) :
    Twins R (addKeyword loc plugin passed name value) := by
  unfold addKeyword
  split
  · exact Twins.fail loc _
  · split
    · split <;> exact Twins.pure _
    · exact Twins.pure _

theorem lookup_twins {name : String} (h : st.registry.get? name = none →
    ∀ m m', R m m' → m.environment.get? name = m'.environment.get? name) :
    Twins R (lookup st loc name) := by
  unfold lookup
  split
  · exact Twins.pure _
  · rename_i hn
    intro m m' halike
    rw [exec_get_bind, exec_get_bind, h hn m m' halike]
    split
    · exact Twins.pure _ m m' halike
    · exact Twins.fail loc _ m m' halike

theorem bindNew_twins {name : String} {value : Value}
    (hc : ∀ m m', R m m' → m.environment.contains name = m'.environment.contains name)
    (hi : ∀ m m', R m m' → m.environment.contains name = false →
      R { m with environment := (m.environment.insert name value).2 }
        { m' with environment := (m'.environment.insert name value).2 }) :
    Twins R (bindNew loc name value) := by
  intro m m' halike
  unfold bindNew
  rw [exec_get_bind, exec_get_bind, hc m m' halike]
  split
  · exact Twins.fail loc _ m m' halike
  · rename_i hfree
    exact ⟨rfl, hi m m' halike (by simpa [hc m m' halike] using hfree)⟩

/-! ### A whole run -/

/-- A likeness that every registered function keeps, and under which the handle is the same. -/
structure Coupling (st : Setting) (R : Machine → Machine → Prop) : Prop where
  handle : ∀ m m', R m m' → m.environment.get? handleKey = m'.environment.get? handleKey
  invoke : ∀ loc plugin p f args passed, st.registry.get? plugin = some p → p.function? = some f →
    Twins R (invoke st loc plugin f args passed)

theorem Coupling.passHandle (h : Coupling st R) (plugin : String) (p : Plugin)
    (keywords : List Keyword) (passed : Passed) :
    Twins R (passHandle st depth loc plugin p keywords passed) := by
  unfold Eval.passHandle
  split
  · refine Twins.bind checkDepth_twins fun _ => ?_
    refine Twins.bind (lookup_twins fun _ => h.handle) fun handle => ?_
    exact addKeyword_twins plugin passed handleKeyword handle
  · exact Twins.pure passed

/-- An expression whose names stand for the same on both sides. -/
theorem Coupling.expr (h : Coupling st R) (depth : Nat) (e : Expr)
    (hnames : ∀ inner loc id, Reaches depth e inner (.name loc id) → st.registry.get? id = none →
      ∀ m m', R m m' → m.environment.get? id = m'.environment.get? id) :
    Twins R (expr st depth e) := by
  refine expr_closed Twins.closed st depth e fun inner part hr => ?_
  constructor
  case entered => exact checkDepth_twins
  case refused => exact fun _ => Twins.fail _ _
  case item => exact fun _ _ _ _ _ value => checkHashable_twins value
  case key => exact fun _ _ _ _ _ _ value => checkHashable_twins value
  case unpacked => exact fun _ _ _ _ _ => Twins.fail _ _
  case name =>
    rintro loc id rfl
    exact lookup_twins (hnames inner loc id hr)
  case call =>
    intro loc func args keywords _
    constructor
    case unnamed => exact fun _ => Twins.fail _ _
    case unknown => exact fun _ _ _ => Twins.fail _ _
    case uncallable => exact fun _ _ _ _ _ => Twins.fail _ _
    case unpacked => exact fun _ _ _ => Twins.fail _ _
    case named => exact fun plugin _ name _ _ _ passed value => addKeyword_twins plugin passed name value
    case handle => exact fun name p _ _ passed => h.passHandle name p keywords passed
    case invoked => exact fun name p f _ hp hf args passed => h.invoke _ name p f args passed hp hf

theorem Coupling.statement (h : Coupling st R) {s : Statement}
    (hnames : ∀ name, s.Reads name → st.registry.get? name = none →
      ∀ m m', R m m' → m.environment.get? name = m'.environment.get? name)
    (hbind : ∀ tloc name value, s.kind = .assign [.name tloc name] value →
      ∀ v, Twins R (bindNew s.loc name v)) : Twins R (statement st s) := by
  have hvalue {e : Expr} (hs : ∀ name, e.Reads name → s.Reads name) : Twins R (Eval.expr st 0 e) :=
    h.expr 0 e fun inner loc id hr => hnames id (hs id ⟨inner, loc, hr⟩)
  refine statement_closed Twins.closed ?_ ?_ ?_
  · intro tloc name value hkind
    refine ⟨hvalue fun name hr => ?_, hbind tloc name value hkind⟩
    rw [Statement.Reads, hkind]
    exact hr
  · intro loc func args keywords hkind
    refine hvalue fun name hr => ?_
    rw [Statement.Reads, hkind]
    exact hr
  · exact fun _ loc construct => Twins.fail loc (.illegalSyntax construct)

end Eval
end ConfigSandbox
