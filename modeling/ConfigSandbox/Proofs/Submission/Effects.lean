import ConfigSandbox.Proofs.Submission.Steps

/-!
# What moves the machine

Only two things do: calls of functions and the binding of a name. Everything else that evaluation does
leaves the environment and the calls as they are, also where it fails.
-/
namespace ConfigSandbox.Eval

variable {st : Setting} {depth : Nat} {loc : Location}

/-! ### Steps that leave the machine alone -/

theorem checkDepth_still (m : Machine) : (exec (checkDepth st depth loc) m).2 = m := by
  unfold checkDepth
  split <;> rfl

theorem checkHashable_still (value : Value) (m : Machine) :
    (exec (checkHashable value loc) m).2 = m := by
  unfold checkHashable
  split <;> rfl

theorem lookup_still (name : String) (m : Machine) : (exec (lookup st loc name) m).2 = m := by
  unfold lookup
  split
  · rfl
  · rw [exec_get_bind]
    split <;> rfl

theorem addKeyword_still (plugin : String) (passed : Passed) (name : String) (value : Value)
    (m : Machine) : (exec (addKeyword loc plugin passed name value) m).2 = m := by
  unfold addKeyword
  split
  · rfl
  · split
    · split <;> rfl
    · rfl

/-- The call is noted with the environment before it, and the script is run on that environment. -/
theorem exec_invoke (plugin : String) (f : Function) (args : List Value) (passed : Passed)
    (m : Machine) :
    exec (invoke st loc plugin f args passed) m =
      let call : Call := ⟨args, passed.kwargs, passed.hasHandle⟩
      let answer := (st.host m.calls.length f call).run m.environment passed.hasHandle
      (answer.1.mapError fun e => ⟨.plugin plugin e, loc⟩,
        ⟨answer.2, ⟨f, call, m.environment⟩ :: m.calls⟩) := by
  unfold invoke
  rw [exec_get_bind]
  dsimp only
  generalize (st.host m.calls.length f _).run m.environment passed.hasHandle = answer
  obtain ⟨result, env⟩ := answer
  cases result with
  | ok value => rfl
  | error e => rfl

/-! ### Relations that calls respect -/

/-- Calls of registered functions move the machine along a preorder. -/
structure Respects (st : Setting) (R : Machine → Machine → Prop) : Prop where
  refl : ∀ m, R m m
  trans : ∀ m m' m'', R m m' → R m' m'' → R m m''
  invoke : ∀ loc plugin p f args passed, st.registry.get? plugin = some p → p.function? = some f →
    Moves R (invoke st loc plugin f args passed)

variable {R : Machine → Machine → Prop}

theorem Respects.still (h : Respects st R) {α : Type} {x : Eval α} (hx : ∀ m, (exec x m).2 = m) :
    Moves R x := by
  intro m
  rw [hx m]
  exact h.refl m

theorem Respects.closed (h : Respects st R) : Closed fun _ => Moves R :=
  ⟨fun a => Moves.pure h.refl a, fun hx hf => Moves.bind h.trans hx hf⟩

theorem Respects.passHandle (h : Respects st R) (plugin : String) (p : Plugin)
    (keywords : List Keyword) (passed : Passed) :
    Moves R (passHandle st depth loc plugin p keywords passed) := by
  unfold Eval.passHandle
  split
  · refine h.closed.bind (h.still checkDepth_still) fun _ => ?_
    refine h.closed.bind (h.still (lookup_still handleKey)) fun handle => ?_
    exact h.still (addKeyword_still plugin passed handleKeyword handle)
  · exact h.closed.pure passed

theorem Respects.expr (h : Respects st R) (depth : Nat) (e : Expr) :
    Moves R (expr st depth e) := by
  refine expr_closed h.closed st depth e fun inner part _ => ?_
  have hfail {α : Type} (loc : Location) (fault : ExecutionFault) :
      Moves R (fail loc fault : Eval α) := Moves.fail h.refl loc fault
  constructor
  case entered => exact h.still checkDepth_still
  case refused => exact fun _ => hfail _ _
  case name => exact fun loc id _ => h.still (lookup_still id)
  case item => exact fun _ _ _ _ _ value => h.still (checkHashable_still value)
  case key => exact fun _ _ _ _ _ _ value => h.still (checkHashable_still value)
  case unpacked => exact fun _ _ _ _ _ => hfail _ _
  case call =>
    intro loc func args keywords _
    constructor
    case unnamed => exact fun _ => hfail _ _
    case unknown => exact fun _ _ _ => hfail _ _
    case uncallable => exact fun _ _ _ _ _ => hfail _ _
    case unpacked => exact fun _ _ _ => hfail _ _
    case named => exact fun _ _ _ _ _ _ _ _ => h.still (addKeyword_still _ _ _ _)
    case handle => exact fun name p _ _ passed => h.passHandle name p keywords passed
    case invoked => exact fun name p f _ hp hf args passed => h.invoke _ name p f args passed hp hf

/-! ### Statements -/

/-- A statement binds one name, is a call, or is refused at once; the last have not passed
validation. -/
theorem statement_cases (st : Setting) (s : Statement) :
    (∃ tloc name value, s.kind = .assign [.name tloc name] value ∧
      statement st s = (expr st 0 value >>= fun v => bindNew s.loc name v)) ∨
    (∃ loc func args keywords, s.kind = .expr (.call loc func args keywords) ∧
      statement st s = (expr st 0 (.call loc func args keywords) >>= fun _ => pure ())) ∨
    ((∃ loc construct, statement st s = fail loc (.illegalSyntax construct)) ∧
      ∀ reg, s.validate reg ≠ .ok ()) := by
  obtain ⟨sloc, kind⟩ := s
  cases kind with
  | assign targets value =>
    match targets with
    | [target] =>
      cases target with
      | name tloc name => exact Or.inl ⟨tloc, name, value, rfl, rfl⟩
      | _ => exact Or.inr (Or.inr ⟨⟨_, _, rfl⟩, fun reg h => by cases h⟩)
    | [] => exact Or.inr (Or.inr ⟨⟨_, _, rfl⟩, fun reg h => by cases h⟩)
    | _ :: _ :: _ => exact Or.inr (Or.inr ⟨⟨_, _, rfl⟩, fun reg h => by cases h⟩)
  | expr value =>
    cases value with
    | call loc func args keywords => exact Or.inr (Or.inl ⟨loc, func, args, keywords, rfl, rfl⟩)
    | _ => exact Or.inr (Or.inr ⟨⟨_, _, rfl⟩, fun reg h => by cases h⟩)
  | augAssign | annAssign | reserved =>
    exact Or.inr (Or.inr ⟨⟨_, _, rfl⟩, fun reg h => by cases h⟩)

theorem statement_closed {Q : (α : Type) → Eval α → Prop} (hq : Closed Q) {s : Statement}
    (hassign : ∀ tloc name value, s.kind = .assign [.name tloc name] value →
      Q Value (expr st 0 value) ∧ ∀ v, Q Unit (bindNew s.loc name v))
    (hcall : ∀ loc func args keywords, s.kind = .expr (.call loc func args keywords) →
      Q Value (expr st 0 (.call loc func args keywords)))
    (hrefused : (∀ reg, s.validate reg ≠ .ok ()) → ∀ loc construct,
      Q Unit (fail loc (.illegalSyntax construct))) : Q Unit (statement st s) := by
  rcases statement_cases st s with ⟨tloc, name, value, hkind, hrun⟩ |
    ⟨loc, func, args, keywords, hkind, hrun⟩ | ⟨⟨loc, construct, hrun⟩, hinvalid⟩
  · obtain ⟨hvalue, hbind⟩ := hassign tloc name value hkind
    rw [hrun]
    exact hq.bind hvalue hbind
  · rw [hrun]
    exact hq.bind (hcall loc func args keywords hkind) fun _ => hq.pure ()
  · rw [hrun]
    exact hrefused hinvalid loc construct

/-- What is respected by calls only has to be respected by the binding of the name too. -/
theorem Respects.statement (h : Respects st R) {s : Statement}
    (hbind : ∀ tloc name value, s.kind = .assign [.name tloc name] value →
      ∀ v, Moves R (bindNew s.loc name v)) : Moves R (statement st s) := by
  refine statement_closed h.closed ?_ ?_ ?_
  · exact fun tloc name value hkind => ⟨h.expr 0 value, hbind tloc name value hkind⟩
  · exact fun loc func args keywords _ => h.expr 0 _
  · exact fun _ loc construct => Moves.fail h.refl loc (.illegalSyntax construct)

theorem statements_closed {Q : (α : Type) → Eval α → Prop} (hq : Closed Q) {body : List Statement}
    (h : ∀ s ∈ body, Q Unit (statement st s)) : Q Unit (statements st body) := by
  induction body with
  | nil => exact hq.pure ()
  | cons s rest ih =>
    refine hq.bind (h s List.mem_cons_self) fun _ => ?_
    exact ih fun s' hs' => h s' (List.mem_cons_of_mem _ hs')

/-- A name that is bound already is left alone, any other is bound at the end. -/
theorem exec_bindNew (name : String) (value : Value) (m : Machine) : exec (bindNew loc name value) m =
    if m.environment.contains name then (.error ⟨.existingName name, loc⟩, m)
    else (.ok (), { m with environment := (m.environment.insert name value).2 }) := by
  unfold bindNew
  rw [exec_get_bind]
  split <;> rfl

theorem exec_bindNew_free {m : Machine} {name : String} (loc : Location) (value : Value)
    (hfree : m.environment.contains name = false) : exec (bindNew loc name value) m =
      (.ok (), { m with environment := (m.environment.insert name value).2 }) := by
  rw [exec_bindNew, hfree]
  rfl

end ConfigSandbox.Eval
