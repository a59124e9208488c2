import ConfigSandbox.Submission.Run

/-!
# Running the evaluator's computations

A computation takes a machine to a result and a machine. Two kinds of statements are passed through
sequencing here: how the machine may move, whatever the result, and what a success needs.
-/
namespace ConfigSandbox.Eval

variable {α β : Type}

/-- The result of a computation and the machine after it. -/
def exec (x : Eval α) (m : Machine) : Except ExecutionError α × Machine := x.run m

@[simp]
theorem exec_fail (loc : Location) (fault : ExecutionFault) (m : Machine) :
    exec (fail loc fault : Eval α) m = (.error ⟨fault, loc⟩, m) := rfl

theorem exec_bind_ok {x : Eval α} {f : α → Eval β} {m m' : Machine} {a : α}
    (h : exec x m = (.ok a, m')) : exec (x >>= f) m = exec (f a) m' := by
  change (x >>= f) m = f a m'
  change x m = _ at h
  simp only [bind, ExceptT.bind, ExceptT.mk, StateT.bind, h]
  rfl

theorem exec_bind_error {x : Eval α} {f : α → Eval β} {m m' : Machine} {e : ExecutionError}
    (h : exec x m = (.error e, m')) : exec (x >>= f) m = (.error e, m') := by
  change (x >>= f) m = _
  change x m = _ at h
  simp only [bind, ExceptT.bind, ExceptT.mk, StateT.bind, h]
  rfl

theorem exec_bind_ok_iff {x : Eval α} {f : α → Eval β} {m m'' : Machine} {b : β} :
    exec (x >>= f) m = (.ok b, m'') ↔
      ∃ a m', exec x m = (.ok a, m') ∧ exec (f a) m' = (.ok b, m'') := by
  rcases hr : exec x m with ⟨e | a, m'⟩
  · rw [exec_bind_error hr]
    simp
  · rw [exec_bind_ok hr]
    constructor
    · exact fun h => ⟨a, m', rfl, h⟩
    · rintro ⟨a', n, ha, h⟩
      cases ha
      exact h

theorem exec_bind_error_iff {x : Eval α} {f : α → Eval β} {m m'' : Machine} {e : ExecutionError} :
    exec (x >>= f) m = (.error e, m'') ↔ exec x m = (.error e, m'') ∨
      ∃ a m', exec x m = (.ok a, m') ∧ exec (f a) m' = (.error e, m'') := by
  rcases hr : exec x m with ⟨e' | a, m'⟩
  · rw [exec_bind_error hr]
    simp
  · rw [exec_bind_ok hr]
    constructor
    · exact fun h => Or.inr ⟨a, m', rfl, h⟩
    · rintro (ha | ⟨a', n, ha, h⟩)
      · cases ha
      · cases ha
        exact h

theorem exec_pure_iff {a b : α} {m m' : Machine} : exec (pure a : Eval α) m = (.ok b, m') ↔ b = a ∧ m' = m := by
  change ((.ok a, m) : Except ExecutionError α × Machine) = _ ↔ _
  rw [Prod.mk.injEq, Except.ok.injEq, eq_comm, @eq_comm _ m]

theorem exec_get_bind (f : Machine → Eval α) (m : Machine) :
    exec (get >>= f) m = exec (f m) m := rfl

theorem exec_checkDepth_iff {st : Setting} {depth : Nat} {loc : Location} {m m' : Machine} {u : Unit} :
    exec (checkDepth st depth loc) m = (.ok u, m') ↔ depth < st.limit ∧ m' = m := by
  rw [checkDepth]
  split
  · rename_i hlimit
    simp [Nat.not_lt.mpr hlimit]
  · rename_i hlimit
    rw [exec_pure_iff]
    simp [Nat.not_le.mp hlimit]

theorem exec_checkHashable_iff {value : Value} {loc : Location} {m m' : Machine} {u : Unit} :
    exec (checkHashable value loc) m = (.ok u, m') ↔ value.isHashable ∧ m' = m := by
  rw [checkHashable]
  split
  · rename_i hvalue
    simp [exec_pure_iff, hvalue]
  · rename_i hvalue
    simp [hvalue]

/-! ### How the machine moves -/

/-- Whatever its result, a computation moves the machine along a relation. -/
def Moves (R : Machine → Machine → Prop) (x : Eval α) : Prop := ∀ m, R m (exec x m).2

variable {R : Machine → Machine → Prop}

theorem Moves.pure (hr : ∀ m, R m m) (a : α) : Moves R (pure a : Eval α) := hr

theorem Moves.fail (hr : ∀ m, R m m) (loc : Location) (fault : ExecutionFault) :
    Moves R (fail loc fault : Eval α) := hr

theorem Moves.bind (ht : ∀ m m' m'', R m m' → R m' m'' → R m m'') {x : Eval α} {f : α → Eval β}
    (hx : Moves R x) (hf : ∀ a, Moves R (f a)) : Moves R (x >>= f) := by
  intro m
  have hm := hx m
  rcases hr : exec x m with ⟨_ | a, m'⟩
  · rw [exec_bind_error hr]
    rwa [hr] at hm
  · rw [exec_bind_ok hr]
    rw [hr] at hm
    exact ht _ _ _ hm (hf a m')

/-! ### What a success needs -/

/-- On some machine the computation succeeds. -/
def Succeeds (x : Eval α) : Prop := ∃ m a m', exec x m = (.ok a, m')

theorem not_succeeds_fail (loc : Location) (fault : ExecutionFault) :
    ¬ Succeeds (fail loc fault : Eval α) := by
  rintro ⟨m, a, m', h⟩
  rw [exec_fail] at h
  cases h

theorem Succeeds.of_bind {x : Eval α} {f : α → Eval β} (h : Succeeds (x >>= f)) :
    Succeeds x ∧ ∃ a, Succeeds (f a) := by
  obtain ⟨m, b, m'', h⟩ := h
  rcases hr : exec x m with ⟨e | a, m'⟩
  · rw [exec_bind_error hr] at h
    cases h
  · rw [exec_bind_ok hr] at h
    exact ⟨⟨m, a, m', hr⟩, a, m', b, m'', h⟩

/-! ### What a failure tells -/

/-- Every error of a computation satisfies a predicate. -/
def Raises (E : ExecutionError → Prop) (x : Eval α) : Prop :=
  ∀ m e m', exec x m = (.error e, m') → E e

variable {E : ExecutionError → Prop}

theorem Raises.pure (a : α) : Raises E (pure a : Eval α) := by
  intro m e m' h
  cases h

theorem Raises.fail {loc : Location} {fault : ExecutionFault} (he : E ⟨fault, loc⟩) :
    Raises E (fail loc fault : Eval α) := by
  intro m e m' h
  cases h
  exact he

theorem Raises.bind {x : Eval α} {f : α → Eval β} (hx : Raises E x) (hf : ∀ a, Raises E (f a)) :
    Raises E (x >>= f) := by
  intro m e m' h
  rcases hr : exec x m with ⟨e' | a, m''⟩
  · rw [exec_bind_error hr] at h
    cases h
    exact hx m e _ hr
  · rw [exec_bind_ok hr] at h
    exact hf a _ e _ h

end ConfigSandbox.Eval
