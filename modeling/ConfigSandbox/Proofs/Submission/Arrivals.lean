import ConfigSandbox.Proofs.Submission.Blame

/-!
# Where a run arrives

The parts of an expression are evaluated in their order, each on the machine that those before it left. A run
arrives at a part with that machine, and whatever it does beyond evaluating parts it does at a call: making the
call, and refusing a keyword that is given twice. Both are events, and each is put down to the call at which it
occurs.
-/
namespace ConfigSandbox

/-- What is unpacked is not evaluated. -/
def DictEntry.operands : DictEntry → List Expr
  | .pair key value => [key, value]
  | .unpack _ => []

/-- The parts of an expression in the order in which they are evaluated. -/
def Expr.operands : Expr → List Expr
  | .list _ items | .set _ items => items
  | .dict _ entries => entries.flatMap DictEntry.operands
  | .call _ _ args keywords => args ++ keywords.map Keyword.value
  | _ => []

/-- Goes down to the parts that are evaluated. -/
theorem Expr.induction_on_operands {P : Expr → Prop} (step : ∀ e, (∀ part ∈ e.operands, P part) → P e)
    (e : Expr) : P e := by
  induction e using Expr.induction_on_forms with
  | name loc id => exact step _ (List.forall_mem_nil _)
  | constant loc value => exact step _ (List.forall_mem_nil _)
  | list loc items ih => exact step _ ih
  | set loc items ih => exact step _ ih
  | dict loc entries ih =>
    refine step _ fun part hpart => ?_
    obtain ⟨entry, hentry, hpart⟩ := List.mem_flatMap.mp hpart
    cases entry with
    | unpack v => cases hpart
    | pair k v =>
      obtain ⟨hk, hv⟩ := ih k v hentry
      rcases List.mem_pair.mp hpart with rfl | rfl
      · exact hk
      · exact hv
  | call loc func args keywords ihargs ihkeywords =>
    refine step _ (List.forall_mem_append.mpr ⟨ihargs, fun part hpart => ?_⟩)
    obtain ⟨k, hk, rfl⟩ := List.mem_map.mp hpart
    exact ihkeywords k hk
  | refused e he =>
    refine step e ?_
    cases e with
    | list | set | dict | call => cases he
    | _ => exact List.forall_mem_nil _

theorem Reaches.operand {depth inner : Nat} {e next part : Expr} (hmem : next ∈ e.operands)
    (h : Reaches (depth + 1) next inner part) : Reaches depth e inner part := by
  cases e with
  | list loc items => exact .listItem hmem h
  | set loc items => exact .setItem hmem h
  | dict loc entries =>
    obtain ⟨entry, hentry, hmem⟩ := List.mem_flatMap.mp hmem
    cases entry with
    | unpack v => cases hmem
    | pair k v =>
      rcases List.mem_pair.mp hmem with rfl | rfl
      · exact .key hentry h
      · exact .value hentry h
  | call loc func args keywords =>
    rcases List.mem_append.mp hmem with hmem | hmem
    · exact .argument hmem h
    · obtain ⟨k, hk, rfl⟩ := List.mem_map.mp hmem
      exact .keyword hk h
  | _ => cases hmem

namespace Eval

variable {α β : Type} {st : Setting} {depth inner : Nat} {machine mid last : Machine}

/-- Evaluating `e` inside `depth` others from a machine, a run arrives at `part`, inside `inner` others, with
the last machine. -/
inductive Arrives (st : Setting) : Nat → Expr → Machine → Nat → Expr → Machine → Prop
  | here (depth : Nat) (e : Expr) (machine : Machine) : Arrives st depth e machine depth e machine
  | operand {depth inner : Nat} {e next part : Expr} {front back : List Expr} {values : List Value}
      {machine mid last : Machine} (hsplit : e.operands = front ++ next :: back)
      (hfront : exec (exprs st (depth + 1) front) machine = (.ok values, mid))
      (h : Arrives st (depth + 1) next mid inner part last) : Arrives st depth e machine inner part last

/-- What a run arrives at, it reaches. -/
theorem Arrives.reaches {e part : Expr} (h : Arrives st depth e machine inner part last) :
    Reaches depth e inner part := by
  induction h with
  | here => exact .here ..
  | operand hsplit _ _ ih => exact .operand (hsplit ▸ List.mem_append_right _ List.mem_cons_self) ih

/-! ### Events -/

/-- What can happen at a call and nowhere else. -/
inductive Event where
  /-- The call was made, after those that had been made before. -/
  | invoked (i : Invocation) (earlier : List Invocation)
  /-- A keyword was refused because it is given twice. -/
  | clashed (plugin keyword : String) (loc : Location)

/-- The event occurs while the computation runs from the machine. -/
def Occurs (x : Eval α) (machine : Machine) : Event → Prop
  | .invoked i earlier => i :: earlier <:+ (exec x machine).2.calls ∧ ¬ i :: earlier <:+ machine.calls
  | .clashed plugin keyword loc => (exec x machine).1 = .error ⟨.duplicateKeyword plugin keyword, loc⟩

/-- No event occurs, from no machine. -/
def Quiet (x : Eval α) : Prop := ∀ machine event, ¬ Occurs x machine event

variable {event : Event}

theorem Occurs.bind {x : Eval α} {f : α → Eval β} (h : Occurs (x >>= f) machine event) :
    Occurs x machine event ∨ ∃ a mid, exec x machine = (.ok a, mid) ∧ Occurs (f a) mid event := by
  rcases hx : exec x machine with ⟨e | a, mid⟩
  · left
    have hsame := exec_bind_error (f := f) hx
    cases event with
    | invoked i earlier =>
      simp only [Occurs, hsame] at h
      simpa only [Occurs, hx] using h
    | clashed plugin keyword loc =>
      simp only [Occurs, hsame] at h
      simp only [Occurs, hx]
      exact congrArg _ (Except.error.inj h)
  · have hnext := exec_bind_ok (f := f) hx
    cases event with
    | invoked i earlier =>
      simp only [Occurs, hnext] at h
      by_cases hmid : i :: earlier <:+ mid.calls
      · left
        simp only [Occurs, hx]
        exact ⟨hmid, h.2⟩
      · exact Or.inr ⟨a, mid, rfl, h.1, hmid⟩
    | clashed plugin keyword loc =>
      simp only [Occurs, hnext] at h
      exact Or.inr ⟨a, mid, rfl, h⟩

/-- Whatever leaves the machine alone and refuses no keyword is quiet. -/
theorem Quiet.of_still {x : Eval α} (hstill : ∀ machine, (exec x machine).2 = machine)
    (hraises : Raises (fun e => ∀ plugin keyword, e.fault ≠ .duplicateKeyword plugin keyword) x) :
    Quiet x := by
  intro machine event h
  cases event with
  | invoked i earlier =>
    obtain ⟨hnow, hbefore⟩ := h
    rw [hstill] at hnow
    exact hbefore hnow
  | clashed plugin keyword loc => exact hraises machine _ (exec x machine).2 (Prod.ext h rfl) plugin keyword rfl

theorem Quiet.pure (a : α) : Quiet (pure a : Eval α) := .of_still (fun _ => rfl) (Raises.pure a)

theorem Quiet.bind {x : Eval α} {f : α → Eval β} (hx : Quiet x) (hf : ∀ a, Quiet (f a)) :
    Quiet (x >>= f) := by
  intro machine event h
  rcases h.bind with h | ⟨a, mid, -, h⟩
  · exact hx machine event h
  · exact hf a mid event h

theorem Quiet.fail {loc : Location} {fault : ExecutionFault}
    (h : ∀ plugin keyword, fault ≠ .duplicateKeyword plugin keyword) : Quiet (fail loc fault : Eval α) :=
  .of_still (fun _ => rfl) (Raises.fail h)

/-- After something quiet, the event is one of what follows. -/
theorem Occurs.next {x : Eval α} {f : α → Eval β} (h : Occurs (x >>= f) machine event) (hx : Quiet x) :
    ∃ a mid, exec x machine = (.ok a, mid) ∧ Occurs (f a) mid event :=
  h.bind.resolve_left (hx machine event)

/-- Before something quiet, the event is one of what came first. -/
theorem Occurs.first {x : Eval α} {f : α → Eval β} (h : Occurs (x >>= f) machine event)
    (hf : ∀ a, Quiet (f a)) : Occurs x machine event := by
  rcases h.bind with h | ⟨a, mid, -, h⟩
  · exact h
  · exact absurd h (hf a mid event)

theorem eq_of_still {x : Eval α} {result : Except ExecutionError α}
    (hstill : ∀ machine, (exec x machine).2 = machine) (h : exec x machine = (result, mid)) : mid = machine := by
  rw [← hstill machine, h]

/-! ### Steps that are quiet -/

variable {loc : Location}

theorem checkDepth_quiet : Quiet (checkDepth st depth loc) := by
  unfold checkDepth
  split
  · exact .fail fun _ _ h => by cases h
  · exact .pure ()

theorem checkHashable_quiet (value : Value) : Quiet (checkHashable value loc) := by
  unfold checkHashable
  split
  · exact .pure ()
  · exact .fail fun _ _ h => by cases h

theorem lookup_quiet (name : String) : Quiet (lookup st loc name) := by
  refine .of_still (lookup_still name) ?_
  unfold lookup
  split
  · exact .pure _
  · intro machine e last h
    rw [exec_get_bind] at h
    split at h
    · cases h
    · cases h
      exact fun _ _ h => by cases h

theorem constant_quiet (value : Constant) : Quiet (constant loc value) := by
  cases value with
  | none | bool | int | float | str => exact .pure _
  | bytes | ellipsis => exact .fail fun _ _ h => by cases h

theorem bindNew_quiet (name : String) (value : Value) : Quiet (bindNew loc name value) := by
  intro machine event h
  cases event with
  | invoked i earlier =>
    obtain ⟨hnow, hbefore⟩ := h
    rw [exec_bindNew] at hnow
    split at hnow <;> exact hbefore hnow
  | clashed plugin keyword cloc =>
    simp only [Occurs, bindNew, exec_get_bind] at h
    by_cases hbound : machine.environment.contains name
    · rw [if_pos hbound] at h
      cases h
    · rw [if_neg hbound] at h
      cases h

/-! ### Events of rows of parts -/

/-- The event occurs at one of some expressions, those before it having been evaluated. -/
def OccursIn (st : Setting) (depth : Nat) (es : List Expr) (machine : Machine) (event : Event) : Prop :=
  ∃ front next back values mid, es = front ++ next :: back ∧
    exec (exprs st depth front) machine = (.ok values, mid) ∧ Occurs (expr st depth next) mid event

theorem OccursIn.head {e : Expr} (h : Occurs (expr st depth e) machine event) (rest : List Expr) :
    OccursIn st depth (e :: rest) machine event := ⟨[], e, rest, [], machine, rfl, rfl, h⟩

theorem OccursIn.tail {e : Expr} {rest : List Expr} {value : Value}
    (he : exec (expr st depth e) machine = (.ok value, mid)) (h : OccursIn st depth rest mid event) :
    OccursIn st depth (e :: rest) machine event := by
  obtain ⟨front, next, back, values, last, rfl, hfront, hnext⟩ := h
  refine ⟨e :: front, next, back, value :: values, last, rfl, ?_, hnext⟩
  rw [exprs, exec_bind_ok he, exec_bind_ok hfront]
  rfl

theorem OccursIn.split {es : List Expr} (h : Occurs (exprs st depth es) machine event) :
    OccursIn st depth es machine event := by
  induction es generalizing machine with
  | nil => exact absurd h (Quiet.pure [] machine event)
  | cons e rest ih =>
    rcases h.bind with h | ⟨value, mid, he, h⟩
    · exact .head h rest
    · exact .tail he (ih (h.first fun _ => .pure _))

theorem hashables_occurs {items : List Expr} (h : Occurs (hashables st depth items) machine event) :
    OccursIn st depth items machine event := by
  induction items generalizing machine with
  | nil => exact absurd h (Quiet.pure [] machine event)
  | cons e rest ih =>
    rcases h.bind with h | ⟨value, mid, he, h⟩
    · exact .head h rest
    · obtain ⟨_, mid', hcheck, hrest⟩ := h.next (checkHashable_quiet value)
      obtain rfl := eq_of_still (checkHashable_still value) hcheck
      exact .tail he (ih (hrest.first fun _ => .pure _))

theorem dictEntries_occurs {entries : List DictEntry}
    (h : Occurs (dictEntries st depth loc entries) machine event) :
    OccursIn st depth (entries.flatMap DictEntry.operands) machine event := by
  induction entries generalizing machine with
  | nil => exact absurd h (Quiet.pure [] machine event)
  | cons entry rest ih =>
    cases entry with
    | unpack v => exact absurd h (Quiet.fail (fun _ _ h => by cases h) machine event)
    | pair k v =>
      rcases h.bind with h | ⟨key, mid, hk, h⟩
      · exact .head h _
      · obtain ⟨_, mid', hcheck, hrest⟩ := h.next (checkHashable_quiet key)
        obtain rfl := eq_of_still (checkHashable_still key) hcheck
        rcases hrest.bind with hrest | ⟨value, last, hv, hrest⟩
        · exact .tail hk (.head hrest _)
        · exact .tail hk (.tail hv (ih (hrest.first fun _ => .pure _)))

theorem exprs_append (xs ys : List Expr) : exprs st depth (xs ++ ys) =
    (exprs st depth xs >>= fun values => exprs st depth ys >>= fun more => pure (values ++ more)) := by
  induction xs with
  | nil => simp [exprs]
  | cons x rest ih => simp [exprs, ih]

theorem OccursIn.append_left {xs : List Expr} (h : OccursIn st depth xs machine event) (ys : List Expr) :
    OccursIn st depth (xs ++ ys) machine event := by
  obtain ⟨front, next, back, values, last, rfl, hfront, hnext⟩ := h
  exact ⟨front, next, back ++ ys, values, last, by simp, hfront, hnext⟩

theorem OccursIn.append_right {xs ys : List Expr} {values : List Value}
    (hxs : exec (exprs st depth xs) machine = (.ok values, mid)) (h : OccursIn st depth ys mid event) :
    OccursIn st depth (xs ++ ys) machine event := by
  obtain ⟨front, next, back, more, last, rfl, hfront, hnext⟩ := h
  refine ⟨xs ++ front, next, back, values ++ more, last, by simp, ?_, hnext⟩
  rw [exprs_append, exec_bind_ok hxs, exec_bind_ok hfront]
  rfl

end Eval
end ConfigSandbox
