import ConfigSandbox.Proofs.Submission.Computation
import ConfigSandbox.Proofs.Submission.Forms

/-!
# Evaluation is a sequence of steps

An expression reaches its parts, and at each part a few steps are taken. What holds of these steps,
and is kept by sequencing, holds of the whole evaluation. This is the only induction over expressions
that statements about a single run need.
-/
namespace ConfigSandbox

/-- Evaluating `e` inside `depth` others, a run may come to `part`, inside `inner` others. -/
inductive Reaches : Nat → Expr → Nat → Expr → Prop
  | here (depth : Nat) (e : Expr) : Reaches depth e depth e
  | listItem {depth inner : Nat} {loc : Location} {items : List Expr} {e part : Expr}
      (he : e ∈ items) (h : Reaches (depth + 1) e inner part) :
      Reaches depth (.list loc items) inner part
  | setItem {depth inner : Nat} {loc : Location} {items : List Expr} {e part : Expr}
      (he : e ∈ items) (h : Reaches (depth + 1) e inner part) :
      Reaches depth (.set loc items) inner part
  | key {depth inner : Nat} {loc : Location} {entries : List DictEntry} {k v part : Expr}
      (he : .pair k v ∈ entries) (h : Reaches (depth + 1) k inner part) :
      Reaches depth (.dict loc entries) inner part
  | value {depth inner : Nat} {loc : Location} {entries : List DictEntry} {k v part : Expr}
      (he : .pair k v ∈ entries) (h : Reaches (depth + 1) v inner part) :
      Reaches depth (.dict loc entries) inner part
  | argument {depth inner : Nat} {loc : Location} {func : Expr} {args : List Expr}
      {keywords : List Keyword} {e part : Expr}
      (he : e ∈ args) (h : Reaches (depth + 1) e inner part) :
      Reaches depth (.call loc func args keywords) inner part
  | keyword {depth inner : Nat} {loc : Location} {func : Expr} {args : List Expr}
      {keywords : List Keyword} {k : Keyword} {part : Expr}
      (hk : k ∈ keywords) (h : Reaches (depth + 1) k.value inner part) :
      Reaches depth (.call loc func args keywords) inner part

namespace Eval

/-- A property of computations that sequencing keeps. -/
structure Closed (Q : (α : Type) → Eval α → Prop) : Prop where
  pure : ∀ {α : Type} (a : α), Q α (pure a)
  bind : ∀ {α β : Type} {x : Eval α} {f : α → Eval β}, Q α x → (∀ a, Q β (f a)) → Q β (x >>= f)

/-- The steps of a call, apart from those of its arguments. -/
structure CallSteps (Q : (α : Type) → Eval α → Prop) (st : Setting) (depth : Nat) (loc : Location)
    (func : Expr) (keywords : List Keyword) : Prop where
  unnamed : func.name? = none → Q Value (fail func.loc (.illegalSyntax func.describe))
  unknown : ∀ name, func.name? = some name → st.registry.get? name = none →
    Q Value (fail loc (.unknownPlugin name))
  uncallable : ∀ name p, func.name? = some name → st.registry.get? name = some p →
    p.function? = none → Q Value (fail loc (.notCallable name))
  unpacked : ∀ kloc v, .unpack kloc v ∈ keywords → Q Passed (fail loc (.illegalSyntax "unpacking"))
  named : ∀ plugin kloc name v, func.name? = some plugin → .named kloc name v ∈ keywords →
    ∀ passed value, Q Passed (addKeyword loc plugin passed name value)
  handle : ∀ name p, func.name? = some name → st.registry.get? name = some p →
    ∀ passed, Q Passed (passHandle st (depth + 1) loc name p keywords passed)
  invoked : ∀ name p f, func.name? = some name → st.registry.get? name = some p →
    p.function? = some f → ∀ args passed, Q Value (invoke st loc name f args passed)

/-- The steps that are taken at an expression itself. -/
structure StepsAt (Q : (α : Type) → Eval α → Prop) (st : Setting) (depth : Nat) (e : Expr) :
    Prop where
  entered : Q Unit (checkDepth st depth e.loc)
  refused : e.isRefused → Q Value (fail e.loc (.illegalSyntax e.describe))
  name : ∀ loc id, e = .name loc id → Q Value (lookup st loc id)
  item : ∀ loc items, e = .set loc items → ∀ item ∈ items, ∀ value,
    Q Unit (checkHashable value item.loc)
  key : ∀ loc entries, e = .dict loc entries → ∀ k v, .pair k v ∈ entries → ∀ value,
    Q Unit (checkHashable value k.loc)
  unpacked : ∀ loc entries, e = .dict loc entries → ∀ v, .unpack v ∈ entries →
    Q (List (Value × Value)) (fail loc (.illegalSyntax "unpacking"))
  call : ∀ loc func args keywords, e = .call loc func args keywords →
    CallSteps Q st depth loc func keywords

variable {Q : (α : Type) → Eval α → Prop} {st : Setting} {depth : Nat} {loc : Location}

theorem constant_closed (hq : Closed Q) {value : Constant} (hv : value.isAllowed) :
    Q Value (constant loc value) := by
  cases value with
  | none | bool | int | float | str => exact hq.pure _
  | bytes | ellipsis => cases hv

theorem exprs_closed (hq : Closed Q) {items : List Expr} (h : ∀ e ∈ items, Q Value (expr st depth e)) :
    Q (List Value) (exprs st depth items) := by
  induction items with
  | nil => exact hq.pure []
  | cons e rest ih =>
    refine hq.bind (h e List.mem_cons_self) fun value => ?_
    exact hq.bind (ih fun e' he' => h e' (List.mem_cons_of_mem _ he')) fun values => hq.pure _

theorem hashables_closed (hq : Closed Q) {items : List Expr}
    (h : ∀ e ∈ items, Q Value (expr st depth e))
    (hk : ∀ e ∈ items, ∀ value, Q Unit (checkHashable value e.loc)) :
    Q (List Value) (hashables st depth items) := by
  induction items with
  | nil => exact hq.pure []
  | cons e rest ih =>
    refine hq.bind (h e List.mem_cons_self) fun value => ?_
    refine hq.bind (hk e List.mem_cons_self value) fun _ => ?_
    refine hq.bind (ih ?_ ?_) fun values => hq.pure _
    · exact fun e' he' => h e' (List.mem_cons_of_mem _ he')
    · exact fun e' he' => hk e' (List.mem_cons_of_mem _ he')

theorem dictEntries_closed (hq : Closed Q) {entries : List DictEntry}
    (h : ∀ k v, .pair k v ∈ entries → Q Value (expr st depth k) ∧ Q Value (expr st depth v))
    (hk : ∀ k v, .pair k v ∈ entries → ∀ value, Q Unit (checkHashable value k.loc))
    (hu : ∀ v, .unpack v ∈ entries →
      Q (List (Value × Value)) (fail loc (.illegalSyntax "unpacking"))) :
    Q (List (Value × Value)) (dictEntries st depth loc entries) := by
  induction entries with
  | nil => exact hq.pure []
  | cons entry rest ih =>
    cases entry with
    | unpack v => exact hu v List.mem_cons_self
    | pair k v =>
      obtain ⟨hkey, hvalue⟩ := h k v List.mem_cons_self
      refine hq.bind hkey fun key => ?_
      refine hq.bind (hk k v List.mem_cons_self key) fun _ => ?_
      refine hq.bind hvalue fun value => ?_
      refine hq.bind (ih ?_ ?_ ?_) fun values => hq.pure _
      · exact fun k' v' he' => h k' v' (List.mem_cons_of_mem _ he')
      · exact fun k' v' he' => hk k' v' (List.mem_cons_of_mem _ he')
      · exact fun v' he' => hu v' (List.mem_cons_of_mem _ he')

theorem namedArguments_closed (hq : Closed Q) {plugin : String} {keywords : List Keyword}
    (h : ∀ k ∈ keywords, Q Value (expr st depth k.value))
    (ha : ∀ kloc name v, .named kloc name v ∈ keywords → ∀ passed value,
      Q Passed (addKeyword loc plugin passed name value))
    (hu : ∀ kloc v, .unpack kloc v ∈ keywords → Q Passed (fail loc (.illegalSyntax "unpacking")))
    (passed : Passed) : Q Passed (namedArguments st depth loc plugin passed keywords) := by
  induction keywords generalizing passed with
  | nil => exact hq.pure passed
  | cons keyword rest ih =>
    cases keyword with
    | unpack kloc v => exact hu kloc v List.mem_cons_self
    | named kloc name v =>
      refine hq.bind (h _ List.mem_cons_self) fun value => ?_
      refine hq.bind (ha kloc name v List.mem_cons_self passed value) fun passed => ?_
      refine ih ?_ ?_ ?_ passed
      · exact fun k hk => h k (List.mem_cons_of_mem _ hk)
      · exact fun kloc' name' v' hm => ha kloc' name' v' (List.mem_cons_of_mem _ hm)
      · exact fun kloc' v' hm => hu kloc' v' (List.mem_cons_of_mem _ hm)

/-- Beyond the limit nothing follows the look at the depth. -/
theorem enter_closed (hq : Closed Q) {f : Unit → Eval Value} (he : Q Unit (checkDepth st depth loc))
    (hf : depth < st.limit → Q Value (f ())) : Q Value (checkDepth st depth loc >>= f) := by
  by_cases hd : st.limit ≤ depth
  · have hfail : (checkDepth st depth loc >>= f) = checkDepth st depth loc >>= fun _ => pure .none := by
      rw [checkDepth, if_pos hd]
      rfl
    rw [hfail]
    exact hq.bind he fun _ => hq.pure _
  · rw [checkDepth, if_neg hd]
    exact hf (Nat.lt_of_not_le hd)

/-- A call is its arguments and its own steps. The callee is known before anything is evaluated. -/
theorem call_closed (hq : Closed Q) {func : Expr} {args : List Expr} {keywords : List Keyword}
    (he : Q Unit (checkDepth st depth loc))
    (hargs : depth < st.limit → ∀ e ∈ args, Q Value (expr st (depth + 1) e))
    (hkeywords : depth < st.limit → ∀ k ∈ keywords, Q Value (expr st (depth + 1) k.value))
    (hs : depth < st.limit → CallSteps Q st depth loc func keywords) :
    Q Value (expr st depth (.call loc func args keywords)) := by
  refine enter_closed hq he fun hlt => ?_
  specialize hargs hlt
  specialize hkeywords hlt
  specialize hs hlt
  dsimp only
  cases hn : func.name? with
  | none => exact hs.unnamed hn
  | some name =>
    dsimp only
    cases hp : st.registry.get? name with
    | none =>
      have hc : callee st loc name = fail loc (.unknownPlugin name) := by rw [callee, hp]
      rw [hc]
      exact hs.unknown name hn hp
    | some p =>
      cases hf : p.function? with
      | none =>
        have hc : callee st loc name = fail loc (.notCallable name) := by
          simp only [callee, hp, hf]
        rw [hc]
        exact hs.uncallable name p hn hp hf
      | some f =>
        have hc : callee st loc name = pure (p, f) := by simp only [callee, hp, hf]
        rw [hc, pure_bind]
        refine hq.bind (exprs_closed hq hargs) fun values => ?_
        refine hq.bind (namedArguments_closed hq hkeywords (hs.named name · · · hn) hs.unpacked _)
          fun passed => ?_
        refine hq.bind (hs.handle name p hn hp passed) fun passed => ?_
        exact hs.invoked name p f hn hp hf values passed

/-- Of parts beyond the limit only the entry matters, and parts beyond those are not reached. -/
theorem expr_closed_of_lt (hq : Closed Q) (st : Setting) {depth : Nat} (hd : depth ≤ st.limit) (e : Expr)
    (hentered : ∀ inner part, Reaches depth e inner part → inner ≤ st.limit →
      Q Unit (checkDepth st inner part.loc))
    (hs : ∀ inner part, Reaches depth e inner part → inner < st.limit → StepsAt Q st inner part) :
    Q Value (expr st depth e) := by
  -- each case has its own steps from `here`, and those of its parts from what they reach
  induction e using Expr.induction_on_forms generalizing depth with
  | name loc id =>
    refine enter_closed hq (hentered depth _ (.here ..) hd) fun hlt => ?_
    exact (hs depth _ (.here ..) hlt).name loc id rfl
  | constant loc value hv =>
    exact enter_closed hq (hentered depth _ (.here ..) hd) fun hlt => constant_closed hq hv
  | list loc items ih =>
    refine enter_closed hq (hentered depth _ (.here ..) hd) fun hlt => ?_
    refine hq.bind (exprs_closed hq fun e he => ?_) fun values => hq.pure _
    exact ih e he hlt (fun inner part hr => hentered inner part (.listItem he hr))
      fun inner part hr => hs inner part (.listItem he hr)
  | set loc items ih =>
    refine enter_closed hq (hentered depth _ (.here ..) hd) fun hlt => ?_
    refine hq.bind (hashables_closed hq (fun e he => ?_) ?_) fun values => hq.pure _
    · exact ih e he hlt (fun inner part hr => hentered inner part (.setItem he hr))
        fun inner part hr => hs inner part (.setItem he hr)
    · exact (hs depth _ (.here ..) hlt).item loc items rfl
  | dict loc entries ih =>
    refine enter_closed hq (hentered depth _ (.here ..) hd) fun hlt => ?_
    have here := hs depth _ (.here ..) hlt
    refine hq.bind (dictEntries_closed hq (fun k v he => ?_) ?_ ?_) fun values => hq.pure _
    · obtain ⟨hk, hv⟩ := ih k v he
      exact ⟨hk hlt (fun inner part hr => hentered inner part (.key he hr))
          fun inner part hr => hs inner part (.key he hr),
        hv hlt (fun inner part hr => hentered inner part (.value he hr))
          fun inner part hr => hs inner part (.value he hr)⟩
    · exact here.key loc entries rfl
    · exact here.unpacked loc entries rfl
  | call loc func args keywords ihargs ihkeywords =>
    refine call_closed hq (hentered depth _ (.here ..) hd) (fun hlt e he => ?_) (fun hlt k hk => ?_)
      fun hlt => (hs depth _ (.here ..) hlt).call loc func args keywords rfl
    · exact ihargs e he hlt (fun inner part hr => hentered inner part (.argument he hr))
        fun inner part hr => hs inner part (.argument he hr)
    · exact ihkeywords k hk hlt (fun inner part hr => hentered inner part (.keyword hk hr))
        fun inner part hr => hs inner part (.keyword hk hr)
  | refused e he =>
    rw [Expr.eval_of_refused st depth he]
    refine enter_closed hq (hentered depth _ (.here ..) hd) fun hlt => ?_
    exact (hs depth _ (.here ..) hlt).refused he

theorem expr_closed (hq : Closed Q) (st : Setting) (depth : Nat) (e : Expr)
    (hs : ∀ inner part, Reaches depth e inner part → StepsAt Q st inner part) :
    Q Value (expr st depth e) := by
  have hentered := fun inner part hr => (hs inner part hr).entered
  by_cases hd : depth ≤ st.limit
  · exact expr_closed_of_lt hq st hd e (fun inner part hr _ => hentered inner part hr)
      fun inner part hr _ => hs inner part hr
  · rw [expr.eq_def]
    exact enter_closed hq (hentered depth e (.here ..)) fun hlt => absurd (Nat.le_of_lt hlt) hd

end Eval
end ConfigSandbox
