import ConfigSandbox.Submission.Evaluation
import ConfigSandbox.Submission.Validation

/-!
# The forms of expressions that may run

Validation and evaluation go down into the same parts of an expression: items, keys and values, and
the arguments of a call. The induction below has these parts only; every other construct is one case,
whatever it contains.
-/
namespace ConfigSandbox.Expr

/-- The constructs that no submission may hold. -/
def isRefused : Expr → Bool
  | name .. | list .. | set .. | dict .. | call .. => false
  | constant _ value => !value.isAllowed
  | _ => true

theorem validate_of_refused {e : Expr} (h : e.isRefused) :
    e.validate = .error (.syntaxAt e.loc e.describe) := by
  cases e with
  | name | list | set | dict | call => cases h
  | constant loc value =>
    have hv : ¬ value.isAllowed := by simpa [isRefused] using h
    rw [validate, if_neg hv]
    rfl
  | _ => rfl

open Eval in
/-- Evaluation refuses these constructs too, after its look at the depth. -/
theorem eval_of_refused (st : Setting) (depth : Nat) {e : Expr} (h : e.isRefused) :
    Eval.expr st depth e =
      (checkDepth st depth e.loc >>= fun _ => fail e.loc (.illegalSyntax e.describe)) := by
  cases e with
  | name | list | set | dict | call => cases h
  | constant loc value =>
    cases value with
    | none | bool | int | float | str => cases h
    | bytes bs => rfl
    | ellipsis => rfl
  | _ => rfl

/-- Goes down to the parts that are evaluated. -/
theorem induction_on_forms {P : Expr → Prop}
    (name : ∀ loc id, P (name loc id))
    (constant : ∀ loc value, value.isAllowed → P (constant loc value))
    (list : ∀ loc items, (∀ e ∈ items, P e) → P (list loc items))
    (set : ∀ loc items, (∀ e ∈ items, P e) → P (set loc items))
    (dict : ∀ loc entries, (∀ k v, DictEntry.pair k v ∈ entries → P k ∧ P v) → P (dict loc entries))
    (call : ∀ loc func args keywords, (∀ e ∈ args, P e) → (∀ k ∈ keywords, P k.value) →
      P (call loc func args keywords))
    (refused : ∀ e, e.isRefused → P e) (e : Expr) : P e := by
  refine WellFounded.induction (measure (sizeOf : Expr → Nat)).wf e ?_
  intro e ih
  cases e with
  | name loc id => exact name loc id
  | constant loc value =>
    by_cases hv : value.isAllowed
    · exact constant loc value hv
    · exact refused _ (by simpa [isRefused] using hv)
  | list loc items =>
    refine list loc items fun e he => ih e ?_
    have hlt := List.sizeOf_lt_of_mem he
    change sizeOf e < sizeOf (Expr.list loc items)
    rw [Expr.list.sizeOf_spec]
    omega
  | set loc items =>
    refine set loc items fun e he => ih e ?_
    have hlt := List.sizeOf_lt_of_mem he
    change sizeOf e < sizeOf (Expr.set loc items)
    rw [Expr.set.sizeOf_spec]
    omega
  | dict loc entries =>
    refine dict loc entries fun k v he => ⟨ih k ?_, ih v ?_⟩ <;>
    · have hlt := List.sizeOf_lt_of_mem he
      rw [DictEntry.pair.sizeOf_spec] at hlt
      change _ < sizeOf (Expr.dict loc entries)
      rw [Expr.dict.sizeOf_spec]
      omega
  | call loc func args keywords =>
    refine call loc func args keywords (fun e he => ih e ?_) (fun k hk => ih k.value ?_)
    · have hlt := List.sizeOf_lt_of_mem he
      change sizeOf e < sizeOf (Expr.call loc func args keywords)
      rw [Expr.call.sizeOf_spec]
      omega
    · have hlt := List.sizeOf_lt_of_mem hk
      have hv : sizeOf k.value < sizeOf k := by
        cases k <;> simp only [Keyword.value, Keyword.named.sizeOf_spec, Keyword.unpack.sizeOf_spec] <;>
          omega
      change sizeOf k.value < sizeOf (Expr.call loc func args keywords)
      rw [Expr.call.sizeOf_spec]
      omega
  | _ => exact refused _ rfl

end ConfigSandbox.Expr
