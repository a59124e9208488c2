import ConfigSandbox.Proofs.Submission.Forms

/-!
# What validation has looked at

A whole is accepted exactly if each of its parts is. Which part is refused first does not matter here;
for dicts in particular the order of the look at keys and values is gone.
-/
namespace ConfigSandbox

theorem bind_eq_ok_iff {ε α β : Type} {x : Except ε α} {f : α → Except ε β} {b : β} :
    (x >>= f) = .ok b ↔ ∃ a, x = .ok a ∧ f a = .ok b := by
  cases x with
  | error e =>
    constructor
    · intro h
      cases h
    · rintro ⟨a, h, -⟩
      cases h
  | ok a =>
    constructor
    · exact fun h => ⟨a, rfl, h⟩
    · rintro ⟨a', h, hf⟩
      cases h
      exact hf

theorem ok_of_bind {ε : Type} {x y : Except ε Unit} :
    (x >>= fun _ => y) = .ok () ↔ x = .ok () ∧ y = .ok () := by
  rw [bind_eq_ok_iff]
  constructor
  · rintro ⟨u, hx, hy⟩
    exact ⟨hx, hy⟩
  · rintro ⟨hx, hy⟩
    exact ⟨(), hx, hy⟩

theorem validateAll_ok_iff {items : List Expr} :
    validateAll items = .ok () ↔ ∀ e ∈ items, e.validate = .ok () := by
  induction items with
  | nil => simp [validateAll]
  | cons e rest ih => rw [validateAll, ok_of_bind, ih, List.forall_mem_cons]

/-- A dict is accepted if nothing in it is unpacked, and all keys and values are accepted. -/
theorem validateEntries_ok_iff {entries : List DictEntry} :
    validateKeys entries = .ok () ∧ validateValues entries = .ok () ↔
      (∀ v, .unpack v ∉ entries) ∧
        ∀ k v, .pair k v ∈ entries → k.validate = .ok () ∧ v.validate = .ok () := by
  induction entries with
  | nil => simp [validateKeys, validateValues]
  | cons entry rest ih =>
    cases entry with
    | unpack v =>
      constructor
      · rintro ⟨hk, -⟩
        cases hk
      · rintro ⟨hu, -⟩
        exact absurd List.mem_cons_self (hu v)
    | pair k v =>
      rw [validateKeys, validateValues, ok_of_bind, ok_of_bind, and_and_and_comm, ih]
      simp only [List.mem_cons, DictEntry.pair.injEq, reduceCtorEq, false_or]
      constructor
      · rintro ⟨hkv, hu, hrest⟩
        refine ⟨hu, fun k' v' hm => ?_⟩
        obtain ⟨rfl, rfl⟩ | hm := hm
        · exact hkv
        · exact hrest k' v' hm
      · rintro ⟨hu, hall⟩
        exact ⟨hall k v (Or.inl ⟨rfl, rfl⟩), hu, fun k' v' hm => hall k' v' (Or.inr hm)⟩

theorem validateKeywords_ok_iff {keywords : List Keyword} :
    validateKeywords keywords = .ok () ↔
      (∀ loc v, .unpack loc v ∉ keywords) ∧ ∀ k ∈ keywords, k.value.validate = .ok () := by
  induction keywords with
  | nil => simp [validateKeywords]
  | cons k rest ih =>
    cases k with
    | unpack loc v =>
      constructor
      · intro h
        cases h
      · rintro ⟨hu, -⟩
        exact absurd List.mem_cons_self (hu loc v)
    | named loc name v =>
      rw [validateKeywords, ok_of_bind, ih]
      simp only [List.mem_cons, reduceCtorEq, false_or, forall_eq_or_imp, Keyword.value]
      exact ⟨fun h => ⟨h.2.1, h.1, h.2.2⟩, fun h => ⟨h.2.1, h.1, h.2.2⟩⟩

namespace Expr

theorem validate_dict_iff {loc : Location} {entries : List DictEntry} :
    (dict loc entries).validate = .ok () ↔ (∀ v, .unpack v ∉ entries) ∧
      ∀ k v, .pair k v ∈ entries → k.validate = .ok () ∧ v.validate = .ok () := by
  rw [validate, ok_of_bind, validateEntries_ok_iff]

theorem validate_call_iff {loc : Location} {func : Expr} {args : List Expr}
    {keywords : List Keyword} :
    (call loc func args keywords).validate = .ok () ↔ func.name? ≠ none ∧
      (∀ e ∈ args, e.validate = .ok ()) ∧ (∀ kloc v, .unpack kloc v ∉ keywords) ∧
        ∀ k ∈ keywords, k.value.validate = .ok () := by
  rw [← validateAll_ok_iff, ← validateKeywords_ok_iff, ← ok_of_bind, validate]
  cases func.name? with
  | none =>
    constructor
    · intro h
      cases h
    · exact fun h => absurd rfl h.1
  | some name => exact ⟨fun h => ⟨by simp, h⟩, fun h => h.2⟩

end Expr

theorem validateStatements_ok_iff {reg : Registry} {body : List Statement} :
    validateStatements reg body = .ok () ↔ ∀ s ∈ body, s.validate reg = .ok () := by
  induction body with
  | nil => simp [validateStatements]
  | cons s rest ih => rw [validateStatements, ok_of_bind, ih, List.forall_mem_cons]

namespace Statement

variable {reg : Registry} {s : Statement}

theorem validate_assign_iff {tloc : Location} {name : String} {value : Expr}
    (hs : s.kind = .assign [.name tloc name] value) : s.validate reg = .ok () ↔
      reg.contains name = false ∧ isHidden name = false ∧ value.validate = .ok () := by
  have hv : s.validate reg = (validateTarget reg (.name tloc name) >>= fun _ => value.validate) := by
    rw [validate, hs]
  have ht : validateTarget reg (.name tloc name) = .ok () ↔
      reg.contains name = false ∧ isHidden name = false := by
    simp only [validateTarget, Expr.name?]
    split
    · rename_i hc
      simp [hc]
    · rename_i hc
      split
      · rename_i hh
        simp [hh]
      · rename_i hh
        simp [hc, hh]
  rw [hv, ok_of_bind, ht, and_assoc]

theorem validate_call_iff {loc : Location} {func : Expr} {args : List Expr}
    {keywords : List Keyword} (hs : s.kind = .expr (.call loc func args keywords)) :
    s.validate reg = .ok () ↔ (Expr.call loc func args keywords).validate = .ok () := by
  rw [validate, hs]

end Statement
end ConfigSandbox
