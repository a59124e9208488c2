import ConfigSandbox.Proofs.Submission.Blame
import ConfigSandbox.Proofs.Submission.Whitelist
import ConfigSandbox.Proofs.Tree.Levels

/-!
# One limit for reading and for running

Reading counts rows of operators, running counts lists, sets, dicts and calls. Whatever a run comes to lies
inside as many of these as brackets, and in a validated tree the deepest leaf takes a level itself, so a
limit that admits the text admits the run. Only the environment that a call adds to its keywords was not
there to be counted.
-/
namespace ConfigSandbox

theorem levels_le_entryLevels {w : Nat} {k v : Expr} {entries : List DictEntry} (h : .pair k v ∈ entries) :
    k.levels w ≤ entryLevels w entries ∧ v.levels w ≤ entryLevels w entries := by
  induction entries with
  | nil => cases h
  | cons entry rest ih =>
    rcases List.mem_cons.mp h with rfl | hrest
    · rw [entryLevels]
      omega
    · have hle := ih hrest
      cases entry <;> rw [entryLevels] <;> omega

/-- Each part that a run comes to is counted by the levels of the whole. -/
theorem Reaches.levels_le {depth inner : Nat} {e part : Expr} (h : Reaches depth e inner part) (w : Nat) :
    inner + part.levels w ≤ depth + e.levels w := by
  induction h with
  | here => exact Nat.le_refl _
  | listItem he _ ih | setItem he _ ih =>
    have hitem := levelsIn_le_iff.mp (Nat.le_refl (levelsIn w _)) _ he
    rw [Expr.levels]
    omega
  | key he _ ih =>
    have hkey := (levels_le_entryLevels (w := w) he).1
    rw [Expr.levels]
    omega
  | value he _ ih =>
    have hvalue := (levels_le_entryLevels (w := w) he).2
    rw [Expr.levels]
    omega
  | argument he _ ih =>
    have hargument := levelsIn_le_iff.mp (Nat.le_refl (levelsIn w _)) _ he
    rw [Expr.levels]
    omega
  | keyword hk _ ih =>
    have hkeyword := keywordLevels_le_iff.mp (Nat.le_refl (keywordLevels w _)) _ hk
    rw [Expr.levels]
    omega

theorem Expr.levels_pos_of_validate {e : Expr} (w : Nat) (h : e.validate = .ok ()) : 1 ≤ e.levels w := by
  cases e with
  | name | constant | comprehension | formatStr => exact Nat.le_refl 1
  | list | set | dict => exact Nat.le_add_right 1 _
  | call => exact Nat.le_trans (Nat.le_add_right 1 _) (Nat.le_max_right _ _)
  | _ => cases h

theorem Expr.tupleLevel_of_validate {e : Expr} (h : e.validate = .ok ()) : e.tupleLevel = 0 := by
  cases e with
  | tuple => cases h
  | _ => rfl

/-- A target that is accepted is a name. -/
theorem validate_target {reg : Registry} {target : Expr} (h : validateTarget reg target = .ok ()) :
    target.validate = .ok () := by
  cases target with
  | name => rfl
  | _ => cases h

theorem Statement.validate_exprs {reg : Registry} {s : Statement} (h : s.validate reg = .ok ()) :
    ∀ e ∈ s.kind.exprs, e.validate = .ok () := by
  unfold validate at h
  split at h
  · rename_i value hkind
    rw [hkind]
    split at h
    · exact List.forall_mem_singleton.mpr h
    · cases h
  · rename_i target value hkind
    obtain ⟨htarget, hvalue⟩ := ok_of_bind.mp h
    rw [hkind]
    exact List.forall_mem_cons.mpr ⟨validate_target htarget, List.forall_mem_singleton.mpr hvalue⟩
  · cases h
  · cases h

namespace Module

variable {limit inner : Nat} {source : String} {m : Module} {reg : Registry} {e part : Expr}

theorem validate_exprs (hv : m.validate reg = .ok ()) (he : e ∈ m.exprs) : e.validate = .ok () := by
  obtain ⟨s, hs, he⟩ := List.mem_flatMap.mp he
  exact Statement.validate_exprs (validateStatements_ok_iff.mp hv s hs) e he

/-- Everything that a run comes to lies inside fewer others than the limit of the text. -/
theorem Reaches.lt_limit (hm : Module.parse limit source = .ok m) (hv : m.validate reg = .ok ())
    (hr : m.Reaches inner part) : inner < limit := by
  obtain ⟨e, he, hr⟩ := hr
  have hlooked := validate_exprs hv he
  have hlevels : e.bareLevels 0 ≤ limit := parse_levels budget_id hm he
  have hpart := part.levels_pos_of_validate 0 (hr.validate hlooked)
  have hle := hr.levels_le 0
  rw [Expr.bareLevels, Expr.tupleLevel_of_validate hlooked] at hlevels
  omega

/-- A run under the limit of the text finds nothing of the text too deep, and under the next limit nothing
at all. -/
theorem run_within_limit (hm : Module.parse limit source = .ok m) (hv : m.validate reg = .ok ())
    (host : Host) (env : Environment) :
    (∀ err depth bound, (m.run ⟨reg, host, limit⟩ env).result = .error err →
      err.fault = .tooDeep depth bound → err = ⟨.tooDeep (limit + 1) limit, .synthetic⟩ ∧
        ¬ m.HasNodeAt .synthetic ∧ m.AddsHandleAtLimit ⟨reg, host, limit⟩) ∧
    ((∀ name p, reg.get? name = some p → p.wantsEnvironment = false) → ∀ err depth bound,
      (m.run ⟨reg, host, limit⟩ env).result = .error err → err.fault ≠ .tooDeep depth bound) ∧
    (∀ err depth bound, (m.run ⟨reg, host, limit + 1⟩ env).result = .error err →
      err.fault ≠ .tooDeep depth bound) := by
  have hsame (err : ExecutionError) (depth bound : Nat)
      (h : (m.run ⟨reg, host, limit⟩ env).result = .error err) (hf : err.fault = .tooDeep depth bound) :
      err = ⟨.tooDeep (limit + 1) limit, .synthetic⟩ ∧ m.AddsHandleAtLimit ⟨reg, host, limit⟩ := by
    cases run_blames h with
    | node _ other =>
      obtain rfl : _ = ExecutionFault.tooDeep depth bound := hf
      cases other
    | depth reached => exact absurd (reached.lt_limit hm hv) (Nat.lt_irrefl limit)
    | handle added => exact ⟨rfl, added⟩
  refine ⟨fun err depth bound h hf => ?_, fun hwants err depth bound h hf => ?_, fun err depth bound h hf => ?_⟩
  · obtain ⟨herr, hadds⟩ := hsame err depth bound h hf
    exact ⟨herr, not_hasNodeAt_synthetic hm, hadds⟩
  · obtain ⟨-, inner, loc, func, args, keywords, name, p, -, -, -, hp, hlacks⟩ := hsame err depth bound h hf
    rw [Plugin.lacksHandle, hwants name p hp] at hlacks
    cases hlacks
  · cases run_blames h with
    | node _ other =>
      obtain rfl : _ = ExecutionFault.tooDeep depth bound := hf
      cases other
    | depth reached => exact absurd (reached.lt_limit hm hv) (by dsimp only; omega)
    | handle added =>
      obtain ⟨inner, loc, func, args, keywords, name, p, hr, hlast, -⟩ := added
      have hlt := hr.lt_limit hm hv
      dsimp only at hlast
      omega

/-- A call that the count of brackets misses, since a carriage return ends the comment before it: too deep
for the environment under the limit of the text, and not if the function does without or under the next. -/
theorem run_within_limit_hidden_call :
    let source := "#\rget()"
    let reg (wants : Bool) := Registry.empty.insert "get" (.function ⟨"get", wants, 0⟩)
    let st (wants : Bool) (limit : Nat) : Setting := ⟨reg wants, Catalog.host, limit⟩
    let missing : ExecutionError := ⟨.plugin "get" (.argument "argument 0 must be str"), ⟨1, ⟨2, 7⟩⟩⟩
    ∃ m, Module.parse 1 source = .ok m ∧ m.validate (reg true) = .ok () ∧ m.validate (reg false) = .ok () ∧
      (m.run (st true 1) .empty).result = .error ⟨.tooDeep 2 1, .synthetic⟩ ∧
      m.AddsHandleAtLimit (st true 1) ∧
      (m.run (st false 1) .empty).result = .error missing ∧
      (∀ depth bound, missing.fault ≠ .tooDeep depth bound) ∧
      ∀ err depth bound, (m.run (st true 2) .empty).result = .error err → err.fault ≠ .tooDeep depth bound := by
  intro source reg st missing
  have htest : ((Module.parse 1 source).map fun m => ([m.validate (reg true), m.validate (reg false)],
      [(m.run (st true 1) .empty).result, (m.run (st false 1) .empty).result])) =
      .ok ([.ok (), .ok ()], [.error ⟨.tooDeep 2 1, .synthetic⟩, .error missing]) := by decide +kernel
  obtain ⟨m, hm, hresults⟩ := exists_of_map_eq_ok htest
  simp only [Prod.mk.injEq, List.cons.injEq, and_true] at hresults
  obtain ⟨⟨hvalid, hvalid'⟩, hdeep, hplugin⟩ := hresults
  have hwants : ∀ name p, (reg false).get? name = some p → p.wantsEnvironment = false := by
    intro name p hp
    have hbindings : (reg false).bindings = [("get", .function ⟨"get", false, 0⟩)] := rfl
    rw [Registry.get?, hbindings, List.lookup_cons] at hp
    split at hp
    · cases hp
      rfl
    · cases hp
  obtain ⟨hhandle, -, hnext⟩ := run_within_limit hm hvalid Catalog.host .empty
  obtain ⟨-, hwithout, -⟩ := run_within_limit hm hvalid' Catalog.host .empty
  exact ⟨m, hm, hvalid, hvalid', hdeep, (hhandle _ 2 1 hdeep rfl).2.2, hplugin,
    fun depth bound => hwithout hwants missing depth bound hplugin, hnext⟩

end Module
end ConfigSandbox
