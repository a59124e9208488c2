import Mathlib.Control.Monad.Basic
import ConfigSandbox.Interpreter.Basic
import ConfigSandbox.Plugin.Catalog
import ConfigSandbox.Proofs.Environment.Store
import ConfigSandbox.Proofs.Submission.Whitelist

/-!
# A rejected submission changes nothing

Some kinds of errors promise a host that nothing has been run. Two stages can word such an error, and
one of them runs after changes have been made. No error of that stage keeps its wording on the way to
the host, unless it was one that validation excludes. Errors of the other kinds promise nothing here.
-/
namespace ConfigSandbox

/-- Whether an error of this kind says that nothing has been changed. -/
def ErrorKind.isRejection : ErrorKind → Bool
  | .input _ | .syntaxFault _ | .illegalSyntax _ => true
  | .illegalAssignment (.existingName _) => false
  | .illegalAssignment _ => true
  | _ => false

theorem mapError_eq_ok_iff {ε ε' α : Type} {x : Except ε α} {f : ε → ε'} {a : α} :
    x.mapError f = .ok a ↔ x = .ok a := by
  cases x <;> simp [Except.mapError]

theorem ErrorKind.ofExecutionFault_not_isRejection {fault : ExecutionFault}
    (h : ∀ construct, fault ≠ .illegalSyntax construct) :
    (ofExecutionFault fault).isRejection = false := by
  cases fault with
  | illegalSyntax construct => exact absurd rfl (h construct)
  | plugin name error =>
    -- a hidden key that a function touched is told apart from what else went wrong in it
    cases error with
    | environment fault => cases fault <;> rfl
    | argument message => rfl
    | failed message => rfl
  | existingName | unknownPlugin | unboundName | notCallable | unhashable | duplicateKeyword
  | tooDeep => rfl

namespace Interpreter

variable {it : Interpreter} {input : Input}

theorem validate_of_check {m : Module} (h : it.check input = .ok m) :
    m.validate it.registry = .ok () := by
  obtain ⟨source, -, h⟩ := bind_eq_ok_iff.mp h
  obtain ⟨parsed, -, h⟩ := bind_eq_ok_iff.mp h
  obtain ⟨u, hv, h⟩ := bind_eq_ok_iff.mp h
  cases h
  exact mapError_eq_ok_iff.mp hv

theorem submit_of_check_error {e : Error} (h : it.check input = .error e) :
    it.submit input = (.error e, it) := by
  rw [submit, h]

/-- What has been checked ends well or with an error that rejects nothing. -/
theorem not_isRejection_of_check {m : Module} (hc : it.check input = .ok m) {e : Error}
    (h : (it.submit input).1 = .error e) : e.kind.isRejection = false := by
  rw [submit, hc] at h
  change (m.run it.setting it.environment).result.mapError Error.ofExecution = .error e at h
  cases hr : (m.run it.setting it.environment).result with
  | ok u =>
    rw [hr] at h
    cases h
  | error fault =>
    have hlegal : fault.IsLegal := Module.run_isLegal (validate_of_check hc) hr
    rw [hr] at h
    cases h
    exact ErrorKind.ofExecutionFault_not_isRejection hlegal

/-- A submission that is rejected has not passed the checks, so none of its statements has run,
whatever stands before the one that is at fault. The interpreter is the one it was. -/
theorem submit_rejected {e : Error} (h : (it.submit input).1 = .error e)
    (hk : e.kind.isRejection) : it.check input = .error e ∧ (it.submit input).2 = it := by
  cases hc : it.check input with
  | ok m =>
    rw [not_isRejection_of_check hc h] at hk
    cases hk
  | error fault =>
    rw [submit_of_check_error hc] at h ⊢
    cases h
    exact ⟨rfl, rfl⟩

/-- A call that would wipe the environment stands before the import that is at fault. -/
theorem submit_rejected_import :
    let it : Interpreter :=
      { environment := .ofList [("a", .int 1), ("__key__", .str "secret")]
        registry := Registry.empty.insert "wipe" (.function ⟨"wipe", true, 0⟩)
        host := Catalog.host
        limit := 9 }
    let e : Error := ⟨.illegalSyntax "import statement", some ⟨2, ⟨7, 16⟩⟩⟩
    (it.submit (.text "wipe()\nimport os")).1 = .error e ∧ e.kind.isRejection ∧
      (it.submit (.text "wipe()\nimport os")).2 = it := by
  intro it e
  have hrun : (it.submit (.text "wipe()\nimport os")).1 = .error e := by decide +kernel
  exact ⟨hrun, rfl, (submit_rejected hrun rfl).2⟩

end Interpreter
end ConfigSandbox
