import ConfigSandbox.Interpreter.Basic
import ConfigSandbox.Plugin.Catalog
import ConfigSandbox.Proofs.Submission.Limits
import ConfigSandbox.Proofs.Tree.Limits

/-!
# A submission under a higher limit

An interpreter has one limit for texts and for runs. A submission passes the stages one after another, so
under a higher limit it first differs where one of them ends with an error of depth under the lower one,
and nothing comes after such an error.
-/
namespace ConfigSandbox

/-- Whether an error of this kind is about the limit of nesting. -/
def ErrorKind.isDepth : ErrorKind → Bool
  | .tooDeep .. => true
  | _ => false

theorem ErrorKind.isDepth_ofParseFault (fault : ParseFault) :
    (ofParseFault fault).isDepth = fault.isDepth := by
  cases fault <;> rfl

theorem ErrorKind.isDepth_ofExecutionFault {fault : ExecutionFault} (h : fault.isDepth) :
    (ofExecutionFault fault).isDepth := by
  cases fault with
  | tooDeep => rfl
  | _ => cases h

namespace Interpreter

variable {limit limit' : Nat}

/-- The same interpreter with another limit. -/
def withLimit (it : Interpreter) (limit : Nat) : Interpreter := { it with limit := limit }

theorem check_of_limit_le (hlimit : limit ≤ limit') (it : Interpreter) (input : Input) :
    (∃ e, (it.withLimit limit).check input = .error e ∧ e.kind.isDepth) ∨
      (it.withLimit limit').check input = (it.withLimit limit).check input := by
  unfold check
  cases input.read with
  | error fault => exact Or.inr rfl
  | ok source =>
    obtain ⟨err, herr, hdepth⟩ | hsame := Module.parse_outlasted hlimit source
    · refine Or.inl ⟨.ofParse err, ?_, ?_⟩
      · show (Module.parse limit source).mapError Error.ofParse >>= _ = _
        rw [herr]
        rfl
      · show (ErrorKind.ofParseFault err.fault).isDepth
        rw [ErrorKind.isDepth_ofParseFault]
        exact hdepth
    · right
      show (Module.parse limit' source).mapError Error.ofParse >>= _ =
        (Module.parse limit source).mapError Error.ofParse >>= _
      rw [hsame]
      rfl

theorem submit_outlasted (hlimit : limit ≤ limit') (it : Interpreter) (input : Input) :
    (∃ e, ((it.withLimit limit).submit input).1 = .error e ∧ e.kind.isDepth) ∨
      (((it.withLimit limit').submit input).1 = ((it.withLimit limit).submit input).1 ∧
        ((it.withLimit limit').submit input).2.environment =
          ((it.withLimit limit).submit input).2.environment) := by
  obtain ⟨e, hc, hdepth⟩ | hsame := check_of_limit_le hlimit it input
  · left
    exact ⟨e, by rw [submit, hc], hdepth⟩
  · rw [submit, submit, hsame]
    cases (it.withLimit limit).check input with
    | error e => exact Or.inr ⟨rfl, rfl⟩
    | ok m =>
      obtain ⟨err, hr, hdepth⟩ | hrun := m.run_of_limit_le it.setting hlimit it.environment
      · left
        refine ⟨.ofExecution err, ?_, ErrorKind.isDepth_ofExecutionFault hdepth⟩
        show (m.run (it.setting.withLimit limit) it.environment).result.mapError _ = _
        rw [hr]
        rfl
      · right
        exact ⟨congrArg (·.result.mapError Error.ofExecution) hrun, congrArg (·.environment) hrun⟩

/-- A higher limit changes nothing for a submission that is not refused for its depth: it has the same result,
an error in the same place included, and leaves the same environment. Nor does it change how a text is read
or how a module runs, where the one or the other does not end with an error of depth. -/
theorem submit_of_limit_le (hlimit : limit ≤ limit') :
    (∀ (it : Interpreter) (input : Input),
      (∀ e, ((it.withLimit limit).submit input).1 = .error e → e.kind.isDepth = false) →
      ((it.withLimit limit').submit input).1 = ((it.withLimit limit).submit input).1 ∧
        ((it.withLimit limit').submit input).2.environment =
          ((it.withLimit limit).submit input).2.environment) ∧
    (∀ source, (∀ e, Module.parse limit source = .error e → e.fault.isDepth = false) →
      Module.parse limit' source = Module.parse limit source) ∧
    (∀ (reg : Registry) (host : Host) (env : Environment) (m : Module),
      (∀ e, (m.run ⟨reg, host, limit⟩ env).result = .error e → e.fault.isDepth = false) →
      m.run ⟨reg, host, limit'⟩ env = m.run ⟨reg, host, limit⟩ env) := by
  refine ⟨fun it input h => ?submission, fun source h => ?text, fun reg host env m h => ?run⟩
  case submission =>
    obtain ⟨e, he, hdepth⟩ | hsame := submit_outlasted hlimit it input
    · rw [h e he] at hdepth
      cases hdepth
    · exact hsame
  case text =>
    obtain ⟨e, he, hdepth⟩ | hsame := Module.parse_outlasted hlimit source
    · rw [h e he] at hdepth
      cases hdepth
    · exact hsame
  case run =>
    obtain ⟨e, he, hdepth⟩ | hsame := m.run_of_limit_le ⟨reg, host, limit⟩ hlimit env
    · rw [h e he] at hdepth
      cases hdepth
    · exact hsame

/-- The first call is made, the second is to a plugin that nobody has bound. The text and what is run of it
need the three levels that the limit allows. -/
theorem submit_of_limit_le_unknown :
    let reg := Registry.empty.insert "collect" (.function ⟨"collect", false, 0⟩)
    let it : Interpreter := ⟨.ofList [("a", .int 1)], reg, Catalog.host, 3⟩
    let text := "collect([1])\nwipe()"
    let loc : Location := ⟨1, ⟨0, 12⟩⟩
    let m : Module := ⟨[⟨loc, .expr (.call loc (.name loc "collect") [.list loc [.constant loc (.int 1)]] [])⟩]⟩
    let e : Error := ⟨.unknownPlugin "wipe", some ⟨2, ⟨13, 19⟩⟩⟩
    ((it.withLimit 3).submit (.text text)).1 = .error e ∧
      ((it.withLimit 200).submit (.text text)).1 = .error e ∧
      Module.parse 200 text = Module.parse 3 text ∧
      m.run ⟨reg, it.host, 200⟩ it.environment = m.run ⟨reg, it.host, 3⟩ it.environment := by
  intro reg it text loc m e
  obtain ⟨hsubmit, hparse, hrun⟩ := submit_of_limit_le (show 3 ≤ 200 by decide)
  have hresult : ((it.withLimit 3).submit (.text text)).1 = .error e := by decide +kernel
  have hread : (Module.parse 3 text).isOk := by decide +kernel
  have hran : (m.run ⟨reg, it.host, 3⟩ it.environment).result = .ok () := by decide +kernel
  refine ⟨hresult, ?_, ?_, ?_⟩
  · refine (hsubmit it (.text text) fun err herr => ?_).1.trans hresult
    rw [hresult] at herr
    cases herr
    rfl
  · refine hparse text fun err herr => ?_
    rw [herr] at hread
    cases hread
  · refine hrun _ _ _ m fun err herr => ?_
    rw [hran] at herr
    cases herr

end Interpreter
end ConfigSandbox
