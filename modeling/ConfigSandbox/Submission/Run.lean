import ConfigSandbox.Submission.Evaluation

/-!
One run of a submission. Two hidden entries stand in the environment while its statements run; they
are bound before the first and unbound after the last, whether the run succeeded or not.
-/
namespace ConfigSandbox

/-- Where a submission is in its life. -/
inductive Phase where
  | idle
  | done (succeeded : Bool)
deriving DecidableEq, Repr

namespace Environment

def withSentinels (env : Environment) : Environment :=
  env.insertAll [(builtinsKey, .dict []), (handleKey, .environment)]

def withoutSentinels (env : Environment) : Environment :=
  ((env.remove builtinsKey).2.remove handleKey).2

end Environment

/-- How a run ended. -/
structure Outcome where
  result : Except ExecutionError Unit
  environment : Environment
  /-- The function calls of the run, the latest first. -/
  calls : List Invocation

def Outcome.phase (outcome : Outcome) : Phase :=
  .done (match outcome.result with | .ok _ => true | .error _ => false)

/-- Runs a submission. Statements before an error keep their effect. -/
def Module.run (st : Setting) (env : Environment) (m : Module) : Outcome :=
  let (result, machine) := (Eval.statements st m.body).run ⟨env.withSentinels, []⟩
  ⟨result, machine.environment.withoutSentinels, machine.calls⟩

end ConfigSandbox
