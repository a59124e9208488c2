import ConfigSandbox.Interpreter.Error
import ConfigSandbox.Submission.Run
import ConfigSandbox.Tree.Parse

/-!
The interpreter that a host keeps: an environment that outlives submissions, the plugins, and a
limit on nesting that holds for texts and for evaluation alike.
-/
namespace ConfigSandbox

structure Interpreter where
  environment : Environment
  registry : Registry
  host : Host
  limit : Nat

namespace Interpreter

/-- An interpreter with nothing bound and no plugins. -/
def new (host : Host) : Interpreter := ⟨.empty, .empty, host, defaultDepthLimit⟩

def setting (it : Interpreter) : Setting := ⟨it.registry, it.host, it.limit⟩

/-- The statements of an input, if all of them may run. -/
def check (it : Interpreter) (input : Input) : Except Error Module := do
  let source ← input.read.mapError .ofInput
  let m ← (Module.parse it.limit source).mapError .ofParse
  (m.validate it.registry).mapError .ofValidation
  return m

/-- Reads, checks and runs one submission. Nothing changes unless all of it may run. -/
def submit (it : Interpreter) (input : Input) : Except Error Unit × Interpreter :=
  match it.check input with
  | .error e => (.error e, it)
  | .ok m =>
    let outcome := m.run it.setting it.environment
    (outcome.result.mapError .ofExecution, { it with environment := outcome.environment })

end Interpreter
end ConfigSandbox
