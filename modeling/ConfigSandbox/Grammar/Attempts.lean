import ConfigSandbox.Grammar.Rule

/-!
The record of failed rules from which a syntax error is worded. Only the furthest position matters;
there, a rule that fails stands for the rules that failed inside it, unless it is led to its failure
by exactly one of them.
-/
namespace ConfigSandbox

structure Attempts where
  /-- The furthest offset at which a rule failed. -/
  furthest : Nat
  /-- The rules that failed there, in the order they were noted. -/
  failed : Array Rule
deriving Repr, Inhabited

namespace Attempts

def none : Attempts := ⟨0, #[]⟩

/-- How many failures are on record at an offset. -/
def countAt (att : Attempts) (offset : Nat) : Nat :=
  if offset = att.furthest then att.failed.size else 0

/-- Notes that `r`, tried at `offset` when `before` failures were on record there, has failed. -/
def note (att : Attempts) (r : Rule) (offset before : Nat) : Attempts :=
  if att.countAt offset = before + 1 then att
  else if offset = att.furthest then ⟨offset, (att.failed.shrink before).push r⟩
  else if att.furthest < offset then ⟨offset, #[r]⟩
  else att

end Attempts
end ConfigSandbox
