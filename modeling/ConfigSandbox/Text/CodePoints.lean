/-!
Sets of characters as tables of code point ranges.
-/
namespace ConfigSandbox

/-- First and last code point of each range, in ascending order. -/
abbrev CodePoints := Array (Nat × Nat)

/-- Whether the character lies in one of the ranges. -/
def CodePoints.contains (ranges : CodePoints) (c : Char) : Bool :=
  ranges.any fun r => r.1 ≤ c.toNat && c.toNat ≤ r.2

end ConfigSandbox
