/-!
Double precision numbers as their sixty-four bits, with exact arithmetic on natural numbers only.

A finite number is `significand * 2 ^ exponent`, with its sign apart. `nearest` rounds a fraction to
the closest such magnitude, an exact tie to the even significand.
-/
namespace ConfigSandbox

structure Binary64 where
  bits : UInt64
deriving DecidableEq, Repr, Inhabited

namespace Binary64

def signBit : Nat := 0x8000000000000000

/-- The leading bit of a normal significand, which is not stored. -/
def leadingBit : Nat := 0x10000000000000

def isNegative (x : Binary64) : Bool := signBit ≤ x.bits.toNat

/-- All bits but the sign. -/
def magnitude (x : Binary64) : Nat := x.bits.toNat % signBit

def infinityMagnitude : Nat := 2047 * leadingBit

def isNaN (x : Binary64) : Bool := infinityMagnitude < x.magnitude

def isInfinite (x : Binary64) : Bool := x.magnitude = infinityMagnitude

def isFinite (x : Binary64) : Bool := x.magnitude < infinityMagnitude

def significand (x : Binary64) : Nat :=
  if x.magnitude < leadingBit then x.magnitude else x.magnitude % leadingBit + leadingBit

def exponent (x : Binary64) : Int :=
  (max (x.magnitude / leadingBit) 1 : Nat) - 1075

def ofMagnitude (negative : Bool) (magnitude : Nat) : Binary64 :=
  ⟨UInt64.ofNat (magnitude + if negative then signBit else 0)⟩

def nan : Binary64 := ofMagnitude false (infinityMagnitude + leadingBit / 2)

def infinity (negative : Bool) : Binary64 := ofMagnitude negative infinityMagnitude

/-- The quotient rounded to the nearest natural number, a tie to the even one. -/
def divNearest (num den : Nat) : Nat :=
  let quotient := num / den
  let twice := 2 * (num % den)
  if twice < den then quotient
  else if den < twice then quotient + 1
  else quotient + quotient % 2

/-- The power of two, or one for a negative exponent: `2 ^ e` is `twoTo e / twoTo (-e)`. -/
def twoTo (e : Int) : Nat := Nat.pow 2 e.toNat

/-- The greatest `e` with `2 ^ e ≤ num / den`, for positive arguments. -/
def log2Ratio (num den : Nat) : Int :=
  let e : Int := num.log2 - den.log2
  if den * twoTo e ≤ num * twoTo (-e) then e else e - 1

/-- The magnitude nearest to `num / den`; it is infinite from the midpoint beyond the last finite
one on. -/
def nearest (num den : Nat) : Nat :=
  if num = 0 then 0
  else
    let q := max (log2Ratio num den - 52) (-1074)
    let significand := divNearest (num * twoTo (-q)) (den * twoTo q)
    min ((q + 1074).toNat * leadingBit + significand) infinityMagnitude

/-- The number nearest to an integer. -/
def ofInt (n : Int) : Binary64 := ofMagnitude (n < 0) (nearest n.natAbs 1)

/-- Equality as numbers: the zeros are equal, and no NaN equals anything. -/
def equals (x y : Binary64) : Bool :=
  !x.isNaN && !y.isNaN && (x.bits == y.bits || (x.magnitude == 0 && y.magnitude == 0))

end Binary64
end ConfigSandbox
