import ConfigSandbox.Number.Decimal

/-!
The text of a double: the fewest decimal digits that read back as the same number.

For growing digit counts, the two neighbours of the number on that decimal grid are tried against
the interval of reals that round to it. The first grid with a hit wins; of two hits the nearer, and
of two equally near the greater. Exponents from `-4` to `15` are written positionally.
-/
namespace ConfigSandbox

/-- Decimal digits without trailing zeros, and the power of ten of the first one. -/
structure ShortDecimal where
  digits : List Char
  exponent : Int
deriving DecidableEq, Repr

namespace Binary64

/-- The greatest `e` with `10 ^ e ≤ x`, for a finite magnitude `x` other than zero. The factor
`10 ^ 400` lifts every such magnitude above one. -/
def log10 (x : Binary64) : Int :=
  let scaled :=
    x.significand * twoTo x.exponent * Decimal.tenTo 400 / twoTo (-x.exponent)
  (Decimal.length scaled : Int) - 401

/-- The point `n * 10 ^ p` next to `x` that rounds to `x`, if one of the two neighbours of `x` on
this grid does. Magnitudes are counted in quarters of the last place, so that both ends of the
interval that rounds to `x` are whole: the lower end is nearer when the significand is a power of
two. The ends themselves belong to the interval of an even significand. -/
def onGrid? (x : Binary64) (p : Int) : Option Nat :=
  let m := x.significand
  let q := x.exponent - 2
  let up := twoTo q * Decimal.tenTo (-p)
  let unit := twoTo (-q) * Decimal.tenTo p
  let low := (4 * m - if m = leadingBit && -1074 < x.exponent then 1 else 2) * up
  let high := (4 * m + 2) * up
  let below := 4 * m * up / unit
  let remainder := 4 * m * up % unit
  let belowFits := if m % 2 = 0 then low ≤ below * unit else low < below * unit
  let aboveFits := if m % 2 = 0 then (below + 1) * unit ≤ high else (below + 1) * unit < high
  if belowFits then
    if aboveFits && unit ≤ 2 * remainder then some (below + 1) else some below
  else if aboveFits then some (below + 1)
  else none

/-- Tries the grids of `n`, `n + 1`, … digits; `tries` more are tried at most. -/
def shortestFrom (x : Binary64) (top : Int) : Nat → Nat → Nat × Int
  | 0, n => (x.significand, (n : Int))
  | tries + 1, n =>
    let p := top - n + 1
    match x.onGrid? p with
    | some digits => (digits, p)
    | none => shortestFrom x top tries (n + 1)

def trimZeros (digits : List Char) : List Char := (digits.reverse.dropWhile (· == '0')).reverse

/-- The fewest digits that read back as the magnitude of a finite number. -/
def shortest (x : Binary64) : ShortDecimal :=
  if x.significand = 0 then ⟨['0'], 0⟩
  else
    let (n, p) := x.shortestFrom x.log10 17 1
    let digits := Nat.toDigits 10 n
    ⟨trimZeros digits, p + digits.length - 1⟩

end Binary64

namespace ShortDecimal

/-- Positional notation, with at least one digit after the point. -/
def positional (d : ShortDecimal) : List Char :=
  if d.exponent < 0 then
    ['0', '.'] ++ List.replicate (-d.exponent - 1).toNat '0' ++ d.digits
  else
    let places := d.exponent.toNat + 1
    let whole := d.digits.take places ++ List.replicate (places - d.digits.length) '0'
    let fraction := d.digits.drop places
    whole ++ '.' :: (if fraction.isEmpty then ['0'] else fraction)

/-- One digit before the point, no point without a fraction, and an exponent of two digits or
more with its sign. -/
def scientific (d : ShortDecimal) : List Char :=
  let fraction := d.digits.drop 1
  let mantissa := d.digits.take 1 ++ (if fraction.isEmpty then [] else '.' :: fraction)
  mantissa ++ 'e' :: (if d.exponent < 0 then '-' else '+') :: paddedDigits 10 2 d.exponent.natAbs

end ShortDecimal

namespace Binary64

/-- The text of a number. It always shows that the number is no integer constant. -/
def text (x : Binary64) : String :=
  if x.isNaN then "nan"
  else
    let sign := if x.isNegative then "-" else ""
    if x.isInfinite then sign ++ "inf"
    else
      let d := x.shortest
      let isPositional := -4 ≤ d.exponent && d.exponent < 16
      sign ++ String.ofList (if isPositional then d.positional else d.scientific)

end Binary64
end ConfigSandbox
