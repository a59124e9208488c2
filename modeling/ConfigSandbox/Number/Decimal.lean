import ConfigSandbox.Number.Binary64
import ConfigSandbox.Text.Digits

/-!
Reading a double from decimal text. The text is an optional sign and either `inf`, `infinity` or
`nan` in any case, or digits with an optional point and an optional exponent; at least one digit
stands on one side of the point. The result is the double nearest to the decimal.
-/
namespace ConfigSandbox

/-- A decimal: `digits * 10 ^ exponent`. -/
structure Decimal where
  digits : Nat
  exponent : Int
deriving DecidableEq, Repr

namespace Decimal

/-- Digits of an exponent, with a sign before them or not. -/
def exponent? (cs : List Char) : Option Int :=
  let (negative, digits) :=
    match cs with
    | '-' :: rest => (true, rest)
    | '+' :: rest => (false, rest)
    | _ => (false, cs)
  if digits.isEmpty || !digits.all Char.isDigit then none
  else
    let n := digitsValue 10 digits
    some (if negative then -n else n)

def ofText? (cs : List Char) : Option Decimal :=
  let whole := cs.takeWhile Char.isDigit
  let afterWhole := cs.dropWhile Char.isDigit
  let (fraction, rest) :=
    match afterWhole with
    | '.' :: more => (more.takeWhile Char.isDigit, more.dropWhile Char.isDigit)
    | _ => ([], afterWhole)
  if whole.isEmpty && fraction.isEmpty then none
  else
    let digits := digitsValue 10 (whole ++ fraction)
    match rest with
    | [] => some ⟨digits, -fraction.length⟩
    | 'e' :: more | 'E' :: more =>
      (exponent? more).map fun e => ⟨digits, e - fraction.length⟩
    | _ => none

/-- The power of ten, or one for a negative exponent: `10 ^ e` is `tenTo e / tenTo (-e)`. -/
def tenTo (e : Int) : Nat := Nat.pow 10 e.toNat

/-- The number of decimal digits of a natural number; zero has one. -/
def length (n : Nat) : Nat := (Nat.toDigits 10 n).length

/-- The magnitude nearest to a decimal. One beyond `10 ^ 310` is infinite and one below
`10 ^ (-330)` is zero, whatever its digits. -/
def magnitude (d : Decimal) : Nat :=
  if d.digits = 0 then 0
  else
    let top := d.exponent + length d.digits
    if 310 < top then Binary64.infinityMagnitude
    else if top < -330 then 0
    else Binary64.nearest (d.digits * tenTo d.exponent) (tenTo (-d.exponent))

end Decimal

namespace Binary64

private def unsigned? (negative : Bool) (cs : List Char) : Option Binary64 :=
  let lower := String.ofList (cs.map (·.toLower))
  if lower = "nan" then some (ofMagnitude negative nan.magnitude)
  else if lower = "inf" || lower = "infinity" then some (infinity negative)
  else (Decimal.ofText? cs).map fun d => ofMagnitude negative d.magnitude

def ofText? : List Char → Option Binary64
  | '-' :: rest => unsigned? true rest
  | '+' :: rest => unsigned? false rest
  | cs => unsigned? false cs

end Binary64
end ConfigSandbox
