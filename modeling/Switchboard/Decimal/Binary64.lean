/-! Finite numbers of the format binary64, held exactly.

A number is a sign, a mantissa and a power of two. `round` takes the nearest
such number to a quotient of natural numbers, a tie going to the even mantissa;
`times` and `dividedBy` are the exact product and quotient, rounded once. Nothing
here uses the machine's own floating point, so every value can be computed with
in a proof. -/
namespace Switchboard.Decimal

/-- The number `mantissa · 2 ^ exponent`, negated when `negative`. Zero has both
signs. Rounding leaves the mantissa below `2 ^ 53`, and at `2 ^ 52` or more
unless the exponent is the least one, `-1074`. -/
structure Binary64 where
  negative : Bool
  mantissa : Nat
  exponent : Int
  deriving DecidableEq, Repr

/-- The quotient's nearest natural number, a tie going to the even one. -/
def nearest (num den : Nat) : Nat :=
  let q := num / den
  let r := num % den
  if den < 2 * r || (2 * r == den && q % 2 == 1) then q + 1 else q

/-- `2 ^ e` as a quotient: numerator and denominator. -/
def twoPow (e : Int) : Nat × Nat :=
  (Nat.pow 2 e.toNat, Nat.pow 2 (-e).toNat)

namespace Binary64

/-- Zero, with the sign given. -/
def zero (negative : Bool) : Binary64 := ⟨negative, 0, -1074⟩

def isZero (x : Binary64) : Bool := x.mantissa == 0

/-- The greatest `e` with `2 ^ e ≤ num / den`, for positive `num` and `den`. -/
def floorLog (num den : Nat) : Int :=
  let e : Int := (Nat.log2 num : Int) - (Nat.log2 den : Int)
  let (a, b) := twoPow e
  if den * a ≤ num * b then e else e - 1

/-- The nearest number to `num / den`, or nothing when that is beyond the
greatest finite one. -/
def round (negative : Bool) (num den : Nat) : Option Binary64 :=
  if num == 0 then some (zero negative) else
    let q := max (floorLog num den - 52) (-1074)
    let (a, b) := twoPow q
    let m := nearest (num * b) (den * a)
    let (m, q) := if m == Nat.pow 2 53 then (Nat.pow 2 52, q + 1) else (m, q)
    if 971 < q then none else some ⟨negative, m, q⟩

/-- The nearest number to `(num / den) · 2 ^ e`. -/
def roundScaled (negative : Bool) (num den : Nat) (e : Int) : Option Binary64 :=
  let (a, b) := twoPow e
  round negative (num * a) (den * b)

/-- The nearest number to `n`, which is finite for `n` below `2 ^ 1023`. -/
def ofNat (n : Nat) : Binary64 := (round false n 1).getD (zero false)

/-- The nearest number to the power of ten, finite up to `10 ^ 308`. -/
def tenPow (k : Nat) : Binary64 := ofNat (Nat.pow 10 k)

/-- The product, rounded once; nothing when it overflows. The sign is the first
factor's. -/
def times (x y : Binary64) : Option Binary64 :=
  roundScaled x.negative (x.mantissa * y.mantissa) 1 (x.exponent + y.exponent)

/-- The quotient by a number other than zero, rounded once. The sign is the
dividend's. -/
def dividedBy (x y : Binary64) : Option Binary64 :=
  roundScaled x.negative x.mantissa y.mantissa (x.exponent - y.exponent)

end Binary64
end Switchboard.Decimal
