import Switchboard.Decimal.Shortest

/-! JSON numbers, as far as they are read.

A whole number spelt without point or exponent keeps all its digits while it
fits a signed or an unsigned word of 64 bits; every other number, and minus
zero, is a binary64. -/
namespace Switchboard.Json
open Switchboard.Decimal

/-- The whole numbers that are kept exactly. -/
def InWords (i : Int) : Prop := -9223372036854775808 ≤ i ∧ i < 18446744073709551616

instance (i : Int) : Decidable (InWords i) := inferInstanceAs (Decidable (_ ∧ _))

inductive Number where
  | whole (value : Int) (fits : InWords value)
  | real (value : Binary64)
  deriving DecidableEq, Repr

/-- Powers of ten from `10 ^ -5` up to below `10 ^ 16` are written out, the
others with an exponent. -/
def numberStyle : Style := ⟨-5, 16⟩

namespace Number

/-- The natural number as a JSON number; one beyond 64 bits is rounded. -/
def ofNat (n : Nat) : Number :=
  if h : InWords (n : Int) then .whole n h else .real (Binary64.ofNat n)

/-- The number as an unsigned word, when it was spelt as one. -/
def natural? : Number → Option Nat
  | .whole v _ => if 0 ≤ v then some v.toNat else none
  | .real _ => none

/-- The number as a signed word, when it was spelt as one. -/
def signed? : Number → Option Int
  | .whole v _ => if v < 9223372036854775808 then some v else none
  | .real _ => none

/-- The number's compact text. -/
def text : Number → String
  | .whole v _ => toString v
  | .real x => numberStyle.render x

end Number
end Switchboard.Json
