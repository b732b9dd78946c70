import Switchboard.Decimal.Binary64

/-! The fewest digits that read back.

Between the two midpoints to its neighbours a number owns an interval of reals;
any decimal in it reads back as that number. `shortest` looks for a decimal of
one digit in that interval, then of two, and so on to seventeen, which always
suffice; of two that hit it takes the nearer, and of two equally near the even
one. `Style` says how such digits are laid out, and `Style.render` lays them
out. -/
namespace Switchboard.Decimal

/-- The decimal `digits · 10 ^ exponent`. -/
structure Scaled where
  digits : Nat
  exponent : Int
  deriving DecidableEq, Repr

/-- How many digits `n` has in base ten. -/
def width (n : Nat) : Nat := (Nat.toDigits 10 n).length

/-- The greatest `e` with `10 ^ e ≤ m · 2 ^ q`, for positive `m`. -/
def magnitude (m : Nat) (q : Int) : Int :=
  let (a, b) := twoPow q
  if b ≤ m * a then (width (m * a / b) : Int) - 1 else -(width (b / (m * a)) : Int)

/-- The decimal of `n` digits that lies nearest to `m · 2 ^ q` inside the number's
own interval, if there is one. The neighbour above may be the next power of ten,
which has one digit more than the grid and is written with a greater exponent. -/
def onGrid (m : Nat) (q : Int) (n : Nat) : Option Scaled :=
  let k := magnitude m q - (n : Int) + 1
  let (a, b) := twoPow (q - 2)
  let grid := Nat.pow 10 k.toNat * b
  let unit := Nat.pow 10 (-k).toNat * a
  let here := 4 * m * unit
  let low := (4 * m - (if m == Nat.pow 2 52 && q != -1074 then 1 else 2)) * unit
  let high := (4 * m + 2) * unit
  let inside := fun c : Nat =>
    if m % 2 == 0 then low ≤ c * grid && c * grid ≤ high
    else low < c * grid && c * grid < high
  let below := here / grid
  let above := below + 1
  let down := here - below * grid
  let up := above * grid - here
  if inside below && (!inside above || down < up || (down == up && below % 2 == 0)) then
    some ⟨below, k⟩
  else if inside above then some (if above == Nat.pow 10 n then ⟨Nat.pow 10 (n - 1), k + 1⟩ else ⟨above, k⟩)
  else none

/-- The first grid from `n` digits on that has a hit, `left` grids being tried. -/
def firstHit (m : Nat) (q : Int) (n : Nat) : Nat → Scaled
  | 0 => ⟨m, 0⟩
  | left + 1 =>
    match onGrid m q n with
    | some d => d
    | none => firstHit m q (n + 1) left

/-- The shortest decimal that reads back as the number, sign apart. -/
def shortest (x : Binary64) : Scaled :=
  if x.isZero then ⟨0, 0⟩ else firstHit x.mantissa x.exponent 1 17

/-- Which powers of ten are written out, and which with an exponent. -/
structure Style where
  /-- The least leading power that is written with plain digits. -/
  plainFrom : Int
  /-- The least leading power beyond those. -/
  plainBelow : Int

/-- Zeros. -/
def zeros (n : Nat) : List Char := List.replicate n '0'

/-- Plain digits: a point stands in every number, with a digit on both sides. -/
def plain (digits : List Char) (exponent leading : Int) : List Char :=
  if 0 ≤ exponent then digits ++ zeros exponent.toNat ++ ['.', '0']
  else if 0 ≤ leading then
    digits.take (leading.toNat + 1) ++ '.' :: digits.drop (leading.toNat + 1)
  else '0' :: '.' :: zeros (-leading - 1).toNat ++ digits

/-- One digit, the rest behind a point if there is a rest, and a signed exponent. -/
def scientific (digits : List Char) (leading : Int) : List Char :=
  let power := (if leading < 0 then '-' else '+') :: Nat.toDigits 10 leading.natAbs
  match digits with
  | [] => []
  | [d] => d :: 'e' :: power
  | d :: rest => d :: '.' :: rest ++ 'e' :: power

/-- The number as text. -/
def Style.render (style : Style) (x : Binary64) : String :=
  let sign := if x.negative then ['-'] else []
  if x.isZero then String.ofList (sign ++ ['0', '.', '0']) else
    let d := shortest x
    let digits := Nat.toDigits 10 d.digits
    let leading := d.exponent + (digits.length : Int) - 1
    let body := if style.plainFrom ≤ leading && leading < style.plainBelow then
        plain digits d.exponent leading
      else scientific digits leading
    String.ofList (sign ++ body)

end Switchboard.Decimal
