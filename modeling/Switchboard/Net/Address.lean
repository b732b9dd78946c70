import Switchboard.Text.Numeral

/-! Internet addresses and their texts. -/
namespace Switchboard.Net
open Text

/-! ### Four bytes -/

/-- A decimal number below 256 without a needless zero in front. -/
def octet? (s : List Char) : Option Nat :=
  match s with
  | '0' :: _ :: _ => none
  | _ => if 3 < s.length then none else (numeral? 10 s).filter (· < 256)

/-- Four octets between points, as one number. -/
def ipv4? (s : List Char) : Option Nat :=
  match (parts '.' s).map octet? with
  | [some a, some b, some c, some d] => some (((a * 256 + b) * 256 + c) * 256 + d)
  | _ => none

def ipv4Text (n : Nat) : String :=
  ".".intercalate ([16777216, 65536, 256, 1].map fun scale => toString (n / scale % 256))

/-! ### Eight groups -/

/-- A group of one to four hexadecimal digits. -/
def group? (s : List Char) : Option Nat := if 4 < s.length then none else numeral? 16 s

/-- Groups between colons; the last two may be spelt as four octets when `ending`. -/
def groups? (ending : Bool) : List (List Char) → Option (List Nat)
  | [] => some []
  | [last] =>
    match group? last with
    | some g => some [g]
    | none => if ending then (ipv4? last).map fun n => [n / 65536, n % 65536] else none
  | g :: rest => do return (← group? g) :: (← groups? ending rest)

/-- The groups of a part of an address, none when it is empty. -/
def partGroups? (ending : Bool) (s : List Char) : Option (List Nat) :=
  if s.isEmpty then some [] else groups? ending (parts ':' s)

/-- Eight groups. Two colons stand for one or more groups of zero, once. -/
def ipv6? (s : List Char) : Option (List Nat) :=
  match around? [':', ':'] s with
  | none => (groups? true (parts ':' s)).filter fun l => l.length = 8
  | some (front, back) => do
    let head ← partGroups? false front
    let tail ← partGroups? true back
    if head.length + tail.length < 8 then
      return head ++ List.replicate (8 - head.length - tail.length) 0 ++ tail
    else none

/-- Start and length of the first longest run of zeros, from index `i` on. -/
def longestZeros (i : Nat) : List Nat → Nat × Nat
  | [] => (i, 0)
  | g :: rest =>
    let here := ((g :: rest).takeWhile (· = 0)).length
    let later := longestZeros (i + 1) rest
    if later.2 ≤ here then (i, here) else later

def hexText (g : Nat) : String := String.ofList (Nat.toDigits 16 g)

def groupsText (l : List Nat) : String := ":".intercalate (l.map hexText)

/-- The groups in hexadecimal, the first longest run of two or more zeros left out. -/
def compressed (l : List Nat) : String :=
  let (start, length) := longestZeros 0 l
  if 1 < length then groupsText (l.take start) ++ "::" ++ groupsText (l.drop (start + length))
  else groupsText l

/-- An address that stands for one of four bytes shows these. -/
def ipv6Text (l : List Nat) : String :=
  match l with
  | [0, 0, 0, 0, 0, 0xffff, a, b] => "::ffff:" ++ ipv4Text (a * 65536 + b)
  | l => compressed l

/-! ### With a port -/

inductive SocketAddress where
  | v4 (address port : Nat)
  | v6 (groups : List Nat) (scope port : Nat)
  deriving DecidableEq, Repr

namespace SocketAddress

def port? (s : List Char) : Option Nat := (numeral? 10 s).filter (· < 65536)

/-- An address and a number after a percent sign, zero when there is none. -/
def scoped? (s : List Char) : Option (List Nat × Nat) :=
  match around? ['%'] s with
  | none => (ipv6? s).map fun l => (l, 0)
  | some (address, scope) => do
    return (← ipv6? address, ← (numeral? 10 scope).filter (· < 4294967296))

def parse (s : List Char) : Option SocketAddress :=
  match s with
  | '[' :: rest => do
    let (inside, port) ← around? [']', ':'] rest
    let (groups, scope) ← scoped? inside
    return .v6 groups scope (← port? port)
  | s => do
    let (address, port) ← around? [':'] s
    return .v4 (← ipv4? address) (← port? port)

def display : SocketAddress → String
  | .v4 address port => ipv4Text address ++ ":" ++ toString port
  | .v6 groups scope port =>
    "[" ++ ipv6Text groups ++ (if scope = 0 then "" else "%" ++ toString scope) ++ "]:" ++ toString port

end SocketAddress
end Switchboard.Net
