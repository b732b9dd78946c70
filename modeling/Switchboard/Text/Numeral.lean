/-! Numerals, and texts cut at a separator. -/
namespace Switchboard.Text

/-- The digit's value in the given base, at most sixteen. -/
def digit? (base : Nat) (c : Char) : Option Nat :=
  let value :=
    if '0' ≤ c && c ≤ '9' then some (c.toNat - '0'.toNat)
    else if 'a' ≤ c && c ≤ 'f' then some (c.toNat - 'a'.toNat + 10)
    else if 'A' ≤ c && c ≤ 'F' then some (c.toNat - 'A'.toNat + 10)
    else none
  value.filter (· < base)

/-- The number that at least one digit and nothing else spells. -/
def numeral? (base : Nat) (s : List Char) : Option Nat :=
  if s.isEmpty then none
  else s.foldl (fun n c => do return (← n) * base + (← digit? base c)) (some 0)

/-- An optional plus sign and a decimal numeral. -/
def unsigned? : List Char → Option Nat
  | '+' :: s => numeral? 10 s
  | s => numeral? 10 s

/-- An optional sign and a decimal numeral. -/
def signed? : List Char → Option Int
  | '-' :: s => (numeral? 10 s).map fun n => -(n : Int)
  | s => (unsigned? s).map Int.ofNat

/-- The parts between the separators, one more than there are separators. -/
def parts (separator : Char) : List Char → List (List Char)
  | [] => [[]]
  | c :: s =>
    match parts separator s with
    | [] => [[c]]
    | part :: rest => if c = separator then [] :: part :: rest else (c :: part) :: rest

/-- What follows `start`, when the text begins with it. -/
def after? : List Char → List Char → Option (List Char)
  | [], s => some s
  | _ :: _, [] => none
  | p :: start, c :: s => if p = c then after? start s else none

/-- What stands before and after the first place where `part` stands in the text. -/
def around? (part : List Char) : List Char → Option (List Char × List Char)
  | [] => if part.isEmpty then some ([], []) else none
  | c :: s =>
    match after? part (c :: s) with
    | some rest => some ([], rest)
    | none => (around? part s).map fun (before, rest) => (c :: before, rest)

/-- ASCII capitals made small. -/
def lower (c : Char) : Char :=
  if 'A' ≤ c && c ≤ 'Z' then Char.ofNat (c.toNat + 32) else c

/-- The text with its ASCII capitals made small. -/
def lowered (s : String) : String := String.ofList (s.toList.map lower)

end Switchboard.Text
