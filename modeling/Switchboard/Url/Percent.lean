import Switchboard.Text.Numeral

/-! Percent signs in a URL: bytes that may not stand for themselves. -/
namespace Switchboard.Url

def hexDigit (n : Nat) : Char := (Nat.digitChar n).toUpper

/-- One byte as a percent sign and two digits. -/
def percent (b : UInt8) : List Char := ['%', hexDigit (b.toNat / 16), hexDigit (b.toNat % 16)]

/-- Every character of `special`, every control and everything beyond ASCII by its bytes. -/
def encode (special : List Char) (s : List Char) : List Char :=
  s.flatMap fun c =>
    if c.toNat < 0x20 || 0x7f ≤ c.toNat || special.contains c then
      (String.ofList [c]).toUTF8.toList.flatMap percent
    else [c]

def inFragment : List Char := [' ', '"', '<', '>', '\x60']

def inQuery : List Char := [' ', '"', '#', '<', '>']

def inPath : List Char := inFragment ++ ['#', '?', '\x7b', '\x7d']

def inUser : List Char := inPath ++ ['/', ':', ';', '=', '@', '[', '\\', ']', '^', '|']

/-- The bytes the text stands for. -/
def decodeBytes : List Char → List UInt8
  | '%' :: a :: b :: s =>
    match Text.digit? 16 a, Text.digit? 16 b with
    | some x, some y => UInt8.ofNat (x * 16 + y) :: decodeBytes s
    | _, _ => '%'.toNat.toUInt8 :: decodeBytes (a :: b :: s)
  | c :: s => (String.ofList [c]).toUTF8.toList ++ decodeBytes s
  | [] => []

end Switchboard.Url
