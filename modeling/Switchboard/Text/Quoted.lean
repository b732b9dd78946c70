import Switchboard.Text.Unprintable

/-! Quoted texts, as messages show a name or a value they complain about.

Double quotes around the text; a double quote and a backslash inside it are
written with a backslash, as are tab, line feed, carriage return and NUL; what
cannot be seen is `\u` with its number in braces; everything else stands for
itself. -/
namespace Switchboard.Text

/-- The digits of `n` in base sixteen, lower case. -/
def hexDigits (n : Nat) : List Char := Nat.toDigits 16 n

/-- How one character is spelt between the quotes. -/
def spelled (c : Char) : List Char :=
  match c with
  | '"' => ['\\', '"']
  | '\\' => ['\\', '\\']
  | '\n' => ['\\', 'n']
  | '\r' => ['\\', 'r']
  | '\t' => ['\\', 't']
  | '\x00' => ['\\', '0']
  | c =>
    if isUnprintable c then ['\\', 'u', '\x7b'] ++ hexDigits c.toNat ++ ['\x7d'] else [c]

/-- The text between double quotes. -/
def quoted (s : String) : String :=
  String.ofList ('"' :: s.toList.flatMap spelled ++ ['"'])

end Switchboard.Text
