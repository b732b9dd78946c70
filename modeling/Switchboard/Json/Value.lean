import Switchboard.Json.Number

/-! JSON values and their compact text.

An object keeps its members in the order in which their names first came;
`put` gives a name that came before its new value in the old place. The text has
no blanks, escapes what a string cannot hold and nothing else, and writes each
number as `Number.text` does. -/
namespace Switchboard.Json

inductive Value where
  | null
  | bool (value : Bool)
  | number (value : Number)
  | string (value : String)
  | array (items : List Value)
  | object (members : List (String × Value))
  deriving Repr, BEq

/-- The members with the name's value replaced, or with the name put behind them. -/
def put {α : Type} (name : String) (value : α) : List (String × α) → List (String × α)
  | [] => [(name, value)]
  | (n, v) :: rest => if n == name then (n, value) :: rest else (n, v) :: put name value rest

/-! ### Strings -/

/-- How one character is spelt inside a string. -/
def escaped (c : Char) : List Char :=
  match c with
  | '"' => ['\\', '"']
  | '\\' => ['\\', '\\']
  | '\x08' => ['\\', 'b']
  | '\x0c' => ['\\', 'f']
  | '\n' => ['\\', 'n']
  | '\r' => ['\\', 'r']
  | '\t' => ['\\', 't']
  | c =>
    if c.toNat < 0x20 then
      ['\\', 'u', '0', '0', Nat.digitChar (c.toNat / 16), Nat.digitChar (c.toNat % 16)]
    else [c]

/-- The string's JSON text. -/
def writeString (s : String) : List Char := '"' :: s.toList.flatMap escaped ++ ['"']

/-! ### Lists and objects -/

/-- The texts of a list's elements as the list's text. -/
def writeList (items : List (List Char)) : List Char :=
  '[' :: List.intercalate [','] items ++ [']']

/-- A member's name and text as they stand in an object. -/
def writeMember (name : String) (value : List Char) : List Char :=
  writeString name ++ ':' :: value

/-- The texts of an object's members as the object's text. -/
def writeObject (members : List (List Char)) : List Char :=
  '\x7b' :: List.intercalate [','] members ++ ['\x7d']

mutual

/-- The value's compact text. -/
def Value.write : Value → List Char
  | .null => ['n', 'u', 'l', 'l']
  | .bool true => ['t', 'r', 'u', 'e']
  | .bool false => ['f', 'a', 'l', 's', 'e']
  | .number n => n.text.toList
  | .string s => writeString s
  | .array items => writeList (Value.writeItems items)
  | .object members => writeObject (Value.writeMembers members)

def Value.writeItems : List Value → List (List Char)
  | [] => []
  | v :: rest => v.write :: Value.writeItems rest

def Value.writeMembers : List (String × Value) → List (List Char)
  | [] => []
  | (name, v) :: rest => writeMember name v.write :: Value.writeMembers rest

end

/-- The natural number an array or an argument holds, when it is spelt as one. -/
def Value.natural? : Value → Option Nat
  | .number n => n.natural?
  | _ => none

end Switchboard.Json
