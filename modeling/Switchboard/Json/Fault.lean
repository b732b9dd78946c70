import Switchboard.Json.Number
import Switchboard.Text.Quoted

/-! Why a text is refused, and where.

A reader that stops early says why (`Cause`), what was still unread, and how
many bytes of that it had seen when it noticed (`Halt`). `Halt.fault` turns this
into the line and column of the message: lines count from one, and the column
is the number of bytes since the last line feed. -/
namespace Switchboard.Json
open Switchboard.Decimal

/-- A value that stands where another kind was wanted. -/
inductive Found where
  | null
  | boolean (value : Bool)
  | number (value : Number)
  | string (value : String)
  | sequence
  | map
  deriving DecidableEq, Repr

def Found.describe : Found → String
  | .null => "null"
  | .boolean b => "boolean `" ++ (if b then "true" else "false") ++ "`"
  | .number (.whole v h) => "integer `" ++ (Number.whole v h).text ++ "`"
  | .number (.real x) => "floating point `" ++ (Number.real x).text ++ "`"
  | .string s => "string " ++ Text.quoted s
  | .sequence => "sequence"
  | .map => "map"

/-- A structure's name in messages and the number of its members. -/
structure Shape where
  name : String
  members : Nat
  deriving DecidableEq, Repr

/-- What was wanted instead. -/
inductive Wanted where
  | record (shape : Shape)
  | string
  | integer64
  /-- The text that a wrapper holds. -/
  | wrapped
  deriving DecidableEq, Repr

def Wanted.describe : Wanted → String
  | .record shape => "struct " ++ shape.name
  | .string => "a string"
  | .integer64 => "i64"
  | .wrapped => "raw value"

structure Position where
  line : Nat
  column : Nat
  deriving DecidableEq, Repr

/-- Why a text is not what its reader wants. -/
inductive Cause where
  | endInValue
  | endInList
  | endInObject
  | endInString
  | expectedValue
  | expectedIdent
  | expectedColon
  | expectedListEnd
  | expectedObjectEnd
  | keyNotString
  | trailingComma
  | trailingCharacters
  | invalidNumber
  | numberOutOfRange
  | invalidEscape
  | loneSurrogate
  | unfinishedSurrogate
  | controlCharacter
  | invalidUtf8
  | tooDeep
  | wrongType (found : Found) (wanted : Wanted)
  | wrongValue (found : Found) (wanted : Wanted)
  | missingMember (name : String)
  | duplicateMember (name : String)
  | tooShort (length : Nat) (shape : Shape)
  | notAnId
  /-- What a wrapper holds is refused, for this cause and at this place in it. -/
  | within (cause : Cause) (place? : Option Position)
  deriving DecidableEq, Repr

def Cause.message : Cause → String
  | .endInValue => "EOF while parsing a value"
  | .endInList => "EOF while parsing a list"
  | .endInObject => "EOF while parsing an object"
  | .endInString => "EOF while parsing a string"
  | .expectedValue => "expected value"
  | .expectedIdent => "expected ident"
  | .expectedColon => "expected `:`"
  | .expectedListEnd => "expected `,` or `]`"
  | .expectedObjectEnd => "expected `,` or `\x7d`"
  | .keyNotString => "key must be a string"
  | .trailingComma => "trailing comma"
  | .trailingCharacters => "trailing characters"
  | .invalidNumber => "invalid number"
  | .numberOutOfRange => "number out of range"
  | .invalidEscape => "invalid escape"
  | .loneSurrogate => "lone leading surrogate in hex escape"
  | .unfinishedSurrogate => "unexpected end of hex escape"
  | .controlCharacter => "control character (\\u0000-\\u001F) found while parsing a string"
  | .invalidUtf8 => "invalid unicode code point"
  | .tooDeep => "recursion limit exceeded"
  | .wrongType found wanted => "invalid type: " ++ found.describe ++ ", expected " ++ wanted.describe
  | .wrongValue found wanted =>
    "invalid value: " ++ found.describe ++ ", expected " ++ wanted.describe
  | .missingMember name => "missing field `" ++ name ++ "`"
  | .duplicateMember name => "duplicate field `" ++ name ++ "`"
  | .tooShort length shape =>
    "invalid length " ++ toString length ++ ", expected struct " ++ shape.name ++ " with " ++
      toString shape.members ++ " elements"
  | .notAnId => "data did not match any variant of untagged enum RequestId"
  | .within cause _ => cause.message

namespace Position

/-- The start of a text. -/
def start : Position := ⟨1, 0⟩

/-- The position after one more character, which takes `width` bytes. -/
def past (p : Position) (c : Char) (width : Nat) : Position :=
  if c == '\n' then ⟨p.line + 1, 0⟩ else ⟨p.line, p.column + width⟩

/-- The position `bytes` further on in `s`, or at its end. -/
def advance (width : Char → Nat) (p : Position) : List Char → Nat → Position
  | _, 0 => p
  | [], _ + 1 => p
  | c :: s, bytes + 1 =>
    if width c ≤ bytes + 1 then advance width (p.past c (width c)) s (bytes + 1 - width c)
    else ⟨p.line, p.column + bytes + 1⟩

/-- The position after the whole of `s`. -/
def after (width : Char → Nat) (s : List Char) : Position :=
  s.foldl (fun p c => p.past c (width c)) start

end Position

/-- A refusal as it is reported. A complaint about a whole document that was read
to its end has no position. -/
structure Fault where
  cause : Cause
  position? : Option Position
  deriving DecidableEq, Repr

def Fault.message (f : Fault) : String :=
  match f.position? with
  | some p => f.cause.message ++ " at line " ++ toString p.line ++ " column " ++ toString p.column
  | none => f.cause.message

/-- Where a reader stopped. -/
structure Halt where
  cause : Cause
  /-- What was not yet read. -/
  rest : List Char
  /-- How many bytes of the rest had been seen. -/
  seen : Nat
  deriving DecidableEq, Repr

namespace Halt

/-- Noticed between what was read and the rest. -/
def before (cause : Cause) (rest : List Char) : Halt := ⟨cause, rest, 0⟩

/-- Noticed by looking at the first byte of the rest, or at the end. -/
def looking (cause : Cause) (rest : List Char) : Halt := ⟨cause, rest, 1⟩

/-- The fault in the text the rest belongs to, a character taking `width` bytes. One in a
wrapped text keeps its place in there. -/
def fault (width : Char → Nat) (text : List Char) (h : Halt) : Fault :=
  match h.cause with
  | .within cause place? => ⟨cause, place?⟩
  | cause =>
    let read := text.take (text.length - h.rest.length)
    ⟨cause, some ((Position.after width read).advance width h.rest h.seen)⟩

/-- The refusal of a wrapper whose text is refused. -/
def within (width : Char → Nat) (text : List Char) (h : Halt) (rest : List Char) : Halt :=
  let fault := h.fault width text
  .before (.within fault.cause fault.position?) rest

end Halt
end Switchboard.Json
