/-! The target of an HTTP request, and the path it names.

A target is a path with or without a query, an asterisk, an authority alone, or a
scheme, an authority and a path. The query and a fragment are checked and left out.
Characters beyond ASCII may stand in a path or a query, not in an authority. -/
namespace Switchboard.Http

inductive TargetFault where
  | empty
  | tooLong
  | badCharacter
  | badAuthority
  | badFormat
  | longScheme
  deriving DecidableEq, Repr

def TargetFault.message : TargetFault → String
  | .empty => "empty string"
  | .tooLong => "uri too long"
  | .badCharacter => "invalid uri character"
  | .badAuthority => "invalid authority"
  | .badFormat => "invalid format"
  | .longScheme => "scheme too long"

namespace Target

def longest : Nat := 65534

def longestScheme : Nat := 64

def isBetween (low high : Char) (c : Char) : Bool := low ≤ c && c ≤ high

def isAlphanumeric (c : Char) : Bool :=
  isBetween 'a' 'z' c || isBetween 'A' 'Z' c || isBetween '0' '9' c

/-! ### Path and query -/

/-- Blanks, controls and a few marks cannot stand in a path. -/
def isPathChar (c : Char) : Bool := '!' ≤ c && !(['#', '<', '>', '?', '\x60'].contains c)

/-- A query holds neither quotes nor angles. -/
def isQueryChar (c : Char) : Bool := '!' ≤ c && !(['"', '#', '<', '>'].contains c)

/-- The path at the front, with its query and fragment checked. -/
def path (s : List Char) : Except TargetFault (List Char) :=
  let front := s.takeWhile isPathChar
  match s.dropWhile isPathChar with
  | [] => .ok front
  | '#' :: _ => .ok front
  | '?' :: query =>
    match query.dropWhile isQueryChar with
    | [] => .ok front
    | c :: _ => if c = '#' then .ok front else .error .badCharacter
  | _ => .error .badCharacter

/-! ### Authority -/

/-- What has been seen of an authority. -/
structure Seen where
  colons : Nat := 0
  opened : Bool := false
  closed : Bool := false
  percent : Bool := false
  /-- The last character was an at sign. -/
  atEnd : Bool := false

def isAuthorityChar (c : Char) : Bool := isAlphanumeric c || "!$&'()*+,-.;=_~".toList.contains c

def mostColons : Nat := 8

/-- The authority with one more character. -/
def Seen.next (s : Seen) (c : Char) : Except TargetFault Seen :=
  let s := { s with atEnd := false }
  match c with
  | ':' => if s.colons < mostColons then .ok { s with colons := s.colons + 1 } else .error .badAuthority
  | '[' => if s.percent || s.opened then .error .badAuthority else .ok { s with opened := true }
  | ']' =>
    if !s.opened || s.closed then .error .badAuthority
    else .ok { s with closed := true, colons := 0, percent := false }
  | '@' => .ok { s with atEnd := true, colons := 0, percent := false }
  | '%' => .ok { s with percent := true }
  | c => if isAuthorityChar c then .ok s else .error .badCharacter

/-- Brackets close, a host has one colon at most, something follows an at sign, and only
what comes before one may be escaped. -/
def Seen.isWhole (s : Seen) : Bool :=
  s.opened == s.closed && s.colons ≤ 1 && !s.atEnd && !s.percent

/-- What follows the authority, and whether the authority is empty. -/
def authority (s : List Char) : Except TargetFault (Bool × List Char) :=
  let front := s.takeWhile fun c => c ≠ '/' && c ≠ '?' && c ≠ '#'
  match front.foldlM Seen.next {} with
  | .error e => .error e
  | .ok seen =>
    if seen.isWhole then .ok (front.isEmpty, s.drop front.length) else .error .badAuthority

/-! ### The whole target -/

def isSchemeChar (c : Char) : Bool := isAlphanumeric c || c = '+' || c = '-' || c = '.'

/-- What follows a scheme, when there is one. -/
def afterScheme (s : List Char) : Except TargetFault (Option (List Char)) :=
  match s.dropWhile isSchemeChar with
  | ':' :: '/' :: '/' :: rest =>
    if longestScheme < (s.takeWhile isSchemeChar).length then .error .longScheme else .ok (some rest)
  | _ => .ok none

/-- The path a target without a leading slash names, empty when it is an authority alone. -/
def absolute (s : List Char) : Except TargetFault (List Char) :=
  match afterScheme s with
  | .error e => .error e
  | .ok none =>
    match authority s with
    | .error e => .error e
    | .ok (_, rest) => if rest.isEmpty then .ok [] else .error .badFormat
  | .ok (some rest) =>
    match authority rest with
    | .error e => .error e
    | .ok (missing, rest) =>
      if missing then .error .badFormat
      else (path rest).map fun p => if p.isEmpty then ['/'] else p

/-- The path a target names. -/
def parse (target : String) : Except TargetFault String :=
  if longest < target.utf8ByteSize then .error .tooLong
  else
    match target.toList with
    | [] => .error .empty
    | '/' :: s => (path ('/' :: s)).map String.ofList
    | ['*'] => .ok "*"
    | [c] =>
      match authority [c] with
      | .error e => .error e
      | .ok (_, rest) => if rest.isEmpty then .ok "" else .error .badCharacter
    | s => (absolute s).map String.ofList

end Target
end Switchboard.Http
