import Switchboard.Http.Target
import Switchboard.Text.Numeral

/-! HTTP requests and responses, as far as the relay looks at them.

Header names are kept in small letters. Of several headers of one name the first
counts. -/
namespace Switchboard.Http

/-! ### Requests -/

/-- Why there is no such request. -/
inductive RequestFault where
  | badMethod
  | badTarget (fault : TargetFault)
  | badHeaderName
  | badHeaderValue
  deriving DecidableEq, Repr

def RequestFault.message : RequestFault → String
  | .badMethod => "invalid HTTP method"
  | .badTarget fault => fault.message
  | .badHeaderName => "invalid HTTP header name"
  | .badHeaderValue => "failed to parse header value"

structure Request where
  method : String
  path : String
  headers : List (String × String)
  body : List UInt8
  deriving DecidableEq, Repr

namespace Request

/-- A character of a method or of a header's name. -/
def isTokenChar (c : Char) : Bool :=
  Target.isAlphanumeric c || "!#$%&'*+-.^_\x60|~".toList.contains c

/-- One token character at least, and nothing else. -/
def isToken (s : String) : Bool := !s.isEmpty && s.toList.all isTokenChar

/-- No controls, tabs apart. -/
def isHeaderValue (s : String) : Bool :=
  s.toList.all fun c => c = '\t' || (' ' ≤ c && c.toNat ≠ 127)

/-- A header with its name in small letters. -/
def header (h : String × String) : Except RequestFault (String × String) :=
  if !isToken h.1 then .error .badHeaderName
  else if !isHeaderValue h.2 then .error .badHeaderValue
  else .ok (Text.lowered h.1, h.2)

/-- The request of that method and target. -/
def make (method target : String) (headers : List (String × String)) (body : List UInt8) :
    Except RequestFault Request :=
  if !isToken method then .error .badMethod
  else
    match Target.parse target with
    | .error fault => .error (.badTarget fault)
    | .ok path =>
      match headers.mapM header with
      | .error fault => .error fault
      | .ok headers => .ok ⟨method, path, headers, body⟩

def header? (r : Request) (name : String) : Option String :=
  (r.headers.find? fun h => h.1 == name).map Prod.snd

end Request

/-! ### Responses -/

structure Response where
  status : Nat
  headers : List (String × String) := []
  body : List Char := []
  deriving DecidableEq, Repr

namespace Response

def empty (status : Nat) : Response := { status }

def json (body : List Char) : Response :=
  { status := 200, headers := [("content-type", "application/json")], body }

def plain (status : Nat) (text : String) : Response :=
  { status, headers := [("content-type", "text/plain; charset=utf-8")], body := text.toList }

def header? (r : Response) (name : String) : Option String :=
  (r.headers.find? fun h => h.1 == name).map Prod.snd

def withHeader (r : Response) (name value : String) : Response :=
  { r with headers := r.headers ++ [(name, value)] }

/-- The length of the body in bytes. -/
def length (r : Response) : Nat := r.body.foldl (fun n c => n + c.utf8Size) 0

end Response
end Switchboard.Http
