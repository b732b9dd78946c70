import Switchboard.Http.Resource
import Switchboard.Node.Config

/-! What surrounds every request and response.

From the outside inwards: a request that declares too long a body is refused; one
that asks what scripts of another origin may do is answered; every other response
says whether they may read it; and what was answered in time bears the id of its
request. -/
namespace Switchboard.Http

/-- The header that carries a request's id. -/
def requestIdHeader : String := "x-request-id"

/-! ### Length -/

/-- The length a request declares for its body. -/
def Request.declaredLength? (r : Request) : Option Nat :=
  (r.header? "content-length").bind fun v => (Text.unsigned? v.toList).filter (· < 18446744073709551616)

/-- Whether the declared length is refused. -/
def Request.declaresTooMuch (limit : Nat) (r : Request) : Bool :=
  match r.declaredLength? with
  | some n => limit < n
  | none => false

/-- How long the body may be. -/
def Request.bodyLimit (limit : Nat) (r : Request) : Nat :=
  match r.declaredLength? with
  | some n => min n limit
  | none => limit

def tooLong : String := "length limit exceeded"

/-! ### Other origins -/

/-- The origin a script must have to read the response. -/
def allowedOrigin? (origins : List String) (r : Request) : Option String :=
  if "*" ∈ origins then some "*" else (r.header? "origin").filter fun o => o ∈ origins

/-- What the response depends on. -/
def varies : String := "origin, access-control-request-method, access-control-request-headers"

/-- The response with the origin that may read it. -/
def Response.allowing (origins : List String) (request : Request) (r : Response) : Response :=
  match allowedOrigin? origins request with
  | some origin => r.withHeader "access-control-allow-origin" origin
  | none => r

/-- What scripts of another origin may send. -/
def preflight (origins : List String) (request : Request) : Response :=
  (((Response.empty 200).allowing origins request).withHeader "vary" varies
    |>.withHeader "access-control-allow-methods" "GET,POST,OPTIONS")
    |>.withHeader "access-control-allow-headers" "content-type"

/-- The response with what scripts of another origin may read of it. -/
def Response.shared (origins : List String) (request : Request) (r : Response) : Response :=
  ((r.allowing origins request).withHeader "vary" varies).withHeader
    "access-control-expose-headers" requestIdHeader

/-! ### Ids -/

/-- The request's own id, or a fresh one. -/
def Request.id (fresh : String) (r : Request) : String := (r.header? requestIdHeader).getD fresh

/-- The response with the id of its request. -/
def Response.correlated (fresh : String) (request : Request) (r : Response) : Response :=
  r.withHeader requestIdHeader (request.id fresh)

/-! ### From the outside -/

/-- The response to a request that goes no further than the surroundings. -/
def turnedAway? (config : NetworkConfig) (r : Request) : Option Response :=
  if r.declaresTooMuch config.maxBodyBytes then some (Response.plain 413 tooLong)
  else if r.method = "OPTIONS" then some (preflight config.corsOrigins r)
  else none

/-- The response as it is sent: that of a path that is not served names no length. -/
def sent (request : Request) (r : Response) : Response :=
  match Resource.ofPath? request.path with
  | some resource => r.framed resource request
  | none => r

end Switchboard.Http
