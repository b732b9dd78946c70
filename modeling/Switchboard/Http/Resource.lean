import Switchboard.Http.Message

/-! What is served under which path.

Calls are posted to the root; the health of the node is read. A path that is not
served and a method that a path does not have are told apart. -/
namespace Switchboard.Http

inductive Resource where
  | calls
  | health
  | liveness
  | readiness
  deriving DecidableEq, Repr

namespace Resource

def ofPath? (path : String) : Option Resource :=
  match path with
  | "/" => some .calls
  | "/health" => some .health
  | "/health/live" => some .liveness
  | "/health/ready" => some .readiness
  | _ => none

def methods : Resource → List String
  | .calls => ["POST"]
  | _ => ["GET", "HEAD"]

def allows (r : Resource) (method : String) : Bool := r.methods.contains method

end Resource

/-- The response as it is sent for a resource: it names its length, and the methods of the
resource when it has not that of the request. What answers a `HEAD` request has its body's
length and no body. -/
def Response.framed (resource : Resource) (request : Request) (r : Response) : Response :=
  let r := if resource.allows request.method then r
    else r.withHeader "allow" (",".intercalate resource.methods)
  let r := r.withHeader "content-length" (toString r.length)
  if request.method = "HEAD" then { r with body := [] } else r

end Switchboard.Http
