import Switchboard.Call.Error
import Switchboard.Call.Token
import Switchboard.Message.Request
import Switchboard.Method

/-! Calls, and how requests become calls.

Each call gets the next number of its node; a request that becomes no call takes
none. -/
namespace Switchboard

structure Call where
  number : Nat
  timeoutMs : Nat
  token : Token
  name : Method
  arguments : List Json.Raw
  deriving Repr

structure Classifier where
  timeoutMs : Nat
  /-- The number of the next call. -/
  next : Nat := 1
  deriving Repr

namespace Classifier

/-- The call that a request makes under the given token. -/
def classify (c : Classifier) (r : Request) (token : Token) :
    Except ClassifyError Call × Classifier :=
  match Method.parse r.method with
  | none => (.error (.malformedMethod r.method), c)
  | some name =>
    match r.arguments with
    | .error e => (.error (.invalidParams e), c)
    | .ok arguments =>
      (.ok ⟨c.next, c.timeoutMs, token, name, arguments⟩, { c with next := c.next + 1 })

end Classifier
end Switchboard
