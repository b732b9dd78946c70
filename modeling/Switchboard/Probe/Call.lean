import Switchboard.Http.Status
import Switchboard.Message.Response
import Switchboard.Url.Parse

/-! One readiness check: a request without arguments, and what its answer says.

Whatever keeps a result from being read is told in one line. -/
namespace Switchboard.Probe
open Json

/-- The request that is sent. -/
def request (method : String) : Request := .call 1 method []

/-- What came back. -/
inductive Delivery where
  | answered (status : Nat) (body : String)
  /-- Nothing: no connection, or one that was closed. -/
  | broken
  deriving DecidableEq, Repr

/-- Where requests are sent, or why none can be. -/
def address (url : String) : Except String Url :=
  match Url.parse url with
  | .error _ => .error "request failed: builder error"
  | .ok u =>
    if u.isHttp then .ok u
    else .error ("request failed: builder error for url (" ++ u.display ++ ")")

/-- The result an answer carries. -/
def judge (u : Url) : Delivery → Except String Value
  | .broken => .error ("request failed: error sending request for url (" ++ u.display ++ ")")
  | .answered status body =>
    if !Http.isSuccess status then .error ("HTTP " ++ Http.statusText status)
    else
      match Response.parse (if Http.hasNoBody status then [] else body.toList) with
      | .error _ => .error "invalid response body: error decoding response body"
      | .ok r =>
        match r.outcome with
        | .error e => .error e.display
        | .ok result =>
          match Value.parse result.chars with
          | .ok v => .ok v
          | .error fault => .error ("invalid result: " ++ fault.message)

end Switchboard.Probe
