import Switchboard.Redirect.Error

/-! How a call fails, and what its caller is told.

Failures of the way to an endpoint are told as an internal error: an answer never
shows that a call was redirected. -/
namespace Switchboard
open Redirect (ForwardError)

inductive CallError where
  | methodNotFound (method : String)
  | connect (endpoint : String) (reason : String)
  | remote (error : ErrorObject)
  | answered (error : ErrorObject)
  | cancelled
  | timeout (ms : Nat)
  | closed
  | overloaded
  | invalidParams (detail : String)
  | invalidRequest (detail : String)
  | failed (detail : String)
  deriving Repr, BEq

namespace CallError

def message : CallError → String
  | .methodNotFound method => "method not found: " ++ method
  | .connect endpoint reason => "could not connect to " ++ endpoint ++ ": " ++ reason
  | .remote e => "remote error: " ++ e.display
  | .answered e => "handler error: " ++ e.display
  | .cancelled => "call cancelled"
  | .timeout ms => "call timed out after " ++ toString ms ++ "ms"
  | .closed => "redirect connection closed"
  | .overloaded => "server overloaded, try again later"
  | .invalidParams detail => "invalid params: " ++ detail
  | .invalidRequest detail => "invalid request: " ++ detail
  | .failed detail => "internal error: " ++ detail

/-- The error object the caller gets. -/
def object : CallError → ErrorObject
  | .methodNotFound method => .methodNotFound method
  | .remote e => e
  | .answered e => e
  | .cancelled => .cancelled
  | .timeout ms => .timedOut ms
  | .overloaded => .overloaded
  | .invalidParams detail => .invalidParams detail
  | .invalidRequest detail => .invalidRequest detail
  | .connect _ _ => .internal
  | .closed => .internal
  | .failed _ => .internal

/-- The label under which the call is counted. -/
def outcome : CallError → String
  | .methodNotFound _ => "method_not_found"
  | .connect _ _ => "connect_error"
  | .remote _ => "error_response"
  | .answered _ => "error_response"
  | .cancelled => "cancelled"
  | .timeout _ => "timeout"
  | .closed => "closed"
  | .overloaded => "overloaded"
  | .invalidParams _ => "invalid"
  | .invalidRequest _ => "invalid"
  | .failed _ => "internal"

def ofForward : ForwardError → CallError
  | .connect endpoint reason => .connect endpoint reason
  | .remote e => .remote e
  | .cancelled => .cancelled
  | .closed => .closed
  | .encode detail => .failed ("failed to encode forwarded call: " ++ detail)

end CallError

/-- Why a request does not become a call. -/
inductive ClassifyError where
  | malformedMethod (method : String)
  | invalidParams (error : ErrorObject)
  deriving Repr, BEq

namespace ClassifyError

def message : ClassifyError → String
  | .malformedMethod method => "malformed method name: " ++ method
  | .invalidParams e => e.display

/-- The error object the caller gets. -/
def object : ClassifyError → ErrorObject
  | .malformedMethod method => .methodNotFound method
  | .invalidParams e => e

end ClassifyError
end Switchboard
