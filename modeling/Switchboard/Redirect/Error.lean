import Switchboard.Message.ErrorObject

/-! How a redirected call fails, before it is turned into an answer. -/
namespace Switchboard.Redirect

inductive ForwardError where
  | connect (endpoint : String) (reason : String)
  | remote (error : ErrorObject)
  | cancelled
  | closed
  | encode (detail : String)
  deriving Repr, BEq

def ForwardError.message : ForwardError → String
  | .connect endpoint reason => "could not connect to " ++ endpoint ++ ": " ++ reason
  | .remote e => "remote error: " ++ e.display
  | .cancelled => "call cancelled by caller"
  | .closed => "redirect connection closed"
  | .encode detail => "failed to encode request: " ++ detail

end Switchboard.Redirect
