import Switchboard.Message.ErrorObject

/-! What a node warns about. -/
namespace Switchboard

inductive Warning where
  /-- A frame that is no response. -/
  | undecodableFrame
  /-- An error that cannot be tied to a call. -/
  | errorWithoutId (error : ErrorObject)
  | readFailed
  | writeFailed
  | dialFailed
  /-- A call that needed a connection which could not be made. -/
  | unreachable
  /-- A call that ended in an internal error. -/
  | callFailed
  | serviceShutdownFailed
  /-- Calls outlived the time they were given to end. -/
  | drainExpired
  | requestsLeft
  deriving Repr, BEq

def Warning.message : Warning → String
  | .undecodableFrame => "discarding undecodable frame from redirect endpoint"
  | .errorWithoutId e =>
    "redirect endpoint returned an error without a usable id | " ++ e.message ++ " [code " ++
      toString e.code ++ "]"
  | .readFailed => "redirect read failed"
  | .writeFailed => "redirect write failed"
  | .dialFailed => "redirect dial failed"
  | .unreachable => "redirect endpoint unreachable"
  | .callFailed => "call failed"
  | .serviceShutdownFailed => "service shutdown failed"
  | .drainExpired => "drain window expired, cancelling in-flight calls"
  | .requestsLeft => "requests still in flight at exit"

end Switchboard
