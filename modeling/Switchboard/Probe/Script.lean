import Switchboard.Probe.Poll

/-! Checking an endpoint that answers by a script.

The script says for each request in turn what becomes of it, and its last entry for
all that follow; an endpoint without a script is not there. -/
namespace Switchboard.Probe
open Json

inductive Entry where
  | answers (status : Nat) (body : String) (afterMs : Nat)
  | hangs
  | closes
  deriving DecidableEq, Repr

/-- What becomes of request number `n`. -/
def entry? (script : List Entry) (n : Nat) : Option Entry := (script[n]?).or script.getLast?

def attempt (url : String) (script : List Entry) (n : Nat) : Attempt :=
  match address url with
  | .error e => .ends 0 (.error e)
  | .ok u =>
    if u.scheme = "https" then .ends 0 (judge u .broken)
    else
      match entry? script n with
      | none => .ends 0 (judge u .broken)
      | some .hangs => .hangs
      | some .closes => .ends 0 (judge u .broken)
      | some (.answers status body afterMs) => .ends afterMs (judge u (.answered status body))

/-- What becomes of the attempt that begins at `began`, for someone who wakes at the
deadline. An answer takes some steps from the endpoint to him, though no time; one that
is sent just at the deadline has not come yet when he wakes. -/
def attemptUntil (deadlineMs : Nat) (url : String) (script : List Entry) (n began : Nat) :
    Attempt :=
  match attempt url script n with
  | .hangs => .hangs
  | .ends afterMs result => if began + afterMs = deadlineMs then .hangs else .ends afterMs result

/-- The request line the endpoint sees, when requests come to it. -/
def requestLine? (url : String) (script : List Entry) : Option String :=
  match address url with
  | .error _ => none
  | .ok u =>
    if u.scheme = "https" || script.isEmpty then none
    else some ("POST " ++ String.ofList u.target ++ " HTTP/1.1")

end Switchboard.Probe
