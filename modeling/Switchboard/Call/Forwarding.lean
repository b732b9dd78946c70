import Switchboard.Call.Error
import Switchboard.Call.Token
import Switchboard.Redirect.Hub

/-! A call on its way through a redirection.

It first needs the connection, which may have to be dialed, and then goes over it.
Its caller may give it up at any time: a call that was cancelled is over, whatever its
reply, and leaves the connection as it is. -/
namespace Switchboard
open Json Redirect

inductive Forwarding.Stage where
  | wanting
  /-- At a place among those who wait for a dial. -/
  | dialing (dial place : Nat)
  | calling (connection key : Nat)
  deriving DecidableEq, Repr

structure Forwarding where
  manager : Nat
  /-- The full name of the method. -/
  method : String
  arguments : List Raw
  stage : Forwarding.Stage := .wanting

namespace Forwarding

/-- Still under way, or over. -/
inductive Progress where
  | pending (f : Forwarding)
  | ended (result : Forwarded)

/-- Gives the call up. -/
def drop (f : Forwarding) (h : Hub) : Hub :=
  match f.stage with
  | .wanting => h
  | .dialing dial place => h.leave dial place
  | .calling connection key => h.abandonCall connection key

/-- Takes the result, if it is there. -/
def collect (f : Forwarding) (h : Hub) : Progress × Hub :=
  match f.stage with
  | .calling connection key =>
    match h.result? connection key with
    | some r => (.ended r, h.abandonCall connection key)
    | none => (.pending f, h)
  | _ => (.pending f, h)

/-- The connection is there: the call goes over it. -/
def send (f : Forwarding) (h : Hub) (party connection : Nat) : Progress × Hub :=
  let (key, h) := h.beginCall connection party f.method f.arguments
  collect { f with stage := .calling connection key } h

/-- As far as the call goes now, on behalf of a party. -/
def go (f : Forwarding) (h : Hub) (party now : Nat) : Progress × Hub :=
  match f.stage with
  | .wanting =>
    match h.ask f.manager party now with
    | (.connected c, h) => f.send h party c
    | (.refused, h) => (.ended (.error .closed), h)
    | (.waits dial place, h) => (.pending { f with stage := .dialing dial place }, h)
  | .dialing dial _ =>
    match h.outcome? dial with
    | none => (.pending f, h)
    | some (.ok c) => f.send h party c
    | some (.error e) => (.ended (.error e), h)
  | .calling _ _ => f.collect h

/-- As far as an invocation goes now: cancellation comes first, and an endpoint that cannot
be reached is worth a warning. -/
def invoke (f : Forwarding) (h : Hub) (cancelled : Bool) (party now : Nat) : Progress × Hub :=
  if cancelled then (.ended (.error .cancelled), f.drop h)
  else
    match f.go h party now with
    | (.ended (.error (.connect endpoint reason)), h) =>
      (.ended (.error (.connect endpoint reason)), h.warn .unreachable)
    | other => other

end Forwarding
end Switchboard
