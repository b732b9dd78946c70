import Switchboard.Redirect.Error
import Switchboard.Redirect.Target

/-! The one connection of a redirection.

It is made when it is first wanted, and again when it is wanted and was lost. Callers
that come while it is being dialed wait for that dial and share its outcome; a dial
that failed is forgotten. Once closed, a manager stays closed: a dial that was under
way ends as closed, and the connection it made is not kept. -/
namespace Switchboard.Redirect

inductive Manager.State where
  | idle
  /-- The dial of that number is under way. -/
  | dialing (dial : Nat)
  /-- The connection of that number was made; it may have been lost since. -/
  | ready (connection : Nat)
  | closed
  deriving DecidableEq, Repr

structure Manager where
  redirection : Redirection
  state : Manager.State := .idle
  /-- How many dials were begun, which are fewer than `2 ^ 64`. -/
  dials : Nat := 0
  deriving DecidableEq, Repr

/-- What a caller who wants the connection gets. -/
inductive Grant where
  | connected (connection : Nat)
  | refused
  /-- The outcome of a dial that is under way. -/
  | joins (dial : Nat)
  /-- The outcome of a dial that begins now. -/
  | dials (dial : Nat)
  deriving DecidableEq, Repr

namespace Manager

/-- Somebody wants the connection; `isClosed` says which connections are lost, and a dial
that begins gets the number `fresh`. -/
def ask (m : Manager) (isClosed : Nat → Bool) (fresh : Nat) : Grant × Manager :=
  let begins : Grant × Manager :=
    (.dials fresh, { m with state := .dialing fresh, dials := m.dials + 1 })
  match m.state with
  | .ready c => if isClosed c then begins else (.connected c, m)
  | .closed => (.refused, m)
  | .dialing d => (.joins d, m)
  | .idle => begins

/-- A dial has ended: what its callers get, and whether it counts. -/
def dialed (m : Manager) (result : Except String Nat) : Except ForwardError Nat × Bool × Manager :=
  match m.state with
  | .dialing _ =>
    match result with
    | .ok c => (.ok c, true, { m with state := .ready c })
    | .error reason =>
      (.error (.connect m.redirection.endpoint.display reason), true, { m with state := .idle })
  | _ => (.error .closed, false, m)

/-- Closes the manager, and says which connection is to be closed with it. -/
def close (m : Manager) : Option Nat × Manager :=
  (match m.state with
    | .ready c => some c
    | _ => none,
    { m with state := .closed })

/-- The state as it is reported: a connection that was lost is none. -/
def report (m : Manager) (isClosed : Nat → Bool) : String :=
  match m.state with
  | .idle => "idle"
  | .dialing _ => "dialing"
  | .ready c => if isClosed c then "idle" else "ready"
  | .closed => "closed"

end Manager

/-- What the health report says about a redirection. -/
structure Status where
  namespaceName : String
  endpoint : String
  state : String
  dials : Nat
  deriving DecidableEq, Repr

end Switchboard.Redirect
