import Switchboard.Call.Forwarding
import Switchboard.Health.Controller
import Switchboard.Service.Router

/-! What every call passes through.

A call needs one of a fixed number of permits, which it keeps until it is over or
given up; without one it is turned away at once. It then has its own time to be
answered, and may be cancelled. Every call that comes to an end is counted with its
outcome; calls that nobody serves are counted under one name, so that callers cannot
make up names to count under. -/
namespace Switchboard
open Json Redirect

/-- How a call ends in the pipeline. -/
abbrev Answer := Except CallError Raw

/-! ### Permits -/

/-- The permits left when one is taken. -/
def takePermit (free : Nat) : Option Nat := if free = 0 then none else some (free - 1)

/-! ### Deadlines -/

/-- How a call ends now, if it does: with its answer, else by cancellation, else because its
time is up. -/
def decide? (answer? : Option Answer) (cancelled late : Bool) (timeoutMs : Nat) : Option Answer :=
  match answer? with
  | some a => some a
  | none =>
    if cancelled then some (.error .cancelled)
    else if late then some (.error (.timeout timeoutMs))
    else none

/-! ### Counting -/

/-- The name under which a call is counted. -/
def countedName (name : String) : Answer → String
  | .error (.methodNotFound _) => "unknown"
  | _ => name

def outcomeOf : Answer → String
  | .ok _ => "ok"
  | .error e => e.outcome

/-- The metrics with a call that has ended. -/
def observe (metrics : Metrics) (name : String) (a : Answer) : Metrics :=
  (metrics.count (Metrics.callKey (countedName name a) (outcomeOf a))).count
    (Metrics.durationKey (countedName name a))

/-! ### The relay -/

/-- Everything the calls of a node share. -/
structure Relay where
  hub : Hub
  /-- The first one, over all calls, has been given out. -/
  tokens : Tokens := (Tokens.root {}).2
  /-- The permits that are free. -/
  free : Nat
  controller : Controller := {}
  classifier : Classifier
  router : Router

/-- What the router does for a call. -/
inductive Service where
  | forwarding (f : Forwarding)
  | replying (readyAt : Nat) (result : Answer)

/-- A call in the pipeline, which holds a permit. -/
structure Entry where
  call : Call
  deadline : Nat
  service : Service

inductive Entry.Progress where
  | pending (e : Entry)
  | ended (a : Answer)

/-- When the call is to be looked at again, whatever happens. -/
def Entry.wakes (e : Entry) : List Nat :=
  match e.service with
  | .replying readyAt _ => [readyAt, e.deadline]
  | .forwarding _ => [e.deadline]

namespace Relay

/-- The token over all calls. -/
def calls : Token := (Tokens.root {}).1

def warn (r : Relay) (w : Warning) : Relay := { r with hub := r.hub.warn w }

/-- A call that has ended is counted. -/
def observed (r : Relay) (c : Call) (a : Answer) : Relay :=
  let r := { r with hub := { r.hub with metrics := observe r.hub.metrics c.name.namespaceName a } }
  match a with
  | .error (.failed _) => r.warn .callFailed
  | _ => r

/-- What is done for a call that is let through. -/
def serve (r : Relay) (c : Call) (now : Nat) : Service :=
  match r.router.route c.name.namespaceName with
  | .redirect q =>
    match r.hub.manager? q.namespaceName with
    | some manager => .forwarding { manager, method := c.name.full, arguments := c.arguments }
    | none => .replying now (.error .closed)
  | .handler h =>
    let (result, delayMs) := Router.answer h c
    .replying (now + delayMs) result
  | .nowhere => .replying now (.error (.methodNotFound c.name.full))

/-- The answer of the service, if it is there. -/
def answer? (r : Relay) (e : Entry) (party now : Nat) : Option Answer × Entry × Relay :=
  match e.service with
  | .replying readyAt result => (if readyAt ≤ now then some result else none, e, r)
  | .forwarding f =>
    match f.invoke r.hub (r.tokens.isCancelled e.call.token) party now with
    | (.ended (.ok result), hub) => (some (.ok result), e, { r with hub := hub })
    | (.ended (.error err), hub) => (some (.error (.ofForward err)), e, { r with hub := hub })
    | (.pending f, hub) => (none, { e with service := .forwarding f }, { r with hub := hub })

/-- Gives up what the service was doing for a call. -/
def dropService (r : Relay) (s : Service) : Relay :=
  match s with
  | .forwarding f => { r with hub := f.drop r.hub }
  | .replying _ _ => r

/-- As far as a call goes now. -/
def go (r : Relay) (e : Entry) (party now : Nat) : Entry.Progress × Relay :=
  let (answer?, e, r) := r.answer? e party now
  let late := decide (e.deadline ≤ now)
  match decide? answer? (r.tokens.isCancelled e.call.token) late e.call.timeoutMs with
  | none => (.pending e, r)
  | some a =>
    let r := match answer?, a with
      | some _, _ => r
      | none, .error (.timeout _) =>
        { (r.dropService e.service) with tokens := r.tokens.cancel e.call.token }
      | none, _ => r.dropService e.service
    (.ended a, { r with free := r.free + 1 }.observed e.call a)

/-- A call enters the pipeline: the answer it gets at once, or the call under way. -/
def enter (r : Relay) (c : Call) (party now : Nat) : Entry.Progress × Relay :=
  match takePermit r.free with
  | none => (.ended (.error .overloaded), r.observed c (.error .overloaded))
  | some free =>
    if r.tokens.isCancelled c.token then
      (.ended (.error .cancelled), r.observed c (.error .cancelled))
    else
      { r with free := free }.go ⟨c, now + c.timeoutMs, r.serve c now⟩ party now

/-- Gives a call up. -/
def drop (r : Relay) (e : Entry) : Relay :=
  { r.dropService e.service with free := r.free + 1 }

end Relay
end Switchboard
