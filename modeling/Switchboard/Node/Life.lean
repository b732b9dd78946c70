import Switchboard.Call.Pipeline

/-! The life of a node, from the moment it is ready until its last request is gone.

Two activities run side by side. *Serving* says that the node is ready, answers
requests until the listener is told to stop, then cancels what is in flight and waits
for it to end. *Watching* waits for the signal to stop, begins the shutdown, tells the
listener to stop and waits likewise; only when the time is up does it cancel what is in
flight. Each definition here is one step of one of them; any order of such steps is a
run. -/
namespace Switchboard

/-- How far serving has come. -/
inductive Serving where
  /-- About to say that the node is ready. -/
  | entered
  | listening
  /-- About to cancel what is in flight. -/
  | ended
  /-- About to wait for what is in flight. -/
  | cancelled
  | draining (deadline : Nat)
  | finished (drained : Bool)
  deriving DecidableEq, Repr

/-- How far watching has come. -/
inductive Watching where
  | waiting
  /-- About to tell the listener to stop. -/
  | begun
  /-- About to wait for what is in flight. -/
  | told
  | draining (deadline : Nat)
  /-- About to cancel what is in flight. -/
  | expired
  | finished
  deriving DecidableEq, Repr

structure Life where
  /-- How long each activity waits for what is in flight. -/
  drainMs : Nat
  /-- The signal to stop has been given. -/
  signalled : Bool := false
  /-- The listener has been told to stop. -/
  stopping : Bool := false
  serving : Serving := .entered
  watching : Watching := .waiting
  deriving DecidableEq, Repr

namespace Life

/-- Cancels every call, and those that come later. -/
def cancelCalls (r : Relay) : Relay := { r with tokens := r.tokens.cancel Relay.calls }

/-- Serving is over. -/
def close (l : Life) (r : Relay) (drained : Bool) : Life × Relay :=
  ({ l with serving := .finished drained }, if drained then r else r.warn .requestsLeft)

/-- The next step of serving, which waits under `key`. -/
def serve (l : Life) (r : Relay) (key now : Nat) : Option (Life × Relay) :=
  match l.serving with
  | .entered => some ({ l with serving := .listening }, { r with controller := r.controller.setReady })
  | .listening => if l.stopping then some ({ l with serving := .ended }, r) else none
  | .ended => some ({ l with serving := .cancelled }, cancelCalls r)
  | .cancelled =>
    match r.controller.await key (l.drainMs = 0) with
    | (none, c) => some ({ l with serving := .draining (now + l.drainMs) }, { r with controller := c })
    | (some drained, c) => some (l.close { r with controller := c } drained)
  | .draining deadline =>
    match r.controller.resume key (decide (deadline ≤ now)) with
    | (some drained, c) => some (l.close { r with controller := c } drained)
    | (none, c) =>
      if c = r.controller then none else some (l, { r with controller := c })
  | .finished _ => none

/-- Watching is over, or has one thing left to do. -/
def expire (l : Life) (r : Relay) (drained : Bool) : Life × Relay :=
  if drained then ({ l with watching := .finished }, r)
  else ({ l with watching := .expired }, r.warn .drainExpired)

/-- The next step of watching, which waits under `key`. -/
def watch (l : Life) (r : Relay) (key now : Nat) : Option (Life × Relay) :=
  match l.watching with
  | .waiting =>
    if l.signalled then
      some ({ l with watching := .begun }, { r with controller := r.controller.beginShutdown })
    else none
  | .begun => some ({ l with watching := .told, stopping := true }, r)
  | .told =>
    match r.controller.await key (l.drainMs = 0) with
    | (none, c) => some ({ l with watching := .draining (now + l.drainMs) }, { r with controller := c })
    | (some drained, c) => some (l.expire { r with controller := c } drained)
  | .draining deadline =>
    match r.controller.resume key (decide (deadline ≤ now)) with
    | (some drained, c) => some (l.expire { r with controller := c } drained)
    | (none, c) =>
      if c = r.controller then none else some (l, { r with controller := c })
  | .expired => some ({ l with watching := .finished }, cancelCalls r)
  | .finished => none

/-- At most `steps` steps of one activity. -/
def go (step : Life → Relay → Option (Life × Relay)) (l : Life) (r : Relay) :
    (steps : Nat) → Life × Relay
  | 0 => (l, r)
  | steps + 1 =>
    match step l r with
    | none => (l, r)
    | some (l, r) => go step l r steps

/-- When the activity that waits under a deadline is to be looked at again. -/
def servingWakes (l : Life) : List Nat :=
  match l.serving with
  | .draining deadline => [deadline]
  | _ => []

def watchingWakes (l : Life) : List Nat :=
  match l.watching with
  | .draining deadline => [deadline]
  | _ => []

end Life
end Switchboard
