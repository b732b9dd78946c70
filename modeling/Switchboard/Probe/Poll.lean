import Switchboard.Probe.Call

/-! Checking until an endpoint is ready, or until the deadline.

Attempts are made one after the other with a pause between them. No attempt begins
at or after the deadline. At the deadline an attempt is cut off if it goes on; what it
comes to just then still counts. -/
namespace Switchboard.Probe
open Json

/-- What becomes of one attempt: its result after a while, or nothing ever. -/
inductive Attempt where
  | ends (afterMs : Nat) (result : Except String Value)
  | hangs

structure Pace where
  intervalMs : Nat
  deadlineMs : Nat
  /-- Time passes between attempts. -/
  interval_pos : 0 < intervalMs

/-- The pace with those times; an interval of zero counts as one millisecond. -/
def Pace.ofMs (intervalMs deadlineMs : Nat) : Pace := ⟨max 1 intervalMs, deadlineMs, by omega⟩

inductive Outcome where
  | ready (result : Value) (attempts : Nat)
  | expired (lastError : String) (attempts : Nat)

/-- The outcome and the time it is known, `made` attempts having been made by `now`;
`attempt` says what becomes of the one of a number, when it begins at a time. -/
def pollFrom (p : Pace) (attempt : Nat → Nat → Attempt) (made now : Nat) (lastError : String) :
    Outcome × Nat :=
  if p.deadlineMs ≤ now then (.expired lastError made, now)
  else
    match attempt made now with
    | .hangs => (.expired "attempt timed out" (made + 1), p.deadlineMs)
    | .ends afterMs result =>
      if p.deadlineMs < now + afterMs then
        (.expired "attempt timed out" (made + 1), p.deadlineMs)
      else
        match result with
        | .ok v => (.ready v (made + 1), now + afterMs)
        | .error e =>
          pollFrom p attempt (made + 1)
            (now + afterMs + min p.intervalMs (p.deadlineMs - (now + afterMs))) e
termination_by p.deadlineMs - now
decreasing_by
  have := p.interval_pos
  omega

/-- The outcome of the attempts numbered from zero, and the time it takes. -/
def poll (p : Pace) (attempt : Nat → Nat → Attempt) : Outcome × Nat :=
  pollFrom p attempt 0 0 "no attempt made"

end Switchboard.Probe
