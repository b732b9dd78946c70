import Switchboard.Call.Pipeline

/-! One layer of the pipeline on its own, in front of a service that answers after a
while.

The service is free of the layer's concerns: it neither fails by itself nor looks at
tokens, so that what is seen is the layer's doing. -/
namespace Switchboard.Bench
open Json

inductive Layer where
  | permits
  | deadline
  | counting
  deriving DecidableEq, Repr

/-- A call in one layer. -/
structure Layered where
  layer : Layer
  call : Call
  readyAt : Nat
  deadline : Nat
  /-- What the service answers. -/
  answer : Answer
  /-- The call was turned away without a permit. -/
  shed : Bool := false
  /-- The layer has looked at the call. -/
  seen : Bool := false

namespace Layered

/-- What the service answers to a method. -/
def scripted (name : Method) : Answer :=
  match name.method with
  | "closed" => .error .closed
  | "internal" => .error (.failed "boom")
  | "missing" => .error (.methodNotFound name.full)
  | method => .ok (.ofValue (.string method))

/-- A call enters the layer. -/
def enter (layer : Layer) (call : Call) (delayMs now : Nat) (r : Relay) : Layered × Relay :=
  let l : Layered :=
    { layer, call, readyAt := now + delayMs, deadline := now + call.timeoutMs
      answer := scripted call.name }
  match layer with
  | .permits =>
    match takePermit r.free with
    | some free => (l, { r with free := free })
    | none => ({ l with shed := true }, r)
  | _ => (l, r)

/-- The answer, if it is there now. -/
def go (l : Layered) (now : Nat) (r : Relay) : Option Answer × Relay :=
  let answer? := if l.readyAt ≤ now then some l.answer else none
  match l.layer with
  | .permits =>
    if l.shed then (some (.error .overloaded), r)
    else
      match answer? with
      | some a => (some a, { r with free := r.free + 1 })
      | none => (none, r)
  | .deadline =>
    if !l.seen && r.tokens.isCancelled l.call.token then (some (.error .cancelled), r)
    else
      match decide? answer? (r.tokens.isCancelled l.call.token) (decide (l.deadline ≤ now))
          l.call.timeoutMs with
      | some (.error (.timeout ms)) =>
        (some (.error (.timeout ms)), { r with tokens := r.tokens.cancel l.call.token })
      | other => (other, r)
  | .counting =>
    match answer? with
    | some a => (some a, r.observed l.call a)
    | none => (none, r)

/-- The call is given up. -/
def drop (l : Layered) (r : Relay) : Relay :=
  if l.layer = .permits && !l.shed then { r with free := r.free + 1 } else r

def wakes (l : Layered) : List Nat := [l.readyAt, l.deadline]

end Layered
end Switchboard.Bench
