import Switchboard.Bench.Clock

/-! What is done to the bench from outside, and what is asked of it. -/
namespace Switchboard.Bench
open Redirect

namespace World

/-! ### Tasks -/

def start (w : World) (name : String) (work : Work) : World :=
  let task : Task := { name, work? := some work }
  ({ w with tasks := w.tasks ++ [task] } : World).push (.party w.tasks.length)

/-- What is left of a task's doing is undone. -/
def undo (w : World) (party : Nat) : Work → World
  | .connecting _ (some (dial, place)) => w.setHub (w.relay.hub.leave dial place)
  | .calling _ f => w.setHub (f.drop w.relay.hub)
  | .invoking f _ => w.setHub (f.drop w.relay.hub)
  | .visiting v => { w with relay := v.drop w.relay }
  | .draining _ _ =>
    { w with relay := { w.relay with controller := w.relay.controller.withdraw party } }
  | .layered l => { w with relay := l.drop w.relay }
  | _ => w

/-- The last task of that name is given up. -/
def drop (w : World) (name : String) : World :=
  match ((List.range w.tasks.length).filter fun n =>
      (w.tasks[n]?.map Task.name) == some name).getLast? with
  | none => w
  | some n =>
    match w.tasks[n]? with
    | none => w
    | some t =>
      match t.work? with
      | none => w
      | some work => (w.undo n work).setTask n { t with work? := none }

def cancel (w : World) (t : Token) : World :=
  ({ w with relay := { w.relay with tokens := w.relay.tokens.cancel t } } : World).alarm

/-- A token under that over all calls is given out. -/
def giveToken (w : World) (name : String) : Token × World :=
  let (t, tokens) := w.relay.tokens.child Relay.calls
  (t, { w with relay := { w.relay with tokens := tokens }, tokens := w.tokens ++ [(name, t)] })

/-- The token that was last given out under a name is cancelled. -/
def cancelNamed (w : World) (name : String) : World :=
  match w.tokens.reverse.find? fun t => t.1 == name with
  | some (_, t) => w.cancel t
  | none => w

def setController (w : World) (c : Controller) : World :=
  { w with relay := { w.relay with controller := c } }

/-- A request is held in flight; one that was held under the name is let go. -/
def guard (w : World) (name : String) : World :=
  let c := w.relay.controller.enter
  if w.guards.contains name then w.setController c.release
  else { w.setController c with guards := name :: w.guards }

def release (w : World) (name : String) : World :=
  if w.guards.contains name then
    { w.setController w.relay.controller.release with guards := w.guards.filter (· != name) }
  else w

/-- The node is told to serve, once. -/
def run (w : World) (name : String) : World :=
  if w.spent then w else ({ w with spent := true } : World).start name .opening

/-- The node is told to stop. -/
def stop (w : World) : World := ({ w with life := { w.life with signalled := true } } : World).alarm

/-- The warnings nobody has asked for yet. -/
def takeWarnings (w : World) : List Warning × World :=
  (w.relay.hub.warnings, w.setHub { w.relay.hub with warnings := [] })

/-- The lines nobody has asked for yet. -/
def takeHeard (w : World) : List (Nat × List Char) × World := (w.heard, { w with heard := [] })

/-- The tasks that are over and were not reported, in the order in which they started. -/
def report (w : World) : List (String × Finding) × World :=
  (w.tasks.filterMap Task.unreported?,
    { w with tasks := w.tasks.map fun t => { t with reported := t.finding?.isSome } })

end World
end Switchboard.Bench
