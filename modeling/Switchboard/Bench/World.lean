import Switchboard.Bench.Network
import Switchboard.Bench.Task
import Switchboard.Node.Life
import Switchboard.Node.Tls

/-! A relay on the bench, with everything around it.

Whatever has to be looked at waits in a queue. What waits for a later moment waits with
it, and of two that wait for the same moment the one that began first comes first. -/
namespace Switchboard.Bench
open Redirect

structure World where
  relay : Relay
  config : NetworkConfig := {}
  network : Network := {}
  now : Nat := 0
  /-- What is to be looked at later, in the order in which it began to wait. -/
  timers : List (Nat × Due) := []
  /-- What is to be looked at now. -/
  queue : List Due := []
  /-- In the order in which they were started. -/
  tasks : List Task := []
  /-- The lines the far ends have read and nobody has asked for yet. -/
  heard : List (Nat × List Char) := []
  /-- The connections that were handed out, in that order. -/
  handed : List Nat := []
  /-- What there is to read from files. -/
  files : List (String × Pem) := []
  /-- The listener is bound. -/
  bound : Bool := false
  /-- The node has been given up to serving. -/
  spent : Bool := false
  life : Life := { drainMs := 0 }
  /-- Requests that are held in flight from outside. -/
  guards : List String := []
  /-- Tokens that were given out, in that order. -/
  tokens : List (String × Token) := []

namespace World

def setHub (w : World) (h : Hub) : World := { w with relay := { w.relay with hub := h } }

/-- More steps than there are to take. -/
def patience : Nat := 4294967296

def setTask (w : World) (n : Nat) (t : Task) : World := { w with tasks := w.tasks.set n t }

def push (w : World) (d : Due) : World := { w with queue := w.queue ++ [d] }

/-- Something is to be looked at at a later moment. -/
def wake (w : World) (d : Due) (at_ : Nat) : World :=
  if at_ ≤ w.now || w.timers.any (fun t => t.1 == at_ && decide (t.2 = d)) then w
  else { w with timers := w.timers ++ [(at_, d)] }

/-- All tasks that are not over, in their order. -/
def live (w : World) : List Nat :=
  (List.range w.tasks.length).filter fun n => (w.tasks[n]?.bind Task.work?).isSome

/-- Everybody looks at his token again. -/
def alarm (w : World) : World := { w with queue := w.queue ++ w.live.map Due.party }

/-- What has become due in the relay joins the queue, where it does not stand already. -/
def collect (w : World) : World :=
  let h := w.relay.hub
  let woken := (w.relay.controller.drains.filter Drain.woken).map fun d => Due.party d.key
  let w := w.setHub { h with due := [] }
  { w with queue := w.queue ++ (h.due ++ woken).filter fun d => !w.queue.contains d }

end World
end Switchboard.Bench
