import Switchboard.Bench.Progress

/-! The clock of the bench, which moves only when it is told to.

Everything that can happen at one moment happens before the clock moves, one thing after
the other. -/
namespace Switchboard.Bench
open Redirect

namespace World

/-! ### One thing after the other -/

def work (w : World) (party : Nat) : Work → Progress
  | .calling connection f => w.call party connection f
  | .connecting manager waits? => w.connect party manager waits?
  | .invoking f token => w.invoke party f token
  | .arriving request => w.visit (Http.Visit.begin_ request w.site w.relay party w.now)
  | .visiting v => w.visit (v.go w.site w.relay party w.now)
  | .draining ms deadline? => w.drain party ms deadline?
  | .layered l =>
    let (answer?, r) := l.go w.now w.relay
    (match answer? with
      | some a => .inr (.answered a)
      | none => .inl (.layered { l with seen := true }), { w with relay := r })
  | .opening => w.open_ party
  | .serving => w.serve party
  | .watching => w.watch party

/-- When a task is to be looked at again, whatever happens. -/
def wakes (w : World) : Work → List Nat
  | .visiting v => v.wakes
  | .draining _ deadline? => deadline?.toList
  | .layered l => l.wakes
  | .serving => w.life.servingWakes
  | .watching => w.life.watchingWakes
  | _ => []

/-- A task is looked at. -/
def poll (w : World) (n : Nat) : World :=
  match w.tasks[n]? with
  | none => w
  | some t =>
    match t.work? with
    | none => w
    | some work =>
      match w.work n work with
      | (.inl work, w) =>
        (w.wakes work).foldl (fun w at_ => w.wake (.party n) at_)
          (w.setTask n { t with work? := some work })
      | (.inr finding, w) => w.setTask n { t with work? := none, finding? := some finding }

def look (w : World) : Due → World
  | .dial d => w.dial d
  | .connection c => w.converse c
  | .party n => w.poll n

/-- At most `steps` things of the queue, one after the other. -/
def settleIn (w : World) : (steps : Nat) → World
  | 0 => w
  | steps + 1 =>
    match w.queue with
    | [] => w
    | d :: rest => (({ w with queue := rest }.look d).collect).settleIn steps

/-- Everything that can happen now happens. -/
def settle (w : World) : World := w.collect.settleIn patience

/-- The next moment for which something waits. -/
def nextMoment? (w : World) : Option Nat := (w.timers.map Prod.fst).min?

/-- The clock moves to the moment `target`, and stops on its way wherever something waits,
at most `stops` times. -/
def advanceIn (w : World) (target : Nat) : (stops : Nat) → World
  | 0 => { w with now := target }
  | stops + 1 =>
    match w.nextMoment? with
    | none => { w with now := target }
    | some at_ =>
      if target < at_ then { w with now := target }
      else
        let due := (w.timers.filter fun t => t.1 == at_).map Prod.snd
        let later := w.timers.filter fun t => t.1 != at_
        advanceIn (settle { w with now := at_, timers := later, queue := w.queue ++ due })
          target stops

def advance (w : World) (ms : Nat) : World := w.advanceIn (w.now + ms) (ms + 1)

end World
end Switchboard.Bench
