/-! The health of a node, the requests in flight, and draining.

Every request in flight is counted. Whoever waits for the count to fall to zero
registers first and looks afterwards, so that a request that ends in between wakes
him. Each definition is one step in which nothing else happens. -/
namespace Switchboard

inductive HealthState where
  | starting
  | ready
  | draining
  | stopped
  deriving DecidableEq, Repr

def HealthState.name : HealthState → String
  | .starting => "starting"
  | .ready => "ready"
  | .draining => "draining"
  | .stopped => "stopped"

/-- Somebody who waits for the count to fall to zero. -/
structure Drain where
  key : Nat
  /-- The count fell to zero since he registered. -/
  woken : Bool := false
  deriving DecidableEq, Repr

structure Controller where
  health : HealthState := .starting
  inFlight : Nat := 0
  drains : List Drain := []
  deriving DecidableEq, Repr

namespace Controller

def setReady (c : Controller) : Controller := { c with health := .ready }

def beginShutdown (c : Controller) : Controller := { c with health := .draining }

/-! ### Requests -/

def enter (c : Controller) : Controller := { c with inFlight := c.inFlight + 1 }

/-- A request has ended; whether it was the last one. -/
def leave (c : Controller) : Bool × Controller :=
  (c.inFlight = 1, { c with inFlight := c.inFlight - 1 })

/-- Wakes all who wait. -/
def notify (c : Controller) : Controller :=
  { c with drains := c.drains.map fun d => { d with woken := true } }

/-- A request has ended, and all who wait are woken if it was the last one. -/
def release (c : Controller) : Controller :=
  let (last, c) := c.leave
  if last then c.notify else c

/-! ### Draining -/

def register (c : Controller) (key : Nat) : Controller :=
  { c with drains := c.drains.filter (fun d => d.key != key) ++ [{ key }] }

def withdraw (c : Controller) (key : Nat) : Controller :=
  { c with drains := c.drains.filter fun d => d.key != key }

def isWoken (c : Controller) (key : Nat) : Bool := c.drains.any fun d => d.key == key && d.woken

/-- Whether nothing is in flight, in which case the node has stopped. -/
def look (c : Controller) (key : Nat) : Bool × Controller :=
  if c.inFlight = 0 then (true, { c.withdraw key with health := .stopped }) else (false, c)

/-- One who has registered looks, and then waits: his answer, unless he goes on waiting.
He gives up when it is too late. -/
def await (c : Controller) (key : Nat) (late : Bool) : Option Bool × Controller :=
  match (c.register key).look key with
  | (true, c) => (some true, c)
  | (false, c) => if late then (some false, c.withdraw key) else (none, c)

/-- One who waits is looked at again. -/
def resume (c : Controller) (key : Nat) (late : Bool) : Option Bool × Controller :=
  if c.isWoken key then c.await key late
  else if late then (some false, c.withdraw key)
  else (none, c)

end Controller
end Switchboard
