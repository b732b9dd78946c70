import Switchboard.Text.Quoted

/-! The services of a node, which are started in the order in which they were registered
and shut down in the reverse order.

A service acts on a state `σ` that all of them share. Each name is registered once.
Starting ends at the first service that does not start; shutting down goes on to the
last one, whatever fails, and reports the first failure. -/
namespace Switchboard

structure ManagedService (σ : Type) where
  name : String
  /-- Starts the service of a node with that id. -/
  start : (nodeId : String) → σ → Except String Unit × σ
  /-- Stops the service; `terminate` asks it not to take its time. -/
  stop : (terminate : Bool) → σ → Except String Unit × σ

structure Registry (σ : Type) where
  services : List (ManagedService σ) := []

namespace Registry
variable {σ : Type}

/-- The refusal of a second service of one name. -/
def taken (name : String) : String := "service " ++ Text.quoted name ++ " is already registered"

def get? (r : Registry σ) (name : String) : Option (ManagedService σ) :=
  r.services.find? fun s => s.name == name

def names (r : Registry σ) : List String := r.services.map ManagedService.name

def register (r : Registry σ) (s : ManagedService σ) : Except String (Registry σ) :=
  if s.name ∈ r.names then .error (taken s.name) else .ok ⟨r.services ++ [s]⟩

/-- Starts the services one after the other, up to the first that fails. -/
def startEach (nodeId : String) : List (ManagedService σ) → σ → Except String Unit × σ
  | [], state => (.ok (), state)
  | s :: rest, state =>
    match s.start nodeId state with
    | (.ok (), state) => startEach nodeId rest state
    | (.error e, state) => (.error e, state)

def startAll (r : Registry σ) (nodeId : String) (state : σ) : Except String Unit × σ :=
  startEach nodeId r.services state

/-- Stops the services one after the other; the errors, in that order. -/
def stopEach (terminate : Bool) : List (ManagedService σ) → σ → List String × σ
  | [], state => ([], state)
  | s :: rest, state =>
    let (result, state) := s.stop terminate state
    let (errors, state) := stopEach terminate rest state
    match result with
    | .ok () => (errors, state)
    | .error e => (e :: errors, state)

/-- Stops all services, and says which errors there were. -/
def stopAll (r : Registry σ) (terminate : Bool) (state : σ) : List String × σ :=
  stopEach terminate r.services.reverse state

/-- What stopping comes to: the first error counts. -/
def outcome (errors : List String) : Except String Unit :=
  match errors with
  | [] => .ok ()
  | e :: _ => .error e

end Registry
end Switchboard
