import Switchboard.Bench.Layer
import Switchboard.Http.Visit

/-! What is under way on the bench, and what it comes to. -/
namespace Switchboard.Bench
open Json Redirect

/-- What a task is about. -/
inductive Work where
  /-- A call over the connection of that number. -/
  | calling (connection : Nat) (f : Forwarding)
  /-- Somebody wants a connection, or waits for a dial at a place. -/
  | connecting (manager : Nat) (waits? : Option (Nat × Nat))
  | invoking (f : Forwarding) (token : Token)
  | arriving (request : Http.Request)
  | visiting (v : Http.Visit)
  | draining (ms : Nat) (deadline? : Option Nat)
  | layered (l : Layered)
  /-- A node is to serve. -/
  | opening
  | serving
  | watching

/-- What a task came to. -/
inductive Finding where
  | forwarded (result : Forwarded)
  /-- A connection, by the order in which they were handed out, and whether it is closed. -/
  | connected (result : Except ForwardError (Nat × Bool))
  | answered (a : Answer)
  | responded (response : Http.Response)
  | drained (drained : Bool)
  | ended (result : Except String Unit)
  /-- Nobody asks. -/
  | watched

structure Task where
  name : String
  work? : Option Work
  finding? : Option Finding := none
  reported : Bool := false

/-- What is to be reported of a task, if it is over. -/
def Task.unreported? (t : Task) : Option (String × Finding) :=
  match t.finding? with
  | none => none
  | some .watched => none
  | some f => if t.reported then none else some (t.name, f)

end Switchboard.Bench
