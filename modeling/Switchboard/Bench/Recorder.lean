import Switchboard.Node.Services

/-! Services for the bench: each writes down what is asked of it, and fails if it is
told to. -/
namespace Switchboard.Bench
open Redirect

/-- What the services on the bench share. -/
structure Board where
  log : List String := []
  hub : Hub := { longestFrame := 0 }

namespace Board

/-- A line is written down, and that is all, or a failure. -/
def write (b : Board) (line : String) (failure? : Option String) : Except String Unit × Board :=
  (match failure? with
    | some e => .error e
    | none => .ok (), { b with log := b.log ++ [line] })

/-- A service that fails to start or to stop as told. -/
def recorder (name : String) (failsStart failsStop : Bool) : ManagedService Board where
  name := name
  start nodeId b := b.write ("init:" ++ name ++ ":" ++ nodeId)
    (if failsStart then some (name ++ " refused to start") else none)
  stop terminate b := b.write ("shutdown:" ++ name ++ ":" ++ toString terminate)
    (if failsStop then some (name ++ " refused to stop") else none)

/-- The redirections among the services on the bench. -/
def redirections : ManagedService Board where
  name := redirectService.name
  start nodeId b :=
    let (result, h) := redirectService.start nodeId b.hub
    (result, { b with hub := h })
  stop terminate b :=
    let (result, h) := redirectService.stop terminate b.hub
    (result, { b with hub := h })

end Board
end Switchboard.Bench
