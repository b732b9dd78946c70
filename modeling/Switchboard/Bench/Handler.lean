import Switchboard.Service.Router

/-! A handler for the bench: it fails, takes its time or gives back what it got. -/
namespace Switchboard.Bench
open Json

/-- The error a call asks for, or one of the handler's own. -/
def requestedError (arguments : List Value) : ErrorObject :=
  let own : ErrorObject := ⟨-32000, "local failure", none⟩
  match arguments with
  | [] => own
  | v :: _ =>
    match ErrorObject.parse v.write with
    | .ok e => e
    | .error _ => own

def scriptedHandler (name : String) : Handler where
  namespaceName := name
  handle method arguments :=
    match method with
    | "fail" => ⟨.error (requestedError arguments), 0⟩
    | "sleep" => ⟨.ok (.string "slept"), (arguments.head?.bind Value.natural?).getD 0⟩
    | _ => ⟨.ok (.array arguments), 0⟩

end Switchboard.Bench
