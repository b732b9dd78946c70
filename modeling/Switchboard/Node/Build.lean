import Switchboard.Call.Pipeline
import Switchboard.Node.Config

/-! Putting a node together.

Nothing is connected or bound by it: a configuration is accepted or refused for what it
says. -/
namespace Switchboard
open Redirect

/-- The relay of a node, with handlers besides its own. -/
def Relay.ofConfig (c : ServerConfig) (others : List Handler) : Except TargetError Relay :=
  match Redirection.ofTargets c.redirects with
  | .error e => .error e
  | .ok redirections =>
    .ok {
      hub := .ofRedirections c.maxFrameBytes redirections
      free := c.maxConcurrentCalls
      classifier := { timeoutMs := c.callTimeoutMs }
      router := .ofHandlers redirections others }

end Switchboard
