import Switchboard.Redirect.Hub
import Switchboard.Service.Registry

/-! The services of a node: its redirections, which need no starting and are closed when
the node stops. -/
namespace Switchboard
open Redirect

/-- The redirections as a service. -/
def redirectService : ManagedService Hub where
  name := "redirect"
  start _ h := (.ok (), h)
  stop _ h := (.ok (), h.closeAll)

def nodeServices : Registry Hub := ⟨[redirectService]⟩

/-- The hub after its node's services have been stopped; each failure is worth a
warning. -/
def stopServices (h : Hub) : Hub :=
  let (errors, h) := nodeServices.stopAll false h
  errors.foldl (fun h _ => h.warn .serviceShutdownFailed) h

end Switchboard
