import Switchboard.Call.Classify
import Switchboard.Redirect.Target
import Switchboard.Service.Handler

/-! Where a call goes: to the endpoint its namespace is redirected to, to the handler
that serves it, or nowhere.

A redirection wins over a handler of the same namespace, and of two handlers the one
registered last. -/
namespace Switchboard
open Json Redirect

structure Router where
  redirections : List Redirection
  /-- The last registered first. -/
  handlers : List Handler

inductive Route where
  | redirect (redirection : Redirection)
  | handler (served : Handler)
  | nowhere

namespace Router

def register (r : Router) (h : Handler) : Router := { r with handlers := h :: r.handlers }

def redirection? (r : Router) (name : String) : Option Redirection :=
  r.redirections.find? fun q => q.namespaceName == name

def handler? (r : Router) (name : String) : Option Handler :=
  r.handlers.find? fun h => h.namespaceName == name

def route (r : Router) (name : String) : Route :=
  match r.redirection? name with
  | some q => .redirect q
  | none =>
    match r.handler? name with
    | some h => .handler h
    | none => .nowhere

/-- Every namespace that is answered for, in ascending order. -/
def served (r : Router) : List String :=
  Handler.distinct (r.handlers.map Handler.namespaceName ++
    r.redirections.map Redirection.namespaceName)

/-- The router of a node: its own handlers and others, and last `rpc`, which lists what
the others serve. -/
def ofHandlers (redirections : List Redirection) (others : List Handler) : Router :=
  let base : Router := ⟨redirections, []⟩
  let r := (Handler.web3 Handler.clientVersion :: Handler.net :: others).foldl register base
  r.register (Handler.rpc r.served)

/-! ### Local answers -/

/-- The values of the arguments, or the first one's fault. -/
def decodeArguments : List Raw → Except Fault (List Value)
  | [] => .ok []
  | a :: rest =>
    match Value.parse a.chars with
    | .error fault => .error fault
    | .ok v =>
      match decodeArguments rest with
      | .error fault => .error fault
      | .ok vs => .ok (v :: vs)

/-- What a handler answers to a call, and when. Arguments that do not decode are
refused at once. -/
def answer (h : Handler) (c : Call) : Except CallError Raw × Nat :=
  match decodeArguments c.arguments with
  | .error fault => (.error (.invalidParams fault.message), 0)
  | .ok arguments =>
    let reply := h.handle c.name.method arguments
    match reply.result with
    | .ok v => (.ok (.ofValue v), reply.delayMs)
    | .error e => (.error (.answered e), reply.delayMs)

end Router
end Switchboard
