import Switchboard.Node.Tls
import Switchboard.Options.LogFilter
import Switchboard.Options.Probe
import Switchboard.Options.Relay

/-! How the programs end.

The relay ends with 2 when its command line is refused, with 1 when it cannot start
and with 0 when it was asked to stop. The probe ends with 1 when it cannot start and
with 2 when the deadline passes. Both answer a question about themselves with 0. -/
namespace Switchboard.Launch
open Options

/-- The variable that holds the log filter. -/
def filterVariable : String := "RUST_LOG"

def filterComplaint? (environment : List (String × String)) : Option String :=
  (environment.find? fun e => e.1 == filterVariable).bind fun e => LogFilter.complaint? e.2

/-- Whether every machine can listen there: on any address of its own. -/
def isOwnNumber (n : Nat) : Bool := n = 0 || n / 16777216 = 127

def isOwnHost (host : String) : Bool :=
  match Net.ipv4? host.toList with
  | some n => isOwnNumber n
  | none => ["localhost", "::", "::1", "[::]", "[::1]"].contains host

def isOwnAddress : Net.SocketAddress → Bool
  | .v4 n _ => isOwnNumber n
  | .v6 groups _ _ => groups = List.replicate 8 0 || groups = List.replicate 7 0 ++ [1]

/-- Whether the relay cannot start or cannot serve; `file?` reads the files that are
named. -/
def cannotStart (file? : String → Except String Pem) (o : Relay)
    (environment : List (String × String)) : Bool :=
  (filterComplaint? environment).isSome ||
    o.metricsAddress?.any (fun a => !isOwnAddress a) ||
    o.server.redirects.any (fun t => t.validate.toOption.isNone) ||
    !isOwnHost o.network.host ||
    (o.network.tls?.bind fun t => t.complaint? file?).isSome

/-- Whether the relay comes to serve, and its exit code once it was asked to stop. -/
def relay (file? : String → Except String Pem) (arguments : List String)
    (environment : List (String × String)) : Bool × Nat :=
  match Relay.parse arguments environment with
  | .error e => (false, if e.isComplaint then 2 else 0)
  | .ok o => if cannotStart file? o environment then (false, 1) else (true, 0)

/-- The probe's exit code and what it complains about, when no endpoint answers. -/
def probe (arguments : List String) (environment : List (String × String)) :
    Nat × Option String :=
  match Options.Probe.parse arguments environment with
  | .error e => (if e.isComplaint then 1 else 0, none)
  | .ok o =>
    match o.complaint?.or (filterComplaint? environment) with
    | some complaint => (1, some ("health-probe: " ++ complaint))
    | none => (2, none)

end Switchboard.Launch
