import Switchboard.Text.Blank
import Switchboard.Text.Numeral
import Switchboard.Text.Quoted

/-! Where redirected calls are sent: a socket path or a host and port.

`unix://` and `tcp://` say which; without a scheme, what holds a slash or ends in
`.ipc` is a path and everything else must be `host:port`. White space around an
address does not count. -/
namespace Switchboard.Redirect

inductive Endpoint where
  | ipc (path : String)
  | tcp (address : String)
  deriving DecidableEq, Repr

/-- Why a configured target is refused. -/
inductive TargetError where
  | badNamespace (name : String)
  | zeroTimeout (name : String)
  | badEndpoint (address : String) (reason : String)
  | duplicate (name : String)
  deriving DecidableEq, Repr

def TargetError.message : TargetError → String
  | .badNamespace name => "invalid redirect namespace " ++ Text.quoted name
  | .zeroTimeout name => "redirect for namespace " ++ Text.quoted name ++ " has a zero connect timeout"
  | .badEndpoint address reason =>
    "invalid redirect endpoint " ++ Text.quoted address ++ ": " ++ reason
  | .duplicate name => "namespace " ++ Text.quoted name ++ " is redirected more than once"

namespace Endpoint

/-- The endpoint in full, with its scheme. -/
def display : Endpoint → String
  | .ipc path => "unix://" ++ path
  | .tcp address => "tcp://" ++ address

/-- A port: digits, after one plus sign or none, up to 65535. -/
def port? (s : List Char) : Option Nat := (Text.unsigned? s).filter (· < 65536)

/-- A host and a port, parted by the last colon. -/
def hostPort? (address : List Char) : Option Endpoint :=
  let backwards := address.reverse
  let port := (backwards.takeWhile (· ≠ ':')).reverse
  match backwards.dropWhile (· ≠ ':') with
  | [] => none
  | _ :: host =>
    if host.isEmpty || (port? port).isNone then none else some (.tcp (String.ofList address))

def parse (raw : String) : Except TargetError Endpoint :=
  let s := Text.trimmed raw.toList
  let refused (reason : String) := TargetError.badEndpoint (String.ofList s) reason
  match Text.after? "unix://".toList s with
  | some [] => .error (refused "empty socket path")
  | some path => .ok (.ipc (String.ofList path))
  | none =>
    match Text.after? "tcp://".toList s with
    | some address =>
      match hostPort? address with
      | some e => .ok e
      | none => .error (refused "expected host:port")
    | none =>
      if (Text.around? "://".toList s).isSome then .error (refused "unsupported scheme")
      else if s.contains '/' || (Text.after? ".ipc".toList.reverse s.reverse).isSome then
        .ok (.ipc (String.ofList s))
      else
        match hostPort? s with
        | some e => .ok e
        | none => .error (refused "expected a socket path or host:port")

end Endpoint
end Switchboard.Redirect
