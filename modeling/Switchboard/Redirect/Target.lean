import Switchboard.Redirect.Endpoint
import Switchboard.Method

/-! Which namespace is redirected to which endpoint.

A target with a blank endpoint is configured but disabled: it is checked like the
others, and calls under its namespace are answered as if it were not there. -/
namespace Switchboard.Redirect

structure Target where
  namespaceName : String
  endpoint : String
  connectTimeoutMs : Nat
  deriving DecidableEq, Repr

/-- The namespace that is redirected when none is configured. -/
def defaultNamespace : String := "arbtrace"

def defaultConnectTimeoutMs : Nat := 1000

namespace Target

def isEnabled (t : Target) : Bool := !(Text.trimmed t.endpoint.toList).isEmpty

/-- The target's endpoint, or none when it is disabled. -/
def validate (t : Target) : Except TargetError (Option Endpoint) :=
  if !Method.isNamespace t.namespaceName then .error (.badNamespace t.namespaceName)
  else if !t.isEnabled then .ok none
  else if t.connectTimeoutMs = 0 then .error (.zeroTimeout t.namespaceName)
  else
    match Endpoint.parse t.endpoint with
    | .ok e => .ok (some e)
    | .error e => .error e

end Target

/-! ### The targets of a node -/

/-- An enabled target with its endpoint. -/
structure Redirection where
  target : Target
  endpoint : Endpoint
  deriving DecidableEq, Repr

namespace Redirection

def namespaceName (r : Redirection) : String := r.target.namespaceName

/-- The list with `r` before the first of a later namespace. -/
def insert (r : Redirection) : List Redirection → List Redirection
  | [] => [r]
  | q :: rest =>
    if r.namespaceName < q.namespaceName then r :: q :: rest else q :: insert r rest

/-- The enabled ones among `targets`, ordered by namespace, after those of `enabled`;
`names` came before. Every target is checked, in order, and each namespace may come
once, enabled or not. -/
def collect (names : List String) (enabled : List Redirection) :
    List Target → Except TargetError (List Redirection)
  | [] => .ok enabled
  | t :: rest =>
    match t.validate with
    | .error e => .error e
    | .ok endpoint? =>
      if t.namespaceName ∈ names then .error (.duplicate t.namespaceName)
      else
        match endpoint? with
        | none => collect (t.namespaceName :: names) enabled rest
        | some e => collect (t.namespaceName :: names) (insert ⟨t, e⟩ enabled) rest

/-- The redirections a list of targets stands for, ordered by namespace. -/
def ofTargets (targets : List Target) : Except TargetError (List Redirection) :=
  collect [] [] targets

end Redirection
end Switchboard.Redirect
