import Switchboard.Message.Response
import Switchboard.Method

/-! The namespaces a node serves itself.

A handler answers the methods of one namespace, at once or after a while. `web3`
names the program, `net` says that it listens, and `rpc` lists every namespace the
node answers for, redirected ones included, so that callers cannot tell them apart. -/
namespace Switchboard
open Json

/-- An answer, and how long it takes. -/
structure Reply where
  result : Except ErrorObject Value
  delayMs : Nat := 0

structure Handler where
  namespaceName : String
  handle : String → List Value → Reply

namespace Handler

def clientName : String := "classic-relay"

def clientVersion : String := "0.1.0"

/-- The version given for each namespace. -/
def moduleVersion : String := "1.0"

/-- The answer to a method the namespace does not have. -/
def unknown (name method : String) : Reply := ⟨.error (.methodNotFound (Method.full ⟨name, method⟩)), 0⟩

def web3 (version : String) : Handler where
  namespaceName := "web3"
  handle method _ :=
    if method = "clientVersion" then ⟨.ok (.string (clientName ++ "/" ++ version)), 0⟩
    else unknown "web3" method

def net : Handler where
  namespaceName := "net"
  handle method _ :=
    if method = "listening" then ⟨.ok (.bool true), 0⟩ else unknown "net" method

/-- The names in ascending order, each once. -/
def distinct (names : List String) : List String := names.foldr insert []
where
  insert (name : String) : List String → List String
    | [] => [name]
    | n :: rest =>
      if name < n then name :: n :: rest
      else if name = n then n :: rest
      else n :: insert name rest

/-- The namespaces `rpc` lists, itself among them. -/
def modules (names : List String) : List String := distinct ("rpc" :: names)

def rpc (names : List String) : Handler where
  namespaceName := "rpc"
  handle method _ :=
    if method = "modules" then
      ⟨.ok (.object ((modules names).map fun n => (n, .string moduleVersion))), 0⟩
    else unknown "rpc" method

end Handler
end Switchboard
