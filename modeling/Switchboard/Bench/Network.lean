import Switchboard.Redirect.Endpoint
import Switchboard.Message.Response

/-! The endpoints around a node on the bench.

An endpoint listens at a path, or has left a socket there that nobody listens at. The
far end of a connection reads whatever is sent, line by line, and may answer each
request at once with its own params. While it is sending its answers it does not
read. -/
namespace Switchboard.Bench
open Json Redirect

inductive Socket where
  | listening (echo : Bool)
  | stale
  deriving DecidableEq, Repr

/-- The far end of a connection. -/
structure Peer where
  echo : Bool
  /-- What has come of a line that is not over, backwards. -/
  line : List Char := []
  /-- What is left of its answers. -/
  unsent : List UInt8 := []

structure Network where
  sockets : List (String × Socket) := []
  /-- The far ends, in the order in which they were accepted. -/
  peers : List Peer := []

namespace Network

/-- The path without the steps that stay where they are. -/
def plainPath (path : String) : List (List Char) :=
  (Text.parts '/' path.toList).filter fun part => part ≠ ['.']

def set (n : Network) (path : String) (socket? : Option Socket) : Network :=
  let others := n.sockets.filter fun s => plainPath s.1 ≠ plainPath path
  { n with sockets := others ++ (socket?.map fun s => (path, s)).toList }

/-- How long the path of a socket may be, in bytes. -/
def longestPath : Nat := 107

def refused : String := "Connection refused (os error 111)"

def noSuchFile : String := "No such file or directory (os error 2)"

/-- Whether the far end will answer by itself, or why there is none. -/
def connect (n : Network) : Endpoint → Except String Bool
  | .ipc path =>
    if path.contains '\x00' then .error "paths must not contain interior null bytes"
    else if longestPath < path.utf8ByteSize then .error "path must be shorter than SUN_LEN"
    else
      match n.sockets.find? fun s => plainPath s.1 = plainPath path with
      | some (_, .listening echo) => .ok echo
      | some (_, .stale) => .error refused
      | none => .error noSuchFile
  | .tcp _ => .error refused

end Network

namespace Peer

/-- The lines that end in the text, and the far end after it. A carriage return before the
end does not count. -/
def read (p : Peer) : List Char → List (List Char) × Peer
  | [] => ([], p)
  | '\n' :: text =>
    let line := match p.line with
      | '\x0d' :: before => before.reverse
      | line => line.reverse
    let (lines, p) := read { p with line := [] } text
    (line :: lines, p)
  | c :: text => read { p with line := c :: p.line } text

/-- The answer to a request that gives its params back. -/
def echoed (line : List Char) : Option (List Char) :=
  match Request.parse line with
  | .ok r => some ((Response.success (r.id?.getD .null) (r.params?.getD .null)).write ++ ['\n'])
  | .error _ => none

end Peer
end Switchboard.Bench
