import Switchboard.Redirect.Error
import Switchboard.Redirect.Frames
import Switchboard.Warning

/-! One connection to an endpoint, shared by any number of calls.

Three kinds of activity share a connection. Each *call* looks whether the connection
is closed, takes an id, enters its id among the pending ones, looks again, queues its
line and waits for the reply. The *writer* takes lines from the queue and sends them;
the *reader* takes frames and hands each to the call whose id it bears. Whoever closes
the connection marks it first and clears the pending ids afterwards, so that a call
that enters its id in between finds the mark.

Each definition here is one step of one of them, in which nothing else happens; `none`
means that the step cannot be taken now. Any order of such steps is a run.
`Connection.settle` takes them in one order until none is left. -/
namespace Switchboard.Redirect
open Json

/-- How many lines may wait for the writer. -/
def queueLimit : Nat := 256

/-- How a forwarded call ends. -/
abbrev Forwarded := Except ForwardError Raw

/-- What has become of the reply a call waits for. -/
inductive Reply where
  | open_
  | answered (outcome : Outcome)
  /-- Nobody can answer any more. -/
  | lost

/-- How far a call has come. -/
inductive Stage where
  /-- About to look whether the connection is closed. -/
  | entered
  /-- About to take an id. -/
  | admitted
  /-- About to enter its id among the pending ones. -/
  | numbered (id : Nat)
  /-- About to look again. -/
  | listed (id : Nat)
  /-- About to queue its line, when there is room. -/
  | ready (id : Nat)
  /-- Waiting for the reply. -/
  | waiting (id : Nat)
  | returned (result : Forwarded)

def Stage.id? : Stage → Option Nat
  | .numbered id => some id
  | .listed id => some id
  | .ready id => some id
  | .waiting id => some id
  | _ => none

structure Caller where
  key : Nat
  method : String
  arguments : List Raw
  stage : Stage := .entered
  reply : Reply := .open_

/-- The line that carries the call under an id. -/
def Caller.line (k : Caller) (id : Nat) : List Char := (Request.call id k.method k.arguments).write

inductive Writer where
  | idle
  /-- What is left of a line and its line feed. -/
  | sending (rest : List Char)
  /-- About to mark the connection closed. -/
  | stopped
  /-- About to shut the stream. -/
  | closing
  | finished
  deriving DecidableEq, Repr

inductive Reader where
  | reading
  /-- About to mark the connection closed. -/
  | stopped
  /-- About to clear the pending ids. -/
  | clearing
  | finished
  deriving DecidableEq, Repr

/-- How far somebody who closes the connection has come. -/
inductive Closing where
  /-- About to mark the connection closed. -/
  | entered
  /-- About to clear the pending ids. -/
  | marked
  /-- About to ask for the writer's end, for which only the first one waits. -/
  | cleared
  | waiting
  | returned
  deriving DecidableEq, Repr

structure Closer where
  key : Nat
  /-- Whether it is to wait until the writer has finished. -/
  waits : Bool
  stage : Closing := .entered
  deriving DecidableEq, Repr

/-- How many bytes a stream holds, which has room for one at least. -/
structure Capacity where
  bytes : Nat
  pos : 0 < bytes

instance (n : Nat) : OfNat Capacity (n + 1) := ⟨n + 1, Nat.succ_pos n⟩

structure Connection where
  /-- The longest frame the endpoint may send. -/
  longestFrame : Nat
  /-- How much the stream holds that the endpoint has not read. -/
  capacity : Capacity
  closed : Bool := false
  /-- It starts again at zero after the last one. -/
  nextId : UInt64 := 1
  /-- Which call waits for a reply under which id. -/
  pending : List (Nat × Nat) := []
  callers : List Caller := []
  closers : List Closer := []
  /-- Whether somebody waits or has waited for the writer's end. -/
  awaited : Bool := false
  queue : List (List Char) := []
  writer : Writer := .idle
  reader : Reader := .reading
  /-- Sent and not yet read by the endpoint. -/
  outgoing : List Char := []
  /-- Received and not yet read by the reader. -/
  received : List UInt8 := []
  /-- The endpoint sends no more. -/
  ended : Bool := false
  /-- The endpoint takes no more. -/
  broken : Bool := false

namespace Connection

def caller? (c : Connection) (key : Nat) : Option Caller := c.callers.find? fun k => k.key == key

def update (c : Connection) (key : Nat) (f : Caller → Caller) : Connection :=
  { c with callers := c.callers.map fun k => if k.key = key then f k else k }

def setStage (c : Connection) (key : Nat) (stage : Stage) : Connection :=
  c.update key fun k => { k with stage := stage }

/-! ### Closing -/

/-- Marks the connection closed. -/
def mark (c : Connection) : Connection := { c with closed := true }

/-- Takes off the pending entries that do not stay; the calls that wait for them get no
reply. -/
def keep (c : Connection) (stays : Nat × Nat → Bool) : Connection :=
  { c with
    pending := c.pending.filter stays
    callers := c.callers.map fun k =>
      if c.pending.any fun p => p.2 == k.key && !stays p then { k with reply := .lost } else k }

/-- Takes all pending ids off. -/
def clear (c : Connection) : Connection := c.keep fun _ => false

/-- Both steps of closing in one go, without waiting for the writer. -/
def abort (c : Connection) : Connection := c.mark.clear

/-- Somebody begins to close the connection. -/
def beginClosing (c : Connection) (key : Nat) (waits : Bool) : Connection :=
  { c with closers := c.closers ++ [{ key, waits }] }

def setClosing (c : Connection) (key : Nat) (stage : Closing) : Connection :=
  { c with closers := c.closers.map fun k => if k.key = key then { k with stage := stage } else k }

/-- The next step of somebody who closes the connection. -/
def closeStep (c : Connection) (key : Nat) : Option Connection :=
  match c.closers.find? fun k => k.key == key with
  | none => none
  | some k =>
    match k.stage with
    | .entered => some (c.mark.setClosing key .marked)
    | .marked => some (c.clear.setClosing key .cleared)
    | .cleared =>
      if k.waits && !c.awaited then some { c.setClosing key .waiting with awaited := true }
      else some (c.setClosing key .returned)
    | .waiting => if c.writer = .finished then some (c.setClosing key .returned) else none
    | .returned => none

/-! ### Calls -/

def enter (c : Connection) (key : Nat) (method : String) (arguments : List Raw) : Connection :=
  { c with callers := c.callers ++ [{ key, method, arguments }] }

/-- Takes the id off the pending ones. -/
def forget (c : Connection) (id : Nat) : Connection := c.keep fun p => p.1 != id

/-- Enters a call under its id. One that is there under the same id is taken off. -/
def list (c : Connection) (key id : Nat) : Connection :=
  let c := c.forget id
  { c with pending := (id, key) :: c.pending }

/-- Ends the call with a result; its id is no longer pending. -/
def finish (c : Connection) (key id : Nat) (result : Forwarded) : Connection :=
  (c.forget id).setStage key (.returned result)

/-- The next step of the call `k`. -/
def advance (c : Connection) (k : Caller) : Option Connection :=
  match k.stage with
  | .entered =>
    if c.closed then some (c.setStage k.key (.returned (.error .closed)))
    else some (c.setStage k.key .admitted)
  | .admitted =>
    some { c.setStage k.key (.numbered c.nextId.toNat) with nextId := c.nextId + 1 }
  | .numbered id => some ((c.list k.key id).setStage k.key (.listed id))
  | .listed id =>
    if c.closed then some (c.finish k.key id (.error .closed))
    else some (c.setStage k.key (.ready id))
  | .ready id =>
    if c.writer = .finished then some (c.finish k.key id (.error .closed))
    else if c.queue.length < queueLimit then
      some { c.setStage k.key (.waiting id) with queue := c.queue ++ [k.line id] }
    else none
  | .waiting id =>
    match k.reply with
    | .open_ => none
    | .answered (.ok result) => some (c.finish k.key id (.ok result))
    | .answered (.error e) => some (c.finish k.key id (.error (.remote e)))
    | .lost => some (c.finish k.key id (.error .closed))
  | .returned _ => none

/-- The next step of the call that is known by `key`. -/
def callStep (c : Connection) (key : Nat) : Option Connection := (c.caller? key).bind c.advance

/-- At most `steps` steps of one call. -/
def callSteps (c : Connection) (key : Nat) : (steps : Nat) → Connection
  | 0 => c
  | steps + 1 =>
    match c.callStep key with
    | none => c
    | some c => c.callSteps key steps

/-- A call begins, and goes on until it waits: for room in the queue or for its reply. -/
def start (c : Connection) (key : Nat) (method : String) (arguments : List Raw) : Connection :=
  (c.enter key method arguments).callSteps key 5

/-- Gives up a call, wherever it stands. -/
def abandon (c : Connection) (key : Nat) : Connection :=
  match c.caller? key with
  | none => c
  | some k =>
    let c := match k.stage.id? with
      | some id => c.forget id
      | none => c
    { c with callers := c.callers.filter fun k => k.key != key }

/-! ### The writer -/

def takeLine (c : Connection) : Option Connection :=
  match c.writer, c.queue with
  | .idle, line :: queue => some { c with writer := .sending (line ++ ['\n']), queue := queue }
  | _, _ => none

/-- Sends as much of the line as the stream takes. -/
def sendMore (c : Connection) : Option Connection :=
  match c.writer with
  | .sending rest =>
    let room := c.capacity.bytes - c.outgoing.length
    if c.broken || room = 0 then none
    else
      let left := rest.drop room
      some { c with
        outgoing := c.outgoing ++ rest.take room
        writer := if left.isEmpty then .idle else .sending left }
  | _ => none

/-- Gives up a line that the endpoint does not take any more. -/
def failSending (c : Connection) : Option Connection :=
  match c.writer with
  | .sending _ => if c.broken then some { c with writer := .stopped } else none
  | _ => none

/-- Leaves off, the connection being closed. -/
def stopWriter (c : Connection) : Option Connection :=
  if c.writer = .idle && c.closed then some { c with writer := .stopped } else none

def closeWriter (c : Connection) : Option Connection :=
  match c.writer with
  | .stopped => some { c.mark with writer := .closing }
  | .closing => some { c with writer := .finished, queue := [] }
  | _ => none

/-! ### The reader -/

/-- Hands a reply to the call that waits under the id. -/
def reply (c : Connection) (id : Nat) (outcome : Outcome) : Connection :=
  match c.pending.find? fun p => p.1 == id with
  | none => c
  | some (_, key) => (c.forget id).update key fun k => { k with reply := .answered outcome }

/-- What one frame does, and what it warns about. -/
def deliver (c : Connection) (line : List Char) : Connection × List Warning :=
  match Delivery.ofFrame line with
  | .undecodable => (c, [.undecodableFrame])
  | .unmatched none => (c, [])
  | .unmatched (some e) => (c, [.errorWithoutId e])
  | .answer id outcome => (c.reply id outcome, [])

/-- Takes what has been received. -/
def readFrame (c : Connection) : Option (Connection × List Warning) :=
  if c.reader = .reading then
    match incoming c.longestFrame c.ended c.received with
    | .frame line rest => some (deliver { c with received := rest } line)
    | .spoiled => some ({ c with reader := .stopped }, [.readFailed])
    | .finished => some ({ c with reader := .stopped }, [])
    | .more => none
  else none

/-- Leaves off, the connection being closed. -/
def stopReader (c : Connection) : Option Connection :=
  if c.reader = .reading && c.closed then some { c with reader := .stopped } else none

def closeReader (c : Connection) : Option Connection :=
  match c.reader with
  | .stopped => some { c.mark with reader := .clearing }
  | .clearing => some { c.clear with reader := .finished }
  | _ => none

/-! ### One order of the steps -/

/-- The first call that can take a step, and the connection after it. -/
def nextCall (c : Connection) : List Caller → Option Connection
  | [] => none
  | k :: rest =>
    match c.advance k with
    | some c => some c
    | none => c.nextCall rest

/-- The first closer that can take a step, and the connection after it. -/
def nextCloser (c : Connection) : List Closer → Option Connection
  | [] => none
  | k :: rest =>
    match c.closeStep k.key with
    | some c => some c
    | none => c.nextCloser rest

/-- One step: of a call, else of a closer, else of the writer, else of the reader. -/
def next (c : Connection) : Option (Connection × List Warning) :=
  let quietly (c : Connection) : Connection × List Warning := (c, [])
  (c.nextCall c.callers).map quietly
    <|> (c.nextCloser c.closers).map quietly
    <|> c.stopWriter.map quietly
    <|> c.takeLine.map quietly
    <|> c.sendMore.map quietly
    <|> (c.failSending.map fun c => (c, [Warning.writeFailed]))
    <|> c.closeWriter.map quietly
    <|> c.stopReader.map quietly
    <|> c.readFrame
    <|> c.closeReader.map quietly

/-- At most `steps` steps, as long as one can be taken. -/
def settle (c : Connection) : (steps : Nat) → Connection × List Warning
  | 0 => (c, [])
  | steps + 1 =>
    match c.next with
    | none => (c, [])
    | some (c, warnings) =>
      let (c, more) := c.settle steps
      (c, warnings ++ more)

/-! ### The endpoint's side -/

/-- What the endpoint reads: everything that was sent. -/
def readByEndpoint (c : Connection) : List Char × Connection :=
  (c.outgoing, { c with outgoing := [] })

def receive (c : Connection) (bytes : List UInt8) : Connection :=
  if c.ended then c else { c with received := c.received ++ bytes }

/-- The calls that have returned. -/
def results (c : Connection) : List (Nat × Forwarded) :=
  c.callers.filterMap fun k =>
    match k.stage with
    | .returned r => some (k.key, r)
    | _ => none

end Connection
end Switchboard.Redirect
