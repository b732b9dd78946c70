import Switchboard.Redirect.Connection

/-! Everything that can happen on a connection.

A *move* is one step of one party: of a call, of somebody who gives up a call or closes
the connection, of the writer, of the reader, or of the endpoint. A *session* is any
order of moves from a new connection, together with a log of what was seen to happen.
The order in which the program takes its own steps is one of them (`next_eq_some`,
`settle_run`, `start_run`), so what holds of every session holds of the program. -/
namespace Switchboard.Redirect
open Json

/-! ### Moves -/

inductive Move where
  /-- A call begins. Keys tell the calls apart, so this one's is not in use. -/
  | enter (key : Nat) (method : String) (arguments : List Raw)
  | call (key : Nat)
  | abandon (key : Nat)
  /-- Somebody begins to close the connection, with a key that is not in use. -/
  | beginClosing (key : Nat) (waits : Bool)
  | close (key : Nat)
  /-- Nobody holds on to the connection any more. -/
  | release
  | takeLine
  | sendMore
  | failSending
  | stopWriter
  | closeWriter
  | readFrame
  | stopReader
  | closeReader
  /-- The endpoint reads what was sent. -/
  | drain
  /-- The endpoint sends. -/
  | receive (bytes : List UInt8)
  /-- The endpoint sends no more. -/
  | finish
  /-- The endpoint takes no more. -/
  | break_

namespace Connection

/-- The connection after a move, or nothing when the move cannot be made now. -/
def step (c : Connection) : Move → Option Connection
  | .enter key method arguments =>
    if c.callers.any fun k => k.key == key then none else some (c.enter key method arguments)
  | .call key => c.callStep key
  | .abandon key => some (c.abandon key)
  | .beginClosing key waits =>
    if c.closers.any fun k => k.key == key then none else some (c.beginClosing key waits)
  | .close key => c.closeStep key
  | .release => some c.mark
  | .takeLine => c.takeLine
  | .sendMore => c.sendMore
  | .failSending => c.failSending
  | .stopWriter => c.stopWriter
  | .closeWriter => c.closeWriter
  | .readFrame => c.readFrame.map Prod.fst
  | .stopReader => c.stopReader
  | .closeReader => c.closeReader
  | .drain => some c.readByEndpoint.2
  | .receive bytes => some (c.receive bytes)
  | .finish => some { c with ended := true }
  | .break_ => some { c with broken := true }

end Connection

/-! ### What is seen -/

inductive Event where
  | entered (key : Nat)
  /-- A call has taken an id. -/
  | numbered (key id : Nat)
  /-- A call has entered its id among the pending ones. -/
  | listed (key id : Nat)
  /-- A call has queued its line. -/
  | queued (key id : Nat) (method : String) (arguments : List Raw)
  /-- A call has returned; the id it had taken is no longer in use. -/
  | returned (key : Nat) (id? : Option Nat) (result : Forwarded)
  | abandoned (key : Nat) (id? : Option Nat)
  /-- The writer has taken a line from the queue. -/
  | taken (line : List Char)
  | sent (chars : List Char)
  /-- The reader has taken a frame, for the call with this id and key if there is one. -/
  | read (line : List Char) (addressee? : Option (Nat × Nat))

/-- Nothing that concerns a call is seen. -/
def Event.Quiet : Event → Prop
  | .taken _ => True
  | .sent _ => True
  | .read _ none => True
  | _ => False

namespace Connection

/-- The pending entry that a frame is for. -/
def addressee? (c : Connection) (line : List Char) : Option (Nat × Nat) :=
  match Delivery.ofFrame line with
  | .answer id _ => c.pending.find? fun p => p.1 == id
  | _ => none

/-- What is seen of a call that came from one stage to another. -/
def callEvents (k : Caller) (stage : Stage) : List Event :=
  match stage with
  | .entered => []
  | .admitted => []
  | .numbered id => [.numbered k.key id]
  | .listed id => [.listed k.key id]
  | .ready _ => []
  | .waiting id => [.queued k.key id k.method k.arguments]
  | .returned result => [.returned k.key k.stage.id? result]

/-- What is seen of a move that leads from the connection to `c'`. -/
def events (c : Connection) (m : Move) (c' : Connection) : List Event :=
  match m with
  | .enter key _ _ => [.entered key]
  | .call key =>
    match c.caller? key, c'.caller? key with
    | some k, some k' => callEvents k k'.stage
    | _, _ => []
  | .abandon key => ((c.caller? key).map fun k => Event.abandoned key k.stage.id?).toList
  | .takeLine => (c.queue.head?.map Event.taken).toList
  | .sendMore => [.sent (c'.outgoing.drop c.outgoing.length)]
  | .readFrame =>
    match incoming c.longestFrame c.ended c.received with
    | .frame line _ => [.read line (c.addressee? line)]
    | _ => []
  | _ => []

end Connection

/-- A connection and what has been seen to happen on it so far. -/
structure Session where
  connection : Connection
  log : List Event := []

namespace Session

/-- A new connection, on which nothing has happened. -/
def opened (longestFrame : Nat) (capacity : Capacity) : Session := ⟨{ longestFrame, capacity }, []⟩

def step (s : Session) (m : Move) : Option Session :=
  (s.connection.step m).map fun c => ⟨c, s.log ++ s.connection.events m c⟩

def run (s : Session) : List Move → Option Session
  | [] => some s
  | m :: rest => (s.step m).bind fun s => s.run rest

theorem step_eq_some {s s' : Session} {m : Move} (h : s.step m = some s') :
    s.connection.step m = some s'.connection ∧
      s'.log = s.log ++ s.connection.events m s'.connection := by
  obtain ⟨c, hc, rfl⟩ := Option.map_eq_some_iff.mp h
  exact ⟨hc, rfl⟩

theorem run_append {s t u : Session} {a b : List Move} (ha : s.run a = some t)
    (hb : t.run b = some u) : s.run (a ++ b) = some u := by
  induction a generalizing s with
  | nil =>
    cases ha
    exact hb
  | cons m rest ih =>
    obtain ⟨s', hs, hr⟩ := Option.bind_eq_some_iff.mp ha
    exact Option.bind_eq_some_iff.mpr ⟨s', hs, ih hr⟩

/-- What every one of the moves preserves, the whole run preserves. -/
theorem run_preserves {P : Session → Prop} {ms : List Move}
    (hstep : ∀ s s' m, m ∈ ms → P s → s.step m = some s' → P s') {s s' : Session}
    (h : s.run ms = some s') (hs : P s) : P s' := by
  induction ms generalizing s with
  | nil =>
    cases h
    exact hs
  | cons m rest ih =>
    obtain ⟨t, ht, hr⟩ := Option.bind_eq_some_iff.mp h
    exact ih (fun a b k hk => hstep a b k (List.mem_cons_of_mem m hk)) hr
      (hstep s t m (List.mem_cons_self ..) hs ht)

end Session
end Switchboard.Redirect
