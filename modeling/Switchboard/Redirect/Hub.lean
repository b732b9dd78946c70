import Switchboard.Metrics
import Switchboard.Redirect.Connection
import Switchboard.Redirect.Dial
import Switchboard.Redirect.Manager

/-! All redirections of a node, with their dials and connections.

Dials and connections are known by the order in which they were begun. What has to be
looked at again is noted in `due`: a dial to be taken up, a connection with steps to
take, a party that waited for something that has happened. -/
namespace Switchboard.Redirect
open Json

/-- A dial and those who wait for its outcome. Each of them has a place, and they go on in
the order of their places; who leaves frees his place for the next one who comes. -/
structure Dial where
  manager : Nat
  pacing : Pacing
  /-- Who waits at each place. -/
  places : List (Option Nat) := []
  /-- The places that are free, the last one that was freed first. -/
  free : List Nat := []
  outcome? : Option (Except ForwardError Nat) := none

namespace Dial

/-- A party begins to wait, and gets a place. -/
def wait (d : Dial) (party : Nat) : Nat × Dial :=
  match d.free with
  | place :: free => (place, { d with places := d.places.set place (some party), free := free })
  | [] => (d.places.length, { d with places := d.places ++ [some party] })

/-- The party at a place leaves. -/
def leave (d : Dial) (place : Nat) : Dial :=
  { d with places := d.places.set place none, free := place :: d.free }

/-- Who waits, in order. -/
def waiting (d : Dial) : List Nat := d.places.filterMap id

end Dial

/-- What a party gets that wants a connection. -/
inductive Access where
  | connected (connection : Nat)
  | refused
  /-- It has a place among those who wait for a dial. -/
  | waits (dial place : Nat)
  deriving DecidableEq, Repr

/-- Something to be looked at again. -/
inductive Due where
  | dial (dial : Nat)
  | connection (connection : Nat)
  | party (party : Nat)
  deriving DecidableEq, Repr

structure Hub where
  longestFrame : Nat
  managers : List Manager := []
  dials : List Dial := []
  connections : List Connection := []
  /-- The party on whose behalf each call goes over a connection. -/
  parties : List (Nat × Nat) := []
  /-- The key of the next call. -/
  nextKey : Nat := 0
  metrics : Metrics := []
  warnings : List Warning := []
  due : List Due := []

namespace Hub

/-- The hub of a node with these redirections. -/
def ofRedirections (longestFrame : Nat) (redirections : List Redirection) : Hub :=
  { longestFrame, managers := redirections.map fun r => { redirection := r } }

def isClosed (h : Hub) (connection : Nat) : Bool :=
  match h.connections[connection]? with
  | some c => c.closed
  | none => true

/-- The manager of a namespace. -/
def manager? (h : Hub) (name : String) : Option Nat :=
  h.managers.findIdx? fun m => m.redirection.namespaceName == name

def note (h : Hub) (d : Due) : Hub := { h with due := h.due ++ [d] }

def warn (h : Hub) (w : Warning) : Hub := { h with warnings := h.warnings ++ [w] }

def setManager (h : Hub) (i : Nat) (m : Manager) : Hub := { h with managers := h.managers.set i m }

def setConnection (h : Hub) (i : Nat) (c : Connection) : Hub :=
  { h with connections := h.connections.set i c }

/-! ### Wanting a connection -/

/-- A party waits for a dial. -/
def wait (h : Hub) (dial party : Nat) : Access × Hub :=
  match h.dials[dial]? with
  | none => (.refused, h)
  | some d =>
    let (place, d) := d.wait party
    (.waits dial place, { h with dials := h.dials.set dial d })

/-- A party does not wait any more. -/
def leave (h : Hub) (dial place : Nat) : Hub :=
  { h with dials := h.dials.modify dial fun d => d.leave place }

/-- A party wants the connection of a manager. -/
def ask (h : Hub) (manager party now : Nat) : Access × Hub :=
  match h.managers[manager]? with
  | none => (.refused, h)
  | some m =>
    let (grant, m') := m.ask h.isClosed h.dials.length
    let h := h.setManager manager m'
    match grant with
    | .connected c => (.connected c, h)
    | .refused => (.refused, h)
    | .joins d => h.wait d party
    | .dials d =>
      let dial : Dial := { manager, pacing := .begin_ now m.redirection.target.connectTimeoutMs }
      ({ h with dials := h.dials ++ [dial] }.note (.dial d)).wait d party

def outcome? (h : Hub) (dial : Nat) : Option (Except ForwardError Nat) :=
  h.dials[dial]?.bind Dial.outcome?

/-- A dial has ended. Its callers learn the outcome; a connection that is not wanted any
more is closed. -/
def endDial (h : Hub) (dial : Nat) (result : Except String Nat) : Hub :=
  match h.dials[dial]? with
  | none => h
  | some d =>
    match h.managers[d.manager]? with
    | none => h
    | some m =>
      let (outcome, counts, m') := m.dialed result
      let h := h.setManager d.manager m'
      let h := { h with
        dials := h.dials.modify dial fun d => { d with outcome? := some outcome }
        due := h.due ++ d.waiting.map Due.party }
      if counts then
        let h := { h with
          metrics := h.metrics.count (Metrics.dialKey m.redirection.namespaceName result.isOk) }
        if result.isOk then h else h.warn .dialFailed
      else
        match result with
        | .ok c => { h with connections := h.connections.modify c Connection.abort }.note (.connection c)
        | .error _ => h

/-! ### Calls -/

/-- A party's call goes over a connection, known by the key that is returned. -/
def beginCall (h : Hub) (connection party : Nat) (method : String) (arguments : List Raw) :
    Nat × Hub :=
  (h.nextKey,
    { h with
      connections := h.connections.modify connection fun c => c.start h.nextKey method arguments
      parties := (h.nextKey, party) :: h.parties
      nextKey := h.nextKey + 1 }.note (.connection connection))

/-- The result of a call, once it has returned. -/
def result? (h : Hub) (connection key : Nat) : Option Forwarded :=
  (h.connections[connection]?.bind fun c => c.caller? key).bind fun k =>
    match k.stage with
    | .returned r => some r
    | _ => none

/-- A call is given up, or its result has been taken. -/
def abandonCall (h : Hub) (connection key : Nat) : Hub :=
  { h with
    connections := h.connections.modify connection fun c => c.abandon key
    parties := h.parties.filter fun p => p.1 != key }

/-- A connection has taken steps: its calls that have returned concern their parties. -/
def settled (h : Hub) (connection : Nat) (c : Connection) (warnings : List Warning) : Hub :=
  let concerned := c.results.filterMap fun r => h.parties.find? fun p => p.1 == r.1
  { h.setConnection connection c with
    warnings := h.warnings ++ warnings
    due := h.due ++ concerned.map fun p => Due.party p.2 }

/-! ### Closing -/

/-- Closes a manager, and its connection. -/
def closeManager (h : Hub) (i : Nat) : Hub :=
  match h.managers[i]? with
  | none => h
  | some m =>
    let (connection?, m) := m.close
    let h := h.setManager i m
    match connection? with
    | none => h
    | some c =>
      { h with
        connections := h.connections.modify c fun k => k.beginClosing h.nextKey true
        nextKey := h.nextKey + 1 }.note (.connection c)

def closeAll (h : Hub) : Hub := (List.range h.managers.length).foldl closeManager h

/-! ### Reports -/

/-- The state of every redirection, in the order of their namespaces. -/
def statuses (h : Hub) : List Status :=
  h.managers.map fun m =>
    ⟨m.redirection.namespaceName, m.redirection.endpoint.display, m.report h.isClosed, m.dials⟩

def anyClosed (h : Hub) : Bool := h.managers.any fun m => decide (m.state = .closed)

end Hub
end Switchboard.Redirect
