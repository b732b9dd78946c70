import Switchboard.Bench.World

/-! Dials and connections on the bench, and their far ends.

A dial tries to connect at once and again whenever its pause is over. Whatever a
connection sends is read at its far end without delay, as long as the answers of that
end are taken. -/
namespace Switchboard.Bench
open Redirect

namespace World

/-! ### Dials -/

/-- How much an endpoint's socket holds, each way. -/
def socketCapacity : Capacity := 219264

/-- A connection is made, with its far end. -/
def join (w : World) (echo : Bool) (capacity : Capacity) : Nat × World :=
  let h := w.relay.hub
  let connection : Connection := { longestFrame := h.longestFrame, capacity }
  (h.connections.length,
    { w.setHub { h with connections := h.connections ++ [connection] } with
      network := { w.network with peers := w.network.peers ++ [{ echo }] } })

/-- The next turn of a dial, or its end when its time is up. A socket takes a
connection or refuses it at once. -/
def attempt (w : World) (d : Nat) (dial : Dial) (endpoint : Endpoint) : World :=
  let h := w.relay.hub
  if dial.pacing.remaining w.now = 0 then w.setHub (h.endDial d (.error dial.pacing.reason))
  else
    match dial.pacing.turn w.now (.atOnce (w.network.connect endpoint)) with
    | .over (.ok echo) _ =>
      let (c, w) := w.join echo socketCapacity
      w.setHub (w.relay.hub.endDial d (.ok c))
    | .over (.error e) _ => w.setHub (h.endDial d (.error e))
    | .again pacing at_ =>
      let dials := h.dials.modify d fun dial => { dial with pacing }
      (w.setHub { h with dials }).wake (.dial d) at_

def dial (w : World) (d : Nat) : World :=
  match w.relay.hub.dials[d]? with
  | none => w
  | some dial =>
    match dial.outcome?, w.relay.hub.managers[dial.manager]? with
    | none, some m => w.attempt d dial m.redirection.endpoint
    | _, _ => w

/-! ### Connections -/

/-- How much the far end can send at once. A reader takes it from the stream, and when
there is none any more it stays there. -/
def roomBack (k : Connection) : Nat :=
  match k.reader with
  | .reading => k.capacity.bytes
  | _ => k.capacity.bytes - k.received.length

/-- A far end that has no answer left to send reads what there is, and answers it if it
does so by itself. It sends what the stream takes of its answers, and drops them when
the stream is shut. -/
def hear (w : World) (c : Nat) (k : Connection) (p : Peer) : Connection × World :=
  let p := if k.reader = .finished && k.writer = .finished then { p with unsent := [] } else p
  let (text, k) := if p.unsent.isEmpty then k.readByEndpoint else ([], k)
  let (lines, p) := p.read text
  let answers := if p.echo then (lines.filterMap Peer.echoed).flatten else []
  let unsent := p.unsent ++ (String.ofList answers).toUTF8.toList
  let (sent, unsent) := unsent.splitAt (roomBack k)
  let w := { w with
    network := { w.network with peers := w.network.peers.set c { p with unsent } }
    heard := w.heard ++ lines.map fun line => (c, line) }
  (k.receive sent, if text.isEmpty && sent.isEmpty then w else w.push (.connection c))

/-- A connection takes all its steps, and then its far end does what it can. -/
def converse (w : World) (c : Nat) : World :=
  match w.relay.hub.connections[c]?, w.network.peers[c]? with
  | some k, some p =>
    let (k, warnings) := k.settle patience
    let (k, w) := w.hear c k p
    w.setHub (w.relay.hub.settled c k warnings)
  | _, _ => w

/-- The far end sends bytes. -/
def peerSend (w : World) (c : Nat) (bytes : List UInt8) : World :=
  let h := w.relay.hub
  (w.setHub { h with connections := h.connections.modify c fun k => k.receive bytes }).push
    (.connection c)

/-- The far end sends no more. -/
def peerHalfClose (w : World) (c : Nat) : World :=
  let h := w.relay.hub
  (w.setHub { h with connections := h.connections.modify c fun k => { k with ended := true } }).push
    (.connection c)

/-- The far end is gone. -/
def peerClose (w : World) (c : Nat) : World :=
  let h := w.relay.hub
  (w.setHub { h with connections := h.connections.modify c fun k =>
    { k with ended := true, broken := true } }).push (.connection c)

end World
end Switchboard.Bench
