import Switchboard.Bench.Wire
import Switchboard.Node.Services

/-! How far a task goes when it is looked at. -/
namespace Switchboard.Bench
open Redirect

namespace World

/-! ### Connections and calls -/

/-- The number under which a connection is handed out. -/
def handOut (w : World) (c : Nat) : Nat × World :=
  match w.handed.findIdx? (· == c) with
  | some n => (n, w)
  | none => (w.handed.length, { w with handed := w.handed ++ [c] })

/-- Still under way, or over. -/
abbrev Progress := (Work ⊕ Finding) × World

def connected (w : World) : Except ForwardError Nat → Progress
  | .ok c =>
    let (n, w) := w.handOut c
    (.inr (.connected (.ok (n, w.relay.hub.isClosed c))), w)
  | .error e => (.inr (.connected (.error e)), w)

def connect (w : World) (party manager : Nat) : Option (Nat × Nat) → Progress
  | none =>
    match w.relay.hub.ask manager party w.now with
    | (.connected c, h) => (w.setHub h).connected (.ok c)
    | (.refused, h) => (w.setHub h).connected (.error .closed)
    | (.waits dial place, h) => (.inl (.connecting manager (some (dial, place))), w.setHub h)
  | some (dial, place) =>
    match w.relay.hub.outcome? dial with
    | none => (.inl (.connecting manager (some (dial, place))), w)
    | some result => w.connected result

def call (w : World) (party connection : Nat) (f : Forwarding) : Progress :=
  let h := w.relay.hub
  let (progress, h) := match f.stage with
    | .calling _ _ => f.collect h
    | _ => f.send h party connection
  (match progress with
    | .pending f => .inl (.calling connection f)
    | .ended result => .inr (.forwarded result), w.setHub h)

def invoke (w : World) (party : Nat) (f : Forwarding) (token : Token) : Progress :=
  let (progress, h) := f.invoke w.relay.hub (w.relay.tokens.isCancelled token) party w.now
  (match progress with
    | .pending f => .inl (.invoking f token)
    | .ended result => .inr (.answered (result.mapError CallError.ofForward)), w.setHub h)

/-- The site of the bench, where ids are not made up and the day does not pass. -/
def site (w : World) : Http.Site := ⟨w.config, "<uuid>", 0⟩

def visit (w : World) : Http.Visit.Progress × Relay → Progress
  | (.pending v, r) => (.inl (.visiting v), { w with relay := r })
  | (.ended response, r) => (.inr (.responded response), { w with relay := r })

def drain (w : World) (party ms : Nat) (deadline? : Option Nat) : Progress :=
  let c := w.relay.controller
  let (deadline, result?, c) := match deadline? with
    | none => (w.now + ms, c.await party (ms = 0))
    | some deadline => (deadline, c.resume party (decide (deadline ≤ w.now)))
  (match result? with
    | none => .inl (.draining ms (some deadline))
    | some drained => .inr (.drained drained),
    { w with relay := { w.relay with controller := c } })

/-! ### A node -/

/-- Serving and watching take few steps at a time. -/
def lifeSteps : Nat := 8

/-- The node has ended: its services stop, and the redirections are closed with them. -/
def ended (w : World) (result : Except String Unit) : Progress :=
  (.inr (.ended result), w.setHub (stopServices w.relay.hub))

def takeLife (w : World) (step : Life → Relay → Option (Life × Relay)) : World :=
  let cancelled := w.relay.tokens.isCancelled Relay.calls
  let (l, r) := Life.go step w.life w.relay lifeSteps
  let w := { w with life := l, relay := r }
  if cancelled = r.tokens.isCancelled Relay.calls then w else w.alarm

def serve (w : World) (party : Nat) : Progress :=
  let w := w.takeLife fun l r => l.serve r party w.now
  match w.life.serving with
  | .finished _ => w.ended (.ok ())
  | _ => (.inl .serving, w)

/-- The task that serves. -/
def server? (w : World) : Option Nat :=
  w.tasks.findIdx? fun t => match t.work? with
    | some .serving => true
    | _ => false

/-- The watching task goes on, and the serving one learns of it. -/
def watch (w : World) (party : Nat) : Progress :=
  let w := w.takeLife fun l r => l.watch r party w.now
  let w := match w.server? with
    | some n => w.push (.party n)
    | none => w
  match w.life.watching with
  | .finished => (.inr .watched, w)
  | _ => (.inl .watching, w)

def fileAt (w : World) (path : String) : Except String Pem :=
  match w.files.find? fun f => f.1 == path with
  | some (_, pem) => .ok pem
  | none => .error Network.noSuchFile

/-- A node begins to serve, if it can. -/
def open_ (w : World) (party : Nat) : Progress :=
  if !w.bound then w.ended (.error "start() must be called before serve()")
  else
    match w.config.tls?.bind fun t => t.complaint? w.fileAt with
    | some complaint => w.ended (.error complaint)
    | none =>
      let n := w.tasks.length
      let watcher : Task := { name := "", work? := some .watching }
      (({ w with tasks := w.tasks ++ [watcher] } : World).push (.party n)).serve party

end World
end Switchboard.Bench
