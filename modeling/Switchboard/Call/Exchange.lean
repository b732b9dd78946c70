import Switchboard.Call.Pipeline
import Switchboard.Message.Payload

/-! A request's body and the answer to it.

The entries of a batch go through the pipeline side by side and are answered in their
order; an entry without an id runs and is not answered. While it is under way a
request counts as in flight, and all its calls hang under one token, which is
cancelled when the request is over or its client has gone away. -/
namespace Switchboard
open Json

/-- One entry of a body. -/
inductive Slot where
  /-- Not looked at yet. -/
  | fresh (entry : Raw)
  | running (id? : Option Id) (entry : Entry)
  | finished (response? : Option Response)

namespace Slot

/-- The response under an id, none without one. -/
def respond (id? : Option Id) (a : Answer) : Slot :=
  .finished (id?.map fun i => .ofOutcome i (a.mapError CallError.object))

/-- What has become of a call. -/
def ofProgress (id? : Option Id) : Entry.Progress → Slot
  | .pending e => .running id? e
  | .ended a => respond id? a

/-- An entry is looked at: it becomes a call under its own token, or is refused. -/
def begin_ (raw : Raw) (r : Relay) (parent : Token) (party now : Nat) : Slot × Relay :=
  match Request.ofRaw raw with
  | .error (i, e) => (.finished (some (.failure i e)), r)
  | .ok request =>
    let (token, tokens) := r.tokens.child parent
    match r.classifier.classify request token with
    | (.error e, classifier) =>
      (.finished (request.id?.map fun i => .failure i e.object),
        { r with tokens := tokens, classifier := classifier })
    | (.ok call, classifier) =>
      let (progress, r) :=
        { r with tokens := tokens, classifier := classifier }.enter call party now
      (ofProgress request.id? progress, r)

/-- As far as an entry goes now. -/
def go (s : Slot) (r : Relay) (parent : Token) (party now : Nat) : Slot × Relay :=
  match s with
  | .fresh raw => begin_ raw r parent party now
  | .running id? e =>
    let (progress, r) := r.go e party now
    (ofProgress id? progress, r)
  | .finished response? => (.finished response?, r)

def drop (s : Slot) (r : Relay) : Relay :=
  match s with
  | .running _ e => r.drop e
  | _ => r

def isFinished : Slot → Bool
  | .finished _ => true
  | _ => false

def response? : Slot → Option Response
  | .finished response? => response?
  | _ => none

def wakes : Slot → List Nat
  | .running _ e => e.wakes
  | _ => []

/-- As far as all entries go now, one after the other. -/
def goAll (r : Relay) (parent : Token) (party now : Nat) : List Slot → List Slot × Relay
  | [] => ([], r)
  | s :: rest =>
    let (s, r) := s.go r parent party now
    let (rest, r) := goAll r parent party now rest
    (s :: rest, r)

end Slot

/-! ### The whole body -/

structure Exchange where
  /-- The token over the request's calls. -/
  token : Token
  batch : Bool
  slots : List Slot

namespace Exchange

/-- Still under way, or over with the text of the answer, if there is one. -/
inductive Progress where
  | pending (x : Exchange)
  | ended (text? : Option (List Char))

/-- The answer, once every entry is finished. -/
def text? (x : Exchange) : Option (List Char) :=
  let responses := x.slots.filterMap Slot.response?
  if x.batch then
    if responses.isEmpty then none else some (writeList (responses.map Response.write))
  else responses.head?.map Response.write

/-- The request is over: its calls are cancelled, and it is in flight no more. -/
def leave (token : Token) (r : Relay) : Relay :=
  { r with tokens := r.tokens.cancel token, controller := r.controller.release }

/-- As far as the request goes now. -/
def go (x : Exchange) (r : Relay) (party now : Nat) : Progress × Relay :=
  let (slots, r) := Slot.goAll r x.token party now x.slots
  let x := { x with slots := slots }
  if slots.all Slot.isFinished then (.ended x.text?, leave x.token r) else (.pending x, r)

/-- A body comes in. -/
def begin_ (body : ByteArray) (r : Relay) (party now : Nat) : Progress × Relay :=
  let (token, tokens) := r.tokens.child Relay.calls
  let r := { r with tokens := tokens, controller := r.controller.enter }
  match Payload.parse body with
  | .error e => (.ended (some (Response.failure .null e).write), leave token r)
  | .ok (.single raw) => go ⟨token, false, [.fresh raw]⟩ r party now
  | .ok (.batch entries) => go ⟨token, true, entries.map Slot.fresh⟩ r party now

/-- The client has gone away. -/
def drop (x : Exchange) (r : Relay) : Relay :=
  leave x.token (x.slots.foldl (fun r s => s.drop r) r)

/-- When the request is to be looked at again, whatever happens. -/
def wakes (x : Exchange) : List Nat := x.slots.flatMap Slot.wakes

end Exchange
end Switchboard
