import Switchboard.Proofs.Connection.Session
import Switchboard.Redirect.Hub

/-! Everything that can happen on a hub.

An *act* is one step of one party: of somebody who wants a connection, of a dial, of
somebody who closes a manager, of a call, or of a connection. A *course* is any order of
acts from a hub on which nothing has been dialed. With it goes what the parties know and
the hub does not keep: who waits for which dial, and which connection a dial has made that
has not ended yet. -/
namespace Switchboard.Redirect
open Json

/-- Somebody who waits for a dial. -/
structure Waiter where
  party : Nat
  dial : Nat
  place : Nat
  deriving DecidableEq, Repr

inductive Act where
  /-- A party wants the connection of a manager. -/
  | want (manager party now : Nat)
  /-- A party that waits learns how the dial has ended. -/
  | learn (w : Waiter)
  /-- A party that waits is given up. -/
  | leave (w : Waiter)
  /-- An attempt fails, and there may be another one. -/
  | retry (dial : Nat) (error : String)
  /-- An attempt succeeds: there is a new connection. -/
  | connect (dial : Nat) (capacity : Capacity)
  /-- A dial ends, with the connection it has made or else for a reason. -/
  | end_ (dial : Nat) (reason : String)
  | close (manager : Nat)
  | beginCall (connection party : Nat) (method : String) (arguments : List Raw)
  | abandonCall (connection key : Nat)
  /-- A connection takes steps in the order of the program. -/
  | settle (connection steps : Nat)
  /-- A connection makes a move of its own, or its endpoint does. -/
  | move (connection : Nat) (m : Move)

/-- What is seen. -/
inductive Notice where
  /-- A dial begins. -/
  | began (manager dial : Nat)
  /-- A party waits for a dial from now on. -/
  | joined (party dial : Nat)
  /-- A party that waited for a dial returns with an outcome. -/
  | learned (party dial : Nat) (outcome : Except ForwardError Nat)
  | ended (dial : Nat)

/-- The dial has begun and not ended. -/
def Hub.Underway (h : Hub) (dial : Nat) : Prop :=
  ∃ d, h.dials[dial]? = some d ∧ d.outcome? = none

instance (h : Hub) (dial : Nat) : Decidable (h.Underway dial) :=
  match hd : h.dials[dial]? with
  | none => isFalse (by simp [Hub.Underway, hd])
  | some d => decidable_of_iff (d.outcome? = none) (by simp [Hub.Underway, hd])

structure Course where
  hub : Hub
  /-- Which dial has made which connection. -/
  made : List (Nat × Nat) := []
  waiting : List Waiter := []
  log : List Notice := []

namespace Course

/-- A hub on which nothing has been dialed. -/
def opened (longestFrame : Nat) (redirections : List Redirection) : Course :=
  { hub := .ofRedirections longestFrame redirections }

/-- The connection that the dial has made. -/
def made? (s : Course) (dial : Nat) : Option Nat :=
  (s.made.find? fun p => p.1 == dial).map Prod.snd

/-- How the dial ends, if it ends now. -/
def result (s : Course) (dial : Nat) (reason : String) : Except String Nat :=
  match s.made? dial with
  | some c => .ok c
  | none => .error reason

/-- What is seen of somebody who wants a connection. -/
def wantNotices (s : Course) (manager party : Nat) : Access → List Notice
  | .waits dial _ =>
    if dial = s.hub.dials.length then [.began manager dial, .joined party dial]
    else [.joined party dial]
  | _ => []

/-- The parties that wait after somebody wanted a connection. -/
def joinedBy (s : Course) (party : Nat) : Access → List Waiter
  | .waits dial place => ⟨party, dial, place⟩ :: s.waiting
  | _ => s.waiting

/-- The course after an act, or nothing when it cannot be done now. -/
def step (s : Course) : Act → Option Course
  | .want manager party now =>
    let (access, h) := s.hub.ask manager party now
    some { s with
      hub := h
      waiting := s.joinedBy party access
      log := s.log ++ s.wantNotices manager party access }
  | .learn w =>
    if w ∈ s.waiting then
      (s.hub.outcome? w.dial).map fun outcome =>
        { s with
          waiting := s.waiting.erase w
          log := s.log ++ [.learned w.party w.dial outcome] }
    else none
  | .leave w =>
    if w ∈ s.waiting then
      some { s with hub := s.hub.leave w.dial w.place, waiting := s.waiting.erase w }
    else none
  | .retry dial error =>
    some { s with hub.dials :=
      s.hub.dials.modify dial fun d => { d with pacing := d.pacing.failed error } }
  | .connect dial capacity =>
    if s.hub.Underway dial ∧ s.made? dial = none then
      some { s with
        hub.connections := s.hub.connections ++ [{ longestFrame := s.hub.longestFrame, capacity }]
        made := s.made ++ [(dial, s.hub.connections.length)] }
    else none
  | .end_ dial reason =>
    if s.hub.Underway dial then
      some { s with
        hub := s.hub.endDial dial (s.result dial reason)
        log := s.log ++ [.ended dial] }
    else none
  | .close manager => some { s with hub := s.hub.closeManager manager }
  | .beginCall connection party method arguments =>
    some { s with hub := (s.hub.beginCall connection party method arguments).2 }
  | .abandonCall connection key => some { s with hub := s.hub.abandonCall connection key }
  | .settle connection steps =>
    s.hub.connections[connection]?.map fun c =>
      let (c, warnings) := c.settle steps
      { s with hub := s.hub.settled connection c warnings }
  | .move connection m =>
    (s.hub.connections[connection]?.bind fun c => c.step m).map fun c =>
      { s with hub := s.hub.setConnection connection c }

def run (s : Course) : List Act → Option Course
  | [] => some s
  | a :: rest => (s.step a).bind fun s => s.run rest

/-- What every one of the acts preserves, the whole run preserves. -/
theorem run_preserves {P : Course → Prop} {acts : List Act}
    (hstep : ∀ s s' a, a ∈ acts → P s → s.step a = some s' → P s') {s s' : Course}
    (h : s.run acts = some s') (hs : P s) : P s' := by
  induction acts generalizing s with
  | nil =>
    cases h
    exact hs
  | cons a rest ih =>
    obtain ⟨t, ht, hr⟩ := Option.bind_eq_some_iff.mp h
    exact ih (fun u v b hb => hstep u v b (List.mem_cons_of_mem a hb)) hr
      (hstep s t a (List.mem_cons_self ..) hs ht)

end Course
end Switchboard.Redirect
