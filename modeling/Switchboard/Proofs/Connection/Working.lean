import Switchboard.Proofs.Connection.Closers
import Switchboard.Proofs.Connection.Lines

/-! The moves that a connection makes by itself.

They are those of its calls, of those who close it, of its writer and of its reader; nobody else
has to do anything for them (`Move.own`). Here is also what holds of every session besides what
concerns the calls (`Regular`). -/
namespace Switchboard.Redirect
open Json

/-- The move is one of a call, of somebody who closes, of the writer or of the reader: nobody else
has to do anything for it. -/
def Move.own : Move → Bool
  | .call _ => true
  | .close _ => true
  | .takeLine => true
  | .sendMore => true
  | .failSending => true
  | .stopWriter => true
  | .closeWriter => true
  | .readFrame => true
  | .stopReader => true
  | .closeReader => true
  | _ => false

/-- The move is one of these and begins nothing new: it takes no line and no frame. -/
def Move.ending : Move → Bool
  | .takeLine => false
  | .readFrame => false
  | m => m.own

theorem Move.own_of_ending {m : Move} (h : m.ending = true) : m.own = true := by
  cases m <;> first | rfl | cases h

namespace Connection

variable {c c' : Connection} {k : Caller} {m : Move} {es : List Event}

/-! ### The writer and the endpoint -/

/-- Nothing changes between the writer and the endpoint. -/
structure Spares (c c' : Connection) : Prop where
  writer : c'.writer = c.writer
  broken : c'.broken = c.broken
  capacity : c'.capacity = c.capacity
  outgoing : c'.outgoing = c.outgoing

theorem Advances.spares (h : Advances c k c' es) : Spares c c' := by
  cases h <;> exact ⟨rfl, rfl, rfl, rfl⟩

theorem Closes.spares {k : Closer} (h : Closes c k c') : Spares c c' := by
  cases h <;> exact ⟨rfl, rfl, rfl, rfl⟩

/-! ### What holds of every session -/

/-- Keys tell those who close apart, and the writer that sends has something left to send. -/
structure Regular (c : Connection) : Prop where
  sound : Sound c
  heeds : c.Heeds
  keys : (c.closers.map Closer.key).Nodup
  unsent : ∀ rest, c.writer = .sending rest → rest ≠ []

theorem setClosing_keys (key : Nat) (stage : Closing) :
    (c.setClosing key stage).closers.map Closer.key = c.closers.map Closer.key := by
  simp only [setClosing, List.map_map]
  refine List.map_congr_left fun k _ => ?_
  simp only [Function.comp_apply]
  split <;> rfl

theorem Closes.keys {k : Closer} (h : Closes c k c') :
    c'.closers.map Closer.key = c.closers.map Closer.key := by
  cases h with
  | marks => exact @setClosing_keys c.mark k.key .marked
  | clears => exact @setClosing_keys c.clear k.key .cleared
  | _ => exact setClosing_keys ..

/-- Only those who begin to close the connection change who closes it. -/
theorem step_keys (h : c.step m = some c') (hn : (c.closers.map Closer.key).Nodup) :
    (c'.closers.map Closer.key).Nodup := by
  cases step_moves h with
  | calls _ ha =>
    rw [ha.closers]
    exact hn
  | abandons =>
    rw [abandon_frame]
    exact hn
  | begins hfresh =>
    simp only [beginClosing, List.map_append, List.map_singleton]
    refine hn.append (List.nodup_singleton _) (List.disjoint_singleton.mpr fun hmem => ?_)
    obtain ⟨k, hk, hkey⟩ := List.mem_map.mp hmem
    exact hfresh k hk hkey
  | closes _ hc =>
    rw [hc.keys]
    exact hn
  | @reads line rest =>
    obtain ⟨_, _, hd⟩ := deliver_only { c with received := rest } line
    rw [hd]
    exact hn
  | _ => exact hn

theorem Regular.step (hr : Regular c) (h : c.step m = some c') : Regular c' where
  sound := hr.sound.step h
  heeds := lasting_heeds.move h hr.heeds
  keys := step_keys h hr.keys
  unsent rest hw := by
    cases step_writes h with
    | idles hi => exact hr.unsent rest (hi.writer ▸ hw)
    | queued _ hw' => exact hr.unsent rest (hw' ▸ hw)
    | taken _ _ hw' =>
      cases hw.symm.trans hw'
      exact List.append_ne_nil_of_right_ne_nil _ (List.cons_ne_nil _ [])
    | @sent chars left _ hw' =>
      rw [hw] at hw'
      split at hw' <;> cases hw'
      rename_i hleft
      simpa using hleft
    | left _ hw' => rcases hw' with hw' | hw' <;> cases hw.symm.trans hw'
    | finished hw' => cases hw.symm.trans hw'

theorem regular_of_run {longestFrame : Nat} {capacity : Capacity} {ms : List Move} {s : Session}
    (h : (Session.opened longestFrame capacity).run ms = some s) : Regular s.connection := by
  refine Session.run_preserves (P := fun s => Regular s.connection) ?_ h ?_
  · intro s s' m _ hs hm
    exact hs.step (Session.step_eq_some hm).1
  · exact { sound := ⟨tied_opened .., shut_opened ..⟩
            heeds := fun _ _ hk => by cases hk
            keys := .nil
            unsent := fun _ hw => by cases hw }

theorem Regular.eq_of_key (hr : Regular c) {k k' : Closer} (hk : k ∈ c.closers)
    (hk' : k' ∈ c.closers) (he : k.key = k'.key) : k = k' :=
  List.inj_on_of_nodup_map hr.keys hk hk' he

theorem Regular.find?_closer (hr : Regular c) {k : Closer} (hk : k ∈ c.closers) :
    c.closers.find? (fun k' => k'.key == k.key) = some k := by
  cases hf : c.closers.find? fun k' => k'.key == k.key with
  | none =>
    have := List.find?_eq_none.mp hf k hk
    simp at this
  | some k' =>
    rw [hr.eq_of_key (List.mem_of_find?_eq_some hf) hk (by simpa using List.find?_some hf)]

end Connection
end Switchboard.Redirect
