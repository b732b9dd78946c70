import Mathlib.Algebra.GroupWithZero.Nat
import Mathlib.Algebra.Order.BigOperators.Group.List
import Mathlib.Algebra.Order.Group.Nat
import Switchboard.Proofs.Connection.Working

/-! How a connection comes to its end.

A connection that somebody has closed goes on to its end by moves that take no more lines and no
more frames. Where none of them can be made, everybody has returned, or the writer is stalled in
the middle of a line (`Regular.stalled`). While the stream has room for what is left of a line,
each of them leaves fewer to make (`Moves.left_lt`), so the connection comes to its end
(`Session.canFinish_of_free`). -/
namespace Switchboard.Redirect
open Json

/-- How many steps a call can still take. -/
def Stage.rank : Stage → Nat
  | .entered => 6
  | .admitted => 5
  | .numbered _ => 4
  | .listed _ => 3
  | .ready _ => 2
  | .waiting _ => 1
  | .returned _ => 0

/-- How many steps somebody who closes the connection can still take. -/
def Closing.rank : Closing → Nat
  | .entered => 4
  | .marked => 3
  | .cleared => 2
  | .waiting => 1
  | .returned => 0

/-- How many steps the writer can still take that takes no more lines and sends each at once. -/
def Writer.rank : Writer → Nat
  | .sending _ => 4
  | .idle => 3
  | .stopped => 2
  | .closing => 1
  | .finished => 0

/-- How many steps the reader can still take that takes no more frames. -/
def Reader.rank : Reader → Nat
  | .reading => 3
  | .stopped => 2
  | .clearing => 1
  | .finished => 0

namespace Connection

variable {c c' : Connection} {k : Caller} {m : Move} {es : List Event}

/-- Everybody who closes the connection has returned, and so has every call. -/
structure Done (c : Connection) : Prop where
  closers : ∀ k ∈ c.closers, k.stage = .returned
  callers : ∀ k ∈ c.callers, ∃ r, k.stage = .returned r

/-- The writer is in the middle of a line, and the stream takes nothing more of it. -/
def Stalled (c : Connection) : Prop :=
  ∃ rest, c.writer = .sending rest ∧ c.broken = false ∧ c.capacity.bytes ≤ c.outgoing.length

/-- The writer is in the middle of a line, and the stream has no room for all that is left. -/
def Hindered (c : Connection) : Prop :=
  ∃ rest, c.writer = .sending rest ∧ c.broken = false ∧
    c.capacity.bytes < c.outgoing.length + rest.length

theorem Spares.hindered (h : Spares c c') : c'.Hindered ↔ c.Hindered := by
  rw [Hindered, h.writer, h.broken, h.capacity, h.outgoing, Hindered]

/-! ### Where nothing ends by itself -/

theorem Stalled.hindered (hr : Regular c) (h : c.Stalled) : c.Hindered := by
  obtain ⟨rest, hw, hb, hfull⟩ := h
  have := List.length_pos_of_ne_nil (hr.unsent rest hw)
  exact ⟨rest, hw, hb, by omega⟩

/-- Once the endpoint has read what was sent, a stalled writer can send more. -/
theorem Stalled.sendMore_isSome (h : c.Stalled) : c.readByEndpoint.2.sendMore.isSome := by
  obtain ⟨rest, hw, hb, -⟩ := h
  have hroom : c.capacity.bytes ≠ 0 := Nat.ne_of_gt c.capacity.pos
  simp [sendMore, readByEndpoint, hw, hb, hroom]

/-- No move that brings the connection to its end can be made. -/
def Spent (c : Connection) : Prop := ∀ m : Move, m.ending = true → c.step m = none

namespace Spent

theorem closed (h : c.Spent) (hr : Regular c) (hd : c.Doomed) : c.closed = true := by
  rcases hd with hclosed | hsome
  · exact hclosed
  · cases hopen : c.closed with
    | true => rfl
    | false =>
      obtain ⟨k, hk⟩ := List.exists_mem_of_ne_nil _ hsome
      obtain ⟨c', hc', -⟩ := hr.heeds.closes hopen hk
      cases (h (.close k.key) rfl).symm.trans hc'

theorem reader (h : c.Spent) (hclosed : c.closed = true) : c.reader = .finished := by
  have hstop := h .stopReader rfl
  have hclose := h .closeReader rfl
  cases hreader : c.reader <;>
    simp [step, stopReader, closeReader, hreader, hclosed] at hstop hclose
  rfl

theorem writer (h : c.Spent) (hclosed : c.closed = true) : c.writer = .finished ∨ c.Stalled := by
  have hstop := h .stopWriter rfl
  have hclose := h .closeWriter rfl
  have hsend := h .sendMore rfl
  have hfail := h .failSending rfl
  cases hwriter : c.writer with
  | idle => simp [step, stopWriter, hwriter, hclosed] at hstop
  | stopped => simp [step, closeWriter, hwriter] at hclose
  | closing => simp [step, closeWriter, hwriter] at hclose
  | finished => exact .inl rfl
  | sending rest =>
    have hb : c.broken = false := by simpa [step, failSending, hwriter] using hfail
    simp only [step, sendMore, hwriter, hb, Bool.false_or, decide_eq_true_eq] at hsend
    split at hsend
    · exact .inr ⟨rest, hwriter, hb, by omega⟩
    · cases hsend

theorem closer (h : c.Spent) (hr : Regular c) {k : Closer} (hk : k ∈ c.closers) :
    k.stage = .returned ∨ k.stage = .waiting ∧ c.writer ≠ .finished := by
  have hstep := h (.close k.key) rfl
  simp only [step, closeStep, hr.find?_closer hk] at hstep
  cases hs : k.stage with
  | returned => exact .inl rfl
  | waiting =>
    refine .inr ⟨rfl, fun hw => ?_⟩
    simp [hs, hw] at hstep
  | entered | marked => simp [hs] at hstep
  | cleared =>
    simp only [hs] at hstep
    split at hstep <;> cases hstep

theorem caller (h : c.Spent) (hr : Regular c) (hreader : c.reader = .finished)
    (hk : k ∈ c.callers) : (∃ r, k.stage = .returned r) ∨
      (∃ id, k.stage = .ready id) ∧ queueLimit ≤ c.queue.length ∧ c.writer ≠ .finished := by
  have hstep := h (.call k.key) rfl
  rw [step, callStep, hr.sound.tied.caller?_eq hk, Option.bind_some, advance] at hstep
  cases hs : k.stage with
  | returned r => exact .inl ⟨r, rfl⟩
  | ready id =>
    simp only [hs] at hstep
    split at hstep
    · cases hstep
    · rename_i hw
      split at hstep
      · cases hstep
      · rename_i hq
        exact .inr ⟨⟨id, rfl⟩, Nat.le_of_not_lt hq, hw⟩
  | waiting id =>
    have hreply : k.reply ≠ .open_ := fun hopen =>
      hr.sound.shut.settled hreader k hk ⟨⟨id, .inr hs⟩, hopen⟩
    simp only [hs] at hstep
    split at hstep
    · rename_i hopen
      exact absurd hopen hreply
    all_goals cases hstep
  | entered | listed =>
    simp only [hs] at hstep
    split at hstep <;> cases hstep
  | admitted | numbered => simp [hs] at hstep

end Spent

/-- **A lost connection that makes no move to its end has come to its end, or the writer is
stalled**; then everybody who has not returned depends on the writer. -/
theorem Regular.stalled (hr : Regular c) (hd : c.Doomed) (h : c.Spent) :
    c.Done ∨ c.Stalled ∧ (∀ k ∈ c.closers, k.stage = .returned ∨ k.stage = .waiting) ∧
      ∀ k ∈ c.callers, (∃ r, k.stage = .returned r) ∨
        (∃ id, k.stage = .ready id) ∧ queueLimit ≤ c.queue.length := by
  have hclosed := h.closed hr hd
  have hreader := h.reader hclosed
  rcases h.writer hclosed with hw | hstalled
  · refine .inl ⟨fun k hk => ?_, fun k hk => ?_⟩
    · exact (h.closer hr hk).resolve_right fun h => h.2 hw
    · exact (h.caller hr hreader hk).resolve_right fun h => h.2.2 hw
  · exact .inr ⟨hstalled, fun k hk => (h.closer hr hk).imp_right And.left,
      fun k hk => (h.caller hr hreader hk).imp_right fun h => ⟨h.1, h.2.1⟩⟩

/-! ### How many moves are left -/

/-- Setting one element of a list back takes from what its elements add up to. -/
theorem sum_update_lt {α : Type} {key rank : α → Nat} {f : α → α} {l : List α} {a : α}
    (hn : (l.map key).Nodup) (ha : a ∈ l) (hlt : rank (f a) < rank a) :
    ((l.map fun b => if key b = key a then f b else b).map rank).sum < (l.map rank).sum := by
  rw [List.map_map]
  refine List.sum_lt_sum _ _ (fun b hb => ?_) ⟨a, ha, by simpa using hlt⟩
  simp only [Function.comp_apply]
  split
  · rename_i hkey
    rw [List.inj_on_of_nodup_map hn hb ha hkey]
    exact hlt.le
  · exact le_rfl

/-- How many steps the calls can still take. -/
def callsLeft (c : Connection) : Nat := (c.callers.map fun k => k.stage.rank).sum

/-- How many steps those who close can still take. -/
def closersLeft (c : Connection) : Nat := (c.closers.map fun k => k.stage.rank).sum

/-- How many moves are left to the end, when no line is taken any more. -/
def left (c : Connection) : Nat :=
  c.callsLeft + c.closersLeft + c.writer.rank + c.reader.rank

theorem callsLeft_keep (stays : Nat × Nat → Bool) : (c.keep stays).callsLeft = c.callsLeft := by
  simp only [callsLeft, keep_callers, List.map_map]
  exact congrArg List.sum (List.map_congr_left fun k _ => congrArg Stage.rank (kept_stage stays))

theorem callsLeft_setStage (ht : Tied c) (hk : k ∈ c.callers) {stage : Stage}
    (hlt : stage.rank < k.stage.rank) : (c.setStage k.key stage).callsLeft < c.callsLeft :=
  @sum_update_lt Caller Caller.key (fun k => k.stage.rank) (fun k => { k with stage }) _ _
    ht.keys hk hlt

/-- The same after entries have been taken off. -/
theorem callsLeft_keep_setStage (ht : Tied c) (hk : k ∈ c.callers) {stage : Stage}
    (stays : Nat × Nat → Bool) (hlt : stage.rank < k.stage.rank) :
    ((c.keep stays).setStage k.key stage).callsLeft < c.callsLeft := by
  have hk' : c.kept stays k ∈ (c.keep stays).callers := List.mem_map_of_mem hk
  have hlt' : stage.rank < (c.kept stays k).stage.rank := by rwa [kept_stage]
  have := callsLeft_setStage (ht.keep stays) hk' hlt'
  rwa [kept_key, callsLeft_keep] at this

theorem Advances.callsLeft_lt (h : Advances c k c' es) (ht : Tied c) (hk : k ∈ c.callers) :
    c'.callsLeft < c.callsLeft := by
  cases h with
  | refused hs | admitted hs | numbered hs | ready hs | queued hs =>
    exact callsLeft_setStage ht hk (by simp [hs, Stage.rank])
  | listed hs | turnedBack hs | unsent hs | answered hs | lost hs =>
    exact callsLeft_keep_setStage ht hk _ (by simp [hs, Stage.rank])

theorem closersLeft_setClosing (hr : Regular c) {k : Closer} (hk : k ∈ c.closers)
    {stage : Closing} (hlt : stage.rank < k.stage.rank) :
    (c.setClosing k.key stage).closersLeft < c.closersLeft :=
  @sum_update_lt Closer Closer.key (fun k => k.stage.rank) (fun k => { k with stage }) _ _
    hr.keys hk hlt

theorem Closes.closersLeft_lt {k : Closer} (h : Closes c k c') (hr : Regular c)
    (hk : k ∈ c.closers) : c'.closersLeft < c.closersLeft := by
  cases h with
  | marks hs | clears hs | waits hs | leaves hs | returns hs =>
    exact closersLeft_setClosing hr hk (by simp [hs, Closing.rank])

theorem Closes.callsLeft {k : Closer} (h : Closes c k c') : c'.callsLeft = c.callsLeft := by
  cases h with
  | clears => exact callsLeft_keep _
  | _ => rfl

/-- A writer that is not hindered sends all that is left of its line. -/
theorem drop_of_free (hfree : ¬c.Hindered) {rest : List Char} (hw : c.writer = .sending rest)
    (hb : c.broken = false) : rest.drop (c.capacity.bytes - c.outgoing.length) = [] := by
  have hroom : ¬c.capacity.bytes < c.outgoing.length + rest.length :=
    fun h => hfree ⟨rest, hw, hb, h⟩
  exact List.drop_eq_nil_of_le (by omega)

/-- Every move to the end of a connection that is not hindered leaves fewer of them. -/
theorem Moves.left_lt (h : Moves c m c') (hm : m.ending = true) (hr : Regular c)
    (hfree : ¬c.Hindered) : c'.left < c.left := by
  cases h with
  | @calls k _ _ hk ha =>
    have hcalls := ha.callsLeft_lt hr.sound.tied (caller?_mem hk).1
    have hrest : c'.closersLeft = c.closersLeft ∧ c'.writer = c.writer ∧ c'.reader = c.reader := by
      cases ha <;> exact ⟨rfl, rfl, rfl⟩
    simp only [left, hrest]
    omega
  | @closes k _ hk hc =>
    have hclosers := hc.closersLeft_lt hr hk
    have hreader : c'.reader = c.reader := by
      cases hc <;> rfl
    simp only [left, hc.callsLeft, hc.spares.writer, hreader]
    omega
  | sends hw hb _ hleft =>
    rw [drop_of_free hfree hw hb] at hleft
    simp only [left, callsLeft, closersLeft, hw, hleft, List.isEmpty_nil, if_true, Writer.rank]
    omega
  | fails hw | stops hw | marks hw | finishes hw =>
    simp only [left, callsLeft, closersLeft, mark, hw, Writer.rank]
    omega
  | leaves hreader | readerMarks hreader =>
    simp only [left, callsLeft, closersLeft, mark, hreader, Reader.rank]
    omega
  | clears hreader =>
    have hcalls : c.clear.callsLeft = c.callsLeft := callsLeft_keep _
    show c.clear.callsLeft + c.closersLeft + c.writer.rank + Reader.finished.rank < c.left
    simp only [left, hcalls, hreader, Reader.rank]
    omega
  | _ => cases hm

/-- On its way to the end, a connection does not become hindered. -/
theorem Moves.free (h : Moves c m c') (hm : m.ending = true) (hfree : ¬c.Hindered) :
    ¬c'.Hindered := by
  cases h with
  | calls _ ha =>
    rw [ha.spares.hindered]
    exact hfree
  | closes _ hc =>
    rw [hc.spares.hindered]
    exact hfree
  | sends hw hb _ hleft =>
    rw [drop_of_free hfree hw hb] at hleft
    rintro ⟨rest, hw', -⟩
    simp [hleft] at hw'
  | fails | stops | marks | finishes =>
    rintro ⟨rest, hw', -⟩
    cases hw'
  | leaves | readerMarks | clears => exact hfree
  | _ => cases hm

theorem callers_keep (stays : Nat × Nat → Bool) :
    (c.keep stays).callers.map Caller.key = c.callers.map Caller.key := by
  rw [keep_callers, List.map_map]
  exact List.map_congr_left fun k _ => kept_key stays

/-- On its way to the end, a connection keeps its calls and those who close it. -/
theorem Moves.keys (h : Moves c m c') (hm : m.ending = true) :
    c'.callers.map Caller.key = c.callers.map Caller.key ∧
      c'.closers.map Closer.key = c.closers.map Closer.key := by
  cases h with
  | calls _ ha =>
    cases ha with
    | refused | admitted | numbered | ready | queued => exact ⟨setStage_keys, rfl⟩
    | @listed id => exact ⟨setStage_keys.trans (callers_keep (c := c) fun p => p.1 != id), rfl⟩
    | turnedBack | unsent | answered | lost => exact ⟨setStage_keys.trans (callers_keep _), rfl⟩
  | closes _ hc =>
    refine ⟨?_, hc.keys⟩
    cases hc with
    | clears => exact callers_keep _
    | _ => rfl
  | clears => exact ⟨callers_keep _, rfl⟩
  | sends | fails | stops | marks | finishes | leaves | readerMarks => exact ⟨rfl, rfl⟩
  | _ => cases hm

end Connection

/-- By its own moves the connection can come to its end, with the calls and the closers it has. -/
def Session.CanFinish (s : Session) : Prop :=
  ∃ ms s', (∀ m ∈ ms, m.own = true) ∧ s.run ms = some s' ∧ s'.connection.Done ∧
    s'.connection.callers.map Caller.key = s.connection.callers.map Caller.key ∧
    s'.connection.closers.map Closer.key = s.connection.closers.map Closer.key

open Connection

theorem Session.canFinish_of_free {s : Session} (hr : Regular s.connection)
    (hd : s.connection.Doomed) (hfree : ¬s.connection.Hindered) : s.CanFinish := by
  -- by induction on how many moves are left
  generalize hn : s.connection.left = n
  induction n using Nat.strongRecOn generalizing s with
  | ind n ih =>
    by_cases hspent : s.connection.Spent
    · rcases hr.stalled hd hspent with hdone | ⟨hstalled, -⟩
      · exact ⟨[], s, by simp, rfl, hdone, rfl, rfl⟩
      · exact absurd (hstalled.hindered hr) hfree
    · obtain ⟨m, hm, c, hc⟩ : ∃ m : Move, m.ending = true ∧ ∃ c, s.connection.step m = some c := by
        simpa [Spent, Option.ne_none_iff_exists'] using hspent
      have hmoves := step_moves hc
      have hs : s.step m = some ⟨c, s.log ++ s.connection.events m c⟩ := by
        rw [Session.step, hc, Option.map_some]
      obtain ⟨ms, s', hall, hrun, hdone, hcallers, hclosers⟩ :=
        @ih _ (hn ▸ hmoves.left_lt hm hr hfree) ⟨c, _⟩ (hr.step hc) (lasting_doomed.move hc hd)
          (hmoves.free hm hfree) rfl
      refine ⟨m :: ms, s', List.forall_mem_cons.mpr ⟨Move.own_of_ending hm, hall⟩, ?_, hdone,
        hcallers.trans (hmoves.keys hm).1, hclosers.trans (hmoves.keys hm).2⟩
      rw [Session.run, hs, Option.bind_some, hrun]

end Switchboard.Redirect
