import Switchboard.Proofs.Connection.Pending

/-! What closing leaves behind.

A connection is marked closed before its pending entries are cleared, and a call looks
whether it is closed after it has entered itself. So from the moment the reader has
finished, no call that counts on a reply can be without one: those that were entered
before the clearing were told, and those entered after it turn back (`Shut`). -/
namespace Switchboard.Redirect
open Json

/-- The call counts on a reply that has not come. -/
def Caller.Expects (k : Caller) : Prop :=
  (∃ id, k.stage = .ready id ∨ k.stage = .waiting id) ∧ k.reply = .open_

namespace Connection

structure Shut (c : Connection) : Prop where
  marked : c.reader = .clearing ∨ c.reader = .finished → c.closed = true
  settled : c.reader = .finished → ∀ k ∈ c.callers, ¬k.Expects

variable {c c' : Connection} {k k' : Caller} {key id : Nat}

/-! ### The mark and the reader -/

theorem Advances.marks {es : List Event} (h : Advances c k c' es) :
    c'.closed = c.closed ∧ c'.reader = c.reader := by
  cases h <;> exact ⟨rfl, rfl⟩

theorem advance_closed (h : c.advance k = some c') : c'.closed = c.closed := by
  obtain ⟨_, ha⟩ := advance_cases h
  exact ha.marks.1

/-- What a move can do to the mark and to the reader. -/
inductive Marks (c : Connection) (c' : Connection) : Prop
  | same (hc : c.closed = true → c'.closed = true) (hr : c'.reader = c.reader)
  | stopped (hc : c'.closed = c.closed) (hr : c'.reader = .stopped)
  | marked (hc : c'.closed = true) (hr : c'.reader = .clearing)
  | cleared (hc : c'.closed = c.closed) (h : c.reader = .clearing) (hr : c'.reader = .finished)
      (ha : Agrees c.clear c')

theorem step_marks {m : Move} (h : c.step m = some c') : Marks c c' := by
  cases step_moves h with
  | calls _ ha => exact .same ha.marks.1.trans ha.marks.2
  | abandons =>
    rw [abandon_frame]
    exact .same id rfl
  | closes _ hc =>
    cases hc with
    | marks => exact .same (fun _ => rfl) rfl
    | _ => exact .same id rfl
  | releases | marks => exact .same (fun _ => rfl) rfl
  | @reads line rest =>
    obtain ⟨_, _, hd⟩ := deliver_only { c with received := rest } line
    rw [hd]
    exact .same id rfl
  | readsNoMore | leaves => exact .stopped rfl rfl
  | readerMarks => exact .marked rfl rfl
  | clears hr => exact .cleared rfl hr rfl ⟨rfl, rfl, rfl⟩
  | _ => exact .same id rfl

/-- A connection that is marked closed stays so. -/
theorem step_closed {m : Move} (h : c.step m = some c') (hc : c.closed = true) :
    c'.closed = true := by
  cases step_marks h with
  | same hc' => exact hc' hc
  | stopped hc' => exact hc'.trans hc
  | marked hc' => exact hc'
  | cleared hc' => exact hc'.trans hc

/-! ### Calls that count on a reply -/

theorem expects_of_kept {stays : Nat × Nat → Bool} (h : (c.kept stays k).Expects) : k.Expects := by
  obtain ⟨⟨id, hs⟩, hr⟩ := h
  have hstays := stays_of_kept_open hr
  rw [kept_eq hstays] at hs hr
  exact ⟨⟨id, hs⟩, hr⟩

theorem Stage.expects_listed? {s : Stage} (h : s = .ready id ∨ s = .waiting id) :
    s.listed? = some id := by
  rcases h with rfl | rfl <;> rfl

/-- Somebody counts on a reply. -/
def Expecting (c : Connection) : Prop := ∃ k ∈ c.callers, k.Expects

theorem Expecting.congr (h : Expecting c') (hc : c'.callers = c.callers) : Expecting c := by
  obtain ⟨k, hk, he⟩ := h
  exact ⟨k, hc ▸ hk, he⟩

theorem expecting_of_keep {stays : Nat × Nat → Bool} (h : Expecting (c.keep stays)) :
    Expecting c := by
  obtain ⟨k', hk', he⟩ := h
  obtain ⟨k, hk, rfl⟩ := mem_keep hk'
  exact ⟨k, hk, expects_of_kept he⟩

/-- Only a call that comes to wait can add to those who count on a reply. -/
theorem expecting_of_setStage {stage : Stage}
    (hs : ∀ id, stage ≠ .ready id ∧ stage ≠ .waiting id) (h : Expecting (c.setStage key stage)) :
    Expecting c := by
  obtain ⟨k', hk', he⟩ := h
  obtain ⟨k, hk, ⟨_, rfl⟩ | ⟨_, rfl⟩⟩ := mem_update hk'
  · obtain ⟨⟨id, h | h⟩, _⟩ := he
    · exact absurd h (hs id).1
    · exact absurd h (hs id).2
  · exact ⟨k', hk, he⟩

theorem expecting_of_finish {result : Forwarded} (h : Expecting (c.finish key id result)) :
    Expecting c := expecting_of_keep (expecting_of_setStage (fun _ => by simp) h)

theorem expecting_of_drop
    (h : Expecting { c with callers := c.callers.filter fun k => k.key != key }) :
    Expecting c := by
  obtain ⟨k, hk, he⟩ := h
  exact ⟨k, (List.mem_filter.mp hk).1, he⟩

theorem expecting_of_abandon (h : Expecting (c.abandon key)) : Expecting c := by
  unfold abandon at h
  split at h
  · exact h
  · dsimp only at h
    split at h
    · exact expecting_of_keep (expecting_of_drop h)
    · exact expecting_of_drop h

theorem expecting_of_handOver {outcome : Outcome} (h : Expecting (c.handOver id key outcome)) :
    Expecting c := by
  obtain ⟨k', hk', he⟩ := h
  obtain ⟨k, hk, ⟨_, rfl⟩ | ⟨_, rfl⟩⟩ := mem_update hk'
  · cases he.2
  · exact expecting_of_keep ⟨k', hk, he⟩

theorem expecting_of_advances {es : List Event} (ht : Tied c) (hc : c.closed = true)
    (hk : c.caller? key = some k) (ha : Advances c k c' es) (h : Expecting c') : Expecting c := by
  obtain ⟨hm, rfl⟩ := caller?_mem hk
  cases ha with
  | refused => exact expecting_of_setStage (fun _ => by simp) h
  | admitted => exact expecting_of_setStage (fun _ => by simp) h
  | numbered =>
    have h : Expecting (c.setStage k.key (.numbered c.nextId.toNat)) := h
    exact expecting_of_setStage (fun _ => by simp) h
  | listed => exact expecting_of_keep (expecting_of_setStage (fun _ => by simp) h)
  | turnedBack => exact expecting_of_finish h
  | ready _ hopen => rw [hc] at hopen; cases hopen
  | unsent => exact expecting_of_finish h
  | queued hs =>
    obtain ⟨k', hk', he⟩ := h
    obtain ⟨k₁, hk₁, ⟨hkey, rfl⟩ | ⟨_, rfl⟩⟩ := mem_update hk'
    · cases ht.eq_of_key hk₁ hm hkey
      exact ⟨k, hm, ⟨_, .inl hs⟩, he.2⟩
    · exact ⟨k', hk₁, he⟩
  | answered => exact expecting_of_finish h
  | lost => exact expecting_of_finish h

/-- While the connection is closed, nobody begins to count on a reply. -/
theorem expecting_of_affects {m : Move} {es : List Event} (ht : Tied c) (hc : c.closed = true)
    (ha : Affects c m c' es) (h : Expecting c') : Expecting c := by
  cases ha with
  | entered =>
    obtain ⟨k, hk, he⟩ := h
    rcases List.mem_append.mp hk with hk | hk
    · exact ⟨k, hk, he⟩
    · cases List.mem_singleton.mp hk
      obtain ⟨⟨_, h | h⟩, _⟩ := he <;> cases h
  | advanced hk ha => exact expecting_of_advances ht hc hk ha h
  | abandoned => exact expecting_of_abandon h
  | answered _ _ ha => exact expecting_of_handOver (h.congr ha.callers)
  | cleared ha => exact expecting_of_keep (h.congr ha.callers)
  | others ha => exact h.congr ha.callers

/-- Who counts on a reply is pending. -/
theorem Tied.not_expecting (h : Tied c) (hp : c.pending = []) : ¬Expecting c := by
  rintro ⟨k, hk, ⟨id, hs⟩, hr⟩
  have := h.entry k hk id (Stage.expects_listed? hs) hr
  rw [hp] at this
  cases this

/-! ### Every session -/

theorem shut_opened (longestFrame : Nat) (capacity : Capacity) :
    Shut { longestFrame := longestFrame, capacity := capacity } where
  marked h := by rcases h with h | h <;> cases h
  settled _ _ hk := by cases hk

theorem Shut.step {m : Move} (h : Shut c) (ht : Tied c) (hm : c.step m = some c') : Shut c' := by
  cases step_marks hm with
  | same hc hr =>
    refine ⟨fun hr' => hc (h.marked (hr ▸ hr')), fun hf k hk he => ?_⟩
    rw [hr] at hf
    obtain ⟨k, hk, he⟩ := expecting_of_affects ht (h.marked (.inr hf)) (step_affects hm) ⟨k, hk, he⟩
    exact h.settled hf k hk he
  | stopped _ hr =>
    refine ⟨fun hr' => ?_, fun hf => ?_⟩
    · rcases hr' with hr' | hr' <;> rw [hr] at hr' <;> cases hr'
    · rw [hr] at hf
      cases hf
  | marked hc hr =>
    refine ⟨fun _ => hc, fun hf => ?_⟩
    rw [hr] at hf
    cases hf
  | cleared hc hr _ ha =>
    have hcleared : Tied c.clear := ht.keep _
    have hnone : c.clear.pending = [] := List.filter_eq_nil_iff.mpr fun _ _ h => by cases h
    refine ⟨fun _ => hc.trans (h.marked (.inl hr)), fun _ k hk he => ?_⟩
    exact hcleared.not_expecting hnone (Expecting.congr ⟨k, hk, he⟩ ha.callers)

/-- What holds of the calls of every session. -/
structure Sound (c : Connection) : Prop where
  tied : Tied c
  shut : Shut c

theorem Sound.step {m : Move} (h : Sound c) (hm : c.step m = some c') : Sound c' :=
  ⟨h.tied.step hm, h.shut.step h.tied hm⟩

theorem sound_of_run {longestFrame : Nat} {capacity : Capacity} {ms : List Move} {s : Session}
    (h : (Session.opened longestFrame capacity).run ms = some s) : Sound s.connection := by
  refine Session.run_preserves (P := fun s => Sound s.connection) ?_ h
    ⟨tied_opened .., shut_opened ..⟩
  intro s s' m _ hs hm
  exact hs.step (Session.step_eq_some hm).1

/-! ### The end of waiting -/

/-- What a call returns with when it is told of its reply; one that was lost is told that
the connection is closed. -/
def verdict : Reply → Forwarded
  | .answered outcome => resultOf outcome
  | _ => .error .closed

/-- A call whose reply has come, or cannot come any more, can return. -/
theorem waiting_returns {s : Session} (ht : Tied s.connection) (hk : k ∈ s.connection.callers)
    (hs : k.stage = .waiting id) (hr : k.reply ≠ .open_) :
    ∃ s', s.step (.call k.key) = some s' ∧
      s'.log = s.log ++ [.returned k.key (some id) (verdict k.reply)] := by
  have hlook := ht.caller?_eq hk
  obtain ⟨c', hc⟩ : ∃ c', s.connection.callStep k.key = some c' := by
    simp only [callStep, hlook, Option.bind_some, advance, hs]
    split
    · rename_i hopen
      exact absurd hopen hr
    all_goals exact ⟨_, rfl⟩
  refine ⟨⟨c', s.log ++ s.connection.events (.call k.key) c'⟩, ?_, ?_⟩
  · simp only [Session.step, Connection.step, hc, Option.map_some]
  · obtain ⟨k', hk', ha⟩ := callStep_cases hc
    cases hlook.symm.trans hk'
    generalize s.connection.events (.call k.key) c' = es at ha
    cases ha with
    | answered hs' hr' =>
      cases hs.symm.trans hs'
      rw [hr']
      rfl
    | lost hs' hr' =>
      cases hs.symm.trans hs'
      rw [hr']
      rfl
    -- no other step begins where a call waits
    | _ hs' => cases hs.symm.trans hs'

/-- The reader can go on to its end and takes no frame on the way. What a call was answered
before stays; a call that was not answered is told. -/
def Ends (s : Session) : Prop :=
  ∃ ends s', (∀ m ∈ ends, m = .stopReader ∨ m = .closeReader) ∧ s.run ends = some s' ∧
    s'.connection.reader = .finished ∧
    ∀ k ∈ s.connection.callers, ∀ id, k.stage = .waiting id →
      ∃ k' ∈ s'.connection.callers, k'.key = k.key ∧ k'.stage = .waiting id ∧
        k'.reply ≠ .open_ ∧ verdict k'.reply = verdict k.reply

theorem Ends.of_step {s t : Session} {m : Move} (hm : m = .stopReader ∨ m = .closeReader)
    (hs : s.step m = some t) (hc : t.connection.callers = s.connection.callers) (h : Ends t) :
    Ends s := by
  obtain ⟨ends, s', he, hr, hf, hk⟩ := h
  refine ⟨m :: ends, s', ?_, ?_, hf, hc ▸ hk⟩
  · exact List.forall_mem_cons.mpr ⟨hm, he⟩
  · simp only [Session.run, hs, Option.bind_some, hr]

theorem ends_of_finished {s : Session} (h : Sound s.connection)
    (hr : s.connection.reader = .finished) : Ends s := by
  refine ⟨[], s, by simp, rfl, hr, fun k hk id hs => ⟨k, hk, rfl, hs, ?_, rfl⟩⟩
  exact fun hopen => h.shut.settled hr k hk ⟨⟨id, .inr hs⟩, hopen⟩

/-- When the entries are cleared, a call that was not answered is told, and one that was
keeps its answer. -/
theorem Tied.told (h : Tied c) (hk : k ∈ c.callers) (hs : k.stage.listed? = some id) :
    (c.kept (fun _ => false) k).reply ≠ .open_ ∧
      verdict (c.kept (fun _ => false) k).reply = verdict k.reply := by
  by_cases hp : ∃ p ∈ c.pending, p.2 = k.key
  · obtain ⟨p, hp, hkey⟩ := hp
    have hany : (c.pending.any fun p => p.2 == k.key && !false) = true :=
      List.any_eq_true.mpr ⟨p, hp, by simp [hkey]⟩
    rw [kept, if_pos hany, (h.entry_eq hp hk hkey).2]
    exact ⟨fun hopen => Reply.noConfusion hopen, rfl⟩
  · rw [kept_eq fun p hm hkey => absurd ⟨p, hm, hkey⟩ hp]
    exact ⟨fun hopen => hp ⟨_, h.entry k hk id hs hopen, rfl⟩, rfl⟩

theorem ends_of_clearing {s : Session} (h : Sound s.connection)
    (hr : s.connection.reader = .clearing) : Ends s := by
  have hstep : s.step .closeReader =
      some ⟨{ s.connection.clear with reader := .finished }, s.log ++ []⟩ := by
    simp only [Session.step, Connection.step, closeReader, hr, Option.map_some, events]
  refine ⟨[.closeReader], ⟨{ s.connection.clear with reader := .finished }, s.log ++ []⟩,
    fun m hm => .inr (List.mem_singleton.mp hm), ?_, rfl, fun k hk id hs => ?_⟩
  · simp only [Session.run, hstep, Option.bind_some]
  · have hl : k.stage.listed? = some id := Stage.expects_listed? (.inr hs)
    exact ⟨s.connection.kept (fun _ => false) k, List.mem_map.mpr ⟨k, hk, rfl⟩, kept_key _,
      (kept_stage _).trans hs, h.tied.told hk hl⟩

theorem ends_of_stopped {s : Session} (h : Sound s.connection)
    (hr : s.connection.reader = .stopped) : Ends s := by
  have hstep : s.step .closeReader =
      some ⟨{ s.connection.mark with reader := .clearing }, s.log ++ []⟩ := by
    simp only [Session.step, Connection.step, closeReader, hr, Option.map_some, events]
  obtain ⟨hm, _⟩ := Session.step_eq_some hstep
  exact (ends_of_clearing (h.step hm) rfl).of_step (.inr rfl) hstep rfl

/-- Once the connection is closed, the reader can go on to its end. -/
theorem ends_of_closed {s : Session} (h : Sound s.connection) (hc : s.connection.closed = true) :
    Ends s := by
  cases hr : s.connection.reader with
  | finished => exact ends_of_finished h hr
  | clearing => exact ends_of_clearing h hr
  | stopped => exact ends_of_stopped h hr
  | reading =>
    have hstep : s.step .stopReader =
        some ⟨{ s.connection with reader := .stopped }, s.log ++ []⟩ := by
      simp only [Session.step, Connection.step, stopReader, hr, hc, decide_true, Bool.and_true,
        if_true, Option.map_some, events]
    obtain ⟨hm, _⟩ := Session.step_eq_some hstep
    exact (ends_of_stopped (h.step hm) rfl).of_step (.inl rfl) hstep rfl

/-- **No call is stranded when the connection closes, and no entry is left behind.** In every
session, an entry is that of a call that has entered itself and has neither returned nor been
given up; there is none when no call is under way. Once the connection is closed and the reader
has finished, no call waits with its entry in place. So after the connection has been closed
the reader can go on to its end, and then every call that waits returns with what it was
answered, or with the connection being closed. -/
theorem nobody_stranded {longestFrame : Nat} {capacity : Capacity} {ms : List Move} {s : Session}
    (h : (Session.opened longestFrame capacity).run ms = some s) :
    (∀ p ∈ s.connection.pending,
      ∃ k ∈ s.connection.callers, k.key = p.2 ∧ k.stage.listed? = some p.1) ∧
    ((∀ k ∈ s.connection.callers, ∃ r, k.stage = .returned r) → s.connection.pending = []) ∧
    (s.connection.closed = true → s.connection.reader = .finished →
      ∀ k ∈ s.connection.callers, ∀ id, k.stage = .waiting id →
        (id, k.key) ∉ s.connection.pending ∧
          ∃ s', s.step (.call k.key) = some s' ∧
            s'.log = s.log ++ [.returned k.key (some id) (verdict k.reply)]) ∧
    (s.connection.closed = true →
      ∃ ends s', (∀ m ∈ ends, m = .stopReader ∨ m = .closeReader) ∧ s.run ends = some s' ∧
        s'.connection.reader = .finished ∧
        ∀ k ∈ s.connection.callers, ∀ id, k.stage = .waiting id →
          ∃ s'', s'.step (.call k.key) = some s'' ∧
            s''.log = s'.log ++ [.returned k.key (some id) (verdict k.reply)]) := by
  have hsound := sound_of_run h
  refine ⟨fun p hp => ?_, fun hall => ?_, fun hc hr k hk id hs => ?_, fun hc => ?_⟩
  · obtain ⟨k, hk, hkey, hs, _⟩ := hsound.tied.caller p hp
    exact ⟨k, hk, hkey, hs⟩
  · refine List.eq_nil_iff_forall_not_mem.mpr fun p hp => ?_
    obtain ⟨k, hk, _, hs, _⟩ := hsound.tied.caller p hp
    obtain ⟨r, hret⟩ := hall k hk
    rw [hret] at hs
    cases hs
  · have hopen : k.reply ≠ .open_ := fun hopen =>
      hsound.shut.settled hr k hk ⟨⟨id, .inr hs⟩, hopen⟩
    exact ⟨fun hp => hopen (hsound.tied.entry_eq hp hk rfl).2,
      waiting_returns hsound.tied hk hs hopen⟩
  · obtain ⟨ends, s', he, hrun, hf, hk⟩ := ends_of_closed hsound hc
    refine ⟨ends, s', he, hrun, hf, fun k hm id hs => ?_⟩
    obtain ⟨k', hk', hkey, hs', hr', hv⟩ := hk k hm id hs
    have hsound' := sound_of_run (Session.run_append h hrun)
    rw [← hkey, ← hv]
    exact waiting_returns hsound'.tied hk' hs' hr'

/-- A call waits while the endpoint hangs up, until the reader has finished. -/
def hungUp : List Move :=
  [.enter 5 "arb_x" [], .call 5, .call 5, .call 5, .call 5, .call 5, .finish, .readFrame,
    .closeReader, .closeReader]

theorem hung_up_not_stranded :
    ∃ s, (Session.opened 64 64).run hungUp = some s ∧ s.connection.closed = true ∧
      s.connection.reader = .finished ∧
      ∃ k ∈ s.connection.callers, k.stage = .waiting 1 ∧ (1, k.key) ∉ s.connection.pending := by
  have hrun : (Session.opened 64 64).run hungUp = some _ := rfl
  exact ⟨_, hrun, rfl, rfl, _, List.mem_singleton.mpr rfl, rfl,
    ((nobody_stranded hrun).2.2.1 rfl rfl _ (List.mem_singleton.mpr rfl) 1 rfl).1⟩

end Connection
end Switchboard.Redirect
