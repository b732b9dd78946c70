import Switchboard.Proofs.Connection.Arrivals
import Switchboard.Proofs.Connection.Working

/-! What the reader makes of the stream.

As long as nobody closes the connection and no line is given up, the lines that the reader has taken
are the first frames of the stream, it has stopped only when there can be no more of them, and only
then the connection is closed (`Reads`). Bytes that arrive are no concern of the induction over the
moves, since all of them might have arrived at once. By itself the reader comes to rest
(`Reads.comesToRest`), and then it has taken all frames there are (`Reads.at_rest`). -/
namespace Switchboard.Redirect
open Json

/-- Somebody closes the connection, or a line is given up. -/
def Move.disturbs : Move → Bool
  | .beginClosing .. => true
  | .close _ => true
  | .release => true
  | .failSending => true
  | _ => false

namespace Connection

variable {c c' : Connection} {m : Move}

/-! ### One move -/

/-- What an undisturbed move but the reader's look at the bytes does to the mark, to the reader and
to the writer. -/
inductive Goes (c c' : Connection) : Prop
  | on (hc : c'.closed = c.closed) (hr : c'.reader = c.reader)
      (hw : c'.writer = .stopped → c.writer = .stopped ∨ c.closed = true)
  | writerMarks (hw : c.writer = .stopped) (hr : c'.reader = c.reader) (hw' : c'.writer = .closing)
  | leaves (hc : c.closed = true) (hr : c.reader = .reading)
  | readerMarks (hr : c.reader = .stopped) (hc : c'.closed = true) (hr' : c'.reader = .clearing)
  | clears (hr : c.reader = .clearing) (hc : c'.closed = c.closed) (hr' : c'.reader = .finished)
      (hw : c'.writer = c.writer)

theorem step_goes (hm : m.arrives = false) (hd : m.disturbs = false) (hr : m ≠ .readFrame)
    (h : c.step m = some c') : c'.longestFrame = c.longestFrame ∧ Goes c c' := by
  cases step_moves h with
  | calls _ ha => cases ha <;> exact ⟨rfl, .on rfl rfl .inl⟩
  | abandons =>
    rw [abandon_frame]
    exact ⟨rfl, .on rfl rfl .inl⟩
  | enters | drains | breaks => exact ⟨rfl, .on rfl rfl .inl⟩
  | takes | finishes => exact ⟨rfl, .on rfl rfl fun hw => Writer.noConfusion hw⟩
  | sends =>
    refine ⟨rfl, .on rfl rfl fun hw => ?_⟩
    split at hw <;> cases hw
  | stops _ hc => exact ⟨rfl, .on rfl rfl fun _ => .inr hc⟩
  | marks hw => exact ⟨rfl, .writerMarks hw rfl rfl⟩
  | leaves hreading hc => exact ⟨rfl, .leaves hc hreading⟩
  | readerMarks hstopped => exact ⟨rfl, .readerMarks hstopped rfl rfl⟩
  | clears hclearing => exact ⟨rfl, .clears hclearing rfl rfl rfl⟩
  | reads | readsNoMore => exact absurd rfl hr
  | receives | ignores | ends => cases hm
  | begins | closes | releases | fails => cases hd

end Connection

open Connection

variable {longest : Nat} {capacity : Capacity} {bytes : List UInt8} {ended : Bool}
  {s s' : Session} {m : Move} {ms : List Move}

/-! ### Every move -/

/-- What holds of an undisturbed session on which these bytes have arrived. -/
structure Reads (longest : Nat) (bytes : List UInt8) (ended : Bool) (s : Session) : Prop where
  limit : s.connection.longestFrame = longest
  whole : s.connection.ended = ended
  parts : frames longest ended bytes =
    linesRead s.log ++ frames longest ended s.connection.received
  spoiled : Spoiled longest bytes ↔ Spoiled longest s.connection.received
  drained : s.connection.reader ≠ .reading →
    linesRead s.log = frames longest ended bytes ∧ (ended = true ∨ Spoiled longest bytes)
  closed : s.connection.closed = true →
    s.connection.reader = .clearing ∨ s.connection.reader = .finished
  writer : s.connection.writer = .stopped → s.connection.closed = true

theorem reads_opened (longest : Nat) (capacity : Capacity) (bytes : List UInt8) (ended : Bool) :
    Reads longest bytes ended ((Session.opened longest capacity).later bytes ended) where
  limit := rfl
  whole := rfl
  parts := rfl
  spoiled := Iff.rfl
  drained h := absurd rfl h
  closed := nofun
  writer := nofun

theorem Reads.stopped (h : Reads longest bytes ended s) (hc : s.connection.closed = true) :
    s.connection.reader ≠ .reading := by
  intro hr
  rcases h.closed hc with he | he <;> cases hr.symm.trans he

theorem Reads.looks {c' : Connection} {es : List Event} (h : Reads longest bytes ended s)
    (hr : s.connection.reader = .reading) (hl : Looks s.connection c' (linesRead es)) :
    Reads longest bytes ended ⟨c', s.log ++ es⟩ := by
  have hopen : s.connection.closed ≠ true := fun hc => h.stopped hc hr
  have ht := incoming_takes longest ended s.connection.received
  generalize hlines : linesRead es = lines at hl
  have hlog : linesRead (s.log ++ es) = linesRead s.log ++ lines := by
    rw [linesRead_append, hlines]
  cases hl with
  | @frame line rest hi =>
    rw [h.limit, h.whole] at hi
    rw [hi] at ht
    obtain ⟨_, _, hd⟩ := deliver_only { s.connection with received := rest } line
    rw [hd]
    cases ht with
    | frame hf hs =>
      exact {
        limit := h.limit
        whole := h.whole
        parts := by rw [hlog, h.parts, hf, List.append_assoc, List.singleton_append]
        spoiled := h.spoiled.trans hs
        drained := fun he => absurd hr he
        closed := fun hc => absurd hc hopen
        writer := fun hw => absurd (h.writer hw) hopen }
  | stops hi =>
    rw [h.limit, h.whole] at hi
    have hover : frames longest ended s.connection.received = [] ∧
        (ended = true ∨ Spoiled longest s.connection.received) := by
      rcases hi with hi | hi
      · rw [hi] at ht
        cases ht with
        | spoiled hf hs => exact ⟨hf, hs⟩
      · rw [hi] at ht
        cases ht with
        | finished hf he => exact ⟨hf, .inl he⟩
    rw [List.append_nil] at hlog
    exact {
      limit := h.limit
      whole := h.whole
      parts := by rw [hlog, h.parts]
      spoiled := h.spoiled
      drained := fun _ => by
        rw [hlog, h.parts, hover.1, List.append_nil]
        exact ⟨rfl, hover.2.imp_right h.spoiled.mpr⟩
      closed := fun hc => absurd hc hopen
      writer := h.writer }

theorem Reads.step (h : Reads longest bytes ended s) (ha : m.arrives = false)
    (hd : m.disturbs = false) (hs : s.step m = some s') : Reads longest bytes ended s' := by
  obtain ⟨c', log⟩ := s'
  obtain ⟨hstep, hlog⟩ := Session.step_eq_some hs
  dsimp only at hstep hlog
  subst hlog
  by_cases hr : m = .readFrame
  · subst hr
    obtain ⟨hreading, hl⟩ := readFrame_looks hstep
    exact h.looks hreading hl
  obtain ⟨hlimit, hgoes⟩ := step_goes ha hd hr hstep
  obtain ⟨hreceived, hended⟩ := step_input ha hr hstep
  have hlines : linesRead (s.log ++ s.connection.events m c') = linesRead s.log := by
    rw [linesRead_append, events_unread hr, List.append_nil]
  have hkept (hover : c'.reader ≠ .reading → s.connection.reader ≠ .reading)
      (hclosed : c'.closed = true → c'.reader = .clearing ∨ c'.reader = .finished)
      (hwriter : c'.writer = .stopped → c'.closed = true) :
      Reads longest bytes ended ⟨c', s.log ++ s.connection.events m c'⟩ := {
    limit := hlimit.trans h.limit
    whole := hended.trans h.whole
    parts := by rw [hlines, hreceived, h.parts]
    spoiled := by rw [hreceived, h.spoiled]
    drained := fun hr => by rw [hlines]; exact h.drained (hover hr)
    closed := hclosed
    writer := hwriter }
  cases hgoes with
  | on hc hr hw =>
    refine hkept (fun h => hr ▸ h) (fun he => hr ▸ h.closed (hc ▸ he)) fun hs => ?_
    rw [hc]
    exact (hw hs).elim h.writer id
  | writerMarks hw hr hw' =>
    refine hkept (fun h => hr ▸ h) (fun _ => hr ▸ h.closed (h.writer hw)) fun hs => ?_
    cases hs.symm.trans hw'
  | leaves hc hr => exact absurd hr (h.stopped hc)
  | readerMarks hr hc hr' => exact hkept (fun _ => by simp [hr]) (fun _ => .inl hr') fun _ => hc
  | clears hr hc hr' hw =>
    refine hkept (fun _ => by simp [hr]) (fun _ => .inr hr') fun hs => ?_
    rw [hc]
    exact h.writer (hw ▸ hs)

theorem Reads.run (h : Reads longest bytes ended s)
    (hms : ∀ m ∈ ms, m.arrives = false ∧ m.disturbs = false) (hrun : s.run ms = some s') :
    Reads longest bytes ended s' :=
  Session.run_preserves (fun _ _ m hm ht hs => ht.step (hms m hm).1 (hms m hm).2 hs) hrun h

theorem reads_of_run (h : (Session.opened longest capacity).run ms = some s)
    (hd : ∀ m ∈ ms, m.disturbs = false) : Reads longest (sentIn ms) (endsIn ms) s := by
  refine (reads_opened ..).run (fun m hm => ?_) (Session.run_at_once h)
  obtain ⟨hmem, harrives⟩ := List.mem_filter.mp hm
  exact ⟨by simpa using harrives, hd m hmem⟩

/-- The frames that these moves bring. -/
def framesIn (longest : Nat) (ms : List Move) : List (List Char) :=
  frames longest (endsIn ms) (sentIn ms)

/-- No frame can follow these moves. -/
def OverIn (longest : Nat) (ms : List Move) : Prop :=
  endsIn ms = true ∨ Spoiled longest (sentIn ms)

/-! ### The end of reading -/

/-- The move is one of the reader. -/
def Move.reads : Move → Bool
  | .readFrame => true
  | .stopReader => true
  | .closeReader => true
  | _ => false

theorem Move.quiet_of_reads (h : m.reads = true) : m.arrives = false ∧ m.disturbs = false := by
  cases m <;> first | exact ⟨rfl, rfl⟩ | cases h

/-- The reader can take no step. -/
structure Connection.ReaderRests (c : Connection) : Prop where
  readFrame : c.step .readFrame = none
  stopReader : c.step .stopReader = none
  closeReader : c.step .closeReader = none

/-- A reader at rest waits for more, or has finished. -/
theorem Connection.ReaderRests.cases {c : Connection} (h : c.ReaderRests) :
    c.reader = .reading ∧ incoming c.longestFrame c.ended c.received = .more ∨
      c.reader = .finished := by
  cases hr : c.reader with
  | reading =>
    have hnone := h.readFrame
    cases hi : incoming c.longestFrame c.ended c.received with
    | frame line rest => cases hnone.symm.trans (step_of_frame hr hi)
    | spoiled => cases hnone.symm.trans (step_of_stop hr (.inl hi))
    | finished => cases hnone.symm.trans (step_of_stop hr (.inr hi))
    | more => exact .inl ⟨rfl, rfl⟩
  | finished => exact .inr rfl
  | stopped | clearing =>
    have hnone := h.closeReader
    simp only [Connection.step, Connection.closeReader, hr] at hnone
    cases hnone

theorem Connection.readerRests_of_finished {c : Connection} (hr : c.reader = .finished) :
    c.ReaderRests where
  readFrame := by simp [Connection.step, readFrame, hr]
  stopReader := by simp [Connection.step, stopReader, hr]
  closeReader := by simp [Connection.step, closeReader, hr]

/-- **A reader at rest has taken all frames, and the connection is closed exactly when there can be
no more of them.** -/
theorem Reads.at_rest (h : Reads longest bytes ended s) (hs : Sound s.connection)
    (hrest : s.connection.ReaderRests) :
    linesRead s.log = frames longest ended bytes ∧
      (s.connection.closed = true ↔ ended = true ∨ Spoiled longest bytes) := by
  rcases hrest.cases with ⟨hr, hi⟩ | hr
  · have hopen : s.connection.closed ≠ true := fun hc => h.stopped hc hr
    have ht := incoming_takes longest ended s.connection.received
    rw [h.limit, h.whole] at hi
    rw [hi] at ht
    cases ht with
    | more hf he hs =>
      refine ⟨by rw [h.parts, hf, List.append_nil], iff_of_false hopen ?_⟩
      simp [he, h.spoiled, hs]
  · have hover := h.drained (by simp [hr])
    exact ⟨hover.1, iff_of_true (hs.shut.marked (.inr hr)) hover.2⟩

/-- The reader comes to rest. -/
def Session.ComesToRest (s : Session) : Prop :=
  ∃ rs s', (∀ m ∈ rs, m.reads = true) ∧ s.run rs = some s' ∧ s'.connection.ReaderRests

theorem Session.ComesToRest.of_step {m : Move} (hm : m.reads = true) (hs : s.step m = some s')
    (h : s'.ComesToRest) : s.ComesToRest := by
  obtain ⟨rs, t, hrs, hrun, hrest⟩ := h
  exact ⟨m :: rs, t, List.forall_mem_cons.mpr ⟨hm, hrs⟩, by rw [Session.run, hs]; exact hrun, hrest⟩

theorem comesToRest_of_stopped (h : Sound s.connection) (hr : s.connection.reader ≠ .reading) :
    s.ComesToRest := by
  have hends : Ends s := by
    cases he : s.connection.reader with
    | reading => exact absurd he hr
    | stopped => exact ends_of_stopped h he
    | clearing => exact ends_of_clearing h he
    | finished => exact ends_of_finished h he
  obtain ⟨rs, t, hrs, hrun, hf, -⟩ := hends
  refine ⟨rs, t, fun m hm => ?_, hrun, readerRests_of_finished hf⟩
  rcases hrs m hm with rfl | rfl <;> rfl

/-- **By itself the reader takes all the frames there are.** -/
theorem Reads.comesToRest (h : Reads longest bytes ended s) (hs : Sound s.connection) :
    s.ComesToRest := by
  -- by induction on how many frames are left
  generalize hn : (frames longest ended s.connection.received).length = n
  induction n using Nat.strongRecOn generalizing s with
  | ind n ih =>
  by_cases hr : s.connection.reader = .reading
  · have hlook {c : Connection} (hc : s.connection.step .readFrame = some c) :
        s.step .readFrame = some ⟨c, s.log ++ s.connection.events .readFrame c⟩ := by
      rw [Session.step, hc, Option.map_some]
    have hstops (hi : incoming s.connection.longestFrame s.connection.ended s.connection.received =
        .spoiled ∨ incoming s.connection.longestFrame s.connection.ended s.connection.received =
          .finished) : s.ComesToRest := by
      have hstep := step_of_stop hr hi
      exact (comesToRest_of_stopped (hs.step hstep) (by simp)).of_step rfl (hlook hstep)
    cases hi : incoming s.connection.longestFrame s.connection.ended s.connection.received with
    | frame line rest =>
      have hstep := step_of_frame hr hi
      have ht := incoming_takes longest ended s.connection.received
      rw [← h.limit, ← h.whole, hi, h.limit, h.whole] at ht
      cases ht with
      | frame hf =>
        have hfewer : (frames longest ended
            (deliver { s.connection with received := rest } line).1.received).length < n := by
          rw [deliver_received, ← hn, hf]
          exact Nat.lt_succ_self _
        have hrest := ih _ hfewer (h.step rfl rfl (hlook hstep)) (hs.step hstep) rfl
        exact hrest.of_step rfl (hlook hstep)
    | spoiled => exact hstops (.inl hi)
    | finished => exact hstops (.inr hi)
    | more =>
      have hopen : s.connection.closed ≠ true := fun hc => h.stopped hc hr
      refine ⟨[], s, by simp, rfl, ?_, ?_, ?_⟩
      · simp [Connection.step, readFrame, hr, hi]
      · simp [Connection.step, stopReader, hopen]
      · simp [Connection.step, closeReader, hr]
  · exact comesToRest_of_stopped hs hr

end Switchboard.Redirect
