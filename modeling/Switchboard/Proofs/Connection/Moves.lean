import Switchboard.Proofs.Connection.Session

/-! What the moves are.

Each step that a call can take is one of `Advances`, each of somebody who closes the connection
one of `Closes`, and every move one of `Moves`: what has to be so before it, and the connection
after it (`step_moves`). What a move does to one part of the connection is read off from these
cases. -/
namespace Switchboard.Redirect.Connection
open Json

variable {c c' : Connection} {k : Caller} {m : Move} {es : List Event} {key : Nat}

/-! ### Looking calls up -/

theorem caller?_mem (h : c.caller? key = some k) : k ∈ c.callers ∧ k.key = key :=
  ⟨List.mem_of_find?_eq_some h, by simpa using List.find?_some h⟩

theorem caller?_map {f : Caller → Caller} (hf : ∀ k, (f k).key = k.key) (callers : List Caller) :
    (callers.map f).find? (fun k => k.key == key) =
      (callers.find? fun k => k.key == key).map f := by
  induction callers with
  | nil => rfl
  | cons k rest ih =>
    rw [List.map_cons, List.find?_cons, List.find?_cons, hf]
    cases k.key == key
    · exact ih
    · rfl

theorem update_caller? {f : Caller → Caller} (hf : ∀ k, (f k).key = k.key) (key : Nat) :
    (c.update key f).caller? key = (c.caller? key).map f := by
  unfold caller? update
  rw [caller?_map (fun k => by split <;> simp [hf])]
  cases h : c.callers.find? fun k => k.key == key with
  | none => rfl
  | some k =>
    have hk : k.key = key := by simpa using List.find?_some h
    simp [hk]

/-- What becomes of a call when the entries that do not stay are taken off. -/
def kept (c : Connection) (stays : Nat × Nat → Bool) (k : Caller) : Caller :=
  if c.pending.any fun p => p.2 == k.key && !stays p then { k with reply := .lost } else k

theorem keep_callers (stays : Nat × Nat → Bool) :
    (c.keep stays).callers = c.callers.map (c.kept stays) := rfl

@[simp] theorem kept_key (stays : Nat × Nat → Bool) : (c.kept stays k).key = k.key := by
  unfold kept
  split <;> rfl

@[simp] theorem kept_stage (stays : Nat × Nat → Bool) : (c.kept stays k).stage = k.stage := by
  unfold kept
  split <;> rfl

@[simp] theorem kept_method (stays : Nat × Nat → Bool) :
    (c.kept stays k).method = k.method := by
  unfold kept
  split <;> rfl

@[simp] theorem kept_arguments (stays : Nat × Nat → Bool) :
    (c.kept stays k).arguments = k.arguments := by
  unfold kept
  split <;> rfl

theorem keep_caller? (stays : Nat × Nat → Bool) :
    (c.keep stays).caller? key = (c.caller? key).map (c.kept stays) :=
  caller?_map (fun _ => kept_key stays) c.callers

theorem setStage_caller? {stage : Stage} :
    (c.setStage key stage).caller? key =
      (c.caller? key).map fun k => { k with stage := stage } := by
  have hf : ∀ k : Caller, ({ k with stage := stage } : Caller).key = k.key := fun _ => rfl
  exact update_caller? hf key

theorem finish_caller? {id : Nat} {result : Forwarded} :
    (c.finish key id result).caller? key =
      (c.caller? key).map fun k =>
        { c.kept (fun p => p.1 != id) k with stage := .returned result } := by
  rw [finish, setStage_caller?, forget, keep_caller?, Option.map_map]
  rfl

theorem list_setStage_caller? {id : Nat} {stage : Stage} (hk : c.caller? key = some k) :
    ((c.list key id).setStage key stage).caller? key =
      some { c.kept (fun p => p.1 != id) k with stage := stage } := by
  have hl : (c.list key id).caller? key = (c.forget id).caller? key := rfl
  rw [setStage_caller?, hl, forget, keep_caller?, hk]
  rfl

/-! ### One step of a call -/

/-- The result a call returns with when its reply has been given. -/
def resultOf (outcome : Outcome) : Forwarded := outcome.mapError .remote

/-- The steps of the call `k`, each with the connection after it and what is seen of it. -/
inductive Advances (c : Connection) (k : Caller) : Connection → List Event → Prop
  | refused (hs : k.stage = .entered) (hc : c.closed = true) :
      Advances c k (c.setStage k.key (.returned (.error .closed)))
        [.returned k.key none (.error .closed)]
  | admitted (hs : k.stage = .entered) (hc : c.closed = false) :
      Advances c k (c.setStage k.key .admitted) []
  | numbered (hs : k.stage = .admitted) :
      Advances c k
        { c.setStage k.key (.numbered c.nextId.toNat) with nextId := c.nextId + 1 }
        [.numbered k.key c.nextId.toNat]
  | listed {id : Nat} (hs : k.stage = .numbered id) :
      Advances c k ((c.list k.key id).setStage k.key (.listed id)) [.listed k.key id]
  | turnedBack {id : Nat} (hs : k.stage = .listed id) (hc : c.closed = true) :
      Advances c k (c.finish k.key id (.error .closed))
        [.returned k.key (some id) (.error .closed)]
  | ready {id : Nat} (hs : k.stage = .listed id) (hc : c.closed = false) :
      Advances c k (c.setStage k.key (.ready id)) []
  | unsent {id : Nat} (hs : k.stage = .ready id) (hw : c.writer = .finished) :
      Advances c k (c.finish k.key id (.error .closed))
        [.returned k.key (some id) (.error .closed)]
  | queued {id : Nat} (hs : k.stage = .ready id) (hw : c.writer ≠ .finished)
      (hq : c.queue.length < queueLimit) :
      Advances c k
        { c.setStage k.key (.waiting id) with queue := c.queue ++ [k.line id] }
        [.queued k.key id k.method k.arguments]
  | answered {id : Nat} {outcome : Outcome} (hs : k.stage = .waiting id)
      (hr : k.reply = .answered outcome) :
      Advances c k (c.finish k.key id (resultOf outcome))
        [.returned k.key (some id) (resultOf outcome)]
  | lost {id : Nat} (hs : k.stage = .waiting id) (hr : k.reply = .lost) :
      Advances c k (c.finish k.key id (.error .closed))
        [.returned k.key (some id) (.error .closed)]

/-- Whatever step a call takes is one of these. -/
theorem advance_cases (h : c.advance k = some c') : ∃ es, Advances c k c' es := by
  unfold advance at h
  split at h
  case h_1 hs =>
    split at h <;> cases h
    · rename_i hc
      exact ⟨_, .refused hs hc⟩
    · rename_i hc
      exact ⟨_, .admitted hs (Bool.eq_false_iff.mpr hc)⟩
  case h_2 hs =>
    cases h
    exact ⟨_, .numbered hs⟩
  case h_3 id hs =>
    cases h
    exact ⟨_, .listed hs⟩
  case h_4 id hs =>
    split at h <;> cases h
    · rename_i hc
      exact ⟨_, .turnedBack hs hc⟩
    · rename_i hc
      exact ⟨_, .ready hs (Bool.eq_false_iff.mpr hc)⟩
  case h_5 id hs =>
    split at h
    · rename_i hw
      cases h
      exact ⟨_, .unsent hs hw⟩
    · rename_i hw
      split at h <;> cases h
      rename_i hq
      exact ⟨_, .queued hs hw hq⟩
  case h_6 id hs =>
    split at h <;> cases h
    · rename_i result hr
      exact ⟨_, .answered hs hr⟩
    · rename_i e hr
      exact ⟨_, .answered hs hr⟩
    · rename_i hr
      exact ⟨_, .lost hs hr⟩
  case h_7 => cases h

theorem events_call {k' : Caller} (hk : c.caller? k.key = some k)
    (hk' : c'.caller? k.key = some k') :
    c.events (.call k.key) c' = callEvents k k'.stage := by simp only [events, hk, hk']

/-- What is seen of a call's step is what its new stage shows. -/
theorem Advances.seen (h : Advances c k c' es) (hk : c.caller? k.key = some k) :
    c.events (.call k.key) c' = es := by
  have hset (stage : Stage) : (c.setStage k.key stage).caller? k.key =
      some { k with stage := stage } := by rw [setStage_caller?, hk]; rfl
  have hfin (id : Nat) (result : Forwarded) : (c.finish k.key id result).caller? k.key =
      some { c.kept (fun p => p.1 != id) k with stage := .returned result } := by
    rw [finish_caller?, hk]; rfl
  cases h with
  | refused hs | admitted hs | numbered hs | ready hs | queued hs =>
    exact (events_call hk (hset _)).trans (by simp only [callEvents, hs, Stage.id?])
  | listed hs =>
    exact (events_call hk (list_setStage_caller? hk)).trans (by simp only [callEvents])
  | turnedBack hs | unsent hs | answered hs | lost hs =>
    exact (events_call hk (hfin ..)).trans (by simp only [callEvents, hs, Stage.id?])

theorem callStep_cases (h : c.callStep key = some c') :
    ∃ k, c.caller? key = some k ∧ Advances c k c' (c.events (.call key) c') := by
  obtain ⟨k, hk, ha⟩ := Option.bind_eq_some_iff.mp h
  obtain ⟨_, rfl⟩ := caller?_mem hk
  obtain ⟨es, hes⟩ := advance_cases ha
  exact ⟨k, hk, (hes.seen hk).symm ▸ hes⟩

/-! ### One step of somebody who closes the connection -/

/-- The steps of somebody who closes the connection. -/
inductive Closes (c : Connection) (k : Closer) : Connection → Prop
  | marks (hs : k.stage = .entered) : Closes c k (c.mark.setClosing k.key .marked)
  | clears (hs : k.stage = .marked) : Closes c k (c.clear.setClosing k.key .cleared)
  | waits (hs : k.stage = .cleared) (hw : k.waits = true) (ha : c.awaited = false) :
      Closes c k { c.setClosing k.key .waiting with awaited := true }
  | leaves (hs : k.stage = .cleared) (h : k.waits = true → c.awaited = true) :
      Closes c k (c.setClosing k.key .returned)
  | returns (hs : k.stage = .waiting) (hw : c.writer = .finished) :
      Closes c k (c.setClosing k.key .returned)

theorem closeStep_cases (h : c.closeStep key = some c') :
    ∃ k ∈ c.closers, k.key = key ∧ Closes c k c' := by
  unfold closeStep at h
  split at h
  · cases h
  · rename_i k hfind
    obtain rfl : k.key = key := by simpa using List.find?_some hfind
    refine ⟨k, List.mem_of_find?_eq_some hfind, rfl, ?_⟩
    split at h
    case h_1 hs =>
      cases h
      exact .marks hs
    case h_2 hs =>
      cases h
      exact .clears hs
    case h_3 hs =>
      split at h <;> cases h
      · rename_i hw
        simp only [Bool.and_eq_true, Bool.not_eq_true'] at hw
        exact .waits hs hw.1 hw.2
      · rename_i hw
        exact .leaves hs fun hwaits => by simpa [hwaits] using hw
    case h_4 hs =>
      split at h <;> cases h
      rename_i hw
      exact .returns hs hw
    case h_5 => cases h

/-! ### Every move -/

/-- The moves, each with what has to be so before it and with the connection after it. -/
inductive Moves (c : Connection) : Move → Connection → Prop
  | enters {key : Nat} {method : String} {arguments : List Raw}
      (hk : ∀ k ∈ c.callers, k.key ≠ key) :
      Moves c (.enter key method arguments) (c.enter key method arguments)
  | calls {k : Caller} {c' : Connection} {es : List Event} (hk : c.caller? k.key = some k)
      (h : Advances c k c' es) : Moves c (.call k.key) c'
  | abandons {key : Nat} : Moves c (.abandon key) (c.abandon key)
  | begins {key : Nat} {waits : Bool} (hk : ∀ k ∈ c.closers, k.key ≠ key) :
      Moves c (.beginClosing key waits) (c.beginClosing key waits)
  | closes {k : Closer} {c' : Connection} (hk : k ∈ c.closers) (h : Closes c k c') :
      Moves c (.close k.key) c'
  | releases : Moves c .release c.mark
  | takes {line : List Char} {queue : List (List Char)} (hw : c.writer = .idle)
      (hq : c.queue = line :: queue) :
      Moves c .takeLine { c with writer := .sending (line ++ ['\n']), queue }
  | sends {rest left : List Char} (hw : c.writer = .sending rest) (hb : c.broken = false)
      (hroom : c.outgoing.length < c.capacity.bytes)
      (hleft : left = rest.drop (c.capacity.bytes - c.outgoing.length)) :
      Moves c .sendMore { c with
        outgoing := c.outgoing ++ rest.take (c.capacity.bytes - c.outgoing.length)
        writer := if left.isEmpty then .idle else .sending left }
  | fails {rest : List Char} (hw : c.writer = .sending rest) (hb : c.broken = true) :
      Moves c .failSending { c with writer := .stopped }
  | stops (hw : c.writer = .idle) (hc : c.closed = true) :
      Moves c .stopWriter { c with writer := .stopped }
  | marks (hw : c.writer = .stopped) : Moves c .closeWriter { c.mark with writer := .closing }
  | finishes (hw : c.writer = .closing) :
      Moves c .closeWriter { c with writer := .finished, queue := [] }
  | reads {line : List Char} {rest : List UInt8} (hr : c.reader = .reading)
      (hi : incoming c.longestFrame c.ended c.received = .frame line rest) :
      Moves c .readFrame (deliver { c with received := rest } line).1
  | readsNoMore (hr : c.reader = .reading)
      (hi : incoming c.longestFrame c.ended c.received = .spoiled ∨
        incoming c.longestFrame c.ended c.received = .finished) :
      Moves c .readFrame { c with reader := .stopped }
  | leaves (hr : c.reader = .reading) (hc : c.closed = true) :
      Moves c .stopReader { c with reader := .stopped }
  | readerMarks (hr : c.reader = .stopped) :
      Moves c .closeReader { c.mark with reader := .clearing }
  | clears (hr : c.reader = .clearing) :
      Moves c .closeReader { c.clear with reader := .finished }
  | drains : Moves c .drain { c with outgoing := [] }
  | receives {bytes : List UInt8} (he : c.ended = false) :
      Moves c (.receive bytes) { c with received := c.received ++ bytes }
  | ignores {bytes : List UInt8} (he : c.ended = true) : Moves c (.receive bytes) c
  | ends : Moves c .finish { c with ended := true }
  | breaks : Moves c .break_ { c with broken := true }

theorem readFrame_moves {w : List Warning} (h : c.readFrame = some (c', w)) :
    Moves c .readFrame c' := by
  unfold readFrame at h
  split at h
  · rename_i hr
    split at h
    · rename_i line rest hi
      rw [show c' = (deliver { c with received := rest } line).1 from
        congrArg Prod.fst (Option.some.inj h).symm]
      exact .reads hr hi
    · rename_i hi
      cases h
      exact .readsNoMore hr (.inl hi)
    · rename_i hi
      cases h
      exact .readsNoMore hr (.inr hi)
    · cases h
  · cases h

theorem sendMore_moves (h : c.sendMore = some c') : Moves c .sendMore c' := by
  simp only [sendMore] at h
  split at h
  · rename_i hw
    split at h <;> cases h
    rename_i hroom
    simp only [Bool.or_eq_true, decide_eq_true_eq, not_or, Bool.not_eq_true] at hroom
    exact .sends hw hroom.1 (Nat.sub_ne_zero_iff_lt.mp hroom.2) rfl
  · cases h

/-- **Every move that can be made is one of these.** -/
theorem step_moves (h : c.step m = some c') : Moves c m c' := by
  cases m with
  | enter key method arguments =>
    simp only [step] at h
    split at h <;> cases h
    rename_i hk
    exact .enters fun k hm he => hk (List.any_eq_true.mpr ⟨k, hm, by simp [he]⟩)
  | call key =>
    obtain ⟨k, hk, ha⟩ := callStep_cases h
    obtain ⟨_, rfl⟩ := caller?_mem hk
    exact .calls hk ha
  | beginClosing key waits =>
    simp only [step] at h
    split at h <;> cases h
    rename_i hk
    exact .begins fun k hm he => hk (List.any_eq_true.mpr ⟨k, hm, by simp [he]⟩)
  | close key =>
    obtain ⟨k, hk, rfl, hc⟩ := closeStep_cases h
    exact .closes hk hc
  | takeLine =>
    simp only [step, takeLine] at h
    split at h <;> cases h
    rename_i hw hq
    exact .takes hw hq
  | sendMore => exact sendMore_moves h
  | failSending =>
    simp only [step, failSending] at h
    split at h
    · rename_i hw
      split at h <;> cases h
      rename_i hb
      exact .fails hw hb
    · cases h
  | stopWriter =>
    simp only [step, stopWriter, Bool.and_eq_true, decide_eq_true_eq] at h
    split at h <;> cases h
    rename_i hw
    exact .stops hw.1 hw.2
  | closeWriter =>
    simp only [step, closeWriter] at h
    split at h <;> cases h
    · rename_i hw
      exact .marks hw
    · rename_i hw
      exact .finishes hw
  | readFrame =>
    obtain ⟨⟨d, w⟩, hd, rfl⟩ := Option.map_eq_some_iff.mp h
    exact readFrame_moves hd
  | stopReader =>
    simp only [step, stopReader, Bool.and_eq_true, decide_eq_true_eq] at h
    split at h <;> cases h
    rename_i hr
    exact .leaves hr.1 hr.2
  | closeReader =>
    simp only [step, closeReader] at h
    split at h <;> cases h
    · rename_i hr
      exact .readerMarks hr
    · rename_i hr
      exact .clears hr
  | receive bytes =>
    cases h
    unfold receive
    split
    · exact .ignores ‹_›
    · rename_i he
      exact .receives (Bool.eq_false_iff.mpr he)
  | abandon key =>
    cases h
    exact .abandons
  | release =>
    cases h
    exact .releases
  | drain =>
    cases h
    exact .drains
  | finish =>
    cases h
    exact .ends
  | break_ =>
    cases h
    exact .breaks

theorem readFrame_frame {line : List Char} {rest : List UInt8}
    (hf : incoming c.longestFrame c.ended c.received = .frame line rest)
    (h : c.step .readFrame = some c') : c' = (deliver { c with received := rest } line).1 := by
  cases step_moves h with
  | reads _ hi =>
    cases hf.symm.trans hi
    rfl
  | readsNoMore _ hi => rcases hi with hi | hi <;> cases hf.symm.trans hi

/-! ### What is left alone -/

/-- Nothing changes but which calls there are and what is pending. -/
theorem abandon_frame (c : Connection) (key : Nat) : c.abandon key =
    { c with callers := (c.abandon key).callers, pending := (c.abandon key).pending } := by
  unfold abandon
  split
  · rfl
  · dsimp only
    split <;> rfl

/-- A frame changes nothing but the calls and their entries. -/
theorem deliver_only (c : Connection) (line : List Char) :
    ∃ callers pending, (c.deliver line).1 = { c with callers, pending } := by
  unfold deliver
  split
  · exact ⟨_, _, rfl⟩
  · exact ⟨_, _, rfl⟩
  · exact ⟨_, _, rfl⟩
  · unfold reply
    split <;> exact ⟨_, _, rfl⟩

end Switchboard.Redirect.Connection
