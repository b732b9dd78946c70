import Switchboard.Proofs.Connection.Framing
import Switchboard.Proofs.Connection.Moves

/-! When the bytes of the endpoint arrive.

No move depends on bytes that arrive after it: what is done while they are missing is done in the
same way when they are there (`Session.step_later`). So every session is one in which all that the
endpoint sends has arrived before anything else happens (`Session.run_at_once`): how the stream was
cut and when its pieces came leaves no trace. -/
namespace Switchboard.Redirect

/-- The endpoint sends, or ends its sending. -/
def Move.arrives : Move → Bool
  | .receive _ => true
  | .finish => true
  | _ => false

/-- What the endpoint sends until it ends its sending. -/
def sentIn : List Move → List UInt8
  | [] => []
  | .receive bytes :: ms => bytes ++ sentIn ms
  | .finish :: _ => []
  | _ :: ms => sentIn ms

/-- Whether the endpoint ends its sending. -/
def endsIn : List Move → Bool
  | [] => false
  | .finish :: _ => true
  | _ :: ms => endsIn ms

/-- What is done besides the endpoint's sending. -/
def othersIn (ms : List Move) : List Move := ms.filter fun m => !m.arrives

/-- The lines that the reader has taken, in order. -/
def linesRead (log : List Event) : List (List Char) :=
  log.filterMap fun
    | .read line _ => some line
    | _ => none

@[simp] theorem linesRead_append (a b : List Event) :
    linesRead (a ++ b) = linesRead a ++ linesRead b := List.filterMap_append

namespace Connection

variable {c c' : Connection} {m : Move} {line : List Char}

/-- The connection with these bytes to be read. -/
def given (c : Connection) (received : List UInt8) (ended : Bool) : Connection :=
  { c with received, ended }

/-- The connection with what the endpoint sends later. -/
def later (c : Connection) (bytes : List UInt8) (ended : Bool) : Connection :=
  if c.ended then c else c.given (c.received ++ bytes) ended

/-! ### Whoever does not look at the bytes -/

section Given

variable (received : List UInt8) (ended : Bool)

-- `apply_ite` does not fire here: the two states decide the same condition by their own instances.
theorem if_map {α β : Type} {f : α → β} {p : Prop} {i j : Decidable p} {a b : Option α}
    {a' b' : Option β} (ha : a' = a.map f) (hb : b' = b.map f) :
    @ite _ p i a' b' = (@ite _ p j a b).map f := by
  by_cases h : p
  · rw [if_pos h, if_pos h, ha]
  · rw [if_neg h, if_neg h, hb]

theorem advance_given (k : Caller) :
    (c.given received ended).advance k = (c.advance k).map (·.given received ended) := by
  unfold advance
  split
  · exact if_map rfl rfl
  · rfl
  · rfl
  · exact if_map rfl rfl
  · exact if_map rfl (if_map rfl rfl)
  · split <;> rfl
  · rfl

/-- **Only the reader looks at the bytes to be read.** -/
theorem step_given (hm : m.arrives = false) (hr : m ≠ .readFrame) :
    (c.given received ended).step m = (c.step m).map (·.given received ended) := by
  cases m with
  | readFrame => exact absurd rfl hr
  | receive | finish => cases hm
  | call key =>
    show (c.callers.find? _).bind _ = ((c.callers.find? _).bind _).map _
    cases c.callers.find? fun k => k.key == key with
    | none => rfl
    | some k => exact advance_given received ended k
  | abandon key =>
    simp only [step, abandon, caller?, given]
    cases c.callers.find? fun k => k.key == key with
    | none => rfl
    | some k => cases hid : k.stage.id? <;> simp only [hid] <;> rfl
  | close key =>
    simp only [step, closeStep, given]
    split
    · rfl
    · split
      · rfl
      · rfl
      · exact if_map rfl rfl
      · exact if_map rfl rfl
      · rfl
  | takeLine =>
    simp only [step, takeLine, given]
    split <;> rfl
  | sendMore =>
    simp only [step, sendMore, given]
    split
    · exact if_map rfl rfl
    · rfl
  | failSending =>
    simp only [step, failSending, given]
    split
    · exact if_map rfl rfl
    · rfl
  | closeWriter =>
    simp only [step, closeWriter, given]
    split <;> rfl
  | closeReader =>
    simp only [step, closeReader, given]
    split <;> rfl
  | enter | beginClosing | stopWriter | stopReader => exact if_map rfl rfl
  | release | drain | break_ => rfl

theorem events_given (hr : m ≠ .readFrame) :
    (c.given received ended).events m (c'.given received ended) = c.events m c' := by
  cases m with
  | readFrame => exact absurd rfl hr
  | _ => rfl

theorem deliver_given (line : List Char) :
    (c.given received ended).deliver line =
      ((c.deliver line).1.given received ended, (c.deliver line).2) := by
  unfold deliver
  split
  · rfl
  · rfl
  · rfl
  · simp only [reply, given]
    split <;> rfl

end Given

/-- Nobody else takes bytes off. -/
theorem step_input (hm : m.arrives = false) (hr : m ≠ .readFrame) (h : c.step m = some c') :
    c'.received = c.received ∧ c'.ended = c.ended := by
  have hgiven := step_given (c := c) c.received c.ended hm hr
  rw [show c.given c.received c.ended = c from rfl, h, Option.map_some] at hgiven
  rw [Option.some.inj hgiven]
  exact ⟨rfl, rfl⟩

theorem events_unread (hr : m ≠ .readFrame) : linesRead (c.events m c') = [] := by
  cases m with
  | readFrame => exact absurd rfl hr
  | call key =>
    simp only [events]
    split
    · rename_i k k' _ _
      cases hs : k'.stage <;> simp [callEvents, linesRead]
    · rfl
  | abandon key => cases h : c.caller? key <;> simp [events, h, linesRead]
  | takeLine => cases h : c.queue.head? <;> simp [events, h, linesRead]
  | _ => rfl

theorem deliver_received (line : List Char) : (c.deliver line).1.received = c.received := by
  obtain ⟨_, _, hd⟩ := c.deliver_only line
  rw [hd]

/-! ### The reader -/

/-- What a look at the bytes leaves behind, and the line that the reader takes, if it takes one. -/
inductive Looks (c : Connection) : Connection → List (List Char) → Prop
  | frame {line : List Char} {rest : List UInt8}
      (hi : incoming c.longestFrame c.ended c.received = .frame line rest) :
      Looks c (deliver { c with received := rest } line).1 [line]
  | stops (hi : incoming c.longestFrame c.ended c.received = .spoiled ∨
      incoming c.longestFrame c.ended c.received = .finished) :
      Looks c { c with reader := .stopped } []

theorem readFrame_looks (h : c.step .readFrame = some c') :
    c.reader = .reading ∧ Looks c c' (linesRead (c.events .readFrame c')) := by
  cases step_moves h with
  | reads hr hi =>
    simp only [events, hi]
    exact ⟨hr, .frame hi⟩
  | readsNoMore hr hi =>
    refine ⟨hr, ?_⟩
    rcases hi with hi | hi <;> simp only [events, hi]
    · exact .stops (.inl hi)
    · exact .stops (.inr hi)

theorem step_of_frame {rest : List UInt8} (hr : c.reader = .reading)
    (hi : incoming c.longestFrame c.ended c.received = .frame line rest) :
    c.step .readFrame = some (deliver { c with received := rest } line).1 := by
  rw [Connection.step, readFrame, if_pos hr, hi]
  rfl

theorem step_of_stop (hr : c.reader = .reading)
    (hi : incoming c.longestFrame c.ended c.received = .spoiled ∨
      incoming c.longestFrame c.ended c.received = .finished) :
    c.step .readFrame = some { c with reader := .stopped } := by
  rw [Connection.step, readFrame, if_pos hr]
  rcases hi with hi | hi <;> rw [hi] <;> rfl

theorem step_ended (hm : m.arrives = false) (h : c.step m = some c') : c'.ended = c.ended := by
  by_cases hr : m = .readFrame
  · subst hr
    obtain ⟨-, hl⟩ := readFrame_looks h
    generalize linesRead _ = lines at hl
    cases hl with
    | @frame line rest =>
      obtain ⟨_, _, hd⟩ := deliver_only { c with received := rest } line
      rw [hd]
    | stops => rfl
  · exact (step_input hm hr h).2

/-! ### What arrives later -/

theorem later_ended (he : c.ended = true) (bytes : List UInt8) (ended : Bool) :
    c.later bytes ended = c := if_pos he

theorem later_given (he : c.ended = false) (bytes : List UInt8) (ended : Bool) :
    c.later bytes ended = c.given (c.received ++ bytes) ended := if_neg (by simp [he])

theorem readFrame_later (he : c.ended = false) (h : c.step .readFrame = some c')
    (bytes : List UInt8) (ended : Bool) :
    (c.given (c.received ++ bytes) ended).step .readFrame =
        some (c'.given (c'.received ++ bytes) ended) ∧
      (c.given (c.received ++ bytes) ended).events .readFrame
        (c'.given (c'.received ++ bytes) ended) = c.events .readFrame c' := by
  obtain ⟨hr, hlooks⟩ := readFrame_looks h
  generalize linesRead _ = lines at hlooks
  cases hlooks with
  | @frame line rest hi =>
    have hi' : incoming c.longestFrame ended (c.received ++ bytes) = .frame line (rest ++ bytes) :=
      incoming_frame_later (he ▸ hi) bytes ended
    constructor
    · rw [step_of_frame (c := c.given (c.received ++ bytes) ended) hr hi', deliver_received]
      exact congrArg (fun p => some p.1) (deliver_given (c := { c with received := rest }) _ _ line)
    · simp only [events, given, hi, hi']
      rfl
  | stops hi =>
    rw [he] at hi
    rcases hi with hi | hi
    · have hi' := incoming_spoiled_later hi bytes ended
      constructor
      · exact step_of_stop hr (.inl hi')
      · simp only [events, given, he, hi, hi']
    · have ht := incoming_takes c.longestFrame false c.received
      rw [hi] at ht
      cases ht with
      | finished _ he => cases he

theorem step_later (hm : m.arrives = false) (h : c.step m = some c') (bytes : List UInt8)
    (ended : Bool) :
    (c.later bytes ended).step m = some (c'.later bytes ended) ∧
      (c.later bytes ended).events m (c'.later bytes ended) = c.events m c' := by
  have hended := step_ended hm h
  cases he : c.ended with
  | true =>
    rw [later_ended he, later_ended (hended.trans he)]
    exact ⟨h, rfl⟩
  | false =>
    rw [later_given he, later_given (hended.trans he)]
    by_cases hr : m = .readFrame
    · subst hr
      exact readFrame_later he h bytes ended
    · rw [step_given _ _ hm hr, h, (step_input hm hr h).1, events_given _ _ hr]
      exact ⟨rfl, rfl⟩

theorem receive_later (c : Connection) (bytes more : List UInt8) (ended : Bool) :
    (c.receive bytes).later more ended = c.later (bytes ++ more) ended := by
  cases he : c.ended with
  | true =>
    rw [receive, if_pos he, later_ended he, later_ended he]
  | false =>
    have hreceived : ({ c with received := c.received ++ bytes } : Connection).ended = false := he
    rw [receive, if_neg (by simp [he]), later_given hreceived, later_given he, ← List.append_assoc]
    rfl

theorem finish_later (c : Connection) (more : List UInt8) (ended : Bool) :
    ({ c with ended := true } : Connection).later more ended = c.later [] true := by
  cases he : c.ended with
  | true =>
    rw [later_ended rfl, later_ended he]
    cases c
    cases he
    rfl
  | false =>
    rw [later_ended rfl, later_given he, List.append_nil]
    rfl

theorem later_nil (c : Connection) : c.later [] false = c := by
  cases he : c.ended with
  | true => exact later_ended he ..
  | false =>
    rw [later_given he, List.append_nil]
    cases c
    cases he
    rfl

end Connection

namespace Session

def later (s : Session) (bytes : List UInt8) (ended : Bool) : Session :=
  { s with connection := s.connection.later bytes ended }

variable {s s' : Session} {m : Move} {ms : List Move}

/-- **A move is made in the same way when what arrives later is there already.** -/
theorem step_later (hm : m.arrives = false) (h : s.step m = some s') (bytes : List UInt8)
    (ended : Bool) : (s.later bytes ended).step m = some (s'.later bytes ended) := by
  obtain ⟨hstep, hlog⟩ := step_eq_some h
  obtain ⟨hlater, hevents⟩ := Connection.step_later hm hstep bytes ended
  simp only [step, later, hlater, hevents, hlog, Option.map_some]

theorem arrival_later (hm : m.arrives = true) (h : s.step m = some s') (ms : List Move) :
    s'.later (sentIn ms) (endsIn ms) = s.later (sentIn (m :: ms)) (endsIn (m :: ms)) := by
  obtain ⟨c', log⟩ := s'
  obtain ⟨hstep, hlog⟩ := step_eq_some h
  dsimp only at hstep hlog
  subst hlog
  cases m with
  | receive bytes =>
    obtain rfl : s.connection.receive bytes = c' := Option.some.inj hstep
    simp only [later, Connection.events, List.append_nil, Connection.receive_later]
    rfl
  | finish =>
    obtain rfl : { s.connection with ended := true } = c' := Option.some.inj hstep
    simp only [later, Connection.events, List.append_nil, Connection.finish_later]
    rfl
  | _ => cases hm

theorem sentIn_other (hm : m.arrives = false) (ms : List Move) :
    sentIn (m :: ms) = sentIn ms ∧ endsIn (m :: ms) = endsIn ms := by
  cases m with
  | receive | finish => cases hm
  | _ => exact ⟨rfl, rfl⟩

/-- **A session is the one in which all that the endpoint sends arrives before anything else.** -/
theorem run_at_once (h : s.run ms = some s') :
    (s.later (sentIn ms) (endsIn ms)).run (othersIn ms) = some s' := by
  induction ms generalizing s with
  | nil =>
    cases h
    rw [later, sentIn, endsIn, Connection.later_nil]
    rfl
  | cons m ms ih =>
    obtain ⟨t, ht, hr⟩ := Option.bind_eq_some_iff.mp h
    have hrest := ih hr
    cases hm : m.arrives with
    | true =>
      rw [othersIn, List.filter_cons_of_neg (by simp [hm]), ← arrival_later hm ht]
      exact hrest
    | false =>
      rw [othersIn, List.filter_cons_of_pos (by simp [hm]), (sentIn_other hm ms).1,
        (sentIn_other hm ms).2, run, step_later hm ht]
      exact hrest

end Session
end Switchboard.Redirect
