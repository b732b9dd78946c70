/-! Dialing: attempts to connect, until one succeeds or the time is up.

After an attempt that failed there is a pause, first of 25 ms and then each time twice
as long up to 250 ms, but never beyond the deadline. At the deadline an attempt is cut
off if it goes on; what it comes to just then still counts. So a dial that fails does
so at its deadline, and says what went wrong last. -/
namespace Switchboard.Redirect

def firstPauseMs : Nat := 25

def longestPauseMs : Nat := 250

/-- A dial between two attempts. -/
structure Pacing where
  timeoutMs : Nat
  deadline : Nat
  pauseMs : Nat := firstPauseMs
  /-- Time passes between attempts. -/
  pause_pos : 0 < pauseMs := by decide
  lastError : String := "no attempt made"
  deriving DecidableEq, Repr

namespace Pacing

def begin_ (now timeoutMs : Nat) : Pacing := { timeoutMs, deadline := now + timeoutMs }

/-- How long an attempt may take, zero when there is to be none. -/
def remaining (p : Pacing) (now : Nat) : Nat := p.deadline - now

/-- When the pause after an attempt that failed at `now` is over. -/
def resume (p : Pacing) (now : Nat) : Nat := now + min p.pauseMs (p.remaining now)

/-- The pacing after an attempt that failed. -/
def failed (p : Pacing) (error : String) : Pacing :=
  { p with
    pauseMs := min (p.pauseMs * 2) longestPauseMs
    pause_pos := by have := p.pause_pos; unfold longestPauseMs; omega
    lastError := error }

/-- The pacing after an attempt that was cut off. -/
def cutOff (p : Pacing) : Pacing := { p with lastError := "connect attempt did not complete" }

/-- Why the dial failed. -/
def reason (p : Pacing) : String :=
  "gave up after " ++ toString p.timeoutMs ++ "ms: " ++ p.lastError

end Pacing

/-! ### Turns -/

/-- What becomes of one attempt. -/
inductive Attempt (α : Type) where
  | succeeds (afterMs : Nat) (connection : α)
  | fails (afterMs : Nat) (error : String)
  | hangs

/-- An attempt that takes no time. -/
def Attempt.atOnce {α : Type} : Except String α → Attempt α
  | .ok connection => .succeeds 0 connection
  | .error e => .fails 0 e

/-- After a turn a dial is over, or it goes on at that time. -/
inductive Turn (α : Type) where
  | over (result : Except String α) (at_ : Nat)
  | again (p : Pacing) (at_ : Nat)

/-- The attempt that begins at `now`, and the pause after it if it fails. -/
def Pacing.turn {α : Type} (p : Pacing) (now : Nat) : Attempt α → Turn α
  | .succeeds afterMs connection =>
    if now + afterMs ≤ p.deadline then .over (.ok connection) (now + afterMs)
    else .over (.error p.cutOff.reason) p.deadline
  | .fails afterMs error =>
    if now + afterMs ≤ p.deadline then .again (p.failed error) (p.resume (now + afterMs))
    else .over (.error p.cutOff.reason) p.deadline
  | .hangs => .over (.error p.cutOff.reason) p.deadline

/-- A dial that goes on has made an attempt in time, and paused. -/
theorem Pacing.turn_again {α : Type} {p q : Pacing} {now at_ : Nat} {attempt : Attempt α}
    (h : p.turn now attempt = .again q at_) :
    ∃ afterMs error, attempt = .fails afterMs error ∧ now + afterMs ≤ p.deadline ∧
      q = p.failed error ∧ at_ = p.resume (now + afterMs) := by
  cases attempt with
  | succeeds afterMs connection =>
    rw [turn] at h
    split at h <;> cases h
  | fails afterMs error =>
    rw [turn] at h
    split at h
    · rename_i hle
      cases h
      exact ⟨afterMs, error, rfl, hle, rfl, rfl⟩
    · cases h
  | hangs => cases h

/-- It has less time left. -/
theorem Pacing.remaining_lt {α : Type} {p q : Pacing} {now at_ : Nat} {attempt : Attempt α}
    (hleft : p.remaining now ≠ 0) (h : p.turn now attempt = .again q at_) :
    q.remaining at_ < p.remaining now := by
  obtain ⟨afterMs, error, -, hle, rfl, rfl⟩ := turn_again h
  have hdeadline : (p.failed error).deadline = p.deadline := rfl
  have := p.pause_pos
  simp only [resume, remaining, hdeadline] at hleft ⊢
  omega

/-! ### A whole dial -/

/-- The connection, or the reason, with the time and the number of attempts made;
`attempt` says what becomes of each. -/
def dialFrom {α : Type} (attempt : Nat → Attempt α) (p : Pacing) (made now : Nat) :
    Except String α × Nat × Nat :=
  if p.remaining now = 0 then (.error p.reason, now, made)
  else
    match h : p.turn now (attempt made) with
    | .over result at_ => (result, at_, made + 1)
    | .again q at_ => dialFrom attempt q (made + 1) at_
termination_by p.remaining now
decreasing_by exact Pacing.remaining_lt ‹_› h

section
variable {α : Type} {attempt : Nat → Attempt α} {p : Pacing} {made now at_ : Nat}

theorem dialFrom_of_over {result : Except String α} (hleft : p.remaining now ≠ 0)
    (h : p.turn now (attempt made) = .over result at_) :
    dialFrom attempt p made now = (result, at_, made + 1) := by
  rw [dialFrom, if_neg hleft]
  split <;> simp_all

theorem dialFrom_of_again {q : Pacing} (hleft : p.remaining now ≠ 0)
    (h : p.turn now (attempt made) = .again q at_) :
    dialFrom attempt p made now = dialFrom attempt q (made + 1) at_ := by
  rw [dialFrom, if_neg hleft]
  split <;> simp_all

end

/-- A dial that begins at zero and may take `timeoutMs`. -/
def dialWithin {α : Type} (timeoutMs : Nat) (attempt : Nat → Attempt α) :
    Except String α × Nat × Nat :=
  dialFrom attempt (.begin_ 0 timeoutMs) 0 0

end Switchboard.Redirect
