import Switchboard.Probe.Script
import Switchboard.Proofs.Time.Trials

/-! How long the probe goes on checking.

It goes on as a dial does, but with pauses of one length (`pollFrom_paced`). So it ends with the
first attempt that succeeds in time, and otherwise just at the deadline (`poll_keeps_time`). From an
endpoint it learns in time what was answered before the deadline (`scripted_in_time`), and not what
was answered just then (`sent_at_deadline`). -/
namespace Switchboard.Probe
open Json

variable {p : Pace} {made now : Nat} {lastError : String}

/-- How an attempt ends when nobody cuts it off. -/
def Attempt.ending? : Attempt → Option (Nat × Except String Value)
  | .ends afterMs result => some (afterMs, result)
  | .hangs => none

/-- What checking comes to after these attempts, the first of which had the number `made`. -/
def comesTo (p : Pace) (made : Nat) (lastError : String) (trials : List (Trial Value)) :
    Outcome × Nat :=
  match trials.getLast? with
  | none => (.expired lastError made, p.deadlineMs)
  | some t =>
    match t.result? with
    | some (.ok result) => (.ready result (made + trials.length), t.ended)
    | some (.error e) => (.expired e (made + trials.length), p.deadlineMs)
    | none => (.expired "attempt timed out" (made + trials.length), p.deadlineMs)

/-- A failure is told when checking goes on after it. -/
theorem comesTo_cons {t : Trial Value} {e : String} (ht : t.result? = some (.error e))
    (trials : List (Trial Value)) :
    comesTo p made lastError (t :: trials) = comesTo p (made + 1) e trials := by
  cases trials with
  | nil =>
    simp only [comesTo, List.getLast?_singleton, ht, List.length_singleton, List.getLast?_nil]
  | cons u rest =>
    have hlast := List.getLast?_eq_some_getLast (List.cons_ne_nil u rest)
    have hlength : made + (rest.length + 1 + 1) = made + 1 + (rest.length + 1) := by omega
    simp only [comesTo, List.getLast?_cons_cons, hlast, List.length_cons, hlength]

/-- Checking, however far it is, makes its attempts as its pace says, and comes to what the last of
them came to. -/
theorem pollFrom_paced (p : Pace) (attempt : Nat → Nat → Attempt) (made now : Nat)
    (lastError : String) (hnow : now ≤ p.deadlineMs) :
    ∃ trials,
      Paced p.deadlineMs (fun _ => p.intervalMs) (fun k began => (attempt k began).ending?) made now
        trials ∧
      pollFrom p attempt made now lastError = comesTo p made lastError trials := by
  have cut {made now : Nat} {lastError : String} (hlate : ¬p.deadlineMs ≤ now)
      (ht : Trial.within p.deadlineMs now (attempt made now).ending? = ⟨now, p.deadlineMs, none⟩) :
      ∃ trials,
        Paced p.deadlineMs (fun _ => p.intervalMs) (fun k began => (attempt k began).ending?) made
          now trials ∧
        (.expired "attempt timed out" (made + 1), p.deadlineMs) =
          comesTo p made lastError trials :=
    ⟨[⟨now, p.deadlineMs, none⟩], .single (Nat.lt_of_not_le hlate) ht
      (Trial.not_failed_of_cutOff rfl), rfl⟩
  fun_induction pollFrom p attempt made now lastError with
  | case1 made now lastError hlate =>
    refine ⟨[], .nil hlate, ?_⟩
    rw [Nat.le_antisymm hnow hlate]
    rfl
  | case2 made now lastError hlate ha =>
    refine cut hlate ?_
    rw [ha]
    rfl
  | case3 made now lastError hlate afterMs result ha hlt =>
    refine cut hlate ?_
    rw [ha]
    exact Trial.within_of_lt hlt _
  | case4 made now lastError hlate afterMs hle v ha =>
    refine ⟨[⟨now, now + afterMs, some (.ok v)⟩], .single (Nat.lt_of_not_le hlate) ?_
      (Trial.not_failed_of_ok rfl), rfl⟩
    rw [ha]
    exact Trial.within_of_le (Nat.le_of_not_lt hle) _
  | case5 made now lastError hlate afterMs hle e ha ih =>
    obtain ⟨trials, hrest, he⟩ := ih (by omega)
    refine ⟨⟨now, now + afterMs, some (.error e)⟩ :: trials,
      .cons (Nat.lt_of_not_le hlate) ?_ ⟨e, rfl⟩ hrest, ?_⟩
    · rw [ha]
      exact Trial.within_of_le (Nat.le_of_not_lt hle) _
    · rw [he, comesTo_cons rfl]

/-- **Checking keeps its time.** Attempts are made one after the other, none only when there is no
time at all, and no more than there is time for the pauses between them: none of them begins at the
deadline or later or runs beyond it, and after one that failed comes the pause, or what of it is
left before the deadline. Checking ends with the first attempt that succeeds before the deadline or
at it, its result and the number of attempts up to it; otherwise it ends just at the deadline, with
the number of attempts and what the last of them came to. -/
theorem poll_keeps_time (p : Pace) (attempt : Nat → Nat → Attempt) :
    ∃ trials : List (Trial Value),
      Paced p.deadlineMs (fun _ => p.intervalMs) (fun k began => (attempt k began).ending?) 0 0
        trials ∧
      (trials = [] ↔ p.deadlineMs = 0) ∧ p.intervalMs * (trials.length - 1) ≤ p.deadlineMs ∧
      poll p attempt =
        match trials.getLast? with
        | none => (.expired "no attempt made" 0, p.deadlineMs)
        | some t =>
          match t.result? with
          | some (.ok result) => (.ready result trials.length, t.ended)
          | some (.error e) => (.expired e trials.length, p.deadlineMs)
          | none => (.expired "attempt timed out" trials.length, p.deadlineMs) := by
  obtain ⟨trials, hpaced, he⟩ := pollFrom_paced p attempt 0 0 "no attempt made" (Nat.zero_le _)
  refine ⟨trials, hpaced, hpaced.empty.trans Nat.le_zero, ?_, ?_⟩
  · by_cases hne : trials = []
    · rw [hne]
      exact Nat.zero_le _
    · have := hpaced.length_lt hne fun _ => Nat.le_refl p.intervalMs
      omega
  · rw [poll, he, comesTo, Nat.zero_add]

/-- No attempt succeeds before the deadline; one succeeds just then, and is not too late. -/
theorem met_at_deadline :
    poll ⟨100, 250, by decide⟩ (fun _ _ => .ends 250 (.ok .null)) = (.ready .null 1, 250) := by
  rw [poll, pollFrom]
  rfl

/-- An endpoint that is not ready at first, is ready after the second attempt, and each time takes
a while to say so. -/
def waking : Nat → Nat → Attempt
  | 0, _ => .ends 5 (.error "HTTP 503 Service Unavailable")
  | _, _ => .ends 5 (.ok .null)

example : poll ⟨100, 250, by decide⟩ waking = (.ready .null 2, 110) := by cbv

/-- One that is never ready is checked until the deadline. -/
example :
    poll ⟨100, 250, by decide⟩ (fun _ _ => .ends 60 (.error "HTTP 503 Service Unavailable")) =
      (.expired "HTTP 503 Service Unavailable" 2, 250) := by cbv

/-! ### A scripted endpoint -/

section
variable {url : String} {script : List Entry}

/-- What ends an attempt in time was not sent just at the deadline. -/
theorem attemptUntil_ends {deadlineMs n began afterMs : Nat} {result : Except String Value}
    (h : attemptUntil deadlineMs url script n began = .ends afterMs result) :
    attempt url script n = .ends afterMs result ∧ began + afterMs ≠ deadlineMs := by
  rw [attemptUntil] at h
  split at h
  · cases h
  · rename_i ha
    split at h
    · cases h
    · rename_i hne
      cases h
      exact ⟨ha, hne⟩

/-- What is sent just at the deadline is not learned: neither its result nor its error. -/
theorem attemptUntil_late {deadlineMs n began afterMs : Nat} {result : Except String Value}
    (h : attempt url script n = .ends afterMs result) (hlate : began + afterMs = deadlineMs) :
    attemptUntil deadlineMs url script n began = .hangs := by
  rw [attemptUntil, h]
  exact if_pos hlate

/-- So an endpoint whose first answer is sent just then is not ready in time, whatever it says. -/
theorem sent_at_deadline {result : Except String Value} (hp : 0 < p.deadlineMs)
    (h : attempt url script 0 = .ends p.deadlineMs result) :
    poll p (attemptUntil p.deadlineMs url script) =
      (.expired "attempt timed out" 1, p.deadlineMs) := by
  rw [poll, pollFrom, if_neg (Nat.not_le_of_lt hp), attemptUntil_late h (Nat.zero_add _)]

/-- Checking such an endpoint, one learns that it is ready from its answer to the last request, and
before the deadline. -/
theorem scripted_in_time {v : Value} {attempts at_ : Nat}
    (h : pollFrom p (attemptUntil p.deadlineMs url script) made now lastError =
      (.ready v attempts, at_)) :
    made < attempts ∧ at_ < p.deadlineMs ∧ ∃ began afterMs, at_ = began + afterMs ∧
      attempt url script (attempts - 1) = .ends afterMs (.ok v) := by
  fun_induction pollFrom p (attemptUntil p.deadlineMs url script) made now lastError with
  | case1 | case2 | case3 => cases h
  | case4 made now lastError hlate afterMs hle v ha =>
    cases h
    obtain ⟨ha, hne⟩ := attemptUntil_ends ha
    exact ⟨Nat.lt_succ_self _, Nat.lt_of_le_of_ne (Nat.le_of_not_lt hle) hne, now, afterMs, rfl, ha⟩
  | case5 made now lastError hlate afterMs hle e ha ih =>
    obtain ⟨hlt, hintime, hsent⟩ := ih h
    exact ⟨Nat.lt_of_succ_lt hlt, hintime, hsent⟩

end

end Switchboard.Probe
