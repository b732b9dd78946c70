import Mathlib.Algebra.Order.Group.Nat
import Switchboard.Proofs.Time.Trials
import Switchboard.Redirect.Dial

/-! How long a dial goes on trying.

A turn of a dial is one attempt and the pause after it (`turn_over`, `Pacing.turn_again`), and a
whole dial takes its turns one after the other (`dialFrom_paced`, by induction on them). So it makes
its attempts as its deadline allows, ends with the first that succeeds, and fails only when all its
time is used up (`dial_keeps_time`). -/
namespace Switchboard.Redirect

variable {α : Type} {attempt : Nat → Attempt α} {p : Pacing} {made now : Nat}

/-- How an attempt ends when nobody cuts it off. -/
def Attempt.ending? : Attempt α → Option (Nat × Except String α)
  | .succeeds afterMs connection => some (afterMs, .ok connection)
  | .fails afterMs error => some (afterMs, .error error)
  | .hangs => none

/-- The pause after the attempt of that number; the first attempt has the number zero. -/
def pauseAfter (number : Nat) : Nat := min (25 * 2 ^ number) 250

theorem Pacing.failed_pauseMs (h : p.pauseMs = pauseAfter made) (error : String) :
    (p.failed error).pauseMs = pauseAfter (made + 1) := by
  have hdouble : (p.failed error).pauseMs = min (p.pauseMs * 2) 250 := rfl
  rw [hdouble, h, pauseAfter, pauseAfter, Nat.pow_succ]
  omega

/-- The text of a dial's failure. -/
def gaveUp (timeoutMs : Nat) (error : String) : String :=
  "gave up after " ++ toString timeoutMs ++ "ms: " ++ error

/-- What a dial comes to whose last attempt was this one, and when. -/
def conclusion (p : Pacing) (t : Trial α) : Except String α × Nat :=
  match t.result? with
  | some (.ok connection) => (.ok connection, t.ended)
  | some (.error e) => (.error (gaveUp p.timeoutMs e), p.deadline)
  | none => (.error (gaveUp p.timeoutMs "connect attempt did not complete"), p.deadline)

/-- What a dial comes to after these attempts, the first of which had the number `made`. -/
def comesTo (p : Pacing) (made : Nat) (trials : List (Trial α)) : Except String α × Nat × Nat :=
  match trials.getLast? with
  | none => (.error p.reason, p.deadline, made)
  | some t => ((conclusion p t).1, (conclusion p t).2, made + trials.length)

/-- A failure is told by the dial that goes on after it. -/
theorem comesTo_cons {t : Trial α} {error : String} (ht : t.result? = some (.error error))
    (trials : List (Trial α)) :
    comesTo p made (t :: trials) = comesTo (p.failed error) (made + 1) trials := by
  cases trials with
  | nil =>
    simp only [comesTo, conclusion, List.getLast?_singleton, ht]
    rfl
  | cons u rest =>
    have hlast := List.getLast?_eq_some_getLast (List.cons_ne_nil u rest)
    have hlength : made + (rest.length + 1 + 1) = made + 1 + (rest.length + 1) := by omega
    simp only [comesTo, List.getLast?_cons_cons, hlast, List.length_cons, hlength]
    rfl

/-- A dial that is over with a turn comes to what its attempt came to, which was not a failure in
time. -/
theorem turn_over {now at_ : Nat} {a : Attempt α} {result : Except String α}
    (h : p.turn now a = .over result at_) :
    ¬(Trial.within p.deadline now a.ending?).Failed ∧
      conclusion p (.within p.deadline now a.ending?) = (result, at_) := by
  have cut (ht : Trial.within p.deadline now a.ending? = ⟨now, p.deadline, none⟩)
      (hover : Turn.over (.error p.cutOff.reason) p.deadline = .over result at_) :
      ¬(Trial.within p.deadline now a.ending?).Failed ∧
        conclusion p (.within p.deadline now a.ending?) = (result, at_) := by
    cases hover
    rw [ht]
    exact ⟨Trial.not_failed_of_cutOff rfl, rfl⟩
  cases a with
  | succeeds afterMs connection =>
    rw [Pacing.turn] at h
    split at h
    · rename_i hle
      cases h
      rw [Attempt.ending?, Trial.within_of_le hle]
      exact ⟨Trial.not_failed_of_ok rfl, rfl⟩
    · exact cut (Trial.within_of_lt (Nat.lt_of_not_le ‹_›) _) h
  | fails afterMs error =>
    rw [Pacing.turn] at h
    split at h
    · cases h
    · exact cut (Trial.within_of_lt (Nat.lt_of_not_le ‹_›) _) h
  | hangs => exact cut rfl h

/-- A dial, however far it is, makes its attempts as its pacing says, and comes to what the last of
them came to. -/
theorem dialFrom_paced (attempt : Nat → Attempt α) (p : Pacing) (made now : Nat)
    (hp : p.pauseMs = pauseAfter made) (hnow : now ≤ p.deadline) :
    ∃ trials, Paced p.deadline pauseAfter (fun k _ => (attempt k).ending?) made now trials ∧
      dialFrom attempt p made now = comesTo p made trials := by
  fun_induction dialFrom attempt p made now with
  | case1 p made now hlate =>
    have hend : now = p.deadline := Nat.le_antisymm hnow (Nat.sub_eq_zero_iff_le.mp hlate)
    exact ⟨[], .nil (Nat.le_of_eq hend.symm), by rw [hend]; rfl⟩
  | case2 p made now hleft result at_ hturn =>
    have hlt : now < p.deadline := Nat.sub_pos_iff_lt.mp (Nat.pos_of_ne_zero hleft)
    obtain ⟨hfailed, hend⟩ := turn_over hturn
    refine ⟨[_], .single hlt rfl hfailed, ?_⟩
    simp only [comesTo, List.getLast?_singleton, hend, List.length_singleton]
  | case3 p made now hleft q at_ hturn ih =>
    have hlt : now < p.deadline := Nat.sub_pos_iff_lt.mp (Nat.pos_of_ne_zero hleft)
    obtain ⟨afterMs, error, ha, hintime, rfl, rfl⟩ := Pacing.turn_again hturn
    have hresume : p.resume (now + afterMs) ≤ p.deadline := by
      simp only [Pacing.resume, Pacing.remaining]
      omega
    obtain ⟨trials, hrest, he⟩ := ih (Pacing.failed_pauseMs hp error) hresume
    refine ⟨⟨now, now + afterMs, some (.error error)⟩ :: trials, .cons hlt ?_ ⟨error, rfl⟩ ?_, ?_⟩
    · rw [ha]
      exact Trial.within_of_le hintime _
    · rw [← hp]
      exact hrest
    · rw [he, comesTo_cons rfl]

/-- **A dial keeps its time.** It makes attempts one after the other, at least one and only as many
as there is time for pauses of 25 ms: none of them begins at the deadline or later or runs beyond
it, and after one that failed comes a pause, each twice as long as the one before up to 250 ms, or
to the deadline. The dial ends with the first attempt that succeeds before the deadline or at it,
and with its connection; otherwise it fails just at the deadline, and says what the last attempt
came to. -/
theorem dial_keeps_time (timeoutMs : Nat) (ht : 0 < timeoutMs) (attempt : Nat → Attempt α) :
    ∃ (trials : List (Trial α)) (t : Trial α),
      Paced timeoutMs (fun k => min (25 * 2 ^ k) 250) (fun k _ => (attempt k).ending?) 0 0 trials ∧
      trials.getLast? = some t ∧ 25 * (trials.length - 1) < timeoutMs ∧
      dialWithin timeoutMs attempt =
        match t.result? with
        | some (.ok connection) => (.ok connection, t.ended, trials.length)
        | some (.error e) => (.error (gaveUp timeoutMs e), timeoutMs, trials.length)
        | none => (.error (gaveUp timeoutMs "connect attempt did not complete"), timeoutMs,
            trials.length) := by
  obtain ⟨trials, hpaced, he⟩ :=
    dialFrom_paced attempt (.begin_ 0 timeoutMs) 0 0 rfl (Nat.zero_le _)
  have hdeadline : (Pacing.begin_ 0 timeoutMs).deadline = timeoutMs := Nat.zero_add _
  rw [hdeadline] at hpaced
  have hne : trials ≠ [] := fun hnil => absurd (hpaced.empty.mp hnil) (Nat.not_le_of_lt ht)
  have hlast := List.getLast?_eq_some_getLast hne
  refine ⟨trials, _, hpaced, hlast, ?_, ?_⟩
  · have hleast (k : Nat) : 25 ≤ pauseAfter k := by
      have := Nat.one_le_two_pow (n := k)
      rw [pauseAfter]
      omega
    simpa using hpaced.length_lt hne hleast
  · rw [dialWithin, he, comesTo, hlast]
    simp only [conclusion, hdeadline, Nat.zero_add]
    split <;> rfl

/-- An endpoint that refuses at once, then after a while, and lets the third attempt in. -/
def reluctant : Nat → Attempt Nat
  | 0 => .fails 0 "refused"
  | 1 => .fails 10 "refused"
  | _ => .succeeds 5 7

/-- Its third attempt begins after pauses of 25 and 50 ms. -/
theorem reluctant_connected :
    0 < 100 ∧ ∃ (trials : List (Trial Nat)) (t : Trial Nat),
      Paced 100 (fun k => min (25 * 2 ^ k) 250) (fun k _ => (reluctant k).ending?) 0 0 trials ∧
      trials.getLast? = some t ∧ trials.length = 3 ∧ t.ended = 90 ∧ t.result? = some (.ok 7) := by
  obtain ⟨trials, t, hpaced, hlast, -, he⟩ := dial_keeps_time 100 (by decide) reluctant
  have hdial : dialWithin 100 reluctant = (.ok 7, 90, 3) := by
    rw [dialWithin, dialFrom_of_again (by decide) rfl, dialFrom_of_again (by decide) rfl,
      dialFrom_of_over (by decide) rfl]
    rfl
  rw [hdial] at he
  refine ⟨by decide, trials, t, hpaced, hlast, ?_⟩
  split at he
  · rename_i hresult
    simp only [Prod.mk.injEq, Except.ok.injEq] at he
    obtain ⟨rfl, hended, hlength⟩ := he
    exact ⟨hlength.symm, hended.symm, hresult⟩
  · cases he
  · cases he

/-- One that never answers keeps the dial waiting until its time is up. -/
example :
    dialWithin 40 (fun _ => .hangs : Nat → Attempt Nat) =
      (.error "gave up after 40ms: connect attempt did not complete", 40, 1) := by
  rw [dialWithin, dialFrom_of_over (by decide) rfl]
  rfl

/-- One that lets the dial in just then is not too late. -/
example : dialWithin 40 (fun _ => .succeeds 40 7) = (.ok 7, 40, 1) := by
  rw [dialWithin, dialFrom_of_over (by decide) rfl]

end Switchboard.Redirect
