/-! Attempts that are made until a deadline.

An attempt ends by itself after some time, with a result or an error, or never; whoever makes it
cuts it off at the deadline, unless it ends just then. After an error he waits for a while and makes
the next one, if the time is not up by then. `Paced` says of a list of attempts that it came about
in this way. Dialing and polling are both of this kind and differ in how long they wait. -/
namespace Switchboard

/-- An attempt that was made. -/
structure Trial (α : Type) where
  began : Nat
  ended : Nat
  /-- Nothing when it was cut off. -/
  result? : Option (Except String α)

namespace Trial

variable {α : Type} {deadline now : Nat} {ending? : Option (Nat × Except String α)}

/-- The attempt that begins at `now` and by itself would end as given. What ends at the deadline
ends in time. -/
def within (deadline now : Nat) (ending? : Option (Nat × Except String α)) : Trial α :=
  match ending? with
  | none => ⟨now, deadline, none⟩
  | some (afterMs, result) =>
    if now + afterMs ≤ deadline then ⟨now, now + afterMs, some result⟩ else ⟨now, deadline, none⟩

theorem within_of_le {afterMs : Nat} (h : now + afterMs ≤ deadline) (result : Except String α) :
    within deadline now (some (afterMs, result)) = ⟨now, now + afterMs, some result⟩ := if_pos h

theorem within_of_lt {afterMs : Nat} (h : deadline < now + afterMs) (result : Except String α) :
    within deadline now (some (afterMs, result)) = ⟨now, deadline, none⟩ :=
  if_neg (Nat.not_le_of_lt h)

/-- The attempt was over in time, and had come to nothing. -/
def Failed (t : Trial α) : Prop := ∃ e, t.result? = some (.error e)

theorem not_failed_of_ok {t : Trial α} {a : α} (h : t.result? = some (.ok a)) : ¬t.Failed := by
  rintro ⟨e, he⟩
  cases h.symm.trans he

theorem not_failed_of_cutOff {t : Trial α} (h : t.result? = none) : ¬t.Failed := by
  rintro ⟨e, he⟩
  cases h.symm.trans he

@[simp] theorem within_began : (within deadline now ending?).began = now := by
  unfold within
  split
  · rfl
  · split <;> rfl

theorem le_within_ended (h : now < deadline) : now ≤ (within deadline now ending?).ended := by
  unfold within
  split
  · exact Nat.le_of_lt h
  · split
    · exact Nat.le_add_right ..
    · exact Nat.le_of_lt h

theorem within_ended_le : (within deadline now ending?).ended ≤ deadline := by
  unfold within
  split
  · exact Nat.le_refl _
  · split
    · assumption
    · exact Nat.le_refl _

end Trial

/-- When a pause of `pauseMs` that begins at `now` is over, the deadline not being past. -/
def resumeAt (deadline now pauseMs : Nat) : Nat := now + min pauseMs (deadline - now)

/-- The attempts were made one after the other from `now` on, the first being the one of that
number; `pause` says how long to wait after which of them, and `ending?` how the one of a number
would end, when it begins at a time. -/
structure Paced {α : Type} (deadline : Nat) (pause : Nat → Nat)
    (ending? : Nat → Nat → Option (Nat × Except String α)) (number now : Nat)
    (trials : List (Trial α)) : Prop where
  /-- Without any, the time was up at once. -/
  empty : trials = [] ↔ deadline ≤ now
  /-- The first one began at once. -/
  first : ∀ t : Trial α, trials[0]? = some t → t.began = now
  /-- Each of them began before the deadline and did not run beyond it. -/
  each : ∀ (k : Nat) (t : Trial α), trials[k]? = some t → t.began < deadline ∧ t.ended ≤ deadline ∧
    t = .within deadline t.began (ending? (number + k) t.began)
  /-- Another one was made only after one that failed, and a pause. -/
  next : ∀ (k : Nat) (t u : Trial α), trials[k]? = some t → trials[k + 1]? = some u →
    t.Failed ∧ u.began = resumeAt deadline t.ended (pause (number + k))
  /-- If the last one failed, the pause after it took the time that was left. -/
  last : ∀ (k : Nat) (t : Trial α), trials[k]? = some t → k + 1 = trials.length → t.Failed →
    resumeAt deadline t.ended (pause (number + k)) = deadline

namespace Paced

variable {α : Type} {deadline : Nat} {pause : Nat → Nat}
  {ending? : Nat → Nat → Option (Nat × Except String α)} {number now : Nat}
  {trials : List (Trial α)} {t : Trial α}

theorem nil (h : deadline ≤ now) : Paced deadline pause ending? number now [] where
  empty := ⟨fun _ => h, fun _ => rfl⟩
  first _ h := by cases h
  each _ _ h := by cases h
  next _ _ _ h := by cases h
  last _ _ h := by cases h

theorem each_first (h : now < deadline)
    (ht : .within deadline now (ending? number now) = t) :
    t.began < deadline ∧ t.ended ≤ deadline ∧
      t = .within deadline t.began (ending? (number + 0) t.began) := by
  subst ht
  rw [Trial.within_began]
  exact ⟨h, Trial.within_ended_le, rfl⟩

/-- An attempt that does not fail is the only one. -/
theorem single (h : now < deadline) (ht : .within deadline now (ending? number now) = t)
    (hf : ¬t.Failed) : Paced deadline pause ending? number now [t] where
  empty := ⟨fun he => absurd he (List.cons_ne_nil _ _), fun hle => absurd h (Nat.not_lt_of_le hle)⟩
  first u hu := by
    cases hu
    rw [← ht, Trial.within_began]
  each k u hu := by
    cases k with
    | zero =>
      cases hu
      exact each_first h ht
    | succ k => cases hu
  next k u v _ hv := by cases hv
  last k u hu _ hf' := by
    cases k with
    | zero =>
      cases hu
      exact absurd hf' hf
    | succ k => cases hu

/-- After an attempt that fails, and a pause, come the others. -/
theorem cons (h : now < deadline) (ht : .within deadline now (ending? number now) = t)
    (hf : t.Failed)
    (hrest : Paced deadline pause ending? (number + 1) (resumeAt deadline t.ended (pause number))
      trials) : Paced deadline pause ending? number now (t :: trials) where
  empty := ⟨fun he => absurd he (List.cons_ne_nil _ _), fun hle => absurd h (Nat.not_lt_of_le hle)⟩
  first u hu := by
    cases hu
    rw [← ht, Trial.within_began]
  each k u hu := by
    cases k with
    | zero =>
      cases hu
      exact each_first h ht
    | succ k =>
      have := hrest.each k u hu
      rwa [Nat.add_right_comm] at this
  next k u v hu hv := by
    cases k with
    | zero =>
      cases hu
      exact ⟨hf, hrest.first v hv⟩
    | succ k =>
      have := hrest.next k u v hu hv
      rwa [Nat.add_right_comm] at this
  last k u hu hk hf' := by
    cases k with
    | zero =>
      cases hu
      -- there is no other one, so the time was up when the pause was over
      have hup := hrest.empty.mp (List.eq_nil_of_length_eq_zero (Nat.succ.inj hk).symm)
      have hle : t.ended ≤ deadline := (each_first h ht).2.1
      rw [Nat.add_zero]
      rw [resumeAt] at hup ⊢
      omega
    | succ k =>
      have := hrest.last k u hu (Nat.succ.inj hk) hf'
      rwa [Nat.add_right_comm] at this

/-- Every pause but the last is a whole one, so attempts begin later and later. -/
theorem le_began (h : Paced deadline pause ending? number now trials) {least : Nat}
    (hleast : ∀ k, least ≤ pause k) {k : Nat} (ht : trials[k]? = some t) :
    now + least * k ≤ t.began := by
  induction k generalizing t with
  | zero => simp [h.first t ht]
  | succ k ih =>
    have hk : k < trials.length := Nat.lt_of_succ_lt (List.getElem?_eq_some_iff.mp ht).1
    have hprev : trials[k]? = some trials[k] := List.getElem?_eq_getElem hk
    obtain ⟨hlt, hle, he⟩ := h.each k _ hprev
    have hended : trials[k].began ≤ trials[k].ended := by
      rw [he, Trial.within_began]
      exact Trial.le_within_ended hlt
    have hbegan := (h.next k _ t hprev ht).2
    have hbefore := (h.each _ t ht).1
    have hpause := hleast (number + k)
    have := ih hprev
    rw [resumeAt] at hbegan
    rw [Nat.mul_succ]
    omega

/-- There are only as many attempts as there is time for the pauses between them. -/
theorem length_lt (h : Paced deadline pause ending? number now trials) (hne : trials ≠ [])
    {least : Nat} (hleast : ∀ k, least ≤ pause k) :
    now + least * (trials.length - 1) < deadline := by
  have hlast := List.getLast?_eq_some_getLast hne
  rw [List.getLast?_eq_getElem?] at hlast
  exact Nat.lt_of_le_of_lt (h.le_began hleast hlast) (h.each _ _ hlast).1

end Paced
end Switchboard
