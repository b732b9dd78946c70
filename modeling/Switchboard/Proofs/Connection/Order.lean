import Switchboard.Proofs.Connection.Pending

/-! The order in which the program takes the steps of a connection.

`next` takes the first step that can be taken, in a fixed order of the parties; each of its
steps is a move. So what the program does, when it settles a connection or starts a call on
it, is one of the sessions. -/
namespace Switchboard.Redirect

/-- A call begins with the move. -/
def Move.Begins : Move → Prop
  | .enter .. => True
  | _ => False

namespace Connection

variable {c c' : Connection} {w : List Warning} {s : Session}

theorem nextCall_eq_some {ks : List Caller} (h : c.nextCall ks = some c') :
    ∃ k ∈ ks, c.advance k = some c' := by
  induction ks with
  | nil => cases h
  | cons k ks ih =>
    unfold nextCall at h
    split at h
    · rename_i hk
      cases h
      exact ⟨k, List.mem_cons_self .., hk⟩
    · obtain ⟨k', hk', ha⟩ := ih h
      exact ⟨k', List.mem_cons_of_mem _ hk', ha⟩

theorem nextCloser_eq_some {ks : List Closer} (h : c.nextCloser ks = some c') :
    ∃ k ∈ ks, c.closeStep k.key = some c' := by
  induction ks with
  | nil => cases h
  | cons k ks ih =>
    unfold nextCloser at h
    split at h
    · rename_i hk
      cases h
      exact ⟨k, List.mem_cons_self .., hk⟩
    · obtain ⟨k', hk', ha⟩ := ih h
      exact ⟨k', List.mem_cons_of_mem _ hk', ha⟩

/-- What a step of the program can be. No call begins with it. -/
theorem next_goes_on {P : Prop} (h : c.next = some (c', w))
    (call : ∀ k ∈ c.callers, c.advance k = some c' → P)
    (move : ∀ m : Move, ¬m.Begins → c.step m = some c' → P) : P := by
  simp only [next, Option.orElse_eq_orElse, Option.orElse_eq_or, Option.or_eq_some_iff,
    Option.map_eq_some_iff, Prod.mk.injEq] at h
  rcases h with ⟨d, hd, rfl, _⟩ | ⟨_, ⟨d, hd, rfl, _⟩ | ⟨_, h⟩⟩
  · obtain ⟨k, hk, ha⟩ := nextCall_eq_some hd
    exact call k hk ha
  · obtain ⟨k, _, hk⟩ := nextCloser_eq_some hd
    exact move (.close k.key) id hk
  rcases h with ⟨d, hd, rfl, _⟩ | ⟨_, ⟨d, hd, rfl, _⟩ | ⟨_, ⟨d, hd, rfl, _⟩ | ⟨_, h⟩⟩⟩
  · exact move .stopWriter id hd
  · exact move .takeLine id hd
  · exact move .sendMore id hd
  rcases h with ⟨d, hd, rfl, _⟩ | ⟨_, ⟨d, hd, rfl, _⟩ | ⟨_, ⟨d, hd, rfl, _⟩ | ⟨_, h⟩⟩⟩
  · exact move .failSending id hd
  · exact move .closeWriter id hd
  · exact move .stopReader id hd
  rcases h with hd | ⟨_, ⟨d, hd, rfl, _⟩⟩
  · exact move .readFrame id (by rw [step, hd, Option.map_some])
  · exact move .closeReader id hd

theorem next_cases {P : Prop} (h : c.next = some (c', w))
    (call : ∀ k ∈ c.callers, c.advance k = some c' → P)
    (move : ∀ m : Move, c.step m = some c' → P) : P :=
  next_goes_on h call fun m _ hm => move m hm

theorem next_eq_some (ht : Tied c) (h : c.next = some (c', w)) : ∃ m, c.step m = some c' := by
  refine next_cases h (fun k hk ha => ⟨.call k.key, ?_⟩) fun m hm => ⟨m, hm⟩
  rw [step, callStep, ht.caller?_eq hk, Option.bind_some, ha]

/-- Settling a connection is a run. -/
theorem settle_run (ht : Tied s.connection) (steps : Nat) :
    ∃ ms s', s.run ms = some s' ∧ s'.connection = (s.connection.settle steps).1 := by
  induction steps generalizing s with
  | zero => exact ⟨[], s, rfl, rfl⟩
  | succ steps ih =>
    cases hn : s.connection.next with
    | none => exact ⟨[], s, rfl, by simp only [settle, hn]⟩
    | some p =>
      obtain ⟨c, w⟩ := p
      obtain ⟨m, hm⟩ := next_eq_some ht hn
      have hs : s.step m = some ⟨c, s.log ++ s.connection.events m c⟩ := by
        rw [Session.step, hm, Option.map_some]
      obtain ⟨ms, s', hr, hc⟩ := @ih ⟨c, _⟩ (ht.step hm)
      refine ⟨m :: ms, s', ?_, ?_⟩
      · rw [Session.run, hs, Option.bind_some, hr]
      · simp only [settle, hn]
        exact hc

/-- So are the steps of one call. -/
theorem callSteps_run (key steps : Nat) :
    ∃ ms s', s.run ms = some s' ∧ s'.connection = s.connection.callSteps key steps := by
  induction steps generalizing s with
  | zero => exact ⟨[], s, rfl, rfl⟩
  | succ steps ih =>
    cases hn : s.connection.callStep key with
    | none => exact ⟨[], s, rfl, by simp only [callSteps, hn]⟩
    | some c =>
      have hs : s.step (.call key) = some ⟨c, s.log ++ s.connection.events (.call key) c⟩ := by
        rw [Session.step, Connection.step, hn, Option.map_some]
      obtain ⟨ms, s', hr, hc⟩ := @ih ⟨c, _⟩
      refine ⟨.call key :: ms, s', ?_, ?_⟩
      · rw [Session.run, hs, Option.bind_some, hr]
      · simp only [callSteps, hn]
        exact hc

/-- And so is the start of a call whose key is not in use. -/
theorem start_run {key : Nat} (hkey : ∀ k ∈ s.connection.callers, k.key ≠ key) (method : String)
    (arguments : List Json.Raw) :
    ∃ ms s', s.run ms = some s' ∧ s'.connection = s.connection.start key method arguments := by
  have hfresh : ¬(s.connection.callers.any fun k => k.key == key) = true := by
    simpa using hkey
  have hs : s.step (.enter key method arguments) =
      some ⟨s.connection.enter key method arguments, s.log ++ [.entered key]⟩ := by
    simp only [Session.step, Connection.step, if_neg hfresh, Option.map_some, events]
  obtain ⟨ms, s', hr, hc⟩ := @callSteps_run ⟨s.connection.enter key method arguments, _⟩ key 5
  refine ⟨.enter key method arguments :: ms, s', ?_, hc⟩
  rw [Session.run, hs, Option.bind_some, hr]

end Connection
end Switchboard.Redirect
