import Switchboard.Proofs.Connection.Closing
import Switchboard.Proofs.Connection.Order

/-! Those who close a connection.

Whoever closes a connection marks it with the first step he takes, and nothing can keep him
from it. So a connection that somebody has begun to close is lost (`Doomed`), although it
may not be marked yet: there is a step left that marks it (`Heeds.closes`), and when the
connection has come to rest it is marked (`Heeds.closed_of_rest`).

`Lasting` collects what it takes for a property to outlast whatever may be done to a
connection. -/
namespace Switchboard.Redirect.Connection

variable {c c' : Connection}

/-- While the connection is not marked closed, nobody who closes it has taken a step. -/
def Heeds (c : Connection) : Prop := c.closed = false → ∀ k ∈ c.closers, k.stage = .entered

/-- The connection is closed, or somebody has begun to close it. -/
def Doomed (c : Connection) : Prop := c.closed = true ∨ c.closers ≠ []

/-! ### One move, as seen from those who close -/

/-- What a move does to those who close the connection. -/
inductive Hastens (c c' : Connection) : Prop
  | same (h : c'.closers = c.closers)
  | begun (k : Closer) (hk : k.stage = .entered) (h : c'.closers = c.closers ++ [k])
  | closing (k : Closer) (hk : k ∈ c.closers) (hs : k.stage = .entered → c'.closed = true)
      (h : c'.closers.length = c.closers.length)

theorem setClosing_length (key : Nat) (stage : Closing) :
    (c.setClosing key stage).closers.length = c.closers.length := List.length_map ..

theorem Closes.hastens {k : Closer} (h : Closes c k c') (hk : k ∈ c.closers) : Hastens c c' := by
  cases h with
  | marks => exact .closing k hk (fun _ => rfl) (setClosing_length ..)
  | clears hs | waits hs | leaves hs | returns hs =>
    exact .closing k hk (fun he => by cases hs.symm.trans he) (setClosing_length ..)

theorem Advances.closers {k : Caller} {es : List Event} (h : Advances c k c' es) :
    c'.closers = c.closers := by
  cases h <;> rfl

theorem step_hastens {m : Move} (h : c.step m = some c') : Hastens c c' := by
  cases step_moves h with
  | calls _ ha => exact .same ha.closers
  | @abandons key =>
    rw [abandon_frame]
    exact .same rfl
  | @begins key waits => exact .begun ⟨key, waits, .entered⟩ rfl rfl
  | closes hk hc => exact hc.hastens hk
  | @reads line rest =>
    obtain ⟨_, _, hd⟩ := deliver_only { c with received := rest } line
    rw [hd]
    exact .same rfl
  | _ => exact .same rfl

/-! ### What lasts -/

/-- The property outlasts whatever may be done to a connection. -/
structure Lasting (P : Connection → Prop) : Prop where
  move : ∀ {c c' m}, c.step m = some c' → P c → P c'
  call : ∀ {c c' k}, c.advance k = some c' → P c → P c'
  enter : ∀ {c} key method arguments, P c → P (c.enter key method arguments)
  begin_ : ∀ {c} key waits, P c → P (c.beginClosing key waits)
  abort : ∀ {c}, P c → P c.abort

namespace Lasting
variable {P : Connection → Prop}

theorem settle (hP : Lasting P) (steps : Nat) (hc : P c) : P (c.settle steps).1 := by
  induction steps generalizing c with
  | zero => exact hc
  | succ steps ih =>
    cases hn : c.next with
    | none =>
      simp only [Connection.settle, hn]
      exact hc
    | some p =>
      simp only [Connection.settle, hn]
      exact ih (next_cases hn (fun _ _ ha => hP.call ha hc) fun _ hm => hP.move hm hc)

theorem callSteps (hP : Lasting P) (key steps : Nat) (hc : P c) : P (c.callSteps key steps) := by
  induction steps generalizing c with
  | zero => exact hc
  | succ steps ih =>
    cases hn : c.callStep key with
    | none =>
      simp only [Connection.callSteps, hn]
      exact hc
    | some d =>
      simp only [Connection.callSteps, hn]
      exact ih (hP.move (m := .call key) hn hc)

theorem start (hP : Lasting P) (key : Nat) (method : String) (arguments : List Json.Raw)
    (hc : P c) : P (c.start key method arguments) :=
  hP.callSteps key 5 (hP.enter key method arguments hc)

end Lasting

theorem Heeds.of_hastens (hh : c.Heeds) (hc : c.closed = true → c'.closed = true)
    (h : Hastens c c') : c'.Heeds := by
  intro hopen
  have hopen₀ : c.closed = false := by
    by_contra hne
    rw [hc (by simpa using hne)] at hopen
    cases hopen
  cases h with
  | same h =>
    rw [h]
    exact hh hopen₀
  | begun k hk h =>
    rw [h]
    intro k' hk'
    rcases List.mem_append.mp hk' with hk' | hk'
    · exact hh hopen₀ k' hk'
    · rw [List.mem_singleton.mp hk']
      exact hk
  | closing k hk hs _ =>
    rw [hs (hh hopen₀ k hk)] at hopen
    cases hopen

theorem lasting_heeds : Lasting Heeds where
  move h hc := hc.of_hastens (step_closed h) (step_hastens h)
  call h hc := by
    obtain ⟨_, ha⟩ := advance_cases h
    exact hc.of_hastens ha.marks.1.trans (.same ha.closers)
  enter _ _ _ hc := hc.of_hastens id (.same rfl)
  begin_ key waits hc := hc.of_hastens id (.begun ⟨key, waits, .entered⟩ rfl rfl)
  abort _ := fun h => by cases h

theorem Doomed.of_hastens (hd : c.Doomed) (hc : c.closed = true → c'.closed = true)
    (h : Hastens c c') : c'.Doomed := by
  rcases hd with hd | hd
  · exact .inl (hc hd)
  · refine .inr ?_
    cases h with
    | same h =>
      rw [h]
      exact hd
    | begun k _ h =>
      rw [h]
      exact List.append_ne_nil_of_right_ne_nil _ (List.cons_ne_nil k [])
    | closing _ _ _ h => exact List.ne_nil_of_length_pos (h ▸ List.length_pos_of_ne_nil hd)

theorem lasting_doomed : Lasting Doomed where
  move h hc := hc.of_hastens (step_closed h) (step_hastens h)
  call h hc := by
    obtain ⟨_, ha⟩ := advance_cases h
    exact hc.of_hastens ha.marks.1.trans (.same ha.closers)
  enter _ _ _ hc := hc.of_hastens id (.same rfl)
  begin_ key waits hc := hc.of_hastens id (.begun ⟨key, waits, .entered⟩ rfl rfl)
  abort _ := .inl rfl

/-! ### The step that is left -/

/-- Whoever has begun to close a connection that is not marked can mark it. -/
theorem Heeds.closes (hh : c.Heeds) (hopen : c.closed = false) {k : Closer} (hk : k ∈ c.closers) :
    ∃ c', c.closeStep k.key = some c' ∧ c'.closed = true := by
  cases hf : c.closers.find? fun k' => k'.key == k.key with
  | none =>
    have := List.find?_eq_none.mp hf k hk
    simp at this
  | some k' =>
    have hs : k'.stage = .entered := hh hopen k' (List.mem_of_find?_eq_some hf)
    refine ⟨c.mark.setClosing k.key .marked, ?_, rfl⟩
    simp only [closeStep, hf, hs]

theorem nextCloser_isSome {ks : List Closer} {k : Closer} (hk : k ∈ ks)
    (hs : (c.closeStep k.key).isSome) : (c.nextCloser ks).isSome := by
  induction ks with
  | nil => cases hk
  | cons k' ks ih =>
    unfold nextCloser
    cases hc : c.closeStep k'.key with
    | some d => rfl
    | none =>
      rcases List.mem_cons.mp hk with rfl | hk
      · rw [hc] at hs
        cases hs
      · exact ih hk

/-- A connection that somebody closes and that has come to rest is marked closed. -/
theorem Heeds.closed_of_rest (hh : c.Heeds) (hd : c.Doomed) (hrest : c.next = none) :
    c.closed = true := by
  rcases hd with hd | hd
  · exact hd
  · by_contra hne
    have hopen : c.closed = false := by simpa using hne
    obtain ⟨k, hk⟩ := List.exists_mem_of_ne_nil _ hd
    obtain ⟨c', hc', -⟩ := hh.closes hopen hk
    obtain ⟨d, hd⟩ := Option.isSome_iff_exists.mp (nextCloser_isSome hk (by rw [hc']; rfl))
    simp [next, hd] at hrest

end Switchboard.Redirect.Connection
