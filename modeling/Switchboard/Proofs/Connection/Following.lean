import Switchboard.Proofs.Connection.Pending

/-! What becomes of a call.

Unless it is the one that begins, or the one that a frame is handed to, every call after a
move was there before it. It has the same arguments, its stage is one that what was seen
allows, and if it has an answer it had it already (`Follows`). -/
namespace Switchboard.Redirect
open Json

namespace Connection

variable {c c' : Connection} {k k' : Caller} {key id : Nat} {es : List Event}

/-- What is seen of a call allows it to come to the stage. -/
def Allows (es : List Event) (k : Caller) (stage : Stage) : Prop :=
  stage.listed? = none ∨ stage.listed? = k.stage.listed? ∨
    (k.reply = .open_ ∧ ∃ id, stage = .listed id ∧ .listed k.key id ∈ es)

/-- A call that a move leaves or takes on, without giving it an answer. -/
structure Follows (es : List Event) (k k' : Caller) : Prop where
  key : k'.key = k.key
  method : k'.method = k.method
  arguments : k'.arguments = k.arguments
  stage : Allows es k k'.stage
  reply : ∀ outcome, k'.reply = .answered outcome → k.reply = .answered outcome

/-- Every call of `c'` is one of `c` that was left or taken on. -/
def AllFollow (es : List Event) (c c' : Connection) : Prop :=
  ∀ k' ∈ c'.callers, ∃ k ∈ c.callers, Follows es k k'

theorem allFollow_refl (es : List Event) (c : Connection) : AllFollow es c c :=
  fun k hk => ⟨k, hk, rfl, rfl, rfl, .inr (.inl rfl), fun _ h => h⟩

theorem allFollow_keep (stays : Nat × Nat → Bool) : AllFollow es c (c.keep stays) := by
  intro k' hk'
  obtain ⟨k, hk, rfl⟩ := mem_keep hk'
  refine ⟨k, hk, kept_key _, kept_method _, kept_arguments _,
    .inr (.inl (by rw [kept_stage])), fun outcome h => ?_⟩
  unfold kept at h
  split at h
  · cases h
  · exact h

theorem AllFollow.congr {d : Connection} (h : AllFollow es c d) (hd : c'.callers = d.callers) :
    AllFollow es c c' := fun k' hk' => h k' (hd ▸ hk')

theorem AllFollow.setStage {d : Connection} (h : AllFollow es c d) {stage : Stage}
    (hs : ∀ k ∈ c.callers, k.key = key → Allows es k stage) :
    AllFollow es c (d.setStage key stage) := by
  intro k' hk'
  obtain ⟨k₁, hk₁, ⟨hkey, rfl⟩ | ⟨_, rfl⟩⟩ := mem_update hk'
  · obtain ⟨k, hk, hf⟩ := h k₁ hk₁
    exact ⟨k, hk, hf.key, hf.method, hf.arguments, hs k hk (hf.key.symm.trans hkey), hf.reply⟩
  · exact h k' hk₁

theorem AllFollow.drop {d : Connection} (h : AllFollow es c d) :
    AllFollow es c { d with callers := d.callers.filter fun k => k.key != key } :=
  fun k' hk' => h k' (List.mem_filter.mp hk').1

theorem allFollow_finish {result : Forwarded} : AllFollow es c (c.finish key id result) :=
  (allFollow_keep _).setStage fun _ _ _ => .inl rfl

theorem allFollow_abandon : AllFollow es c (c.abandon key) := by
  unfold abandon
  split
  · exact allFollow_refl es c
  · dsimp only
    split
    · exact (allFollow_keep _).drop
    · exact (allFollow_refl es c).drop

theorem allFollow_advances (ht : Tied c) (hk : c.caller? key = some k)
    (h : Advances c k c' es) : AllFollow es c c' := by
  obtain ⟨hm, rfl⟩ := caller?_mem hk
  have only {k' : Caller} (hk' : k' ∈ c.callers) (hkey : k'.key = k.key) : k' = k :=
    ht.eq_of_key hk' hm hkey
  cases h with
  | refused => exact (allFollow_refl _ c).setStage fun _ _ _ => .inl rfl
  | admitted => exact (allFollow_refl _ c).setStage fun _ _ _ => .inl rfl
  | numbered =>
    have : AllFollow [.numbered k.key c.nextId.toNat] c
        (c.setStage k.key (.numbered c.nextId.toNat)) :=
      (allFollow_refl _ c).setStage fun _ _ _ => .inl rfl
    exact this.congr rfl
  | @listed id hs =>
    have hd : AllFollow [.listed k.key id] c (c.list k.key id) := (allFollow_keep _).congr rfl
    refine hd.setStage fun k' hk' hkey => .inr (.inr ?_)
    cases only hk' hkey
    exact ⟨ht.early k hm (by rw [hs]; trivial), id, rfl, List.mem_singleton.mpr rfl⟩
  | turnedBack => exact allFollow_finish
  | ready hs =>
    refine (allFollow_refl _ c).setStage fun k' hk' hkey => .inr (.inl ?_)
    rw [only hk' hkey, hs]
    rfl
  | unsent => exact allFollow_finish
  | @queued id hs =>
    have : AllFollow [.queued k.key id k.method k.arguments] c
        (c.setStage k.key (.waiting id)) := by
      refine (allFollow_refl _ c).setStage fun k' hk' hkey => .inr (.inl ?_)
      rw [only hk' hkey, hs]
      rfl
    exact this.congr rfl
  | answered => exact allFollow_finish
  | lost => exact allFollow_finish

/-- What a call was begun with. -/
def begun (k : Caller) : Move := .enter k.key k.method k.arguments

/-- Every call after a move was there before it, or begins with it. -/
theorem begun_of_affects {m : Move} (ht : Tied c) (ha : Affects c m c' es) (hk' : k' ∈ c'.callers) :
    (∃ k ∈ c.callers, begun k' = begun k) ∨ begun k' = m := by
  have follow (h : AllFollow es c c') : ∃ k ∈ c.callers, begun k' = begun k := by
    obtain ⟨k, hk, hkey, hmethod, harguments, _⟩ := h k' hk'
    exact ⟨k, hk, by simp only [begun, hkey, hmethod, harguments]⟩
  cases ha with
  | entered =>
    rcases List.mem_append.mp hk' with hk | hk
    · exact .inl ⟨k', hk, rfl⟩
    · cases List.mem_singleton.mp hk
      exact .inr rfl
  | advanced hk ha => exact .inl (follow (allFollow_advances ht hk ha))
  | abandoned => exact .inl (follow allFollow_abandon)
  | answered _ _ ha =>
    have hk' := ha.callers ▸ hk'
    obtain ⟨k₁, hk₁, ⟨_, rfl⟩ | ⟨_, rfl⟩⟩ := mem_update hk'
    all_goals
      obtain ⟨k, hk, rfl⟩ := mem_keep hk₁
      exact .inl ⟨k, hk, by simp only [begun, kept_key, kept_method, kept_arguments]⟩
  | cleared ha => exact .inl (follow ((allFollow_keep _).congr ha.callers))
  | others ha => exact .inl (follow ((allFollow_refl _ c).congr ha.callers))

end Connection

end Switchboard.Redirect
