import Mathlib.Data.List.Nodup
import Switchboard.Proofs.Connection.Calls

/-! Who is pending.

The pending entries and the calls that wait for a reply are tied together (`Tied`): an
entry stands for exactly one call, which has entered it and waits for it to be answered,
and a call that waits and has no entry has been answered or told that it will not be.
Every move preserves this (`Tied.step`), whatever becomes of the connection. -/
namespace Switchboard.Redirect

/-- The id under which a call has entered itself and not yet returned. -/
def Stage.listed? : Stage → Option Nat
  | .listed id => some id
  | .ready id => some id
  | .waiting id => some id
  | _ => none

theorem Stage.id?_of_listed? {s : Stage} {id : Nat} (h : s.listed? = some id) :
    s.id? = some id := by
  cases s <;> first | exact h | cases h

/-- The call has not entered itself yet. -/
def Stage.Early : Stage → Prop
  | .entered => True
  | .admitted => True
  | .numbered _ => True
  | _ => False

theorem Stage.Early.listed? {s : Stage} (h : s.Early) : s.listed? = none := by
  cases s <;> first | rfl | exact h.elim

namespace Connection
open Json

structure Tied (c : Connection) : Prop where
  keys : (c.callers.map Caller.key).Nodup
  ids : (c.pending.map Prod.fst).Nodup
  caller : ∀ p ∈ c.pending, ∃ k ∈ c.callers,
    k.key = p.2 ∧ k.stage.listed? = some p.1 ∧ k.reply = .open_
  entry : ∀ k ∈ c.callers, ∀ id, k.stage.listed? = some id → k.reply = .open_ →
    (id, k.key) ∈ c.pending
  early : ∀ k ∈ c.callers, k.stage.Early → k.reply = .open_

variable {c c' : Connection} {k k' : Caller} {key id : Nat}

/-! ### What the tie says -/

theorem tied_opened (longestFrame : Nat) (capacity : Capacity) :
    Tied { longestFrame := longestFrame, capacity := capacity } where
  keys := .nil
  ids := .nil
  caller _ h := by cases h
  entry _ h := by cases h
  early _ h := by cases h

theorem Tied.congr (h : Tied c) (hc : c'.callers = c.callers) (hp : c'.pending = c.pending) :
    Tied c' := by
  constructor
  · rw [hc]
    exact h.keys
  · rw [hp]
    exact h.ids
  · rw [hc, hp]
    exact h.caller
  · rw [hc, hp]
    exact h.entry
  · rw [hc]
    exact h.early

theorem Tied.of_agrees (h : Tied c) (ha : Agrees c c') : Tied c' := h.congr ha.callers ha.pending

/-- Keys tell the calls apart. -/
theorem Tied.eq_of_key (h : Tied c) (hk : k ∈ c.callers) (hk' : k' ∈ c.callers)
    (he : k.key = k'.key) : k = k' := List.inj_on_of_nodup_map h.keys hk hk' he

theorem Tied.caller?_eq (h : Tied c) (hk : k ∈ c.callers) : c.caller? k.key = some k := by
  cases hf : c.caller? k.key with
  | none =>
    have := List.find?_eq_none.mp hf k hk
    simp at this
  | some k' =>
    obtain ⟨hm, he⟩ := caller?_mem hf
    rw [h.eq_of_key hm hk he]

/-- The entry of a call that is pending bears its id. -/
theorem Tied.entry_eq (h : Tied c) {p : Nat × Nat} (hp : p ∈ c.pending) (hk : k ∈ c.callers)
    (he : p.2 = k.key) : k.stage.listed? = some p.1 ∧ k.reply = .open_ := by
  obtain ⟨k', hk', hkey, hs, hr⟩ := h.caller p hp
  cases h.eq_of_key hk' hk (hkey.trans he)
  exact ⟨hs, hr⟩

/-! ### Entries that are taken off -/

theorem kept_eq {stays : Nat × Nat → Bool}
    (h : ∀ p ∈ c.pending, p.2 = k.key → stays p = true) : c.kept stays k = k := by
  refine if_neg fun hany => ?_
  obtain ⟨p, hp, he⟩ := List.any_eq_true.mp hany
  simp only [Bool.and_eq_true, beq_iff_eq] at he
  simp [h p hp he.1] at he

theorem stays_of_kept_open {stays : Nat × Nat → Bool} (h : (c.kept stays k).reply = .open_) :
    ∀ p ∈ c.pending, p.2 = k.key → stays p = true := by
  intro p hp he
  cases hs : stays p with
  | true => rfl
  | false =>
    have hany : (c.pending.any fun p => p.2 == k.key && !stays p) = true :=
      List.any_eq_true.mpr ⟨p, hp, by simp [he, hs]⟩
    rw [kept, if_pos hany] at h
    cases h

theorem mem_keep {stays : Nat × Nat → Bool} (hk : k' ∈ (c.keep stays).callers) :
    ∃ k ∈ c.callers, c.kept stays k = k' := List.mem_map.mp hk

theorem Tied.keep (h : Tied c) (stays : Nat × Nat → Bool) : Tied (c.keep stays) := by
  constructor
  case keys =>
    rw [keep_callers, List.map_map, show Caller.key ∘ c.kept stays = Caller.key from
      funext fun k => kept_key stays]
    exact h.keys
  case ids => exact h.ids.sublist (List.filter_sublist.map Prod.fst)
  case caller =>
    intro p hp
    obtain ⟨hp, hstays⟩ := List.mem_filter.mp hp
    obtain ⟨k, hk, hkey, hs, hr⟩ := h.caller p hp
    refine ⟨k, List.mem_map.mpr ⟨k, hk, kept_eq fun q hq he => ?_⟩, hkey, hs, hr⟩
    -- a call has one entry at most
    have := (h.entry_eq hq hk he).1
    rw [hs] at this
    rwa [show q = p from Prod.ext (Option.some.inj this).symm (he.trans hkey)]
  case entry =>
    intro k' hk' id hs hr
    obtain ⟨k, hk, rfl⟩ := mem_keep hk'
    have hstays := stays_of_kept_open hr
    rw [kept_eq hstays] at hs hr ⊢
    have hp := h.entry k hk id hs hr
    exact List.mem_filter.mpr ⟨hp, hstays _ hp rfl⟩
  case early =>
    intro k' hk' he
    obtain ⟨k, hk, rfl⟩ := mem_keep hk'
    rw [kept_stage] at he
    rw [kept_eq fun p hp hkey => ?_]
    · exact h.early k hk he
    · have := (h.entry_eq hp hk hkey).1
      rw [he.listed?] at this
      cases this

theorem forget_pending {p : Nat × Nat} : p ∈ (c.forget id).pending ↔ p ∈ c.pending ∧ p.1 ≠ id := by
  simp [forget, Connection.keep]

/-! ### Calls that go on -/

theorem mem_update {f : Caller → Caller} (hk : k' ∈ (c.update key f).callers) :
    ∃ k ∈ c.callers, (k.key = key ∧ k' = f k) ∨ (k.key ≠ key ∧ k' = k) := by
  obtain ⟨k, hm, rfl⟩ := List.mem_map.mp hk
  refine ⟨k, hm, ?_⟩
  split
  · rename_i he
    exact .inl ⟨he, rfl⟩
  · rename_i he
    exact .inr ⟨he, rfl⟩

theorem update_mem {f : Caller → Caller} (hk : k ∈ c.callers) :
    (if k.key = key then f k else k) ∈ (c.update key f).callers :=
  List.mem_map.mpr ⟨k, hk, rfl⟩

theorem update_keys {f : Caller → Caller} (hf : ∀ k, (f k).key = k.key) :
    (c.update key f).callers.map Caller.key = c.callers.map Caller.key := by
  rw [update, List.map_map]
  refine List.map_congr_left fun k _ => ?_
  simp only [Function.comp_apply]
  split
  · exact hf k
  · rfl

theorem setStage_keys {stage : Stage} :
    (c.setStage key stage).callers.map Caller.key = c.callers.map Caller.key := by
  have hf : ∀ k : Caller, ({ k with stage := stage } : Caller).key = k.key := fun _ => rfl
  exact update_keys hf

/-- A call may go on to a stage that has an entry as before and is not early again. -/
theorem Tied.setStage (h : Tied c) {stage : Stage}
    (hs : ∀ k ∈ c.callers, k.key = key → stage.listed? = k.stage.listed?)
    (he : ∀ k ∈ c.callers, k.key = key → stage.Early → k.stage.Early) :
    Tied (c.setStage key stage) := by
  constructor
  case keys =>
    rw [setStage_keys]
    exact h.keys
  case ids => exact h.ids
  case caller =>
    intro p hp
    obtain ⟨k, hk, hkey, hl, hr⟩ := h.caller p hp
    refine ⟨_, update_mem hk, ?_⟩
    split
    · rename_i hkey'
      exact ⟨hkey, (hs k hk hkey').trans hl, hr⟩
    · exact ⟨hkey, hl, hr⟩
  case entry =>
    intro k' hk' id hl hr
    obtain ⟨k, hk, ⟨hkey, rfl⟩ | ⟨_, rfl⟩⟩ := mem_update hk'
    · exact h.entry k hk id ((hs k hk hkey).symm.trans hl) hr
    · exact h.entry _ hk id hl hr
  case early =>
    intro k' hk' hearly
    obtain ⟨k, hk, ⟨hkey, rfl⟩ | ⟨_, rfl⟩⟩ := mem_update hk'
    · exact h.early k hk (he k hk hkey hearly)
    · exact h.early _ hk hearly

/-! ### Calls that come and go -/

theorem Tied.enter (h : Tied c) (hkey : ∀ k ∈ c.callers, k.key ≠ key) (method : String)
    (arguments : List Raw) : Tied (c.enter key method arguments) := by
  constructor
  case keys =>
    rw [Connection.enter, List.map_append]
    refine List.nodup_append.mpr ⟨h.keys, List.nodup_singleton _, ?_⟩
    intro a ha b hb he
    obtain ⟨k, hk, rfl⟩ := List.mem_map.mp ha
    cases List.mem_singleton.mp hb
    exact hkey k hk he
  case ids => exact h.ids
  case caller =>
    intro p hp
    obtain ⟨k, hk, hrest⟩ := h.caller p hp
    exact ⟨k, List.mem_append_left _ hk, hrest⟩
  case entry =>
    intro k hk id hs hr
    rcases List.mem_append.mp hk with hk | hk
    · exact h.entry k hk id hs hr
    · cases List.mem_singleton.mp hk
      cases hs
  case early =>
    intro k hk he
    rcases List.mem_append.mp hk with hk | hk
    · exact h.early k hk he
    · cases List.mem_singleton.mp hk
      rfl

/-- A call without an entry may go. -/
theorem Tied.drop (h : Tied c) (hnone : ∀ p ∈ c.pending, p.2 ≠ key) :
    Tied { c with callers := c.callers.filter fun k => k.key != key } := by
  constructor
  case keys => exact h.keys.sublist (List.filter_sublist.map Caller.key)
  case ids => exact h.ids
  case caller =>
    intro p hp
    obtain ⟨k, hk, hkey, hrest⟩ := h.caller p hp
    refine ⟨k, List.mem_filter.mpr ⟨hk, ?_⟩, hkey, hrest⟩
    simpa [hkey] using hnone p hp
  case entry => exact fun k hk => h.entry k (List.mem_filter.mp hk).1
  case early => exact fun k hk => h.early k (List.mem_filter.mp hk).1

/-- A call without an entry may return. -/
theorem Tied.leave (h : Tied c) (hnone : ∀ p ∈ c.pending, p.2 ≠ key) (result : Forwarded) :
    Tied (c.setStage key (.returned result)) := by
  constructor
  case keys =>
    rw [setStage_keys]
    exact h.keys
  case ids => exact h.ids
  case caller =>
    intro p hp
    obtain ⟨k, hk, hkey, hrest⟩ := h.caller p hp
    refine ⟨_, update_mem hk, ?_⟩
    rw [if_neg (hkey ▸ hnone p hp)]
    exact ⟨hkey, hrest⟩
  case entry =>
    intro k' hk' id hl hr
    obtain ⟨k, hk, ⟨_, rfl⟩ | ⟨_, rfl⟩⟩ := mem_update hk'
    · cases hl
    · exact h.entry _ hk id hl hr
  case early =>
    intro k' hk' he
    obtain ⟨k, hk, ⟨_, rfl⟩ | ⟨_, rfl⟩⟩ := mem_update hk'
    · exact he.elim
    · exact h.early _ hk he

/-- Once its id is taken off, a call has no entry. -/
theorem Tied.forget_none (h : Tied c) (hk : k ∈ c.callers)
    (hid : ∀ n, k.stage.listed? = some n → n = id) : ∀ p ∈ (c.forget id).pending, p.2 ≠ k.key := by
  intro p hp hkey
  obtain ⟨hp, hne⟩ := forget_pending.mp hp
  exact hne (hid _ (h.entry_eq hp hk hkey).1)

theorem Tied.finish (h : Tied c) (hk : k ∈ c.callers) (hs : k.stage.listed? = some id)
    (result : Forwarded) : Tied (c.finish k.key id result) :=
  (h.keep _).leave (h.forget_none hk fun _ hn => Option.some.inj (hn.symm.trans hs)) result

theorem Tied.abandon (h : Tied c) (hk : c.caller? key = some k) : Tied (c.abandon key) := by
  obtain ⟨hm, rfl⟩ := caller?_mem hk
  simp only [Connection.abandon, hk]
  split
  · rename_i id hid
    refine Tied.drop (h.keep _) (h.forget_none hm fun n hn => ?_)
    exact Option.some.inj ((Stage.id?_of_listed? hn).symm.trans hid)
  · rename_i hid
    refine h.drop fun p hp hkey => ?_
    have := Stage.id?_of_listed? (h.entry_eq hp hm hkey).1
    rw [hid] at this
    cases this

/-- A call enters itself under its id; who was entered under it waits for nothing more. -/
theorem Tied.list (h : Tied c) (hk : k ∈ c.callers) (hs : k.stage = .numbered id) :
    Tied ((c.list k.key id).setStage k.key (.listed id)) := by
  have hd : Tied (c.forget id) := h.keep _
  have hnone : ∀ p ∈ (c.forget id).pending, p.2 ≠ k.key :=
    h.forget_none hk fun n hn => by rw [hs] at hn; cases hn
  constructor
  case keys =>
    rw [setStage_keys]
    exact hd.keys
  case ids =>
    show ((id, k.key) :: (c.forget id).pending).map Prod.fst |>.Nodup
    refine List.nodup_cons.mpr ⟨fun hmem => ?_, hd.ids⟩
    obtain ⟨p, hp, hid⟩ := List.mem_map.mp hmem
    exact (forget_pending.mp hp).2 hid
  case caller =>
    intro p hp
    rcases List.mem_cons.mp hp with rfl | hp
    · have hopen := h.early k hk (by rw [hs]; trivial)
      have hkept : (c.kept (fun p => p.1 != id) k) = k := by
        refine kept_eq fun p hp hkey => ?_
        have := (h.entry_eq hp hk hkey).1
        rw [hs] at this
        cases this
      have hm : k ∈ (c.list k.key id).callers := List.mem_map.mpr ⟨k, hk, hkept⟩
      refine ⟨_, update_mem hm, ?_⟩
      rw [if_pos rfl]
      exact ⟨rfl, rfl, hopen⟩
    · obtain ⟨k', hk', hkey, hrest⟩ := hd.caller p hp
      refine ⟨_, update_mem (c := c.list k.key id) hk', ?_⟩
      rw [if_neg (hkey ▸ hnone p hp)]
      exact ⟨hkey, hrest⟩
  case entry =>
    intro k' hk' n hl hr
    obtain ⟨k₁, hk₁, ⟨hkey, rfl⟩ | ⟨_, rfl⟩⟩ := mem_update hk'
    · cases hl
      rw [hkey]
      exact List.mem_cons_self ..
    · exact List.mem_cons_of_mem _ (hd.entry _ hk₁ n hl hr)
  case early =>
    intro k' hk' he
    obtain ⟨k₁, hk₁, ⟨_, rfl⟩ | ⟨_, rfl⟩⟩ := mem_update hk'
    · exact he.elim
    · exact hd.early _ hk₁ he

/-! ### Replies -/

theorem Tied.handOver (h : Tied c) (hp : (id, key) ∈ c.pending) (outcome : Outcome) :
    Tied (c.handOver id key outcome) := by
  have hd : Tied (c.forget id) := h.keep _
  obtain ⟨k, hk, rfl, hs, -⟩ := h.caller _ hp
  have hnone : ∀ p ∈ (c.forget id).pending, p.2 ≠ k.key :=
    h.forget_none hk fun n hn => Option.some.inj (hn.symm.trans hs)
  constructor
  case keys =>
    have hf : ∀ k : Caller, ({ k with reply := .answered outcome } : Caller).key = k.key :=
      fun _ => rfl
    rw [Connection.handOver, update_keys hf]
    exact hd.keys
  case ids => exact hd.ids
  case caller =>
    intro p hp
    obtain ⟨k', hk', hkey, hrest⟩ := hd.caller p hp
    refine ⟨_, update_mem hk', ?_⟩
    rw [if_neg (hkey ▸ hnone p hp)]
    exact ⟨hkey, hrest⟩
  case entry =>
    intro k' hk' n hl hr
    obtain ⟨k₁, hk₁, ⟨_, rfl⟩ | ⟨_, rfl⟩⟩ := mem_update hk'
    · cases hr
    · exact hd.entry _ hk₁ n hl hr
  case early =>
    intro k' hk' he
    obtain ⟨k₁, hk₁, ⟨hkey, rfl⟩ | ⟨_, rfl⟩⟩ := mem_update hk'
    · obtain ⟨k₂, hk₂, rfl⟩ := mem_keep hk₁
      rw [kept_key] at hkey
      cases h.eq_of_key hk₂ hk hkey
      rw [kept_stage] at he
      rw [he.listed?] at hs
      cases hs
    · exact hd.early _ hk₁ he

/-! ### Every move -/

theorem Tied.advances {es : List Event} (h : Tied c) (hk : c.caller? key = some k)
    (ha : Advances c k c' es) : Tied c' := by
  obtain ⟨hm, rfl⟩ := caller?_mem hk
  have only {k' : Caller} (hk' : k' ∈ c.callers) (hkey : k'.key = k.key) : k' = k :=
    h.eq_of_key hk' hm hkey
  cases ha with
  | refused hs =>
    refine h.leave (fun p hp hkey => ?_) _
    have := (h.entry_eq hp hm hkey).1
    rw [hs] at this
    cases this
  | admitted hs =>
    refine h.setStage (fun k' hk' hkey => ?_) fun k' hk' hkey _ => ?_
    · rw [only hk' hkey, hs]
      rfl
    · rw [only hk' hkey, hs]
      trivial
  | numbered hs =>
    refine Tied.congr (h.setStage (fun k' hk' hkey => ?_) fun k' hk' hkey _ => ?_) rfl rfl
    · rw [only hk' hkey, hs]
      rfl
    · rw [only hk' hkey, hs]
      trivial
  | listed hs => exact h.list hm hs
  | turnedBack hs => exact h.finish hm (by rw [hs]; rfl) _
  | ready hs =>
    refine h.setStage (fun k' hk' hkey => ?_) fun k' hk' hkey he => he.elim
    rw [only hk' hkey, hs]
    rfl
  | unsent hs => exact h.finish hm (by rw [hs]; rfl) _
  | queued hs =>
    refine Tied.congr (h.setStage (fun k' hk' hkey => ?_) fun k' hk' hkey he => ?_) rfl rfl
    · rw [only hk' hkey, hs]
      rfl
    · exact he.elim
  | answered hs => exact h.finish hm (by rw [hs]; rfl) _
  | lost hs => exact h.finish hm (by rw [hs]; rfl) _

/-- **Every move preserves the tie between entries and calls.** -/
theorem Tied.step {m : Move} (h : Tied c) (hm : c.step m = some c') : Tied c' := by
  have ha := step_affects hm
  generalize c.events m c' = es at ha
  cases ha with
  | entered hk => exact h.enter hk _ _
  | advanced hk ha => exact h.advances hk ha
  | abandoned hk => exact h.abandon hk
  | answered _ hp ha => exact (h.handOver (List.mem_of_find?_eq_some hp) _).of_agrees ha
  | cleared ha => exact (h.keep _).of_agrees ha
  | others ha => exact h.of_agrees ha

end Connection
end Switchboard.Redirect
