import Switchboard.Proofs.Connection.Closing
import Switchboard.Proofs.Connection.Following
import Switchboard.Proofs.Connection.Numbering
import Switchboard.Proofs.Connection.Order

/-! Calls that are given up.

A connection *hosts* calls whose keys are below a bound, as many as that at most; whatever is done
with it preserves this (`Hosts.step`, `Hosts.start`, `Hosts.settle`, `Hosts.abort`). As long as
these are fewer than there are ids, no two calls hold the same id (`Hosts.unmixed`); and where no
two calls do, a call that is given up goes with its own pending entry and leaves everything else as
it is (`Unmixed.abandon_eq`). -/
namespace Switchboard.Redirect.Connection
open Json

variable {c c' : Connection} {k : Caller} {key id n : Nat} {m : Move}

/-! ### The calls that a connection hosts -/

/-- The calls have keys below the bound, and no more than that have been begun. -/
structure Hosts (n : Nat) (c : Connection) : Prop where
  tied : Tied c
  keys : ∀ k ∈ c.callers, k.key < n
  counted : ∃ log, Numbered ⟨c, log⟩ ∧ (callsOf log).length ≤ n

theorem hosts_opened (n longestFrame : Nat) (capacity : Capacity) :
    Hosts n { longestFrame, capacity } where
  tied := tied_opened ..
  keys _ hk := by cases hk
  counted := ⟨[], numbered_opened .., Nat.zero_le _⟩

theorem Hosts.mono {n' : Nat} (h : Hosts n c) (hn : n ≤ n') : Hosts n' c where
  tied := h.tied
  keys k hk := Nat.lt_of_lt_of_le (h.keys k hk) hn
  counted :=
    let ⟨log, hlog, hle⟩ := h.counted
    ⟨log, hlog, Nat.le_trans hle hn⟩

/-- No move but a call's beginning is seen as one. -/
theorem callsOf_affects {es : List Event} (ha : Affects c m c' es)
    (hm : ¬m.Begins) : callsOf es = [] := by
  cases ha with
  | entered => exact (hm trivial).elim
  | advanced _ ha => cases ha <;> rfl
  | others _ he => exact (quiet_events he).1
  | _ => rfl

theorem Hosts.step (h : Hosts n c) (hm : c.step m = some c') (hno : ¬m.Begins) : Hosts n c' := by
  obtain ⟨log, hlog, hle⟩ := h.counted
  have ha := step_affects hm
  refine ⟨h.tied.step hm, fun k hk => ?_, log ++ c.events m c', ?_, ?_⟩
  · rcases begun_of_affects h.tied ha hk with ⟨k', hk', hsame⟩ | hbegun
    · injection hsame with hkey
      exact hkey ▸ h.keys k' hk'
    · exact (hno (hbegun ▸ trivial)).elim
  · exact @Numbered.step _ ⟨c', _⟩ m hlog h.tied (by rw [Session.step, hm]; rfl)
  · rw [callsOf_append, callsOf_affects ha hno, List.append_nil]
    exact hle

theorem Hosts.abandon (h : Hosts n c) (key : Nat) : Hosts n (c.abandon key) :=
  h.step (m := .abandon key) rfl id

theorem Hosts.enter (h : Hosts n c) (method : String) (arguments : List Raw) :
    Hosts (n + 1) (c.enter n method arguments) := by
  obtain ⟨log, hlog, hle⟩ := h.counted
  have hfresh : ∀ k ∈ c.callers, k.key ≠ n := fun k hk => Nat.ne_of_lt (h.keys k hk)
  have hm : c.step (.enter n method arguments) = some (c.enter n method arguments) := by
    rw [Connection.step, if_neg (by simpa using hfresh)]
  refine ⟨h.tied.step hm, fun k hk => ?_, log ++ [.entered n], ?_, ?_⟩
  · rcases List.mem_append.mp hk with hk | hk
    · exact Nat.lt_succ_of_lt (h.keys k hk)
    · cases List.mem_singleton.mp hk
      exact Nat.lt_succ_self n
  · exact @Numbered.step _ ⟨_, _⟩ (.enter n method arguments) hlog h.tied
      (by rw [Session.step, hm]; rfl)
  · rw [callsOf_append, List.length_append]
    exact Nat.succ_le_succ hle

theorem Hosts.callSteps (h : Hosts n c) (key steps : Nat) : Hosts n (c.callSteps key steps) := by
  induction steps generalizing c with
  | zero => exact h
  | succ steps ih =>
    cases hn : c.callStep key with
    | none =>
      simp only [Connection.callSteps, hn]
      exact h
    | some d =>
      simp only [Connection.callSteps, hn]
      exact ih (h.step (m := .call key) hn id)

/-- A call begins whose key is the bound. -/
theorem Hosts.start (h : Hosts n c) (method : String) (arguments : List Raw) :
    Hosts (n + 1) (c.start n method arguments) :=
  (h.enter method arguments).callSteps n 5

theorem Hosts.settle (h : Hosts n c) (steps : Nat) : Hosts n (c.settle steps).1 := by
  induction steps generalizing c with
  | zero => exact h
  | succ steps ih =>
    cases hn : c.next with
    | none =>
      simp only [Connection.settle, hn]
      exact h
    | some p =>
      simp only [Connection.settle, hn]
      refine ih (next_goes_on hn (fun k hk ha => ?_) fun m hno hm => h.step hm hno)
      refine h.step (m := .call k.key) ?_ id
      rw [Connection.step, callStep, h.tied.caller?_eq hk, Option.bind_some, ha]

theorem Hosts.of_agrees (h : Hosts n c) (ha : Agrees c c') : Hosts n c' := by
  obtain ⟨log, hlog, hle⟩ := h.counted
  have hweigh (w : Stage → Nat) : c'.weigh w = c.weigh w := weigh_congr ha.callers
  refine ⟨h.tied.of_agrees ha, ha.callers ▸ h.keys, log,
    ⟨hlog.taken, ?_, fun i => ?_, ?_, fun i => ?_⟩, hle⟩
  · exact ha.nextId.trans hlog.next
  · exact (hlog.balance i).trans (by rw [hweigh])
  · exact (hweigh _).symm ▸ hlog.begun
  · exact (hweigh _).symm ▸ hlog.queued i

theorem Hosts.beginClosing (h : Hosts n c) (key : Nat) (waits : Bool) :
    Hosts n (c.beginClosing key waits) := h.of_agrees ⟨rfl, rfl, rfl⟩

theorem Hosts.keep (h : Hosts n c) (stays : Nat × Nat → Bool) : Hosts n (c.keep stays) := by
  obtain ⟨log, hlog, hle⟩ := h.counted
  refine ⟨h.tied.keep stays, fun k hk => ?_, log,
    ⟨hlog.taken, hlog.next, fun i => ?_, ?_, fun i => ?_⟩, hle⟩
  · obtain ⟨k', hk', rfl⟩ := mem_keep hk
    rw [kept_key]
    exact h.keys k' hk'
  · exact (hlog.balance i).trans (by rw [weigh_keep])
  · exact (weigh_keep (w := idless) stays).symm ▸ hlog.begun
  · exact (weigh_keep (w := lineless i) stays).symm ▸ hlog.queued i

theorem Hosts.abort (h : Hosts n c) : Hosts n c.abort :=
  have hmarked : Hosts n c.mark := h.of_agrees ⟨rfl, rfl, rfl⟩
  hmarked.keep _

/-! ### Ids that are held -/

/-- No two of the calls hold the same id. -/
def Unmixed (c : Connection) : Prop :=
  ∀ k ∈ c.callers, ∀ k' ∈ c.callers, ∀ id, k.stage.id? = some id → k'.stage.id? = some id → k = k'

theorem unmixed_of_numbered {log : List Event} (h : Numbered ⟨c, log⟩) (ht : Tied c)
    (hfew : (callsOf log).length < UInt64.size) : c.Unmixed := by
  intro k hk k' hk' id hid hid'
  by_contra hne
  have hone : (idsOf log).count id ≤ 1 := List.nodup_iff_count_le_one.mp (h.ids_nodup hfew) id
  have hbalance : (idsOf log).count id = weighAll (holding id) c.callers + (freedOf log).count id :=
    h.balance id
  -- either of them holds the id, besides the other
  have hkey : k'.key ≠ k.key := fun hsame => hne (ht.eq_of_key hk hk' hsame.symm)
  have hrest : k' ∈ c.callers.filter fun k' => k'.key != k.key :=
    List.mem_filter.mpr ⟨hk', bne_iff_ne.mpr hkey⟩
  have hfirst := weighAll_filter (w := holding id) _ ht.keys hk
  have hsecond := weighAll_filter (w := holding id) _
    (ht.keys.sublist (List.filter_sublist.map Caller.key)) hrest
  have hheld : holding id k.stage = 1 := if_pos hid
  have hheld' : holding id k'.stage = 1 := if_pos hid'
  omega

/-- **As long as there are enough ids, no two calls hold the same one.** -/
theorem Hosts.unmixed (h : Hosts n c) (hn : n < UInt64.size) : c.Unmixed :=
  let ⟨_, hlog, hle⟩ := h.counted
  unmixed_of_numbered hlog h.tied (Nat.lt_of_le_of_lt hle hn)

/-! ### Calls that are given up -/

/-- Without the calls of these keys, and without their pending entries. -/
def without (c : Connection) (keys : List Nat) : Connection :=
  { c with
    callers := c.callers.filter fun k => k.key ∉ keys
    pending := c.pending.filter fun p => p.2 ∉ keys }

@[simp] theorem without_nil (c : Connection) : c.without [] = c := by simp [without]

theorem without_without (c : Connection) (a b : List Nat) :
    (c.without a).without b = c.without (a ++ b) := by
  simp [without, List.filter_filter, not_or, Bool.and_comm]

/-- The other calls are where they were. -/
theorem caller?_without {keys : List Nat} (h : key ∉ keys) :
    (c.without keys).caller? key = c.caller? key := by
  simp only [caller?, without, List.find?_filter]
  congr 1
  funext k
  by_cases hk : k.key = key <;> simp [hk, h]

theorem Unmixed.without (hu : c.Unmixed) (keys : List Nat) : (c.without keys).Unmixed :=
  fun k hk k' hk' => hu k (List.mem_filter.mp hk).1 k' (List.mem_filter.mp hk').1

/-- The entries under the id of a call are its own. -/
theorem Unmixed.entry_iff (hu : c.Unmixed) (h : Tied c) (hk : k ∈ c.callers)
    (hid : k.stage.id? = some id) {p : Nat × Nat} (hp : p ∈ c.pending) :
    p.1 = id ↔ p.2 = k.key := by
  obtain ⟨k', hk', hkey, hlisted, -⟩ := h.caller p hp
  have hid' := Stage.id?_of_listed? hlisted
  constructor
  · rintro rfl
    rw [← hkey, hu k' hk' k hk _ hid' hid]
  · intro hsame
    have := h.eq_of_key hk' hk (hkey.trans hsame)
    subst this
    exact Option.some.inj (hid'.symm.trans hid)

/-- **A call that is given up goes with its own pending entry, and leaves everything else as it
is.** -/
theorem Unmixed.abandon_eq (hu : c.Unmixed) (h : Tied c) (key : Nat) :
    c.abandon key = c.without [key] := by
  have hcallers : (c.callers.filter fun k => k.key != key) = (c.without [key]).callers :=
    List.filter_congr fun k _ => Bool.eq_iff_iff.mpr (by simp)
  have hnone (hno : ∀ p ∈ c.pending, p.2 ≠ key) : (c.without [key]).pending = c.pending :=
    List.filter_eq_self.mpr fun p hp => by simpa using hno p hp
  unfold Connection.abandon
  cases hk : c.caller? key with
  | none =>
    have hno : ∀ k ∈ c.callers, k.key ≠ key := by simpa [caller?] using hk
    rw [List.filter_eq_self.mpr fun k hk => by simpa using hno k hk] at hcallers
    have hpending := hnone fun p hp hsame => by
      obtain ⟨k, hk, hkey, -⟩ := h.caller p hp
      exact hno k hk (hkey.trans hsame)
    simp only [Connection.without] at hcallers hpending ⊢
    rw [← hcallers, hpending]
  | some k =>
    obtain ⟨hm, rfl⟩ := caller?_mem hk
    dsimp only
    cases hid : k.stage.id? with
    | none =>
      have hpending := hnone fun p hp hsame => by
        have hlisted := Stage.id?_of_listed? (h.entry_eq hp hm hsame).1
        cases hid.symm.trans hlisted
      simp only [Connection.without] at hcallers hpending ⊢
      rw [← hcallers, hpending]
    | some id =>
      have hpending : (c.forget id).pending = (c.without [k.key]).pending :=
        List.filter_congr fun p hp => Bool.eq_iff_iff.mpr (by simp [hu.entry_iff h hm hid hp])
      -- nobody else waits for a reply under this id
      have hkept : (c.forget id).callers.filter (fun k' => k'.key != k.key) =
          c.callers.filter fun k' => k'.key != k.key := by
        have hkey : (fun k' => k'.key != k.key) ∘ c.kept (fun p => p.1 != id) =
            fun k' => k'.key != k.key := funext fun k' => by simp
        rw [forget, keep_callers, List.filter_map, hkey]
        refine (List.map_congr_left fun k' hk' => kept_eq fun p hp hsame => ?_).trans
          (List.map_id' _)
        refine bne_iff_ne.mpr fun he => bne_iff_ne.mp (List.mem_filter.mp hk').2 ?_
        exact hsame.symm.trans ((hu.entry_iff h hm hid hp).mp he)
      simp only [Connection.without, forget, Connection.keep] at hcallers hpending hkept ⊢
      rw [hkept, ← hcallers, ← hpending]

/-- The entry of a call that is given up is gone, however many there have been. -/
theorem Tied.abandon_pending (h : Tied c) {p : Nat × Nat} (hp : p ∈ (c.abandon key).pending) :
    p ∈ c.pending ∧ p.2 ≠ key := by
  unfold Connection.abandon at hp
  split at hp
  · rename_i hk
    have hno : ∀ k ∈ c.callers, k.key ≠ key := by simpa [caller?] using hk
    refine ⟨hp, fun hsame => ?_⟩
    obtain ⟨k, hk, hkey, -⟩ := h.caller p hp
    exact hno k hk (hkey.trans hsame)
  · rename_i k hk
    obtain ⟨hm, rfl⟩ := caller?_mem hk
    dsimp only at hp
    split at hp
    · rename_i id hid
      refine ⟨(forget_pending.mp hp).1, h.forget_none hm (fun n hn => ?_) p hp⟩
      exact Option.some.inj ((Stage.id?_of_listed? hn).symm.trans hid)
    · rename_i hid
      refine ⟨hp, fun hsame => ?_⟩
      cases hid.symm.trans (Stage.id?_of_listed? (h.entry_eq hp hm hsame).1)

@[simp] theorem abandon_closed (key : Nat) : (c.abandon key).closed = c.closed := by
  rw [c.abandon_frame key]

/-! ### Calls that begin -/

theorem Advances.pending {es : List Event} (h : Advances c k c' es) {p : Nat × Nat}
    (hp : p ∈ c'.pending) : p ∈ c.pending ∨ p.2 = k.key := by
  cases h with
  | listed =>
    rcases List.mem_cons.mp hp with rfl | hp
    · exact .inr rfl
    · exact .inl (forget_pending.mp hp).1
  | turnedBack | unsent | answered | lost => exact .inl (forget_pending.mp hp).1
  | _ => exact .inl hp

/-- The steps of a call enter nothing but itself, and close nothing. -/
theorem callSteps_frame (c : Connection) (key steps : Nat) :
    (c.callSteps key steps).closed = c.closed ∧
      ∀ p ∈ (c.callSteps key steps).pending, p ∈ c.pending ∨ p.2 = key := by
  induction steps generalizing c with
  | zero => exact ⟨rfl, fun _ hp => .inl hp⟩
  | succ steps ih =>
    cases hn : c.callStep key with
    | none =>
      rw [show c.callSteps key (steps + 1) = c by simp only [callSteps, hn]]
      exact ⟨rfl, fun _ hp => .inl hp⟩
    | some d =>
      rw [show c.callSteps key (steps + 1) = d.callSteps key steps by simp only [callSteps, hn]]
      obtain ⟨k, hk, ha⟩ := callStep_cases hn
      obtain ⟨hclosed, hpending⟩ := ih d
      refine ⟨hclosed.trans ha.marks.1, fun p hp => ?_⟩
      rcases hpending p hp with hp | hp
      · exact (ha.pending hp).imp_right fun h => h.trans (caller?_mem hk).2
      · exact .inr hp

end Switchboard.Redirect.Connection
