import Switchboard.Proofs.Connection.Pending

/-! Which ids are taken, held and given up.

Ids are counted up in a word of 64 bits, so the log of a session shows them in the order
`1, 2, …` (`Numbered.taken`). Each id that was taken is held by one call or was given up
once (`Numbered.balance`), and at most one line was queued under it (`Numbered.queued`). So
as long as fewer than `UInt64.size` calls were begun, no id is taken twice, none that was given up
is held again, and no call is sent twice. -/
namespace Switchboard.Redirect

/-! ### Read off the log -/

/-- The keys with which calls were begun. -/
def callsOf (log : List Event) : List Nat :=
  log.filterMap fun
    | .entered key => some key
    | _ => none

/-- The ids that were taken, in order. -/
def idsOf (log : List Event) : List Nat :=
  log.filterMap fun
    | .numbered _ id => some id
    | _ => none

/-- A call that has queued its line. -/
structure Dispatch where
  key : Nat
  id : Nat
  method : String
  arguments : List Json.Raw

/-- The calls that have queued their lines, in order. -/
def dispatchesOf (log : List Event) : List Dispatch :=
  log.filterMap fun
    | .queued key id method arguments => some ⟨key, id, method, arguments⟩
    | _ => none

def Event.freed? : Event → Option Nat
  | .returned _ id? _ => id?
  | .abandoned _ id? => id?
  | _ => none

/-- The ids that were given up, in order. -/
def freedOf (log : List Event) : List Nat := log.filterMap Event.freed?

@[simp] theorem callsOf_append (a b : List Event) : callsOf (a ++ b) = callsOf a ++ callsOf b :=
  List.filterMap_append

@[simp] theorem idsOf_append (a b : List Event) : idsOf (a ++ b) = idsOf a ++ idsOf b :=
  List.filterMap_append

@[simp] theorem dispatchesOf_append (a b : List Event) :
    dispatchesOf (a ++ b) = dispatchesOf a ++ dispatchesOf b := List.filterMap_append

@[simp] theorem freedOf_append (a b : List Event) : freedOf (a ++ b) = freedOf a ++ freedOf b :=
  List.filterMap_append

theorem quiet_events {es : List Event} (h : ∀ e ∈ es, e.Quiet) :
    callsOf es = [] ∧ idsOf es = [] ∧ dispatchesOf es = [] ∧ freedOf es = [] := by
  refine ⟨List.filterMap_eq_nil_iff.mpr fun e he => ?_,
    List.filterMap_eq_nil_iff.mpr fun e he => ?_, List.filterMap_eq_nil_iff.mpr fun e he => ?_,
    List.filterMap_eq_nil_iff.mpr fun e he => ?_⟩
  all_goals
    have := h e he
    cases e <;> first | rfl | exact this.elim

/-- The id of a call that has taken one and has not queued its line. -/
def Stage.unsent? : Stage → Option Nat
  | .numbered id => some id
  | .listed id => some id
  | .ready id => some id
  | _ => none

/-! ### Weighing the calls

Calls are counted by a weight that depends on the stage alone. A step of one call moves
its own weight and no other's. -/

namespace Connection

/-- The weight of all these calls. -/
def weighAll (w : Stage → Nat) : List Caller → Nat
  | [] => 0
  | k :: rest => w k.stage + weighAll w rest

def weigh (w : Stage → Nat) (c : Connection) : Nat := weighAll w c.callers

variable {c c' : Connection} {k : Caller} {key id : Nat} {w : Stage → Nat}

theorem weighAll_append (a b : List Caller) :
    weighAll w (a ++ b) = weighAll w a + weighAll w b := by
  induction a with
  | nil => exact (Nat.zero_add _).symm
  | cons k rest ih => simp only [List.cons_append, weighAll, ih, Nat.add_assoc]

theorem weighAll_map {f : Caller → Caller} (hf : ∀ k, (f k).stage = k.stage)
    (callers : List Caller) : weighAll w (callers.map f) = weighAll w callers := by
  induction callers with
  | nil => rfl
  | cons k rest ih => simp only [List.map_cons, weighAll, hf, ih]

theorem weigh_keep (stays : Nat × Nat → Bool) : (c.keep stays).weigh w = c.weigh w := by
  rw [weigh, keep_callers]
  exact weighAll_map (fun _ => kept_stage stays) _

theorem weigh_congr (h : c'.callers = c.callers) : c'.weigh w = c.weigh w := by
  rw [weigh, h, weigh]

theorem weigh_enter {method : String} {arguments : List Json.Raw} :
    (c.enter key method arguments).weigh w = c.weigh w + w .entered :=
  weighAll_append _ _

theorem weighAll_set (callers : List Caller) (hn : (callers.map Caller.key).Nodup)
    (hk : k ∈ callers) (stage : Stage) :
    weighAll w (callers.map fun k' => if k'.key = k.key then { k' with stage := stage } else k') +
        w k.stage = weighAll w callers + w stage := by
  induction callers with
  | nil => cases hk
  | cons a rest ih =>
    rw [List.map_cons, List.nodup_cons] at hn
    rcases List.mem_cons.mp hk with rfl | hk
    · have hrest : (rest.map fun k' => if k'.key = k.key then { k' with stage := stage } else k') =
          rest := by
        refine (List.map_congr_left fun k' hk' => if_neg fun he => hn.1 ?_).trans
          (List.map_id' rest)
        exact he ▸ List.mem_map_of_mem hk'
      simp only [List.map_cons, hrest, if_pos, weighAll]
      omega
    · have hne : a.key ≠ k.key := fun he => hn.1 (he ▸ List.mem_map_of_mem hk)
      have := ih hn.2 hk
      simp only [List.map_cons, hne, if_false, weighAll]
      omega

theorem weighAll_filter (callers : List Caller) (hn : (callers.map Caller.key).Nodup)
    (hk : k ∈ callers) :
    weighAll w (callers.filter fun k' => k'.key != k.key) + w k.stage = weighAll w callers := by
  induction callers with
  | nil => cases hk
  | cons a rest ih =>
    rw [List.map_cons, List.nodup_cons] at hn
    rcases List.mem_cons.mp hk with rfl | hk
    · have hrest : rest.filter (fun k' => k'.key != k.key) = rest := by
        refine List.filter_eq_self.mpr fun k' hk' => ?_
        exact bne_iff_ne.mpr fun he => hn.1 (he ▸ List.mem_map_of_mem hk')
      simp only [List.filter_cons, bne_self_eq_false, Bool.false_eq_true, if_false, hrest, weighAll]
      omega
    · have hne : (a.key != k.key) = true :=
        bne_iff_ne.mpr fun he => hn.1 (he ▸ List.mem_map_of_mem hk)
      have := ih hn.2 hk
      simp only [List.filter_cons, hne, if_true, weighAll]
      omega

theorem weigh_setStage (h : Tied c) (hk : k ∈ c.callers) (stage : Stage) :
    (c.setStage k.key stage).weigh w + w k.stage = c.weigh w + w stage :=
  weighAll_set c.callers h.keys hk stage

theorem forget_mem (hk : k ∈ c.callers) :
    c.kept (fun p => p.1 != id) k ∈ (c.forget id).callers := List.mem_map.mpr ⟨k, hk, rfl⟩

theorem weigh_forget_setStage (h : Tied c) (hk : k ∈ c.callers) (stage : Stage) :
    ((c.forget id).setStage k.key stage).weigh w + w k.stage = c.weigh w + w stage := by
  have hm : c.kept (fun p => p.1 != id) k ∈ (c.forget id).callers := forget_mem hk
  have := weigh_setStage (w := w) (h.keep _) hm stage
  rw [kept_key, kept_stage, weigh_keep] at this
  exact this

theorem weigh_handOver {outcome : Outcome} :
    (c.handOver id key outcome).weigh w = c.weigh w := by
  rw [← weigh_keep (c := c) fun p => p.1 != id, weigh, handOver, update]
  exact weighAll_map (fun k => by split <;> rfl) _

theorem weigh_drop (h : (c.callers.map Caller.key).Nodup) (hk : k ∈ c.callers) :
    ({ c with callers := c.callers.filter fun k' => k'.key != k.key } : Connection).weigh w +
      w k.stage = c.weigh w := weighAll_filter c.callers h hk

theorem weigh_abandon (h : Tied c) (hk : c.caller? key = some k) :
    (c.abandon key).weigh w + w k.stage = c.weigh w := by
  obtain ⟨hm, rfl⟩ := caller?_mem hk
  simp only [abandon, hk]
  split
  · rename_i id _
    have hd : Tied (c.forget id) := h.keep _
    have hkept : c.kept (fun p => p.1 != id) k ∈ (c.forget id).callers := forget_mem hm
    have := weigh_drop (w := w) hd.keys hkept
    rw [kept_key, kept_stage, forget, weigh_keep] at this
    exact this
  · exact weigh_drop h.keys hm

/-! ### What a move adds -/

/-- The id is in the call's hands. -/
def holding (id : Nat) (stage : Stage) : Nat := if stage.id? = some id then 1 else 0

/-- The call has yet to take an id. -/
def idless : Stage → Nat
  | .entered => 1
  | .admitted => 1
  | _ => 0

/-- The call has yet to queue its line under the id. -/
def lineless (id : Nat) (stage : Stage) : Nat := if stage.unsent? = some id then 1 else 0

/-- What is seen of a move agrees with what it changes. -/
structure Accounts (c c' : Connection) (es : List Event) : Prop where
  taken : (idsOf es = [] ∧ c'.nextId = c.nextId) ∨
    (idsOf es = [c.nextId.toNat] ∧ c'.nextId = c.nextId + 1)
  balance : ∀ n, (idsOf es).count n + c.weigh (holding n) =
    c'.weigh (holding n) + (freedOf es).count n
  begun : (idsOf es).length + c'.weigh idless ≤ c.weigh idless + (callsOf es).length
  queued : ∀ n, ((dispatchesOf es).map Dispatch.id).count n + c'.weigh (lineless n) ≤
    c.weigh (lineless n) + (idsOf es).count n

/-- A call that goes from one stage to another. -/
theorem Accounts.of_stage {es : List Event} {a b : Stage}
    (hw : ∀ w : Stage → Nat, c'.weigh w + w a = c.weigh w + w b)
    (ht : (idsOf es = [] ∧ c'.nextId = c.nextId) ∨
      (idsOf es = [c.nextId.toNat] ∧ c'.nextId = c.nextId + 1))
    (hb : ∀ n, (idsOf es).count n + holding n a = holding n b + (freedOf es).count n)
    (hi : (idsOf es).length + idless b ≤ idless a + (callsOf es).length)
    (hq : ∀ n, ((dispatchesOf es).map Dispatch.id).count n + lineless n b ≤
      lineless n a + (idsOf es).count n) : Accounts c c' es where
  taken := ht
  balance n := by
    have := hw (holding n)
    have := hb n
    omega
  begun := by
    have := hw idless
    omega
  queued n := by
    have := hw (lineless n)
    have := hq n
    omega

/-- A call that gives up its id, if it has one, and weighs nothing any more. -/
theorem Accounts.of_freed {e : Event} {a : Stage}
    (hw : ∀ w : Stage → Nat, (∀ result, w (.returned result) = 0) →
      c'.weigh w + w a = c.weigh w)
    (hn : c'.nextId = c.nextId) (he : e.freed? = a.id?) (hids : idsOf [e] = [])
    (hcalls : callsOf [e] = []) (hsent : dispatchesOf [e] = []) : Accounts c c' [e] where
  taken := .inl ⟨hids, hn⟩
  balance n := by
    have := hw (holding n) fun _ => rfl
    have hfreed : (freedOf [e]).count n = holding n a := by
      cases h : a.id? with
      | none => simp [freedOf, he, holding, h]
      | some id => simp [freedOf, he, holding, h, List.count_singleton]
    rw [hids, hfreed, List.count_nil]
    omega
  begun := by
    have := hw idless fun _ => rfl
    rw [hids, hcalls]
    simp only [List.length_nil]
    omega
  queued n := by
    have := hw (lineless n) fun _ => rfl
    rw [hids, hsent, List.map_nil, List.count_nil]
    omega

theorem Advances.accounts {es : List Event} (ht : Tied c) (hk : c.caller? key = some k)
    (h : Advances c k c' es) : Accounts c c' es := by
  obtain ⟨hm, rfl⟩ := caller?_mem hk
  have hset (stage : Stage) (w : Stage → Nat) :
      (c.setStage k.key stage).weigh w + w k.stage = c.weigh w + w stage :=
    weigh_setStage ht hm stage
  have hfin (id : Nat) (stage : Stage) (w : Stage → Nat) :
      ((c.forget id).setStage k.key stage).weigh w + w k.stage = c.weigh w + w stage :=
    weigh_forget_setStage ht hm stage
  have hret (id : Nat) (result : Forwarded) (w : Stage → Nat)
      (h0 : ∀ result, w (.returned result) = 0) :
      (c.finish k.key id result).weigh w + w k.stage = c.weigh w := by
    have := hfin id (.returned result) w
    rwa [h0] at this
  cases h with
  | refused hs =>
    have hw (w : Stage → Nat) (h0 : ∀ result, w (.returned result) = 0) :
        (c.setStage k.key (.returned (.error .closed))).weigh w + w k.stage = c.weigh w := by
      have := hset (.returned (.error .closed)) w
      rwa [h0] at this
    exact .of_freed hw rfl (by rw [hs]; rfl) rfl rfl rfl
  | admitted hs =>
    refine .of_stage (hset _) (.inl ⟨rfl, rfl⟩) (fun n => ?_) ?_ fun n => ?_
    · rw [hs]
      rfl
    · rw [hs]
      exact Nat.le_refl _
    · rw [hs]
      exact Nat.le_refl _
  | numbered hs =>
    refine .of_stage (hset (.numbered c.nextId.toNat)) (.inr ⟨rfl, rfl⟩) (fun n => ?_) ?_
      fun n => ?_
    · rw [hs]
      show [c.nextId.toNat].count n + 0 = holding n (.numbered c.nextId.toNat) + 0
      simp [holding, Stage.id?, List.count_singleton]
    · rw [hs]
      exact Nat.le_refl _
    · rw [hs]
      show 0 + lineless n (.numbered c.nextId.toNat) ≤ 0 + [c.nextId.toNat].count n
      simp [lineless, Stage.unsent?, List.count_singleton]
  | @listed id hs =>
    refine .of_stage (hfin id _) (.inl ⟨rfl, rfl⟩) (fun n => ?_) ?_ fun n => ?_
    · rw [hs]
      exact Nat.zero_add _
    · rw [hs]
      exact Nat.le_refl _
    · rw [hs]
      exact Nat.le_of_eq (Nat.zero_add _)
  | turnedBack hs =>
    exact .of_freed (hret _ _) rfl (by rw [hs]; rfl) rfl rfl rfl
  | ready hs =>
    refine .of_stage (hset _) (.inl ⟨rfl, rfl⟩) (fun n => ?_) ?_ fun n => ?_
    · rw [hs]
      exact Nat.zero_add _
    · rw [hs]
      exact Nat.le_refl _
    · rw [hs]
      exact Nat.le_of_eq (Nat.zero_add _)
  | unsent hs =>
    exact .of_freed (hret _ _) rfl (by rw [hs]; rfl) rfl rfl rfl
  | @queued id hs =>
    refine .of_stage (hset (.waiting id)) (.inl ⟨rfl, rfl⟩) (fun n => ?_) ?_ fun n => ?_
    · rw [hs]
      exact Nat.zero_add _
    · rw [hs]
      exact Nat.le_refl _
    · rw [hs]
      show [id].count n + 0 ≤ lineless n (.ready id) + 0
      simp [lineless, Stage.unsent?, List.count_singleton]
  | answered hs =>
    exact .of_freed (hret _ _) rfl (by rw [hs]; rfl) rfl rfl rfl
  | lost hs =>
    exact .of_freed (hret _ _) rfl (by rw [hs]; rfl) rfl rfl rfl

theorem Accounts.of_agrees {d : Connection} {es : List Event} (h : Accounts c d es)
    (ha : Agrees d c') : Accounts c c' es where
  taken := by
    rw [ha.nextId]
    exact h.taken
  balance n := by
    rw [weigh_congr ha.callers]
    exact h.balance n
  begun := by
    rw [weigh_congr ha.callers]
    exact h.begun
  queued n := by
    rw [weigh_congr ha.callers]
    exact h.queued n

theorem Accounts.of_same {es : List Event} (hw : ∀ w : Stage → Nat, c'.weigh w = c.weigh w)
    (hn : c'.nextId = c.nextId) (hids : idsOf es = []) (hsent : dispatchesOf es = [])
    (hfreed : freedOf es = []) : Accounts c c' es where
  taken := .inl ⟨hids, hn⟩
  balance n := by rw [hids, hfreed, hw, List.count_nil, Nat.zero_add, Nat.add_zero]
  begun := by
    rw [hids, hw, List.length_nil, Nat.zero_add]
    exact Nat.le_add_right ..
  queued n := by
    rw [hids, hsent, hw, List.map_nil, List.count_nil, Nat.zero_add]
    exact Nat.le_add_right ..

/-- **What is seen of every move agrees with what it changes.** -/
theorem step_accounts {m : Move} (ht : Tied c) (hm : c.step m = some c') :
    Accounts c c' (c.events m c') := by
  have ha := step_affects hm
  generalize c.events m c' = es at ha
  cases ha with
  | entered =>
    refine ⟨.inl ⟨rfl, rfl⟩, fun n => ?_, ?_, fun n => ?_⟩
    · rw [weigh_enter]
      exact Nat.zero_add _
    · rw [weigh_enter]
      exact Nat.le_of_eq (Nat.zero_add _)
    · rw [weigh_enter]
      exact Nat.le_of_eq (Nat.zero_add _)
  | advanced hk ha => exact ha.accounts ht hk
  | abandoned hk =>
    refine .of_freed (fun w _ => weigh_abandon ht hk) ?_ rfl rfl rfl rfl
    simp only [abandon, hk]
    split <;> rfl
  | answered _ _ ha =>
    exact (Accounts.of_same (fun _ => weigh_handOver) rfl rfl rfl rfl).of_agrees ha
  | cleared ha => exact (Accounts.of_same (fun _ => weigh_keep _) rfl rfl rfl rfl).of_agrees ha
  | others ha he =>
    obtain ⟨_, hids, hsent, hfreed⟩ := quiet_events he
    exact .of_same (fun _ => weigh_congr ha.callers) ha.nextId hids hsent hfreed

end Connection

/-! ### Every session -/

open Connection

structure Numbered (s : Session) : Prop where
  taken : idsOf s.log =
    (List.range (idsOf s.log).length).map fun i => (UInt64.ofNat (i + 1)).toNat
  next : s.connection.nextId = UInt64.ofNat ((idsOf s.log).length + 1)
  balance : ∀ n, (idsOf s.log).count n =
    s.connection.weigh (holding n) + (freedOf s.log).count n
  begun : (idsOf s.log).length + s.connection.weigh idless ≤ (callsOf s.log).length
  queued : ∀ n, ((dispatchesOf s.log).map Dispatch.id).count n + s.connection.weigh (lineless n) ≤
    (idsOf s.log).count n

theorem numbered_opened (longestFrame : Nat) (capacity : Capacity) :
    Numbered (.opened longestFrame capacity) where
  taken := rfl
  next := rfl
  balance _ := rfl
  begun := Nat.le_refl _
  queued _ := Nat.le_refl _

theorem Numbered.step {s s' : Session} {m : Move} (h : Numbered s) (ht : Tied s.connection)
    (hm : s.step m = some s') : Numbered s' := by
  obtain ⟨hstep, hlog⟩ := Session.step_eq_some hm
  have ha := step_accounts ht hstep
  constructor
  case taken =>
    rw [hlog, idsOf_append]
    rcases ha.taken with ⟨hids, _⟩ | ⟨hids, _⟩
    · rw [hids, List.append_nil]
      exact h.taken
    · rw [hids, List.length_append, List.length_singleton, List.range_succ, List.map_append,
        ← h.taken, h.next]
      rfl
  case next =>
    rw [hlog, idsOf_append, List.length_append]
    rcases ha.taken with ⟨hids, hn⟩ | ⟨hids, hn⟩
    · rw [hids, hn]
      exact h.next
    · rw [hids, hn, h.next, List.length_singleton, UInt64.ofNat_add (_ + 1)]
      rfl
  case balance =>
    intro n
    have := h.balance n
    have := ha.balance n
    rw [hlog, idsOf_append, freedOf_append, List.count_append, List.count_append]
    omega
  case begun =>
    have := h.begun
    have := ha.begun
    rw [hlog, idsOf_append, callsOf_append, List.length_append, List.length_append]
    omega
  case queued =>
    intro n
    have := h.queued n
    have := ha.queued n
    rw [hlog, idsOf_append, dispatchesOf_append, List.map_append, List.count_append,
      List.count_append]
    omega

/-- **As long as fewer than `UInt64.size` calls were begun, no id is taken twice.** -/
theorem Numbered.ids_nodup {s : Session} (h : Numbered s)
    (hfew : (callsOf s.log).length < UInt64.size) : (idsOf s.log).Nodup := by
  have hle := h.begun
  rw [h.taken]
  refine List.Nodup.map_on ?_ List.nodup_range
  intro i hi j hj he
  rw [List.mem_range] at hi hj
  rw [UInt64.size] at hfew
  rw [UInt64.toNat_ofNat', UInt64.toNat_ofNat', Nat.mod_eq_of_lt (by omega),
    Nat.mod_eq_of_lt (by omega)] at he
  exact Nat.succ.inj he

/-- **No id that was given up is held again.** -/
theorem Numbered.not_freed {s : Session} (h : Numbered s) (ht : Tied s.connection)
    (hfew : (callsOf s.log).length < UInt64.size) {k : Caller} (hk : k ∈ s.connection.callers)
    {id : Nat} (hid : k.stage.id? = some id) : id ∉ freedOf s.log := by
  have hb := h.balance id
  have hone := List.nodup_iff_count_le_one.mp (h.ids_nodup hfew) id
  have hheld : holding id k.stage = 1 := if_pos hid
  have hrest := weigh_drop (w := holding id) ht.keys hk
  refine List.count_eq_zero.mp ?_
  omega

/-- **No call is sent twice.** -/
theorem Numbered.dispatches_nodup {s : Session} (h : Numbered s)
    (hfew : (callsOf s.log).length < UInt64.size) :
    ((dispatchesOf s.log).map Dispatch.id).Nodup := by
  refine List.nodup_iff_count_le_one.mpr fun n => ?_
  have := h.queued n
  have := List.nodup_iff_count_le_one.mp (h.ids_nodup hfew) n
  omega

end Switchboard.Redirect
