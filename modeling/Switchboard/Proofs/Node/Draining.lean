import Switchboard.Health.Controller

/-! Waiting for the requests in flight to end.

The end of a request is two steps: the count is lowered, and then those who wait are woken if it
was the last one. To wait is a loop of three steps: to register, to look at the count, and to be
woken; who sees nothing in flight says that the node has stopped, and then returns. Here all of
these steps are taken by any number of requests and of those who wait, in any order.

The invariant that carries the result is about whoever has seen something in flight and has not
been woken since: something is still in flight, or the one that lowered the count to zero has still
to wake him (`Sound.heard`). -/
namespace Switchboard

/-! ### Those who have registered -/

namespace Controller
variable {c : Controller} {key k : Nat}

/-- He has registered. -/
def Holds (c : Controller) (key : Nat) : Prop := ∃ d ∈ c.drains, d.key = key

@[simp] theorem register_inFlight : (c.register key).inFlight = c.inFlight := rfl

@[simp] theorem withdraw_inFlight : (c.withdraw key).inFlight = c.inFlight := rfl

@[simp] theorem withdraw_health : (c.withdraw key).health = c.health := rfl

@[simp] theorem notify_inFlight : c.notify.inFlight = c.inFlight := rfl

theorem register_holds : (c.register key).Holds key :=
  ⟨_, List.mem_append_right _ (List.mem_singleton_self _), rfl⟩

theorem holds_withdraw (h : k ≠ key) (hk : c.Holds k) : (c.withdraw key).Holds k := by
  obtain ⟨d, hd, rfl⟩ := hk
  exact ⟨d, List.mem_filter.mpr ⟨hd, by simpa using h⟩, rfl⟩

theorem holds_register (h : k ≠ key) (hk : c.Holds k) : (c.register key).Holds k := by
  obtain ⟨d, hd, hdk⟩ := holds_withdraw h hk
  exact ⟨d, List.mem_append_left _ hd, hdk⟩

theorem holds_notify (hk : c.Holds k) : c.notify.Holds k := by
  obtain ⟨d, hd, rfl⟩ := hk
  exact ⟨_, List.mem_map_of_mem hd, rfl⟩

theorem isWoken_withdraw (h : k ≠ key) : (c.withdraw key).isWoken k = c.isWoken k := by
  simp only [isWoken, withdraw, List.any_filter]
  refine congrArg c.drains.any (funext fun d => ?_)
  by_cases hd : d.key = k
  · simp [hd, h]
  · simp [hd]

theorem isWoken_register (h : k ≠ key) : (c.register key).isWoken k = c.isWoken k := by
  have hnew : (c.register key).isWoken k = ((c.withdraw key).isWoken k || false) := by
    simp [isWoken, register, withdraw]
  rw [hnew, Bool.or_false, isWoken_withdraw h]

/-- **Whoever has registered is woken.** -/
theorem isWoken_notify (hk : c.Holds k) : c.notify.isWoken k = true := by
  obtain ⟨d, hd, rfl⟩ := hk
  exact List.any_eq_true.mpr ⟨_, List.mem_map_of_mem hd, by simp⟩

theorem register_withdraw (c : Controller) (key : Nat) :
    (c.withdraw key).register key = c.register key := by
  simp [register, withdraw]

end Controller

/-! ### Steps -/

namespace Draining

/-- Where somebody is who waits. -/
inductive Place where
  /-- He has not begun. -/
  | absent
  /-- He is about to register. -/
  | entered
  /-- He has registered, and is about to look. -/
  | registered
  /-- He has seen something in flight. -/
  | parked
  /-- He has seen nothing in flight. -/
  | drained
  /-- He has said that the node has stopped. -/
  | announced
  | returned (drained : Bool)
  /-- Nobody wants his answer any more. -/
  | abandoned
  deriving DecidableEq, Repr

/-- Something that one who waits has done. -/
inductive Deed where
  | saw (count : Nat)
  | said (health : HealthState)
  deriving DecidableEq, Repr

structure Waiter where
  place : Place := .absent
  deeds : List Deed := []
  deriving DecidableEq, Repr

/-- A request that has lowered the count, and has not woken anybody yet. -/
structure Drop where
  guard : Nat
  /-- It was the last one. -/
  last : Bool
  deriving DecidableEq, Repr

/-- What can happen next. -/
inductive Event where
  /-- A request comes in. -/
  | enter (guard : Nat)
  /-- A request ends, and lowers the count. -/
  | lower (guard : Nat)
  /-- It wakes those who wait if it was the last one. -/
  | wake (drop : Drop)
  /-- Somebody begins to wait. -/
  | begin (key : Nat)
  /-- Somebody who waits goes on. -/
  | advance (key : Nat)
  /-- It is too late for somebody who waits. -/
  | expire (key : Nat)
  | abandon (key : Nat)
  | setReady
  | beginShutdown
  deriving DecidableEq, Repr

end Draining

/-- The requests in flight, and those who wait for them to end. -/
structure Draining where
  controller : Controller
  /-- The requests that are counted. -/
  guards : List Nat := []
  drops : List Draining.Drop := []
  waiters : Nat → Draining.Waiter := fun _ => {}

namespace Draining
variable {t t' : Draining} {c : Controller} {key k : Nat} {place : Place} {deeds : List Deed}

def opened (c : Controller) : Draining := { controller := c }

/-- Somebody who waits has done something, and is somewhere else. -/
def moves (t : Draining) (key : Nat) (place : Place) (deeds : List Deed) (c : Controller) :
    Draining :=
  { t with
    controller := c
    waiters := fun k =>
      if k = key then { place, deeds := (t.waiters key).deeds ++ deeds } else t.waiters k }

/-- One who waits goes on, unless he has to be woken first. -/
def advance (t : Draining) (key : Nat) : Option Draining :=
  match (t.waiters key).place with
  | .entered => some (t.moves key .registered [] (t.controller.register key))
  | .registered =>
    let count := t.controller.inFlight
    some (t.moves key (if count = 0 then .drained else .parked) [.saw count] t.controller)
  | .drained => some (t.moves key .announced [.said .stopped] { t.controller with health := .stopped })
  | .announced => some (t.moves key (.returned true) [] (t.controller.withdraw key))
  | .parked =>
    if t.controller.isWoken key then some (t.moves key .entered [] (t.controller.withdraw key))
    else none
  | _ => none

/-- The state after an event, or nothing when it cannot happen now. -/
def step (t : Draining) : Event → Option Draining
  | .enter guard =>
    some { t with controller := t.controller.enter, guards := guard :: t.guards }
  | .lower guard =>
    if guard ∈ t.guards then
      let (last, c) := t.controller.leave
      some { t with
        controller := c
        guards := t.guards.erase guard
        drops := { guard, last } :: t.drops }
    else none
  | .wake drop =>
    if drop ∈ t.drops then
      some { t with
        controller := if drop.last then t.controller.notify else t.controller
        drops := t.drops.erase drop }
    else none
  | .begin key =>
    if (t.waiters key).place = .absent then some (t.moves key .entered [] t.controller) else none
  | .advance key => t.advance key
  | .expire key =>
    if (t.waiters key).place = .parked then
      some (t.moves key (.returned false) [] (t.controller.withdraw key))
    else none
  | .abandon key =>
    if (t.waiters key).place = .entered ∨ (t.waiters key).place = .parked then
      some (t.moves key .abandoned [] (t.controller.withdraw key))
    else none
  | .setReady => some { t with controller := t.controller.setReady }
  | .beginShutdown => some { t with controller := t.controller.beginShutdown }

def run (t : Draining) : List Event → Option Draining
  | [] => some t
  | e :: rest => (t.step e).bind fun t => t.run rest

@[simp] theorem moves_self :
    (t.moves key place deeds c).waiters key = ⟨place, (t.waiters key).deeds ++ deeds⟩ :=
  if_pos rfl

theorem moves_other (h : k ≠ key) : (t.moves key place deeds c).waiters k = t.waiters k := if_neg h

/-- What every event preserves, the whole run preserves. -/
theorem run_preserves {P : Draining → Prop} (hstep : ∀ t t' e, P t → t.step e = some t' → P t')
    {events : List Event} (h : t.run events = some t') (ht : P t) : P t' := by
  induction events generalizing t with
  | nil =>
    cases h
    exact ht
  | cons e rest ih =>
    obtain ⟨u, hu, hr⟩ := Option.bind_eq_some_iff.mp h
    exact ih hr (hstep t u e ht hu)

/-! ### What one step does -/

/-- Somebody who waits moves. -/
inductive Moves (t : Draining) (key : Nat) : Place → List Deed → Controller → Prop
  | begins (h : (t.waiters key).place = .absent) : Moves t key .entered [] t.controller
  | registers (h : (t.waiters key).place = .entered) :
      Moves t key .registered [] (t.controller.register key)
  | parks (h : (t.waiters key).place = .registered) (hcount : t.controller.inFlight ≠ 0) :
      Moves t key .parked [.saw t.controller.inFlight] t.controller
  | drains (h : (t.waiters key).place = .registered) (hcount : t.controller.inFlight = 0) :
      Moves t key .drained [.saw 0] t.controller
  | announces (h : (t.waiters key).place = .drained) :
      Moves t key .announced [.said .stopped] { t.controller with health := .stopped }
  | returns (h : (t.waiters key).place = .announced) :
      Moves t key (.returned true) [] (t.controller.withdraw key)
  | wakes (h : (t.waiters key).place = .parked) (hwoken : t.controller.isWoken key = true) :
      Moves t key .entered [] (t.controller.withdraw key)
  | expires (h : (t.waiters key).place = .parked) :
      Moves t key (.returned false) [] (t.controller.withdraw key)
  | leaves (h : (t.waiters key).place = .entered ∨ (t.waiters key).place = .parked) :
      Moves t key .abandoned [] (t.controller.withdraw key)

/-- Everything that a step can do. -/
inductive Steps (t t' : Draining) : Prop
  | enters (guard : Nat)
      (h : t' = { t with controller := t.controller.enter, guards := guard :: t.guards })
  | lowers (guard : Nat) (hmem : guard ∈ t.guards)
      (h : t' = { t with
        controller := t.controller.leave.2
        guards := t.guards.erase guard
        drops := { guard, last := t.controller.leave.1 } :: t.drops })
  | wakes (drop : Drop) (hmem : drop ∈ t.drops)
      (h : t' = { t with
        controller := if drop.last then t.controller.notify else t.controller
        drops := t.drops.erase drop })
  | moves (key : Nat) {place : Place} {deeds : List Deed} {c : Controller}
      (hm : Moves t key place deeds c) (h : t' = t.moves key place deeds c)
  | turns (health : HealthState) (h : t' = { t with controller := { t.controller with health } })

theorem advance_moves (h : t.advance key = some t') :
    ∃ place deeds c, Moves t key place deeds c ∧ t' = t.moves key place deeds c := by
  unfold advance at h
  split at h
  case h_1 hp => cases h; exact ⟨_, _, _, .registers hp, rfl⟩
  case h_2 hp =>
    cases h
    by_cases hcount : t.controller.inFlight = 0
    · exact ⟨_, _, _, .drains hp hcount, by simp [hcount]⟩
    · exact ⟨_, _, _, .parks hp hcount, by simp [hcount]⟩
  case h_3 hp => cases h; exact ⟨_, _, _, .announces hp, rfl⟩
  case h_4 hp => cases h; exact ⟨_, _, _, .returns hp, rfl⟩
  case h_5 hp =>
    split at h <;> cases h
    rename_i hwoken
    exact ⟨_, _, _, .wakes hp hwoken, rfl⟩
  case h_6 => cases h

theorem step_steps {e : Event} (h : t.step e = some t') : Steps t t' := by
  cases e with
  | enter guard =>
    cases h
    exact .enters guard rfl
  | lower guard =>
    simp only [step] at h
    split at h <;> cases h
    rename_i hmem
    exact .lowers guard hmem rfl
  | wake drop =>
    simp only [step] at h
    split at h <;> cases h
    rename_i hmem
    exact .wakes drop hmem rfl
  | begin key =>
    simp only [step] at h
    split at h <;> cases h
    rename_i hp
    exact .moves key (.begins hp) rfl
  | advance key =>
    obtain ⟨place, deeds, c, hm, rfl⟩ := advance_moves h
    exact .moves key hm rfl
  | expire key =>
    simp only [step] at h
    split at h <;> cases h
    rename_i hp
    exact .moves key (.expires hp) rfl
  | abandon key =>
    simp only [step] at h
    split at h <;> cases h
    rename_i hp
    exact .moves key (.leaves hp) rfl
  | setReady =>
    cases h
    exact .turns .ready rfl
  | beginShutdown =>
    cases h
    exact .turns .draining rfl

/-! ### What holds throughout -/

/-- What somebody did last who is there. -/
def Place.ending : Place → List Deed
  | .drained => [.saw 0]
  | .announced | .returned true => [.saw 0, .said .stopped]
  | _ => []

/-- He has seen something in flight any number of times, and then nothing if he is so far. -/
def Waiter.Tells (w : Waiter) : Prop :=
  ∃ counts : List Nat, (∀ n ∈ counts, n ≠ 0) ∧ w.deeds = counts.map .saw ++ w.place.ending

structure Sound (t : Draining) : Prop where
  counted : t.controller.inFlight = t.guards.length
  holds : ∀ key, (t.waiters key).place = .registered ∨ (t.waiters key).place = .parked →
    t.controller.Holds key
  heard : ∀ key, (t.waiters key).place = .parked → t.controller.inFlight = 0 →
    t.controller.isWoken key = true ∨ ∃ d ∈ t.drops, d.last = true
  tells : ∀ key, (t.waiters key).Tells

/-- Nobody's move touches the count, or what has become of anybody else who waits. -/
theorem Moves.frame (hm : Moves t key place deeds c) :
    c.inFlight = t.controller.inFlight ∧ ∀ k, k ≠ key →
      c.isWoken k = t.controller.isWoken k ∧ (t.controller.Holds k → c.Holds k) := by
  cases hm with
  | begins | parks | drains | announces => exact ⟨rfl, fun k _ => ⟨rfl, id⟩⟩
  | registers =>
    exact ⟨rfl, fun k hk => ⟨Controller.isWoken_register hk, Controller.holds_register hk⟩⟩
  | returns | wakes | expires | leaves =>
    exact ⟨rfl, fun k hk => ⟨Controller.isWoken_withdraw hk, Controller.holds_withdraw hk⟩⟩

theorem Moves.tells (hm : Moves t key place deeds c) (h : (t.waiters key).Tells) :
    Waiter.Tells ⟨place, (t.waiters key).deeds ++ deeds⟩ := by
  obtain ⟨counts, hcounts, hdeeds⟩ := h
  cases hm with
  | parks h hcount =>
    rw [h] at hdeeds
    refine ⟨counts ++ [t.controller.inFlight], fun n hn => ?_, by simp [hdeeds, Place.ending]⟩
    rcases List.mem_append.mp hn with hn | hn
    · exact hcounts n hn
    · exact List.mem_singleton.mp hn ▸ hcount
  | leaves h =>
    refine ⟨counts, hcounts, ?_⟩
    rcases h with h | h <;> simp [hdeeds, h, Place.ending]
  | _ h => exact ⟨counts, hcounts, by simp [hdeeds, h, Place.ending]⟩

theorem Sound.moves (hs : Sound t) (hm : Moves t key place deeds c) :
    Sound (t.moves key place deeds c) := by
  obtain ⟨hcount, hothers⟩ := hm.frame
  refine ⟨hcount.trans hs.counted, fun k hk => ?_, fun k hk hzero => ?_, fun k => ?_⟩
  · by_cases hkey : k = key
    · subst hkey
      rw [moves_self] at hk
      show c.Holds k
      cases hm with
      | registers => exact Controller.register_holds
      | parks h => exact hs.holds k (.inl h)
      | _ => simp at hk
    · rw [moves_other hkey] at hk
      exact (hothers k hkey).2 (hs.holds k hk)
  · by_cases hkey : k = key
    · -- whoever has just been parked has seen something in flight
      subst hkey
      rw [moves_self] at hk
      cases hm with
      | parks _ hne => exact absurd hzero hne
      | _ => cases hk
    · rw [moves_other hkey] at hk
      exact (hothers k hkey).1 ▸ hs.heard k hk (hcount ▸ hzero)
  · by_cases hkey : k = key
    · subst hkey
      rw [moves_self]
      exact hm.tells (hs.tells k)
    · rw [moves_other hkey]
      exact hs.tells k

theorem Sound.step {e : Event} (hs : Sound t) (h : t.step e = some t') : Sound t' := by
  cases step_steps h with
  | enters guard h =>
    subst h
    exact ⟨congrArg (· + 1) hs.counted, hs.holds, fun _ _ hzero => (nomatch hzero), hs.tells⟩
  | lowers guard hmem h =>
    subst h
    have hcounted := hs.counted
    have hpos := List.length_pos_of_mem hmem
    refine ⟨?_, hs.holds, fun key hp hzero => ?_, hs.tells⟩
    · simp only [Controller.leave, List.length_erase_of_mem hmem]
      omega
    · -- the count was one, so that this is the last one
      have hlast : t.controller.inFlight = 1 := by
        simp only [Controller.leave] at hzero
        omega
      exact .inr ⟨_, List.mem_cons_self .., by simp [Controller.leave, hlast]⟩
  | wakes drop hmem h =>
    subst h
    cases hlast : drop.last with
    | true =>
      refine ⟨hs.counted, fun key hp => Controller.holds_notify (hs.holds key hp),
        fun key hp _ => .inl (Controller.isWoken_notify (hs.holds key (.inr hp))), hs.tells⟩
    | false =>
      refine ⟨hs.counted, hs.holds, fun key hp hzero => ?_, hs.tells⟩
      refine (hs.heard key hp hzero).imp_right fun ⟨d, hd, hdlast⟩ => ⟨d, ?_, hdlast⟩
      have hne : d ≠ drop := by
        rintro rfl
        cases hlast.symm.trans hdlast
      exact (List.mem_erase_of_ne hne).mpr hd
  | moves key hm h => exact h ▸ hs.moves hm
  | turns health h =>
    subst h
    exact ⟨hs.counted, hs.holds, hs.heard, hs.tells⟩

theorem sound_of_run {events : List Event} (hnew : c.inFlight = 0)
    (h : (opened c).run events = some t) : Sound t :=
  run_preserves (P := Sound) (fun _ _ _ hs hstep => hs.step hstep) h
    ⟨hnew, fun _ hp => hp.elim (nomatch ·) (nomatch ·), fun _ hp => (nomatch hp),
      fun _ => ⟨[], fun _ hn => (nomatch hn), rfl⟩⟩

/-! ### Going on alone -/

/-- **Whoever is woken while nothing is in flight returns**, by his own steps alone. -/
theorem run_woken (hp : (t.waiters key).place = .parked) (hwoken : t.controller.isWoken key = true)
    (hzero : t.controller.inFlight = 0) :
    ∃ t', t.run (List.replicate 5 (.advance key)) = some t' ∧
      (t'.waiters key).place = .returned true ∧ t'.controller.health = .stopped := by
  have hadvance : t.advance key = some (t.moves key .entered [] (t.controller.withdraw key)) := by
    simp only [advance, hp, hwoken, if_true]
  simp only [List.replicate, run, step, hadvance, Option.bind_some]
  simp [advance, moves, hzero]

/-- The end of a request in one is its two steps with nothing in between. -/
theorem run_release {guard : Nat} (h : guard ∈ t.guards) :
    ∃ t', t.run [.lower guard, .wake ⟨guard, t.controller.leave.1⟩] = some t' ∧
      t'.controller = t.controller.release := by
  simp [run, step, h, Controller.release]

/-- To wait in one step, from where somebody registers to where he sleeps or returns. -/
theorem run_await (hp : (t.waiters key).place = .entered) (late : Bool) :
    ∃ events t', t.run events = some t' ∧ t'.controller = (t.controller.await key late).2 ∧
      (t'.waiters key).place = (t.controller.await key late).1.elim .parked Place.returned := by
  by_cases hzero : t.controller.inFlight = 0
  · refine ⟨List.replicate 4 (.advance key), ?_⟩
    simp [run, step, advance, moves, hp, hzero, Controller.await, Controller.look,
      Controller.withdraw]
  · cases late with
    | false =>
      refine ⟨List.replicate 2 (.advance key), ?_⟩
      simp [run, step, advance, moves, hp, hzero, Controller.await, Controller.look]
    | true =>
      refine ⟨List.replicate 2 (.advance key) ++ [.expire key], ?_⟩
      simp [run, step, advance, moves, hp, hzero, Controller.await, Controller.look]

/-- To be looked at again in one step. -/
theorem run_resume (hp : (t.waiters key).place = .parked) (late : Bool) :
    ∃ events t', t.run events = some t' ∧ t'.controller = (t.controller.resume key late).2 ∧
      (t'.waiters key).place = (t.controller.resume key late).1.elim .parked Place.returned := by
  cases hwoken : t.controller.isWoken key with
  | true =>
    have hadvance : t.step (.advance key) =
        some (t.moves key .entered [] (t.controller.withdraw key)) := by
      simp only [step, advance, hp, hwoken, if_true]
    obtain ⟨events, t', hrun, hc, hplace⟩ :=
      @run_await (t.moves key .entered [] (t.controller.withdraw key)) key (by rw [moves_self]) late
    have hawait : (t.controller.withdraw key).await key late = t.controller.await key late := by
      rw [Controller.await, Controller.register_withdraw, Controller.await]
    refine ⟨.advance key :: events, t', by rw [run, hadvance]; exact hrun, ?_⟩
    rw [Controller.resume, if_pos hwoken]
    exact ⟨hc.trans (congrArg Prod.snd hawait), hplace.trans (by rw [← hawait]; rfl)⟩
  | false =>
    cases late with
    | false =>
      refine ⟨[], t, rfl, ?_⟩
      simp [Controller.resume, hwoken, hp]
    | true =>
      refine ⟨[.expire key], t.moves key (.returned false) [] (t.controller.withdraw key), ?_, ?_⟩
      · simp only [run, step, if_pos hp, Option.bind_some]
      · simp [Controller.resume, hwoken, moves]

/-! ### No wake-up is lost -/

/-- A deed is what it says: the count at that moment, or that the node has stopped. -/
theorem step_deeds {e : Event} (h : t.step e = some t') (key : Nat) :
    (t'.waiters key).deeds = (t.waiters key).deeds ∨
      (t'.waiters key).deeds = (t.waiters key).deeds ++ [.saw t.controller.inFlight] ∨
      (t'.waiters key).deeds = (t.waiters key).deeds ++ [.said t'.controller.health] ∧
        t'.controller.health = .stopped := by
  cases step_steps h with
  | enters _ h | lowers _ _ h | wakes _ _ h | turns _ h => exact .inl (h ▸ rfl)
  | moves k hm h =>
    subst h
    by_cases hk : key = k
    · subst hk
      rw [moves_self]
      cases hm with
      | parks => exact .inr (.inl rfl)
      | drains _ hzero => exact .inr (.inl (by rw [hzero]))
      | announces => exact .inr (.inr ⟨rfl, rfl⟩)
      | _ => exact .inl (List.append_nil _)
    · exact .inl (congrArg _ (moves_other hk))

/-- **No wake-up is lost.** Requests come and go, and any number of others wait for them to end, in
any order, from a node with nothing in flight. Then the count is the number of requests that are in
flight, and each that ends finds itself counted. Whoever returns saying that all have ended has seen
requests in flight any number of times, then none, and has then said that the node has stopped;
whoever returns because it is too late has said nothing, and leaves the health as it is. While
nothing is in flight, whoever has seen something in flight has been woken since, unless the last
request has lowered the count and has still to wake him; and once it has, he returns by his own
steps alone. -/
theorem no_wakeup_lost {events : List Event} (hnew : c.inFlight = 0)
    (h : (opened c).run events = some t) :
    (t.controller.inFlight = t.guards.length ∧
      ∀ guard t', t.step (.lower guard) = some t' →
        t'.controller.inFlight + 1 = t.controller.inFlight) ∧
    (∀ key, (t.waiters key).place = .returned true → ∃ counts : List Nat,
      (∀ n ∈ counts, n ≠ 0) ∧
        (t.waiters key).deeds = counts.map .saw ++ [.saw 0, .said .stopped]) ∧
    (∀ key, (t.waiters key).place = .returned false → ∃ counts : List Nat,
      (∀ n ∈ counts, n ≠ 0) ∧ (t.waiters key).deeds = counts.map .saw) ∧
    (∀ key t', t.step (.expire key) = some t' →
      (t'.waiters key).place = .returned false ∧ t'.controller.health = t.controller.health) ∧
    (∀ e t', t.step e = some t' → ∀ key,
      (t'.waiters key).deeds = (t.waiters key).deeds ∨
        (t'.waiters key).deeds = (t.waiters key).deeds ++ [.saw t.controller.inFlight] ∨
        (t'.waiters key).deeds = (t.waiters key).deeds ++ [.said t'.controller.health] ∧
          t'.controller.health = .stopped) ∧
    ∀ key, (t.waiters key).place = .parked → t.controller.inFlight = 0 →
      (t.controller.isWoken key = true ∨ ∃ d ∈ t.drops, d.last = true) ∧
      ((∀ d ∈ t.drops, d.last = false) →
        ∃ t', t.run (List.replicate 5 (.advance key)) = some t' ∧
          (t'.waiters key).place = .returned true ∧ t'.controller.health = .stopped) := by
  have hs := sound_of_run hnew h
  refine ⟨⟨hs.counted, fun guard t' hstep => ?_⟩, fun key hp => ?_, fun key hp => ?_,
    fun key t' hstep => ?_, fun e t' hstep key => step_deeds hstep key,
    fun key hp hzero => ⟨hs.heard key hp hzero, fun hno => ?_⟩⟩
  · simp only [step] at hstep
    split at hstep <;> cases hstep
    rename_i hmem
    have := hs.counted
    have := List.length_pos_of_mem hmem
    simp only [Controller.leave]
    omega
  · obtain ⟨counts, hcounts, hdeeds⟩ := hs.tells key
    rw [hp] at hdeeds
    exact ⟨counts, hcounts, hdeeds⟩
  · obtain ⟨counts, hcounts, hdeeds⟩ := hs.tells key
    rw [hp] at hdeeds
    exact ⟨counts, hcounts, hdeeds.trans (List.append_nil _)⟩
  · simp only [step] at hstep
    split at hstep <;> cases hstep
    rw [moves_self]
    exact ⟨rfl, rfl⟩
  · rcases hs.heard key hp hzero with hwoken | ⟨d, hd, hlast⟩
    · exact run_woken hp hwoken hzero
    · rw [hno d hd] at hlast
      cases hlast

/-- Two wait for one request. For the second it is too late; the first is about to be woken. -/
def racing : List Event :=
  [.enter 7, .begin 0, .advance 0, .advance 0, .begin 1, .advance 1, .advance 1, .expire 1,
    .lower 7]

theorem racing_woken :
    ∃ t t', (opened {}).run racing = some t ∧ ({} : Controller).inFlight = 0 ∧
      (t.waiters 0).place = .parked ∧ t.controller.inFlight = 0 ∧
      t.controller.isWoken 0 = false ∧ t.drops = [⟨7, true⟩] ∧
      (t.waiters 1).place = .returned false ∧ t.controller.health = .starting ∧
      t.run (.wake ⟨7, true⟩ :: List.replicate 5 (.advance 0)) = some t' ∧
      (t'.waiters 0).deeds = [.saw 1, .saw 0, .said .stopped] ∧
      (t'.waiters 0).place = .returned true ∧ t'.controller.health = .stopped := by
  obtain ⟨u, hu⟩ : ∃ u, (opened {}).run (racing ++ [.wake ⟨7, true⟩]) = some u := ⟨_, rfl⟩
  have hlost := (no_wakeup_lost rfl hu).2.2.2.2.2 0
  cases hu
  obtain ⟨t', hrun, hplace, hhealth⟩ := (hlost rfl rfl).2 (by decide)
  exact ⟨_, t', rfl, rfl, rfl, rfl, rfl, rfl, rfl, rfl, hrun, by cases hrun; rfl, hplace, hhealth⟩

end Draining
end Switchboard
