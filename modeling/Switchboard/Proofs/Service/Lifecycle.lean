import Mathlib.Data.List.Induction
import Mathlib.Data.List.Nodup
import Switchboard.Service.Registry

/-! The life of the services of a node.

Whoever registers a name first keeps it (`enrolling_eq`). Starting and stopping both give the
services their turns one after the other, on a state that all of them share (`Passes` while none
fails); but starting ends with the first that fails (`startEach_eq_error_iff`), while stopping goes
on to the last and the first failure is what it comes to (`stopEach_error_iff`). -/
namespace Switchboard.Registry

variable {σ : Type} {s t : ManagedService σ} {l : List (ManagedService σ)}

/-! ### Registering -/

/-- The registry after somebody has tried to register a service. -/
def enrol (r : Registry σ) (s : ManagedService σ) : Registry σ :=
  match r.register s with
  | .ok r => r
  | .error _ => r

/-- A new registry after services were registered one after the other, whether others share them or
not. -/
def enrolling (l : List (ManagedService σ)) : Registry σ := l.foldl enrol {}

/-- The services that are the first of their name. -/
def firsts : List (ManagedService σ) → List (ManagedService σ)
  | [] => []
  | s :: rest => s :: (firsts rest).filter fun t => t.name ≠ s.name

theorem exists_mem_firsts_iff {name : String} :
    (∃ t ∈ firsts l, t.name = name) ↔ ∃ t ∈ l, t.name = name := by
  induction l with
  | nil => exact Iff.rfl
  | cons s rest ih =>
    by_cases hs : s.name = name
    · exact ⟨fun _ => ⟨s, List.mem_cons_self .., hs⟩, fun _ => ⟨s, List.mem_cons_self .., hs⟩⟩
    · have hfilter : (∃ t ∈ (firsts rest).filter fun t => t.name ≠ s.name, t.name = name) ↔
          ∃ t ∈ firsts rest, t.name = name := by
        refine exists_congr fun t => ⟨fun h => ⟨(List.mem_filter.mp h.1).1, h.2⟩, fun h => ?_⟩
        refine ⟨List.mem_filter.mpr ⟨h.1, ?_⟩, h.2⟩
        rw [h.2]
        exact decide_eq_true (Ne.symm hs)
      simp only [firsts, List.exists_mem_cons_iff, hs, false_or]
      rw [hfilter, ih]

theorem nodup_firsts (l : List (ManagedService σ)) :
    ((firsts l).map ManagedService.name).Nodup := by
  induction l with
  | nil => exact .nil
  | cons s rest ih =>
    refine List.nodup_cons.mpr ⟨fun h => ?_, ih.sublist (List.filter_sublist.map _)⟩
    obtain ⟨t, ht, hn⟩ := List.mem_map.mp h
    exact of_decide_eq_true (List.mem_filter.mp ht).2 hn

/-- One more service is one of the firsts unless its name was there. -/
theorem firsts_concat (l : List (ManagedService σ)) (s : ManagedService σ) :
    firsts (l ++ [s]) = if ∃ t ∈ l, t.name = s.name then firsts l else firsts l ++ [s] := by
  induction l with
  | nil => rfl
  | cons t rest ih =>
    rw [List.cons_append, firsts, ih]
    by_cases hrest : ∃ u ∈ rest, u.name = s.name
    · rw [if_pos hrest, if_pos (hrest.imp fun u hu => ⟨List.mem_cons_of_mem _ hu.1, hu.2⟩), firsts]
    · rw [if_neg hrest, List.filter_append, firsts]
      by_cases hst : t.name = s.name
      · rw [if_pos ⟨t, List.mem_cons_self .., hst⟩]
        simp [hst]
      · have hnone : ¬∃ u ∈ t :: rest, u.name = s.name := by
          simpa only [List.exists_mem_cons_iff, hst, false_or] using hrest
        rw [if_neg hnone]
        simp [Ne.symm hst]

theorem register_firsts (l : List (ManagedService σ)) (s : ManagedService σ) :
    register ⟨firsts l⟩ s =
      if ∃ t ∈ l, t.name = s.name then .error (taken s.name) else .ok ⟨firsts l ++ [s]⟩ := by
  have hnames : s.name ∈ names ⟨firsts l⟩ ↔ ∃ t ∈ l, t.name = s.name := by
    rw [← exists_mem_firsts_iff, names, List.mem_map]
  simp only [register, hnames]

/-- A registry holds the first service of each name, in the order in which they came. -/
theorem enrolling_eq (l : List (ManagedService σ)) : enrolling l = ⟨firsts l⟩ := by
  induction l using List.reverseRecOn with
  | nil => rfl
  | append_singleton l s ih =>
    have hlast : enrolling (l ++ [s]) = enrol ⟨firsts l⟩ s := by
      rw [← ih, enrolling, List.foldl_append]
      rfl
    rw [hlast, enrol, register_firsts, firsts_concat]
    by_cases hs : ∃ t ∈ l, t.name = s.name
    · simp only [if_pos hs]
    · simp only [if_neg hs]

/-! ### Turns -/

/-- Services have their turns in that order and none fails, while what they share goes from the one
state to the other. -/
inductive Passes (act : ManagedService σ → σ → Except String Unit × σ) :
    List (ManagedService σ) → σ → σ → Prop
  | nil (state : σ) : Passes act [] state state
  | cons {s : ManagedService σ} {rest : List (ManagedService σ)} {state mid state' : σ}
      (h : act s state = (.ok (), mid)) (hrest : Passes act rest mid state') :
      Passes act (s :: rest) state state'

/-- Services have their turns in that order up to one that fails. -/
def FailsAt (act : ManagedService σ → σ → Except String Unit × σ) (l : List (ManagedService σ))
    (state : σ) (s : ManagedService σ) (e : String) (state' : σ) : Prop :=
  ∃ before after mid, l = before ++ s :: after ∧ Passes act before state mid ∧
    act s mid = (.error e, state')

variable (act : ManagedService σ → σ → Except String Unit × σ) {state mid state' : σ} {e : String}

theorem passes_cons_iff (h : act s state = (.ok (), mid)) :
    Passes act (s :: l) state state' ↔ Passes act l mid state' := by
  refine ⟨fun hp => ?_, .cons h⟩
  cases hp with
  | cons h' hrest =>
    cases h.symm.trans h'
    exact hrest

theorem not_passes_cons (h : act s state = (.error e, mid)) :
    ¬Passes act (s :: l) state state' := by
  intro hp
  cases hp with
  | cons h' => cases h.symm.trans h'

/-- After a turn that went well, the failure is one of those that follow. -/
theorem failsAt_cons_of_ok (h : act s state = (.ok (), mid)) :
    FailsAt act (s :: l) state t e state' ↔ FailsAt act l mid t e state' := by
  constructor
  · rintro ⟨before, after, mid', hl, hp, ht⟩
    cases hp with
    | nil =>
      cases hl
      cases h.symm.trans ht
    | cons h' hrest =>
      injection hl with hs hl
      cases hs
      cases h.symm.trans h'
      exact ⟨_, after, mid', hl, hrest, ht⟩
  · rintro ⟨before, after, mid', rfl, hp, ht⟩
    exact ⟨s :: before, after, mid', rfl, .cons h hp, ht⟩

/-- A turn that fails is the first that does. -/
theorem failsAt_cons_of_error {e' : String} (h : act s state = (.error e, mid)) :
    FailsAt act (s :: l) state t e' state' ↔ t = s ∧ e' = e ∧ state' = mid := by
  constructor
  · rintro ⟨before, after, mid', hl, hp, ht⟩
    cases hp with
    | nil =>
      cases hl
      cases h.symm.trans ht
      exact ⟨rfl, rfl, rfl⟩
    | cons h' =>
      injection hl with hs
      cases hs
      cases h.symm.trans h'
  · rintro ⟨rfl, rfl, rfl⟩
    exact ⟨[], l, state, rfl, .nil state, h⟩

/-! ### Starting -/

variable {nodeId : String}

theorem startEach_eq_ok_iff :
    startEach nodeId l state = (.ok (), state') ↔ Passes (·.start nodeId) l state state' := by
  induction l generalizing state with
  | nil =>
    refine ⟨fun h => ?_, fun h => ?_⟩
    · cases h
      exact .nil _
    · cases h
      rfl
  | cons s rest ih =>
    rcases h : s.start nodeId state with ⟨⟨e⟩ | ⟨⟨⟩⟩, mid⟩
    · simp [startEach, h, not_passes_cons (·.start nodeId) h]
    · rw [passes_cons_iff (·.start nodeId) h, ← ih]
      simp only [startEach, h]

theorem startEach_eq_error_iff :
    startEach nodeId l state = (.error e, state') ↔
      ∃ s, FailsAt (·.start nodeId) l state s e state' := by
  induction l generalizing state with
  | nil => simp [startEach, FailsAt]
  | cons s rest ih =>
    rcases h : s.start nodeId state with ⟨⟨e'⟩ | ⟨⟨⟩⟩, mid⟩
    · simp only [startEach, h, failsAt_cons_of_error (·.start nodeId) h]
      simp [eq_comm]
    · simp only [failsAt_cons_of_ok (·.start nodeId) h, ← ih, startEach, h]

/-! ### Stopping -/

variable {terminate : Bool}

/-- Everybody has his turn, however the others' went. -/
theorem stopEach_state (terminate : Bool) (l : List (ManagedService σ)) (state : σ) :
    (stopEach terminate l state).2 = l.foldl (fun state s => (s.stop terminate state).2) state := by
  induction l generalizing state with
  | nil => rfl
  | cons s rest ih =>
    rw [List.foldl_cons, ← ih]
    rcases h : s.stop terminate state with ⟨⟨e⟩ | ⟨⟨⟩⟩, mid⟩ <;> simp only [stopEach, h]

theorem stopEach_ok_iff :
    outcome (stopEach terminate l state).1 = .ok () ↔
      ∃ state', Passes (·.stop terminate) l state state' := by
  induction l generalizing state with
  | nil => exact ⟨fun _ => ⟨state, .nil state⟩, fun _ => rfl⟩
  | cons s rest ih =>
    rcases h : s.stop terminate state with ⟨⟨e⟩ | ⟨⟨⟩⟩, mid⟩
    · simp [stopEach, h, outcome, not_passes_cons (·.stop terminate) h]
    · simp only [passes_cons_iff (·.stop terminate) h, ← ih, stopEach, h]

/-- Stopping comes to the first failure. -/
theorem stopEach_error_iff :
    outcome (stopEach terminate l state).1 = .error e ↔
      ∃ s state', FailsAt (·.stop terminate) l state s e state' := by
  induction l generalizing state with
  | nil => simp [stopEach, outcome, FailsAt]
  | cons s rest ih =>
    rcases h : s.stop terminate state with ⟨⟨e'⟩ | ⟨⟨⟩⟩, mid⟩
    · simp only [stopEach, h, outcome, failsAt_cons_of_error (·.stop terminate) h]
      simp [eq_comm]
    · simp only [failsAt_cons_of_ok (·.stop terminate) h, ← ih, stopEach, h]

/-! ### Whole registries -/

/-- The failure of a service before which none of those had failed that were registered later. -/
theorem failsAt_reverse_iff :
    (∃ s state', FailsAt act l.reverse state s e state') ↔
      ∃ before s after mid, l = before ++ s :: after ∧ Passes act after.reverse state mid ∧
        (act s mid).1 = .error e := by
  constructor
  · rintro ⟨s, state', before, after, mid, hl, hp, hs⟩
    refine ⟨after.reverse, s, before.reverse, mid, ?_, ?_, by rw [hs]⟩
    · rw [← l.reverse_reverse, hl]
      simp
    · rwa [List.reverse_reverse]
  · rintro ⟨before, s, after, mid, rfl, hp, hs⟩
    exact ⟨s, (act s mid).2, after.reverse, before.reverse, mid, by simp, hp, Prod.ext hs rfl⟩

/-- **Services are registered once, started in order and all of them stopped.** A registry to which
services were offered one after the other holds the first of each name, in that order; one that
bears a name again is refused, and then nothing changes. Starting gives the services their turns in
that order, up to the first that fails, whose failure it returns. Stopping gives each of them its
turn once, in the reverse order, whatever fails, and comes to the failure of that service, among
those that fail, which was registered last. -/
theorem services_take_turns :
    (∀ l : List (ManagedService σ),
      (enrolling l).names.Nodup ∧ (enrolling l).services = firsts l ∧
      ∀ s, ((enrolling l).register s =
          if ∃ t ∈ l, t.name = s.name then .error (taken s.name)
          else .ok ⟨(enrolling l).services ++ [s]⟩) ∧
        enrolling (l ++ [s]) =
          if ∃ t ∈ l, t.name = s.name then enrolling l else ⟨(enrolling l).services ++ [s]⟩) ∧
    ∀ (r : Registry σ) (state : σ),
      (∀ nodeId state', r.startAll nodeId state = (.ok (), state') ↔
        Passes (·.start nodeId) r.services state state') ∧
      (∀ nodeId state' e, r.startAll nodeId state = (.error e, state') ↔
        ∃ s, FailsAt (·.start nodeId) r.services state s e state') ∧
      ∀ terminate,
        (r.stopAll terminate state).2 =
          r.services.reverse.foldl (fun state s => (s.stop terminate state).2) state ∧
        (outcome (r.stopAll terminate state).1 = .ok () ↔
          ∃ state', Passes (·.stop terminate) r.services.reverse state state') ∧
        ∀ e, outcome (r.stopAll terminate state).1 = .error e ↔
          ∃ before s after mid, r.services = before ++ s :: after ∧
            Passes (·.stop terminate) after.reverse state mid ∧
            (s.stop terminate mid).1 = .error e := by
  refine ⟨fun l => ?_, fun r state => ⟨fun _ _ => startEach_eq_ok_iff,
    fun _ _ _ => startEach_eq_error_iff, fun terminate => ⟨stopEach_state .., stopEach_ok_iff,
    fun e => stopEach_error_iff.trans (failsAt_reverse_iff _)⟩⟩⟩
  rw [enrolling_eq]
  refine ⟨nodup_firsts l, rfl, fun s => ⟨register_firsts l s, ?_⟩⟩
  rw [enrolling_eq, firsts_concat]
  split <;> rfl

/-- A service that writes down what is asked of it, and fails to do it if so told. -/
def scribe (name : String) (fails : Bool) : ManagedService (List String) where
  name := name
  start _ log := (if fails then .error name else .ok (), log ++ ["start " ++ name])
  stop _ log := (if fails then .error name else .ok (), log ++ ["stop " ++ name])

/-- Of three services with two names two are registered; the one that was registered last does not
start, and both are stopped. -/
example :
    let r := enrolling [scribe "a" false, scribe "b" true, scribe "a" true]
    r.names = ["a", "b"] ∧
      r.startAll "node" [] = (.error "b", ["start a", "start b"]) ∧
      r.stopAll false [] = (["b"], ["stop b", "stop a"]) := by
  refine ⟨rfl, rfl, rfl⟩

end Switchboard.Registry
