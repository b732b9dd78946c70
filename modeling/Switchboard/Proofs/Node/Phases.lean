import Switchboard.Http.Visit
import Switchboard.Node.Build
import Switchboard.Node.Life

/-! How the health of a node moves.

Serving and watching take their steps in any order, the signal to stop may be given at any
moment, and requests come and go all the while. A *turn* is one of these, and a *lifetime* is
any order of turns from a new node, together with what its health has been.

Whatever a turn does to the health of a node takes it forward, except for one: serving says that
the node is ready without looking at what has become of it. So health moves forward throughout
exactly when serving has said so before watching began the shutdown (`health_forward`). -/
namespace Switchboard
open Redirect

/-! ### The order of health -/

/-- How far a node has come in its life. -/
def HealthState.rank : HealthState → Nat
  | .starting => 0
  | .ready => 1
  | .draining => 2
  | .stopped => 3

instance : LE HealthState := ⟨fun a b => a.rank ≤ b.rank⟩

instance (a b : HealthState) : Decidable (a ≤ b) := inferInstanceAs (Decidable (a.rank ≤ b.rank))

namespace HealthState
variable {a b c : HealthState}

theorem le_refl (a : HealthState) : a ≤ a := Nat.le_refl a.rank

theorem le_trans (h : a ≤ b) (h' : b ≤ c) : a ≤ c := Nat.le_trans h h'

theorem le_stopped (a : HealthState) : a ≤ .stopped := by cases a <;> decide

end HealthState

/-! ### Health and those who wait -/

namespace Controller
variable {c : Controller}

/-- The health is what it was, or the node has stopped. -/
def Settles (c c' : Controller) : Prop := c'.health = c.health ∨ c'.health = .stopped

theorem await_settles (key : Nat) (late : Bool) : c.Settles (c.await key late).2 := by
  unfold await look
  by_cases h : (c.register key).inFlight = 0
  · rw [if_pos h]
    exact .inr rfl
  · rw [if_neg h]
    cases late <;> exact .inl rfl

theorem resume_settles (key : Nat) (late : Bool) : c.Settles (c.resume key late).2 := by
  unfold resume
  split
  · exact await_settles key late
  · split <;> exact .inl rfl

@[simp] theorem release_health : c.release.health = c.health := by
  by_cases h : c.inFlight = 1 <;> simp [release, leave, notify, h]

end Controller

/-! ### One step of each activity -/

namespace Life
variable {l : Life} {r : Relay} {p : Life × Relay} {key now : Nat}

/-- A step of serving: it says that the node is ready, or it has said so before. -/
inductive Serves (l : Life) (c : Controller) (l' : Life) (c' : Controller) : Prop
  | announces (hs : l.serving = .entered) (hl : l' = { l with serving := .listening })
      (hc : c' = c.setReady)
  | goesOn (hs : l.serving ≠ .entered) (hstop : l.serving = .listening → l.stopping = true)
      (hs' : l'.serving ≠ .entered) (hw : l'.watching = l.watching) (hc : c.Settles c')

/-- A step of watching: it begins the shutdown, or it has begun it before. -/
inductive Watches (l : Life) (c : Controller) (l' : Life) (c' : Controller) : Prop
  | begins (hw : l.watching = .waiting) (hw' : l'.watching = .begun)
      (hs : l'.serving = l.serving) (hc : c' = c.beginShutdown)
  | goesOn (hw : l.watching ≠ .waiting) (hw' : l'.watching ≠ .waiting)
      (hs : l'.serving = l.serving) (hc : c.Settles c')

theorem serve_serves (h : l.serve r key now = some p) :
    Serves l r.controller p.1 p.2.controller := by
  have hclose {c : Controller} (drained : Bool) (hs : l.serving ≠ .entered)
      (hstop : l.serving = .listening → l.stopping = true) (hc : r.controller.Settles c) :
      Serves l r.controller (l.close { r with controller := c } drained).1
        (l.close { r with controller := c } drained).2.controller := by
    cases drained <;> exact .goesOn hs hstop (fun h => by cases h) rfl hc
  unfold serve at h
  split at h
  case h_1 hs =>
    cases h
    exact .announces hs rfl rfl
  case h_2 hs =>
    split at h <;> cases h
    rename_i hstop
    exact .goesOn (by simp [hs]) (fun _ => hstop) (fun h => by cases h) rfl (.inl rfl)
  case h_3 hs =>
    cases h
    exact .goesOn (by simp [hs]) (by simp [hs]) (fun h => by cases h) rfl (.inl rfl)
  case h_4 hs =>
    have hc := r.controller.await_settles key (decide (l.drainMs = 0))
    split at h <;> rename_i heq <;> rw [heq] at hc <;> cases h
    · exact .goesOn (by simp [hs]) (by simp [hs]) (fun h => by cases h) rfl hc
    · exact hclose _ (by simp [hs]) (by simp [hs]) hc
  case h_5 deadline hs =>
    have hc := r.controller.resume_settles key (decide (deadline ≤ now))
    split at h <;> rename_i heq <;> rw [heq] at hc
    · cases h
      exact hclose _ (by simp [hs]) (by simp [hs]) hc
    · split at h <;> cases h
      exact .goesOn (by simp [hs]) (by simp [hs]) (by simp [hs]) rfl hc
  case h_6 => cases h

theorem watch_watches (h : l.watch r key now = some p) :
    Watches l r.controller p.1 p.2.controller := by
  have hexpire {c : Controller} (drained : Bool) (hw : l.watching ≠ .waiting)
      (hc : r.controller.Settles c) :
      Watches l r.controller (l.expire { r with controller := c } drained).1
        (l.expire { r with controller := c } drained).2.controller := by
    cases drained <;> exact .goesOn hw (fun h => by cases h) rfl hc
  unfold watch at h
  split at h
  case h_1 hw =>
    split at h <;> cases h
    exact .begins hw rfl rfl rfl
  case h_2 hw =>
    cases h
    exact .goesOn (by simp [hw]) (fun h => by cases h) rfl (.inl rfl)
  case h_3 hw =>
    have hc := r.controller.await_settles key (decide (l.drainMs = 0))
    split at h <;> rename_i heq <;> rw [heq] at hc <;> cases h
    · exact .goesOn (by simp [hw]) (fun h => by cases h) rfl hc
    · exact hexpire _ (by simp [hw]) hc
  case h_4 deadline hw =>
    have hc := r.controller.resume_settles key (decide (deadline ≤ now))
    split at h <;> rename_i heq <;> rw [heq] at hc
    · cases h
      exact hexpire _ (by simp [hw]) hc
    · split at h <;> cases h
      exact .goesOn (by simp [hw]) (by simp [hw]) rfl hc
  case h_5 hw =>
    cases h
    exact .goesOn (by simp [hw]) (fun h => by cases h) rfl (.inl rfl)
  case h_6 => cases h

end Life

/-! ### Lifetimes -/

/-- What can happen next in the life of a node. -/
inductive Turn where
  /-- Serving takes its next step. -/
  | serve (now : Nat)
  /-- Watching takes its next step. -/
  | watch (now : Nat)
  /-- The signal to stop is given. -/
  | signal
  /-- A request comes in. -/
  | arrive
  /-- A request that was in flight has ended. -/
  | depart
  /-- Calls go on, with whatever they change. -/
  | calls (hub : Hub) (tokens : Tokens) (free : Nat) (classifier : Classifier)

/-- A node in its life, and what has been seen of it. -/
structure Lifetime where
  life : Life
  relay : Relay
  /-- What its health has been, from the beginning until now. -/
  history : List HealthState
  /-- Watching had begun the shutdown when serving said that the node is ready. -/
  overtaken : Bool := false

namespace Lifetime

def servingKey : Nat := 0

def watchingKey : Nat := 1

/-- A new node, before serving and watching have taken a step. -/
def opened (drainMs : Nat) (relay : Relay) : Lifetime :=
  { life := { drainMs }, relay, history := [relay.controller.health] }

def health (t : Lifetime) : HealthState := t.relay.controller.health

/-- The lifetime goes on to a state, whose health is seen. -/
def goesTo (t : Lifetime) (life : Life) (relay : Relay) : Lifetime :=
  { t with life, relay, history := t.history ++ [relay.controller.health] }

/-- Watching has begun the shutdown, and serving has still to say that the node is ready. -/
def Behind (t : Lifetime) : Prop := t.life.serving = .entered ∧ t.life.watching ≠ .waiting

instance (t : Lifetime) : Decidable t.Behind := inferInstanceAs (Decidable (_ ∧ _))

def setController (t : Lifetime) (c : Controller) : Lifetime :=
  t.goesTo t.life { t.relay with controller := c }

/-- The lifetime after a turn, or nothing when there is no such turn now. -/
def step (t : Lifetime) : Turn → Option Lifetime
  | .serve now =>
    (t.life.serve t.relay servingKey now).map fun p =>
      { t.goesTo p.1 p.2 with overtaken := t.overtaken || decide t.Behind }
  | .watch now => (t.life.watch t.relay watchingKey now).map fun p => t.goesTo p.1 p.2
  | .signal => some (t.goesTo { t.life with signalled := true } t.relay)
  | .arrive => some (t.setController t.relay.controller.enter)
  | .depart =>
    if t.relay.controller.inFlight = 0 then none
    else some (t.setController t.relay.controller.release)
  | .calls hub tokens free classifier =>
    some (t.goesTo t.life { t.relay with hub, tokens, free, classifier })

def run (t : Lifetime) : List Turn → Option Lifetime
  | [] => some t
  | a :: rest => (t.step a).bind fun t => t.run rest

/-- What every turn preserves, the whole run preserves. -/
theorem run_preserves {P : Lifetime → Prop} {turns : List Turn}
    (hstep : ∀ t t' a, P t → t.step a = some t' → P t') {t t' : Lifetime}
    (h : t.run turns = some t') (ht : P t) : P t' := by
  induction turns generalizing t with
  | nil =>
    cases h
    exact ht
  | cons a rest ih =>
    obtain ⟨u, hu, hr⟩ := Option.bind_eq_some_iff.mp h
    exact ih hr (hstep t u a ht hu)

variable {t t' : Lifetime} {a : Turn}

/-! ### One turn -/

/-- What holds of every lifetime. Until watching begins the shutdown, health says no more than how
far serving has come; from then on the node is draining at least, unless serving said afterwards
that it is ready. -/
structure Orderly (t : Lifetime) : Prop where
  waits : t.life.watching = .waiting → t.life.stopping = false ∧
    (t.life.serving = .entered ∧ t.health = .starting ∨
      t.life.serving = .listening ∧ t.health = .ready)
  silent : t.life.serving = .entered → t.overtaken = false
  drains : t.life.watching ≠ .waiting → t.overtaken = false → .draining ≤ t.health

/-- What a turn does to the health of a node and to its two activities. -/
inductive Turns (t t' : Lifetime) : Prop
  /-- Serving says that the node is ready. -/
  | announces (hs : t.life.serving = .entered)
      (hl : t'.life = { t.life with serving := .listening })
      (ho : t'.overtaken = (t.overtaken || decide t.Behind)) (hh : t'.health = .ready)
  /-- Watching begins the shutdown. -/
  | begins (hw : t.life.watching = .waiting) (hw' : t'.life.watching ≠ .waiting)
      (hs : t'.life.serving = t.life.serving) (ho : t'.overtaken = t.overtaken)
      (hh : t'.health = .draining)
  /-- The shutdown goes on. -/
  | drains (hw : t.life.watching ≠ .waiting) (hw' : t'.life.watching ≠ .waiting)
      (hs : t'.life.serving = .entered ↔ t.life.serving = .entered)
      (ho : t'.overtaken = t.overtaken) (hh : t'.health = t.health ∨ t'.health = .stopped)
  /-- Something else happens. -/
  | passes (hw : t'.life.watching = t.life.watching) (hs : t'.life.serving = t.life.serving)
      (hp : t'.life.stopping = t.life.stopping) (ho : t'.overtaken = t.overtaken)
      (hh : t'.health = t.health)

theorem step_turns (hi : Orderly t) (h : t.step a = some t') : Turns t t' := by
  cases a with
  | serve now =>
    obtain ⟨p, hp, rfl⟩ := Option.map_eq_some_iff.mp h
    cases Life.serve_serves hp with
    | announces hs hl hc => exact .announces hs hl rfl (congrArg Controller.health hc)
    | goesOn hs hstop hs' hw hc =>
      have hbegun : t.life.watching ≠ .waiting := by
        intro hwait
        obtain ⟨hno, hserving | hserving⟩ := hi.waits hwait
        · exact hs hserving.1
        · rw [hstop hserving.1] at hno
          cases hno
      refine .drains hbegun (hw ▸ hbegun) ⟨fun h => absurd h hs', fun h => absurd h hs⟩ ?_ hc
      show (t.overtaken || decide t.Behind) = t.overtaken
      rw [decide_eq_false fun hb : t.Behind => hs hb.1, Bool.or_false]
  | watch now =>
    obtain ⟨p, hp, rfl⟩ := Option.map_eq_some_iff.mp h
    cases Life.watch_watches hp with
    | begins hw hw' hs hc =>
      refine .begins hw ?_ hs rfl (congrArg Controller.health hc)
      show p.1.watching ≠ .waiting
      rw [hw']
      exact Watching.noConfusion
    | goesOn hw hw' hs hc =>
      refine .drains hw hw' ?_ rfl hc
      show p.1.serving = .entered ↔ _
      rw [hs]
  | depart =>
    simp only [step] at h
    split at h <;> cases h
    exact .passes rfl rfl rfl rfl Controller.release_health
  | _ =>
    cases h
    exact .passes rfl rfl rfl rfl rfl

theorem Orderly.step (hi : Orderly t) (h : t.step a = some t') : Orderly t' := by
  cases step_turns hi h with
  | announces hs hl ho hh =>
    refine ⟨fun hw => ?_, fun hs' => ?_, fun hw hno => ?_⟩
    · rw [hl] at hw
      rw [hl]
      exact ⟨(hi.waits hw).1, .inr ⟨rfl, hh⟩⟩
    · rw [hl] at hs'
      cases hs'
    · -- serving has just been overtaken
      rw [hl] at hw
      rw [ho, decide_eq_true (show t.Behind from ⟨hs, hw⟩), Bool.or_true] at hno
      cases hno
  | begins hw hw' hs ho hh =>
    refine ⟨fun h => absurd h hw', fun hs' => ho.trans (hi.silent (hs ▸ hs')), fun _ _ => ?_⟩
    rw [hh]
    exact HealthState.le_refl _
  | drains hw hw' hs ho hh =>
    refine ⟨fun h => absurd h hw', fun hs' => ho.trans (hi.silent (hs.mp hs')), fun _ hno => ?_⟩
    rcases hh with hh | hh <;> rw [hh]
    · exact hi.drains hw (ho ▸ hno)
    · exact HealthState.le_stopped _
  | passes hw hs hp ho hh =>
    refine ⟨fun h => ?_, fun hs' => ho.trans (hi.silent (hs ▸ hs')), fun h hno => ?_⟩
    · rw [hp, hs, hh]
      exact hi.waits (hw ▸ h)
    · rw [hh]
      exact hi.drains (hw ▸ h) (ho ▸ hno)

/-- **A turn takes health back exactly when serving says that the node is ready after watching has
begun the shutdown.** -/
theorem step_back (hi : Orderly t) (h : t.step a = some t') :
    (t.health ≤ t'.health ∧ t'.overtaken = t.overtaken) ∨
      (t.Behind ∧ t.overtaken = false ∧ t'.overtaken = true ∧ .draining ≤ t.health ∧
        t'.health = .ready) := by
  cases step_turns hi h with
  | announces hs hl ho hh =>
    by_cases hw : t.life.watching = .waiting
    · refine .inl ⟨?_, ?_⟩
      · obtain ⟨_, ⟨_, hstart⟩ | ⟨hs', _⟩⟩ := hi.waits hw
        · rw [hstart, hh]
          decide
        · rw [hs] at hs'
          cases hs'
      · rw [ho, decide_eq_false fun hb : t.Behind => hb.2 hw, Bool.or_false]
    · refine .inr ⟨⟨hs, hw⟩, hi.silent hs, ?_, hi.drains hw (hi.silent hs), hh⟩
      rw [ho, decide_eq_true (show t.Behind from ⟨hs, hw⟩), Bool.or_true]
  | begins hw hw' hs ho hh =>
    refine .inl ⟨?_, ho⟩
    obtain ⟨_, ⟨_, h⟩ | ⟨_, h⟩⟩ := hi.waits hw <;> rw [h, hh] <;> decide
  | drains hw hw' hs ho hh =>
    refine .inl ⟨?_, ho⟩
    rcases hh with hh | hh <;> rw [hh]
    · exact HealthState.le_refl _
    · exact HealthState.le_stopped _
  | passes hw hs hp ho hh => exact .inl ⟨hh ▸ HealthState.le_refl _, ho⟩

/-! ### Whole lifetimes -/

theorem step_history (h : t.step a = some t') : t'.history = t.history ++ [t'.health] := by
  cases a with
  | serve now =>
    obtain ⟨p, _, rfl⟩ := Option.map_eq_some_iff.mp h
    rfl
  | watch now =>
    obtain ⟨p, _, rfl⟩ := Option.map_eq_some_iff.mp h
    rfl
  | depart =>
    simp only [step] at h
    split at h <;> cases h
    rfl
  | _ =>
    cases h
    rfl

/-- What has been seen of a lifetime. -/
structure Told (t : Lifetime) : Prop where
  last : t.health ∈ t.history
  forward : t.overtaken = false →
    t.history.Pairwise (· ≤ ·) ∧ ∀ h ∈ t.history, h ≤ t.health
  back : t.overtaken = true → ¬t.history.Pairwise (· ≤ ·)

theorem Told.step (ht : Told t) (hi : Orderly t) (h : t.step a = some t') : Told t' := by
  have hhistory := step_history h
  refine ⟨hhistory ▸ List.mem_append_right _ (List.mem_singleton_self _), fun hno => ?_,
    fun hyes hp => ?_⟩
  · rcases step_back hi h with ⟨hle, ho⟩ | ⟨_, _, ho, _⟩
    · obtain ⟨hp, hall⟩ := ht.forward (ho ▸ hno)
      have hall' : ∀ s ∈ t.history, s ≤ t'.health := fun s hs =>
        HealthState.le_trans (hall s hs) hle
      rw [hhistory]
      refine ⟨List.pairwise_append.mpr ⟨hp, List.pairwise_singleton .., fun s hs s' hs' => ?_⟩,
        fun s hs => ?_⟩
      · rw [List.mem_singleton.mp hs']
        exact hall' s hs
      · rcases List.mem_append.mp hs with hs | hs
        · exact hall' s hs
        · rw [List.mem_singleton.mp hs]
          exact HealthState.le_refl _
    · rw [ho] at hno
      cases hno
  · rw [hhistory] at hp
    obtain ⟨hp, -, hlast⟩ := List.pairwise_append.mp hp
    rcases step_back hi h with ⟨_, ho⟩ | ⟨_, _, _, hdraining, hready⟩
    · exact ht.back (ho ▸ hyes) hp
    · have := HealthState.le_trans hdraining
        (hlast _ ht.last _ (List.mem_singleton_self _))
      rw [hready] at this
      exact absurd this (by decide)

theorem run_told {drainMs : Nat} {relay : Relay} {turns : List Turn}
    (hnew : relay.controller.health = .starting)
    (h : (opened drainMs relay).run turns = some t) : Orderly t ∧ Told t := by
  refine run_preserves (P := fun t => Orderly t ∧ Told t) ?_ h ⟨?_, ?_⟩
  · exact fun t t' a ⟨hi, ht⟩ hstep => ⟨hi.step hstep, ht.step hi hstep⟩
  · exact ⟨fun _ => ⟨rfl, .inl ⟨rfl, hnew⟩⟩, fun _ => rfl, fun hw => absurd rfl hw⟩
  · refine ⟨List.mem_singleton_self _, fun _ => ⟨List.pairwise_singleton .., fun s hs => ?_⟩,
      fun hyes => by cases hyes⟩
    rw [List.mem_singleton.mp hs]
    exact HealthState.le_refl _

/-- Serving that has said that the node is ready cannot be overtaken any more. -/
theorem run_overtaken {turns : List Turn} (hi : Orderly t) (hs : t.life.serving ≠ .entered)
    (h : t.run turns = some t') : t'.overtaken = t.overtaken := by
  refine (run_preserves (P := fun u => Orderly u ∧ u.life.serving ≠ .entered ∧
    u.overtaken = t.overtaken) ?_ h ⟨hi, hs, rfl⟩).2.2
  intro u u' a ⟨hu, hs, ho⟩ hstep
  refine ⟨hu.step hstep, ?_, ?_⟩
  · cases step_turns hu hstep with
    | announces hs' => exact absurd hs' hs
    | begins _ _ hs' => exact hs' ▸ hs
    | drains _ _ hs' => exact fun h => hs (hs'.mp h)
    | passes _ hs' => exact hs' ▸ hs
  · rcases step_back hu hstep with ⟨_, ho'⟩ | ⟨hb, _⟩
    · exact ho'.trans ho
    · exact absurd hb.1 hs

/-! ### Forward or not -/

/-- **Health moves forward unless watching overtakes serving.** In every lifetime the successive
states of health are in order exactly when watching had not begun the shutdown when serving said
that the node is ready. Then the node is not ready any more once the shutdown has begun, and serving
that has spoken is not overtaken later. But when the shutdown begins before serving has spoken,
nothing keeps serving from it: its next step takes a node that drains or has stopped back to being
ready. -/
theorem health_forward {drainMs : Nat} {relay : Relay} {turns : List Turn}
    (hnew : relay.controller.health = .starting)
    (h : (opened drainMs relay).run turns = some t) :
    (t.history.Pairwise (· ≤ ·) ↔ t.overtaken = false) ∧
      (t.life.watching ≠ .waiting → t.overtaken = false →
        (Http.readiness t.relay).status = 503) ∧
      (t.life.serving ≠ .entered → ∀ later t', t.run later = some t' →
        t'.overtaken = t.overtaken) ∧
      (t.Behind → ∀ now, ∃ t', t.step (.serve now) = some t' ∧ t'.overtaken = true ∧
        .draining ≤ t.health ∧ t'.health = .ready ∧
          (Http.readiness t'.relay).status = 200) := by
  obtain ⟨hi, ht⟩ := run_told hnew h
  refine ⟨⟨fun hp => ?_, fun hno => (ht.forward hno).1⟩, fun hw hno => ?_,
    fun hs later t' hrun => run_overtaken hi hs hrun, fun hb now => ?_⟩
  · cases ho : t.overtaken with
    | false => rfl
    | true => exact absurd hp (ht.back ho)
  · have hdraining := hi.drains hw hno
    have hnot : t.relay.controller.health ≠ .ready := by
      intro hready
      rw [health, hready] at hdraining
      exact absurd hdraining (by decide)
    rw [Http.readiness, if_neg hnot]
    rfl
  · refine ⟨{ t.goesTo { t.life with serving := .listening }
        { t.relay with controller := t.relay.controller.setReady } with
        overtaken := t.overtaken || decide t.Behind }, ?_, ?_, hi.drains hb.2 (hi.silent hb.1),
      rfl, rfl⟩
    · simp only [step, Life.serve, hb.1, Option.map_some]
    · rw [decide_eq_true hb, Bool.or_true]

/-- A node serves, is told to stop while a request is in flight, and waits for it to end. -/
def drained : List Turn :=
  [.serve 0, .arrive, .signal, .watch 0, .watch 0, .watch 0, .depart, .watch 5]

theorem drained_in_order :
    ∃ relay t, Relay.ofConfig {} [] = .ok relay ∧ relay.controller.health = .starting ∧
      (opened 10000 relay).run drained = some t ∧ t.health = .stopped ∧
      t.history.Pairwise (· ≤ ·) := by
  obtain ⟨relay, hrelay⟩ : ∃ relay, Relay.ofConfig {} [] = .ok relay := ⟨_, rfl⟩
  have hnew : relay.controller.health = .starting := by
    cases hrelay
    rfl
  obtain ⟨t, hrun, hstopped, ho⟩ : ∃ t, (opened 10000 relay).run drained = some t ∧
      t.health = .stopped ∧ t.overtaken = false := by
    cases hrelay
    exact ⟨_, rfl, rfl, rfl⟩
  exact ⟨relay, t, hrelay, hnew, hrun, hstopped, (health_forward hnew hrun).1.mpr ho⟩

/-- The signal to stop has been given before serving takes its first step, and watching comes
first: a node that has stopped is ready again. -/
theorem ready_after_stopping :
    ∃ relay t, Relay.ofConfig {} [] = .ok relay ∧ relay.controller.health = .starting ∧
      (opened 10000 relay).run [.signal, .watch 0, .watch 0, .watch 0, .serve 0] = some t ∧
      t.history = [.starting, .starting, .draining, .draining, .stopped, .ready] ∧
      ¬t.history.Pairwise (· ≤ ·) ∧ (Http.readiness t.relay).status = 200 :=
  ⟨_, _, rfl, rfl, rfl, rfl, by decide, rfl⟩

end Lifetime
end Switchboard
