import Switchboard.Node.Build
import Switchboard.Proofs.Call.Looking

/-! The names under which calls are counted.

A call that ends is counted under the namespace it asks for, unless it failed because nobody
serves that namespace; then it is counted as `unknown`. Who serves it is found out only for a call
that is let through. So the counters have a name that nobody serves exactly when a call under that
name was turned away, or had been cancelled, before it was let through (`labels_of_calls`).

*Traffic* is any order of calls that come in, are looked at and are given up, from any relay, with
whatever else changes in between; it keeps a record of the calls that have ended. -/
namespace Switchboard
open Redirect

/-! ### Counters -/

namespace Metrics

/-- How often a key was counted. -/
def value (key : MetricKey) : Metrics → Nat
  | [] => 0
  | (k, n) :: rest => if k = key then n else value key rest

theorem value_count (key k : MetricKey) (m : Metrics) :
    value key (count k m) = value key m + if k = key then 1 else 0 := by
  induction m with
  | nil =>
    by_cases hk : k = key <;> simp [count, value, hk]
  | cons entry rest ih =>
    obtain ⟨k', n⟩ := entry
    by_cases hsame : k' = k
    · subst hsame
      by_cases hk : k' = key <;> simp [count, value, hk]
    · by_cases hk' : k' = key
      · have hk : key ≠ k := fun h => hsame (hk'.trans h)
        simp [count, value, hk', hk, hk.symm]
      · simp [count, value, hsame, hk', ih]

variable {name name' outcome outcome' : String} {succeeded : Bool}

theorem callKey_inj :
    callKey name outcome = callKey name' outcome' ↔ name = name' ∧ outcome = outcome' := by
  simp [callKey]

theorem durationKey_inj : durationKey name = durationKey name' ↔ name = name' := by
  simp [durationKey]

theorem durationKey_ne_callKey : durationKey name ≠ callKey name' outcome := by
  simp [durationKey, callKey]

theorem callKey_ne_durationKey : callKey name outcome ≠ durationKey name' := by
  simp [durationKey, callKey]

theorem dialKey_ne_callKey : dialKey name succeeded ≠ callKey name' outcome := by
  simp [dialKey, callKey]

theorem dialKey_ne_durationKey : dialKey name succeeded ≠ durationKey name' := by
  simp [dialKey, durationKey]

end Metrics

/-! ### Who is served -/

namespace Handler
variable {name n : String} {names : List String}

theorem mem_insert : n ∈ distinct.insert name names ↔ n = name ∨ n ∈ names := by
  induction names with
  | nil => simp [distinct.insert]
  | cons m rest ih =>
    unfold distinct.insert
    split
    · simp
    · split
      · rename_i hm
        simp [hm]
      · simp only [List.mem_cons, ih, or_left_comm]

theorem mem_distinct : n ∈ distinct names ↔ n ∈ names := by
  induction names with
  | nil => rfl
  | cons name rest ih => exact mem_insert.trans ((or_congr_right ih).trans List.mem_cons.symm)

end Handler

/-- A namespace leads nowhere exactly when it is not answered for. -/
theorem Router.route_eq_nowhere {r : Router} {name : String} :
    r.route name = .nowhere ↔ name ∉ r.served := by
  have hredirection : r.redirection? name = none ↔
      name ∉ r.redirections.map Redirection.namespaceName := by
    simp [redirection?]
  have hhandler : r.handler? name = none ↔ name ∉ r.handlers.map Handler.namespaceName := by
    simp [handler?]
  rw [served, Handler.mem_distinct, List.mem_append, not_or, ← hredirection, ← hhandler, route]
  cases r.redirection? name <;> cases r.handler? name <;> simp

/-! ### One call -/

namespace Relay
variable {r : Relay} {c : Call}

/-- The call is let through when it comes in: there is a permit for it, and it has not been
cancelled. -/
def admits (r : Relay) (c : Call) : Bool :=
  decide (r.free ≠ 0) && !r.tokens.isCancelled c.token

/-- A call that is not let through ends at once. -/
theorem enter_refused (h : r.admits c = false) (party now : Nat) :
    ∃ a, (a = .error .overloaded ∨ a = .error .cancelled) ∧
      r.enter c party now = (.ended a, r.observed c a) := by
  unfold enter takePermit
  by_cases hfree : r.free = 0
  · rw [if_pos hfree]
    exact ⟨_, .inl rfl, rfl⟩
  · have hcancelled : r.tokens.isCancelled c.token = true := by
      simpa [admits, hfree] using h
    rw [if_neg hfree]
    exact ⟨_, .inr rfl, if_pos hcancelled⟩

/-- A call that is let through, though nobody serves it, ends at once and says so. -/
theorem enter_unserved (h : r.admits c = true) (hc : c.name.namespaceName ∉ r.router.served)
    (party now : Nat) :
    (r.enter c party now).1 = .ended (.error (.methodNotFound c.name.full)) := by
  simp only [admits, Bool.and_eq_true, Bool.not_eq_true', decide_eq_true_eq] at h
  obtain ⟨hfree, hcancelled⟩ := h
  have hserve : r.serve c now = .replying now (.error (.methodNotFound c.name.full)) := by
    rw [serve, Router.route_eq_nowhere.mpr hc]
  simp [enter, takePermit, hfree, hcancelled, hserve, go, answer?, decide?]

end Relay

/-! ### Traffic -/

/-- A call that has ended. -/
structure Counted where
  call : Call
  answer : Answer
  /-- It had been let through. -/
  admitted : Bool

namespace Counted

/-- The name under which it was counted. -/
def label (c : Counted) : String := countedName c.call.name.namespaceName c.answer

theorem observe_eq (c : Counted) (m : Metrics) :
    observe m c.call.name.namespaceName c.answer =
      (m.count (Metrics.callKey c.label (outcomeOf c.answer))).count
        (Metrics.durationKey c.label) :=
  rfl

/-- How a call came to its end. -/
inductive Fate (router : Router) (c : Counted) : Prop
  | refused (h : c.admitted = false)
      (ha : c.answer = .error .overloaded ∨ c.answer = .error .cancelled)
  | unserved (h : c.admitted = true) (ha : c.answer = .error (.methodNotFound c.call.name.full))
  | served (h : c.admitted = true) (hs : c.call.name.namespaceName ∈ router.served)

variable {router : Router} {c : Counted}

theorem label_refused (h : c.answer = .error .overloaded ∨ c.answer = .error .cancelled) :
    c.label = c.call.name.namespaceName := by
  rcases h with h | h <;> rw [label, h] <;> rfl

/-- A label is `unknown`, or the namespace that was asked for. -/
theorem label_or (c : Counted) : c.label = "unknown" ∨ c.label = c.call.name.namespaceName := by
  unfold label countedName
  split
  · exact .inl rfl
  · exact .inr rfl

/-- **A label is a known one when the call was let through, and else when its namespace is.** -/
theorem Fate.label_known (h : Fate router c) :
    (c.label = "unknown" ∨ c.label ∈ router.served) ↔
      (c.admitted = true ∨ c.call.name.namespaceName = "unknown" ∨
        c.call.name.namespaceName ∈ router.served) := by
  cases h with
  | refused h ha => simp [label_refused ha, h]
  | unserved h ha => exact iff_of_true (.inl (by rw [label, ha]; rfl)) (.inl h)
  | served h hs =>
    refine iff_of_true ?_ (.inl h)
    rcases c.label_or with hl | hl
    · exact .inl hl
    · exact .inr (by rwa [hl])

end Counted

/-- A relay, its calls that are under way, and those that have ended. -/
structure Traffic where
  relay : Relay
  under : List Entry := []
  counted : List Counted := []

namespace Traffic

/-- What can happen to the calls of a relay. -/
inductive Event where
  /-- A call comes in. -/
  | enter (call : Call) (party now : Nat)
  /-- A call under way is looked at. -/
  | look (place party now : Nat)
  /-- A call under way is given up. -/
  | drop (place : Nat)
  /-- The dial of a redirection has ended and is counted. -/
  | dialed (name : String) (succeeded : Bool)
  /-- The connections go on, tokens are cancelled and requests come and go. -/
  | goOn (hub : Hub) (tokens : Tokens) (controller : Controller) (classifier : Classifier)

def opened (relay : Relay) : Traffic := { relay }

def metrics (t : Traffic) : Metrics := t.relay.hub.metrics

/-- The traffic after an event, or nothing when there is no such call. -/
def step (t : Traffic) : Event → Option Traffic
  | .enter call party now =>
    some <| match t.relay.enter call party now with
      | (.pending e, relay) => { t with relay, under := t.under ++ [e] }
      | (.ended a, relay) =>
        { t with relay, counted := t.counted ++ [⟨call, a, t.relay.admits call⟩] }
  | .look place party now =>
    t.under[place]?.map fun e => match t.relay.go e party now with
      | (.pending e, relay) => { t with relay, under := t.under.set place e }
      | (.ended a, relay) =>
        { relay, under := t.under.eraseIdx place, counted := t.counted ++ [⟨e.call, a, true⟩] }
  | .drop place =>
    t.under[place]?.map fun e =>
      { t with relay := t.relay.drop e, under := t.under.eraseIdx place }
  | .dialed name succeeded =>
    let metrics := t.metrics.count (Metrics.dialKey name succeeded)
    some { t with relay := { t.relay with hub := { t.relay.hub with metrics } } }
  | .goOn hub tokens controller classifier =>
    let hub := { hub with metrics := t.metrics }
    some { t with relay := { t.relay with hub, tokens, controller, classifier } }

def run (t : Traffic) : List Event → Option Traffic
  | [] => some t
  | a :: rest => (t.step a).bind fun t => t.run rest

/-- How many calls have ended under a name with an outcome. -/
def ended (t : Traffic) (name outcome : String) : Nat :=
  t.counted.countP fun c => c.label = name ∧ outcomeOf c.answer = outcome

/-- How many calls have ended under a name. -/
def endedUnder (t : Traffic) (name : String) : Nat := t.counted.countP fun c => c.label = name

variable {t t' : Traffic} {a : Event}

/-! ### One event -/

/-- What an event does to the calls and the counters. -/
inductive Moves (t t' : Traffic) : Prop
  /-- A call is under way, or goes on. -/
  | goesOn (hr : t'.relay.router = t.relay.router)
      (hu : ∀ e ∈ t'.under, e ∈ t.under ∨ e.call.name.namespaceName ∈ t.relay.router.served)
      (hc : t'.counted = t.counted)
      (hm : t'.metrics = t.metrics ∨
        ∃ name succeeded, t'.metrics = t.metrics.count (Metrics.dialKey name succeeded))
  /-- A call ends, and is counted. -/
  | ends (c : Counted) (hr : t'.relay.router = t.relay.router)
      (hu : ∀ e ∈ t'.under, e ∈ t.under)
      (hf : (∃ e ∈ t.under, c.call = e.call ∧ c.admitted = true) ∨ c.Fate t.relay.router)
      (hc : t'.counted = t.counted ++ [c])
      (hm : t'.metrics = observe t.metrics c.call.name.namespaceName c.answer)

/-- The calls that come in and are under way have somebody who serves them. -/
theorem served_of_pending {r r' : Relay} {c : Call} {party now : Nat} {e : Entry}
    (h : r.enter c party now = (.pending e, r')) : c.name.namespaceName ∈ r.router.served := by
  cases hadmits : r.admits c with
  | false =>
    obtain ⟨a, -, ha⟩ := Relay.enter_refused hadmits party now
    cases h.symm.trans ha
  | true =>
    refine Decidable.byContradiction fun hno => ?_
    have hends := Relay.enter_unserved hadmits hno party now
    rw [h] at hends
    cases hends

/-- How a call ends that has just come in. -/
theorem fate_of_ended {r r' : Relay} {c : Call} {party now : Nat} {answer : Answer}
    (h : r.enter c party now = (.ended answer, r')) :
    Counted.Fate r.router ⟨c, answer, r.admits c⟩ := by
  cases hadmits : r.admits c with
  | false =>
    obtain ⟨answer', ha, heq⟩ := Relay.enter_refused hadmits party now
    cases h.symm.trans heq
    exact .refused rfl ha
  | true =>
    by_cases hserved : c.name.namespaceName ∈ r.router.served
    · exact .served rfl hserved
    · have hno := Relay.enter_unserved hadmits hserved party now
      rw [h] at hno
      cases hno
      exact .unserved rfl rfl

theorem step_moves (h : t.step a = some t')
    (hserved : ∀ e ∈ t.under, e.call.name.namespaceName ∈ t.relay.router.served) :
    Moves t t' := by
  cases a with
  | enter call party now =>
    have hlooks := @Relay.enter_looks t.relay call party now
    cases heq : t.relay.enter call party now with
    | mk progress relay =>
      simp only [step, heq] at h
      rw [heq] at hlooks
      cases hlooks with
      | @pending e _ hc _ _ hr hm =>
        cases h
        refine .goesOn hr.router (fun e' he' => ?_) rfl (.inl hm)
        refine (List.mem_append.mp he').imp_right fun he' => ?_
        rw [List.mem_singleton.mp he', hc]
        exact served_of_pending heq
      | ended hr hm =>
        cases h
        exact .ends _ hr.router (fun _ he => he) (.inr (fate_of_ended heq)) rfl hm
  | look place party now =>
    obtain ⟨e, he, h⟩ := Option.map_eq_some_iff.mp h
    have hmem := List.mem_of_getElem? he
    have hlooks := @Relay.go_looks t.relay e party now
    cases heq : t.relay.go e party now with
    | mk progress relay =>
      simp only [heq] at h
      rw [heq] at hlooks
      cases hlooks with
      | pending hc _ _ hr hm =>
        cases h
        refine .goesOn hr.router (fun e' he' => ?_) rfl (.inl hm)
        refine (List.mem_or_eq_of_mem_set he').imp_right fun he' => ?_
        rw [he', hc]
        exact hserved e hmem
      | ended hr hm =>
        cases h
        exact .ends _ hr.router (fun _ he => List.mem_of_mem_eraseIdx he) (.inl ⟨e, hmem, rfl, rfl⟩)
          rfl hm
  | drop place =>
    obtain ⟨e, -, rfl⟩ := Option.map_eq_some_iff.mp h
    exact .goesOn (Relay.keeps_dropService _).router (fun _ he => .inl (List.mem_of_mem_eraseIdx he)) rfl
      (.inl (Relay.dropService_metrics _))
  | dialed name succeeded =>
    cases h
    exact .goesOn rfl (fun _ he => .inl he) rfl (.inr ⟨name, succeeded, rfl⟩)
  | goOn hub tokens controller classifier =>
    cases h
    exact .goesOn rfl (fun _ he => .inl he) rfl (.inl rfl)

/-! ### Whole runs -/

/-- What holds of all traffic through a relay. -/
structure Booked (relay : Relay) (t : Traffic) : Prop where
  router : t.relay.router = relay.router
  /-- Only calls that somebody serves are under way. -/
  under : ∀ e ∈ t.under, e.call.name.namespaceName ∈ relay.router.served
  fates : ∀ c ∈ t.counted, c.Fate relay.router
  /-- Every call that ends is counted, and no other. -/
  calls : ∀ name outcome, t.metrics.value (Metrics.callKey name outcome) =
    relay.hub.metrics.value (Metrics.callKey name outcome) + t.ended name outcome
  durations : ∀ name, t.metrics.value (Metrics.durationKey name) =
    relay.hub.metrics.value (Metrics.durationKey name) + t.endedUnder name

theorem Booked.step {relay : Relay} (hb : Booked relay t) (h : t.step a = some t') :
    Booked relay t' := by
  have hserved : ∀ e ∈ t.under, e.call.name.namespaceName ∈ t.relay.router.served := by
    rw [hb.router]
    exact hb.under
  cases step_moves h hserved with
  | goesOn hr hu hc hm =>
    have hvalue (key : MetricKey) (hkey : ∀ name succeeded, Metrics.dialKey name succeeded ≠ key) :
        t'.metrics.value key = t.metrics.value key := by
      rcases hm with hm | ⟨name, succeeded, hm⟩
      · rw [hm]
      · rw [hm, Metrics.value_count, if_neg (hkey name succeeded), Nat.add_zero]
    refine ⟨hr.trans hb.router, fun e he => ?_, hc ▸ hb.fates, fun name outcome => ?_,
      fun name => ?_⟩
    · rcases hu e he with he | he
      · exact hb.under e he
      · exact hb.router ▸ he
    · rw [hvalue _ fun _ _ => Metrics.dialKey_ne_callKey, hb.calls, ended, ended, hc]
    · rw [hvalue _ fun _ _ => Metrics.dialKey_ne_durationKey, hb.durations, endedUnder,
        endedUnder, hc]
  | ends c hr hu hf hc hm =>
    refine ⟨hr.trans hb.router, fun e he => hb.under e (hu e he), fun c' hc' => ?_,
      fun name outcome => ?_, fun name => ?_⟩
    · rw [hc] at hc'
      rcases List.mem_append.mp hc' with hc' | hc'
      · exact hb.fates c' hc'
      · rw [List.mem_singleton.mp hc']
        rcases hf with ⟨e, he, hcall, hadmitted⟩ | hf
        · exact .served hadmitted (hcall ▸ hb.under e he)
        · exact hb.router ▸ hf
    · rw [hm, c.observe_eq, Metrics.value_count, Metrics.value_count, hb.calls, ended, ended, hc,
        if_neg Metrics.durationKey_ne_callKey, List.countP_append, List.countP_singleton]
      simp only [Metrics.callKey_inj, decide_eq_true_eq, Nat.add_zero, Nat.add_assoc]
    · rw [hm, c.observe_eq, Metrics.value_count, Metrics.value_count, hb.durations, endedUnder,
        endedUnder, hc, if_neg Metrics.callKey_ne_durationKey, List.countP_append,
        List.countP_singleton]
      simp only [Metrics.durationKey_inj, decide_eq_true_eq, Nat.add_zero, Nat.add_assoc]

theorem Booked.run {relay : Relay} {events : List Event} (hb : Booked relay t)
    (h : t.run events = some t') : Booked relay t' := by
  induction events generalizing t with
  | nil =>
    cases h
    exact hb
  | cons a rest ih =>
    obtain ⟨u, hu, hr⟩ := Option.bind_eq_some_iff.mp h
    exact ih (hb.step hu) hr

theorem booked_opened (relay : Relay) : Booked relay (opened relay) where
  router := rfl
  under _ he := by cases he
  fates _ hc := by cases hc
  calls _ _ := rfl
  durations _ := rfl

/-! ### Labels -/

/-- **The labels of calls.** Whatever calls come in, with whatever names, and however they end, the
counters rise with every call that ends and with no other. The label of a call that was let through
is `unknown`, or a namespace that is answered for. But a call that is not let through, because
there is no permit for it or because it has been cancelled, ends at once and is counted under the
name it came with, whether or not anybody answers for that. -/
theorem labels_of_calls {relay : Relay} {events : List Event}
    (h : (opened relay).run events = some t) :
    (∀ name outcome, t.metrics.value (Metrics.callKey name outcome) =
      relay.hub.metrics.value (Metrics.callKey name outcome) + t.ended name outcome) ∧
    (∀ name, t.metrics.value (Metrics.durationKey name) =
      relay.hub.metrics.value (Metrics.durationKey name) + t.endedUnder name) ∧
    (∀ c ∈ t.counted, (c.label = "unknown" ∨ c.label ∈ relay.router.served) ↔
      (c.admitted = true ∨ c.call.name.namespaceName = "unknown" ∨
        c.call.name.namespaceName ∈ relay.router.served)) ∧
    ∀ call party now, t.relay.admits call = false →
      ∃ t' c, t.step (.enter call party now) = some t' ∧ t'.counted = t.counted ++ [c] ∧
        c.call = call ∧ c.admitted = false ∧ c.label = call.name.namespaceName ∧
        t'.metrics.value (Metrics.durationKey call.name.namespaceName) =
          t.metrics.value (Metrics.durationKey call.name.namespaceName) + 1 := by
  have hb := (booked_opened relay).run h
  refine ⟨hb.calls, hb.durations, fun c hc => (hb.fates c hc).label_known,
    fun call party now hrefused => ?_⟩
  obtain ⟨a, ha, heq⟩ := Relay.enter_refused hrefused party now
  obtain ⟨t', hstep, hcounted⟩ : ∃ t', t.step (.enter call party now) = some t' ∧
      t'.counted = t.counted ++ [⟨call, a, false⟩] := by
    simp only [step, heq, hrefused]
    exact ⟨_, rfl, rfl⟩
  have hlabel : (⟨call, a, false⟩ : Counted).label = call.name.namespaceName :=
    Counted.label_refused ha
  refine ⟨t', _, hstep, hcounted, rfl, rfl, hlabel, ?_⟩
  rw [(hb.step hstep).durations, hb.durations, endedUnder, endedUnder, hcounted,
    List.countP_append, List.countP_singleton, if_pos (decide_eq_true hlabel), Nat.add_assoc]

/-- A call of a method under a name, and its own token. -/
def asking (name : String) (own : Nat) : Call := ⟨own, 1000, ⟨own, []⟩, ⟨name, "q"⟩, []⟩

/-- Calls that are let through, one under a name that nobody serves. -/
theorem labels_let_through :
    ∃ relay t, Relay.ofConfig {} [] = .ok relay ∧
      (opened relay).run [.enter (asking "web3" 1) 0 0, .enter (asking "zzz" 2) 0 0] = some t ∧
      t.counted.map Counted.label = ["web3", "unknown"] ∧
      ∀ c ∈ t.counted, c.label = "unknown" ∨ c.label ∈ relay.router.served := by
  obtain ⟨relay, hrelay⟩ : ∃ relay, Relay.ofConfig {} [] = .ok relay := ⟨_, rfl⟩
  obtain ⟨t, hrun, hlabels, hadmitted⟩ : ∃ t, (opened relay).run
      [.enter (asking "web3" 1) 0 0, .enter (asking "zzz" 2) 0 0] = some t ∧
        t.counted.map Counted.label = ["web3", "unknown"] ∧
        ∀ c ∈ t.counted, c.admitted = true := by
    cases hrelay
    exact ⟨_, rfl, rfl, by decide⟩
  exact ⟨relay, t, hrelay, hrun, hlabels, fun c hc =>
    ((labels_of_calls hrun).2.2.1 c hc).mpr (.inl (hadmitted c hc))⟩

/-- A namespace whose methods take their time. -/
def sleeper : Handler := ⟨"sleeper", fun _ _ => ⟨.ok .null, 50⟩⟩

/-- While another call has the only permit, a call under a name that nobody serves is counted under
that name. -/
theorem label_made_up :
    ∃ relay t, Relay.ofConfig { maxConcurrentCalls := 1 } [sleeper] = .ok relay ∧
      (opened relay).run [.enter (asking "sleeper" 1) 0 0, .enter (asking "zzz" 2) 0 0] = some t ∧
      t.counted.map Counted.label = ["zzz"] ∧
      t.metrics.value (Metrics.callKey "zzz" "overloaded") = 1 ∧
      "zzz" ≠ "unknown" ∧ "zzz" ∉ relay.router.served :=
  ⟨_, _, rfl, rfl, rfl, by decide, by decide, by decide⟩

end Traffic
end Switchboard
