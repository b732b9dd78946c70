import Switchboard.Proofs.Call.Holding
import Switchboard.Proofs.Call.Permits
import Switchboard.Proofs.Hub.Accounting

/-! What comes first in the life of a call.

A call that was let through waits for the router's answer, for its token and for its deadline, and
whichever of them a look finds alone decides: the answer is passed on as it is, the token ends the
call as cancelled, the deadline ends it as late and cancels its token (`Relay.go_answered`,
`Relay.go_cancelled`, `Relay.go_late`); while there is none of them, it goes on (`Relay.go_quiet`).
When it is the token or the deadline, what the call was forwarded for is given up: nothing of it
stays pending, and no connection is closed (`Hub.Forgets`). -/
namespace Switchboard
open Redirect

/-! ### What a forwarded call leaves on the connections -/

namespace Redirect.Hub
variable {h h' h'' : Hub} {stage : Forwarding.Stage} {stages : List Forwarding.Stage}

/-- The connections are the same, none has been closed, and what is pending was pending before or
is for the call that stands there. -/
structure Extends (stage : Forwarding.Stage) (h h' : Hub) : Prop where
  length : h'.connections.length = h.connections.length
  each : ∀ (j : Nat) (c' : Connection), h'.connections[j]? = some c' →
    ∃ c, h.connections[j]? = some c ∧ c'.closed = c.closed ∧
      ∀ p ∈ c'.pending, p ∈ c.pending ∨ stage = .calling j p.2

/-- The connections are the same, none has been closed, and what is pending was pending before and
is not for one of the calls that stand there. -/
structure Forgets (stages : List Forwarding.Stage) (h h' : Hub) : Prop where
  length : h'.connections.length = h.connections.length
  each : ∀ (j : Nat) (c' : Connection), h'.connections[j]? = some c' →
    ∃ c, h.connections[j]? = some c ∧ c'.closed = c.closed ∧
      ∀ p ∈ c'.pending, p ∈ c.pending ∧ .calling j p.2 ∉ stages

theorem Extends.of_connections (hc : h'.connections = h.connections) : Extends stage h h' where
  length := by rw [hc]
  each _ c' hc' := ⟨c', hc ▸ hc', rfl, fun _ hp => .inl hp⟩

theorem Forgets.of_connections (hc : h'.connections = h.connections)
    (hstages : ∀ connection key, .calling connection key ∉ stages) : Forgets stages h h' where
  length := by rw [hc]
  each j c' hc' := ⟨c', hc ▸ hc', rfl, fun p hp => ⟨hp, hstages j p.2⟩⟩

theorem Forgets.congr (hf : Forgets stages h h') (hc : h''.connections = h'.connections) :
    Forgets stages h h'' where
  length := by rw [hc, hf.length]
  each j c' hc' := hf.each j c' (hc ▸ hc')

theorem Extends.forgets (he : Extends stage h h') (hf : Forgets [stage] h' h'') :
    Forgets [stage] h h'' where
  length := hf.length.trans he.length
  each j c'' hc'' := by
    obtain ⟨c', hc', hclosed', hpending'⟩ := hf.each j c'' hc''
    obtain ⟨c, hc, hclosed, hpending⟩ := he.each j c' hc'
    refine ⟨c, hc, hclosed'.trans hclosed, fun p hp => ?_⟩
    obtain ⟨hp, hne⟩ := hpending' p hp
    exact ⟨(hpending p hp).resolve_right fun hs => hne (hs ▸ List.mem_singleton_self _), hne⟩

/-- What is not pending any more for a call is not pending for what the call was before. -/
theorem Forgets.earlier {stage' : Forwarding.Stage} (hf : Forgets [stage'] h h')
    (hstays : ∀ connection key, stage = .calling connection key → stage' = stage) :
    Forgets [stage] h h' where
  length := hf.length
  each j c' hc' := by
    obtain ⟨c, hc, hclosed, hpending⟩ := hf.each j c' hc'
    refine ⟨c, hc, hclosed, fun p hp => ⟨(hpending p hp).1, fun hs => (hpending p hp).2 ?_⟩⟩
    have hs := (List.mem_singleton.mp hs).symm
    rw [hstays j p.2 hs, hs]
    exact List.mem_singleton_self _

theorem beginCall_extends (h : Hub) (connection party : Nat) (method : String)
    (arguments : List Json.Raw) :
    Extends (.calling connection h.nextKey) h
      (h.beginCall connection party method arguments).2 := by
  refine ⟨List.length_modify .., fun j c' hc' => ?_⟩
  simp only [beginCall, note, List.getElem?_modify] at hc'
  obtain ⟨c, hc, rfl⟩ := Option.map_eq_some_iff.mp hc'
  refine ⟨c, hc, ?_⟩
  split
  · rename_i hj
    obtain ⟨hclosed, hpending⟩ :=
      Connection.callSteps_frame (c.enter h.nextKey method arguments) h.nextKey 5
    refine ⟨hclosed, fun p hp => (hpending p hp).imp_right fun hkey => ?_⟩
    rw [hj, hkey]
  · exact ⟨rfl, fun p hp => .inl hp⟩

theorem abandonCall_forgets {connection key : Nat}
    (htied : ∀ c ∈ h.connections, Connection.Tied c) :
    Forgets [.calling connection key] h (h.abandonCall connection key) := by
  refine ⟨List.length_modify .., fun j c' hc' => ?_⟩
  simp only [abandonCall, List.getElem?_modify] at hc'
  obtain ⟨c, hc, rfl⟩ := Option.map_eq_some_iff.mp hc'
  refine ⟨c, hc, ?_⟩
  split
  · refine ⟨Connection.abandon_closed key, fun p hp => ?_⟩
    obtain ⟨hp, hne⟩ := (htied c (List.mem_of_getElem? hc)).abandon_pending hp
    refine ⟨hp, fun hsame => ?_⟩
    cases List.mem_singleton.mp hsame
    exact hne rfl
  · rename_i hj
    refine ⟨rfl, fun p hp => ⟨hp, fun hsame => ?_⟩⟩
    cases List.mem_singleton.mp hsame
    exact hj rfl

end Redirect.Hub

namespace Forwarding
variable {f f' : Forwarding} {h h' : Hub} {party now : Nat}

theorem drop_forgets (f : Forwarding) (htied : ∀ c ∈ h.connections, Connection.Tied c) :
    Hub.Forgets [f.stage] h (f.drop h) := by
  unfold drop
  split
  · rename_i hs
    exact .of_connections rfl fun _ _ => by simp [hs]
  · rename_i hs
    exact .of_connections rfl fun _ _ => by simp [hs]
  · rename_i hs
    rw [hs]
    exact Hub.abandonCall_forgets htied

theorem collect_pending (hp : f.collect h = (.pending f', h')) : f' = f ∧ h' = h := by
  unfold collect at hp
  split at hp
  · split at hp <;> cases hp
    exact ⟨rfl, rfl⟩
  · cases hp
    exact ⟨rfl, rfl⟩

/-- What a call that stays under way has added is its own, and from the connection that it is on it
goes to no other. -/
theorem go_extends (hp : f.go h party now = (.pending f', h')) :
    Hub.Extends f'.stage h h' ∧
      ∀ connection key, f.stage = .calling connection key → f'.stage = f.stage := by
  have hsend {h₁ : Hub} {c : Nat} (hc : h₁.connections = h.connections)
      (hp : f.send h₁ party c = (.pending f', h')) : Hub.Extends f'.stage h h' := by
    obtain ⟨rfl, rfl⟩ := @collect_pending { f with stage := .calling c h₁.nextKey } f' _ h' hp
    obtain ⟨hlength, heach⟩ := h₁.beginCall_extends c party f.method f.arguments
    exact ⟨hc ▸ hlength, fun j c' hc' => hc ▸ heach j c' hc'⟩
  unfold go at hp
  split at hp
  · rename_i hs
    refine ⟨?_, fun _ _ he => by rw [hs] at he; cases he⟩
    have hask := Hub.ask_connections h f.manager party now
    split at hp <;> rename_i heq <;> rw [heq] at hask
    · exact hsend hask hp
    · cases hp
    · cases hp
      exact .of_connections hask
  · rename_i hs
    refine ⟨?_, fun _ _ he => by rw [hs] at he; cases he⟩
    split at hp
    · cases hp
      exact .of_connections rfl
    · exact hsend rfl hp
    · cases hp
  · obtain ⟨rfl, rfl⟩ := collect_pending hp
    exact ⟨.of_connections rfl, fun _ _ _ => rfl⟩

end Forwarding

/-! ### A call and its service -/

/-- Where the call stands on the hub; what is answered here does not stand anywhere. -/
def Entry.stage (e : Entry) : Forwarding.Stage :=
  match e.service with
  | .forwarding f => f.stage
  | .replying _ _ => .wanting

namespace Relay
variable {r : Relay} {e : Entry} {party now : Nat} {a : Answer} {rest : List Forwarding.Stage}

/-- What the router by itself makes of a call that it looks at. -/
structure Turn where
  /-- Its answer, if it is there. -/
  answer? : Option Answer
  /-- What it goes on to do for the call. -/
  service : Service
  hub : Hub

def turn (r : Relay) (e : Entry) (party now : Nat) : Turn :=
  match e.service with
  | .replying readyAt result => ⟨if readyAt ≤ now then some result else none, e.service, r.hub⟩
  | .forwarding f =>
    match f.go r.hub party now with
    | (.pending f, hub) => ⟨none, .forwarding f, hub⟩
    | (.ended result, hub) => ⟨some (result.mapError CallError.ofForward), e.service, hub⟩

/-- What comes of asking the service for the answer: a call that it has not got goes on, with what
it holds, and all that was added to the hub is its own. -/
inductive Asked (r : Relay) (e : Entry) (rest : List Forwarding.Stage) :
    Option Answer × Entry × Relay → Prop
  | open_ {e' : Entry} {r' : Relay} (hcall : e'.call = e.call) (hdeadline : e'.deadline = e.deadline)
      (hfree : r'.free = r.free) (htokens : r'.tokens = r.tokens)
      (hc : r'.hub.Carries (e'.stage :: rest)) (hextends : Hub.Extends e'.stage r.hub r'.hub)
      (hstays : ∀ connection key, e.stage = .calling connection key → e'.stage = e.stage) :
      Asked r e rest (none, e', r')
  | answered {a : Answer} {r' : Relay} (hfree : r'.free = r.free) (htokens : r'.tokens = r.tokens)
      (hc : r'.hub.Carries rest) : Asked r e rest (some a, e, r')

theorem answer?_asked (hc : r.hub.Carries (e.stage :: rest)) (party now : Nat) :
    r.Asked e rest (r.answer? e party now) := by
  unfold answer?
  split
  · split
    · exact .answered rfl rfl hc.tail
    · exact .open_ rfl rfl rfl rfl hc (.of_connections rfl) fun _ _ _ => rfl
  · rename_i f hs
    have hstage : e.stage = f.stage := by rw [Entry.stage, hs]
    have hcarried : Forwarding.Carried rest
        (f.invoke r.hub (r.tokens.isCancelled e.call.token) party now) :=
      Forwarding.invoke_carried (hstage ▸ hc) _
    have hpending {f' : Forwarding} {h' : Hub}
        (h : f.invoke r.hub (r.tokens.isCancelled e.call.token) party now = (.pending f', h')) :
        f.go r.hub party now = (.pending f', h') := by
      unfold Forwarding.invoke at h
      split at h
      · cases h
      · split at h
        · cases h
        · exact h
    split <;> rename_i heq <;> rw [heq] at hcarried
    · cases hcarried with
      | ended hc => exact .answered rfl rfl hc
    · cases hcarried with
      | ended hc => exact .answered rfl rfl hc
    · cases hcarried with
      | pending hc =>
        obtain ⟨hextends, hstays⟩ := Forwarding.go_extends (hpending heq)
        exact .open_ rfl rfl rfl rfl hc hextends fun c key he =>
          (hstays c key (hstage ▸ he)).trans hstage.symm

theorem dropService_carries (hc : r.hub.Carries (e.stage :: rest)) :
    (r.dropService e.service).hub.Carries rest := by
  cases hs : e.service with
  | forwarding f =>
    have hstage : e.stage = f.stage := by rw [Entry.stage, hs]
    rw [hstage] at hc
    exact Forwarding.drop_carries hc
  | replying => exact hc.tail

@[simp] theorem observed_tokens (r : Relay) (c : Call) (a : Answer) :
    (r.observed c a).tokens = r.tokens := by
  unfold observed
  split <;> rfl

@[simp] theorem observed_connections (r : Relay) (c : Call) (a : Answer) :
    (r.observed c a).hub.connections = r.hub.connections := by
  unfold observed
  split <;> rfl

theorem observed_carries {c : Call} (a : Answer) (hc : r.hub.Carries rest) :
    (r.observed c a).hub.Carries rest := by
  unfold observed
  split <;> exact hc.congr rfl rfl rfl

/-- What a call that is given up leaves behind. -/
theorem dropService_forgets (e : Entry) (hc : r.hub.Carries (e.stage :: rest)) :
    Hub.Forgets [e.stage] r.hub (r.dropService e.service).hub := by
  cases hs : e.service with
  | forwarding f =>
    have hstage : e.stage = f.stage := by rw [Entry.stage, hs]
    exact hstage ▸ f.drop_forgets fun c hmem => (hc.hosts c hmem).tied
  | replying =>
    have hstage : e.stage = .wanting := by rw [Entry.stage, hs]
    exact .of_connections rfl fun _ _ => by simp [hstage]

/-- What a look makes of the permits, the tokens and what calls hold. -/
inductive Fares (r : Relay) (e : Entry) (rest : List Forwarding.Stage) :
    Entry.Progress × Relay → Prop
  | pending {e' : Entry} {r' : Relay} (hcall : e'.call = e.call) (hfree : r'.free = r.free)
      (htokens : r'.tokens = r.tokens) (hc : r'.hub.Carries (e'.stage :: rest)) :
      Fares r e rest (.pending e', r')
  | ended {a : Answer} {r' : Relay} (hfree : r'.free = r.free + 1)
      (htokens : r'.tokens = r.tokens ∨ r'.tokens = r.tokens.cancel e.call.token)
      (hc : r'.hub.Carries rest) : Fares r e rest (.ended a, r')

theorem go_fares (hc : r.hub.Carries (e.stage :: rest)) (party now : Nat) :
    r.Fares e rest (r.go e party now) := by
  have hasked := answer?_asked hc party now
  unfold go
  generalize r.answer? e party now = asked at hasked
  cases hasked with
  | answered hfree htokens hc =>
    refine .ended ?_ (.inl ?_) (observed_carries _ (hc.congr rfl rfl rfl))
    · rw [observed_free, hfree]
    · rw [observed_tokens, htokens]
  | @open_ e' r' hcall hdeadline hfree htokens hc =>
    have hdropped : (r'.dropService e'.service).hub.Carries rest := dropService_carries hc
    dsimp only
    split
    · exact .pending hcall hfree htokens hc
    · rename_i a ha
      rw [hcall, htokens]
      refine .ended ?_ ?_ (observed_carries _ ?_)
      · rw [observed_free]
        split <;> simp [hfree]
      · rw [observed_tokens]
        split
        · exact .inl htokens
        · exact .inr rfl
        · exact .inl (by cases e'.service <;> exact htokens)
      · split <;> first | exact hdropped.congr rfl rfl rfl | contradiction

/-! ### Calls that come in -/

variable {c : Call}

/-- The relay when a call has ended and been counted, and nothing else has happened. -/
def counted (r : Relay) (c : Call) (a : Answer) : Relay :=
  { r with hub.metrics := observe r.hub.metrics c.name.namespaceName a }

/-- A call for which there is no permit ends at once. -/
theorem enter_full (hfree : r.free = 0) (c : Call) (party now : Nat) :
    r.enter c party now = (.ended (.error .overloaded), r.counted c (.error .overloaded)) := by
  rw [enter_eq, grant_none hfree]
  rfl

/-- A call that has been cancelled ends at once. -/
theorem enter_dead (hfree : r.free ≠ 0) (hdead : r.tokens.isCancelled c.token = true)
    (party now : Nat) :
    r.enter c party now = (.ended (.error .cancelled), r.counted c (.error .cancelled)) := by
  simp only [enter, takePermit, if_neg hfree, hdead, if_true]
  rfl

/-- Any other call gets its permit and its deadline, and is served. -/
theorem enter_live (hfree : r.free ≠ 0) (hlive : r.tokens.isCancelled c.token = false)
    (party now : Nat) :
    r.enter c party now =
      { r with free := r.free - 1 }.go ⟨c, now + c.timeoutMs, r.serve c now⟩ party now := by
  simp only [enter, takePermit, if_neg hfree, hlive, Bool.false_eq_true, if_false]

/-- A call that is about to be served stands nowhere. -/
theorem serve_stage (r : Relay) (c : Call) (deadline now : Nat) :
    Entry.stage ⟨c, deadline, r.serve c now⟩ = .wanting := by
  simp only [Entry.stage, serve]
  cases r.router.route c.name.namespaceName with
  | redirect q =>
    dsimp only
    cases r.hub.manager? q.namespaceName <;> rfl
  | handler => rfl
  | nowhere => rfl

/-- What a call that comes in makes of the permits, the tokens and what calls hold. -/
inductive Enters (r : Relay) (c : Call) (rest : List Forwarding.Stage) :
    Entry.Progress × Relay → Prop
  | pending {e : Entry} {r' : Relay} (hcall : e.call = c) (hfree : r'.free + 1 = r.free)
      (htokens : r'.tokens = r.tokens) (hc : r'.hub.Carries (e.stage :: rest)) :
      Enters r c rest (.pending e, r')
  | ended {a : Answer} {r' : Relay} (hfree : r'.free = r.free)
      (htokens : r'.tokens = r.tokens ∨ r'.tokens = r.tokens.cancel c.token)
      (hc : r'.hub.Carries rest) : Enters r c rest (.ended a, r')

theorem enter_enters (hc : r.hub.Carries rest) (c : Call) (party now : Nat) :
    r.Enters c rest (r.enter c party now) := by
  by_cases hfree : r.free = 0
  · rw [enter_full hfree]
    exact .ended rfl (.inl rfl) (hc.congr rfl rfl rfl)
  · cases hdead : r.tokens.isCancelled c.token with
    | true =>
      rw [enter_dead hfree hdead]
      exact .ended rfl (.inl rfl) (hc.congr rfl rfl rfl)
    | false =>
      rw [enter_live hfree hdead]
      have hfares := @go_fares { r with free := r.free - 1 } ⟨c, now + c.timeoutMs, r.serve c now⟩
        rest (r.serve_stage c _ now ▸ hc.wanting) party now
      have hback : r.free - 1 + 1 = r.free := Nat.sub_add_cancel (Nat.pos_of_ne_zero hfree)
      generalize Relay.go _ _ party now = went at hfares
      cases hfares with
      | pending hcall hfree' htokens hc =>
        refine .pending hcall ?_ htokens hc
        rw [hfree', hback]
      | ended hfree' htokens hc => exact .ended (hfree'.trans hback) htokens hc

/-! ### Who comes first -/

/-- As long as the router has no answer, what it does for the call goes on. -/
theorem answer?_none (hlive : r.tokens.isCancelled e.call.token = false)
    (hnone : (r.turn e party now).answer? = none) :
    r.answer? e party now = (none, { e with service := (r.turn e party now).service },
      { r with hub := (r.turn e party now).hub }) := by
  cases hs : e.service with
  | replying readyAt result =>
    simp only [turn, hs] at hnone
    simp only [answer?, turn, hs, hnone]
    rw [← hs]
  | forwarding f =>
    simp only [turn, hs] at hnone
    simp only [answer?, turn, hs, hlive, Forwarding.invoke, Bool.false_eq_true, if_false]
    generalize f.go r.hub party now = went at hnone
    obtain ⟨progress, h⟩ := went
    cases progress with
    | pending f' => rfl
    | ended result => cases hnone

/-- The answer is the router's, and nothing comes of it but a warning. -/
theorem answer?_some (hlive : r.tokens.isCancelled e.call.token = false)
    (hsome : (r.turn e party now).answer? = some a) : ∃ warnings,
      r.answer? e party now =
        (some a, e, { r with hub := { (r.turn e party now).hub with warnings } }) := by
  cases hs : e.service with
  | replying readyAt result =>
    simp only [turn, hs] at hsome
    simp only [answer?, turn, hs, hsome]
    exact ⟨r.hub.warnings, rfl⟩
  | forwarding f =>
    simp only [turn, hs] at hsome
    simp only [answer?, turn, hs, hlive, Forwarding.invoke, Bool.false_eq_true, if_false]
    generalize f.go r.hub party now = went at hsome
    obtain ⟨progress, h⟩ := went
    cases progress with
    | pending f' => cases hsome
    | ended result =>
      cases hsome
      cases result with
      | ok text => exact ⟨h.warnings, rfl⟩
      | error err =>
        cases err with
        | connect => exact ⟨_, rfl⟩
        | _ => exact ⟨h.warnings, rfl⟩

/-- Nothing has come: the call goes on, as the router would by itself. -/
theorem go_quiet (hlive : r.tokens.isCancelled e.call.token = false)
    (hnone : (r.turn e party now).answer? = none) (hearly : now < e.deadline) :
    r.go e party now = (.pending { e with service := (r.turn e party now).service },
      { r with hub := (r.turn e party now).hub }) := by
  have hno : ¬e.deadline ≤ now := Nat.not_le.mpr hearly
  simp only [go, answer?_none hlive hnone, decide?, hlive, hno, decide_false, if_false,
    Bool.false_eq_true]

/-- **The answer comes first**, and is passed on as it is. -/
theorem go_answered (hlive : r.tokens.isCancelled e.call.token = false)
    (hsome : (r.turn e party now).answer? = some a) : ∃ metrics warnings,
      r.go e party now = (.ended a, { r with
        hub := { (r.turn e party now).hub with metrics, warnings }
        free := r.free + 1 }) := by
  obtain ⟨warnings, hanswer⟩ := answer?_some hlive hsome
  simp only [go, hanswer, decide?]
  unfold observed
  split <;> exact ⟨_, _, rfl⟩

variable (hc : r.hub.Carries (e.stage :: rest))
include hc

/-- **The deadline comes first**: the call is late, its token is cancelled, and what it was
forwarded for is given up. -/
theorem go_late (hlive : r.tokens.isCancelled e.call.token = false)
    (hnone : (r.turn e party now).answer? = none) (hlate : e.deadline ≤ now) :
    (r.go e party now).1 = .ended (.error (.timeout e.call.timeoutMs)) ∧
      (r.go e party now).2.tokens = r.tokens.cancel e.call.token ∧
      Hub.Forgets [e.stage] r.hub (r.go e party now).2.hub := by
  have hasked := answer?_asked hc party now
  have hanswer := congrArg Prod.fst (answer?_none hlive hnone)
  unfold go
  generalize r.answer? e party now = asked at hasked hanswer
  cases hasked with
  | answered => cases hanswer
  | open_ hcall hdeadline _ htokens hc' hextends hstays =>
    simp only [hcall, hdeadline, htokens, hlive, hlate, decide?, decide_true, if_true,
      Bool.false_eq_true, if_false, observed_tokens, true_and]
    exact ((hextends.forgets (dropService_forgets _ hc')).earlier hstays).congr
      (observed_connections ..)

/-- **The token comes first**: the call is cancelled, and what it was forwarded for is given up. -/
theorem go_cancelled (hcancelled : r.tokens.isCancelled e.call.token = true)
    (hnone : (r.turn e party now).answer? = none) :
    (r.go e party now).1 = .ended (.error .cancelled) ∧
      (r.go e party now).2.tokens = r.tokens ∧
      Hub.Forgets [e.stage] r.hub (r.go e party now).2.hub := by
  have hforgets := dropService_forgets e hc
  unfold go
  cases hs : e.service with
  | replying readyAt result =>
    -- the answer of a handler is not there yet
    have hno : ¬readyAt ≤ now := fun hready => by
      simp only [turn, hs, if_pos hready] at hnone
      cases hnone
    simp only [answer?, hs, if_neg hno, decide?, hcancelled, if_true, dropService,
      observed_tokens, true_and]
    rw [hs] at hforgets
    exact hforgets.congr (observed_connections ..)
  | forwarding f =>
    simp only [answer?, hs, hcancelled, Forwarding.invoke, if_true, decide?, CallError.ofForward,
      observed_tokens, true_and]
    rw [hs] at hforgets
    exact hforgets.congr (observed_connections ..)

end Relay
end Switchboard
