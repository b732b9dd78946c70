import Switchboard.Call.Pipeline

/-! A look at a call.

A call is looked at when it comes in and whenever something may have happened to it. It is under
way after that, with the same deadline, or it has ended; at the latest it ends when its time is up.
It is counted if it ends, and only then, and nothing changes about the node itself (`go_looks`,
`enter_looks`). -/
namespace Switchboard
open Redirect

/-! ### Forwarding leaves the counters of calls alone -/

namespace Redirect.Hub
variable (h : Hub)

@[simp] theorem wait_metrics (dial party : Nat) : (h.wait dial party).2.metrics = h.metrics := by
  unfold wait
  split <;> rfl

@[simp] theorem ask_metrics (manager party now : Nat) :
    (h.ask manager party now).2.metrics = h.metrics := by
  unfold ask
  split
  · rfl
  · rename_i m _
    generalize m.ask h.isClosed h.dials.length = answer
    obtain ⟨grant, m'⟩ := answer
    cases grant <;> simp [setManager, note]

end Redirect.Hub

namespace Forwarding
variable (f : Forwarding) (h : Hub) (party now : Nat)

@[simp] theorem drop_metrics : (f.drop h).metrics = h.metrics := by
  unfold drop
  split <;> rfl

@[simp] theorem collect_metrics : (f.collect h).2.metrics = h.metrics := by
  unfold collect
  repeat' split
  all_goals rfl

@[simp] theorem send_metrics (connection : Nat) :
    (f.send h party connection).2.metrics = h.metrics :=
  collect_metrics _ _

@[simp] theorem go_metrics : (f.go h party now).2.metrics = h.metrics := by
  unfold go
  split
  · have hask := h.ask_metrics f.manager party now
    generalize h.ask f.manager party now = answer at hask
    obtain ⟨access, h'⟩ := answer
    cases access <;> simpa using hask
  · split <;> simp
  · simp

@[simp] theorem invoke_metrics (cancelled : Bool) :
    (f.invoke h cancelled party now).2.metrics = h.metrics := by
  unfold invoke
  split
  · exact f.drop_metrics h
  · have hgo := f.go_metrics h party now
    generalize f.go h party now = answer at hgo
    split <;> exact hgo

end Forwarding

/-! ### One look -/

namespace Relay
variable {r r' : Relay} {c : Call} {deadline now : Nat}

/-- Nothing changes about where calls go, about the requests in flight and about the time that
calls are given. -/
structure Keeps (r r' : Relay) : Prop where
  router : r'.router = r.router
  controller : r'.controller = r.controller
  classifier : r'.classifier = r.classifier

theorem Keeps.refl (r : Relay) : Keeps r r := ⟨rfl, rfl, rfl⟩

theorem Keeps.trans {r'' : Relay} (h : Keeps r r') (h' : Keeps r' r'') : Keeps r r'' :=
  ⟨h'.router.trans h.router, h'.controller.trans h.controller, h'.classifier.trans h.classifier⟩

/-- What a look at a call comes to. -/
inductive Looks (r : Relay) (c : Call) (deadline now : Nat) : Entry.Progress × Relay → Prop
  | pending {e : Entry} {r' : Relay} (hc : e.call = c) (hd : e.deadline = deadline)
      (hn : now < deadline) (hr : Keeps r r') (hm : r'.hub.metrics = r.hub.metrics) :
      Looks r c deadline now (.pending e, r')
  | ended {a : Answer} {r' : Relay} (hr : Keeps r r')
      (hm : r'.hub.metrics = observe r.hub.metrics c.name.namespaceName a) :
      Looks r c deadline now (.ended a, r')

theorem Looks.of_keeps {p : Entry.Progress × Relay} (h : Looks r' c deadline now p)
    (hr : Keeps r r') (hm : r'.hub.metrics = r.hub.metrics) : Looks r c deadline now p := by
  cases h with
  | pending hc hd hn hr' hm' => exact .pending hc hd hn (hr.trans hr') (hm'.trans hm)
  | ended hr' hm' => exact .ended (hr.trans hr') (by rw [hm', hm])

theorem looks_observed (a : Answer) : Looks r c deadline now (.ended a, r.observed c a) := by
  unfold observed
  split <;> exact .ended ⟨rfl, rfl, rfl⟩ rfl

@[simp] theorem dropService_metrics (s : Service) :
    (r.dropService s).hub.metrics = r.hub.metrics := by
  cases s with
  | forwarding f => exact f.drop_metrics r.hub
  | replying => rfl

theorem keeps_dropService (s : Service) : Keeps r (r.dropService s) := by
  cases s <;> exact ⟨rfl, rfl, rfl⟩

theorem answer?_keeps (e : Entry) (party now : Nat) :
    (r.answer? e party now).2.1.call = e.call ∧
      (r.answer? e party now).2.1.deadline = e.deadline ∧
      Keeps r (r.answer? e party now).2.2 ∧
      (r.answer? e party now).2.2.hub.metrics = r.hub.metrics := by
  unfold answer?
  split
  · exact ⟨rfl, rfl, .refl r, rfl⟩
  · rename_i f _
    have hinvoke := f.invoke_metrics r.hub party now (r.tokens.isCancelled e.call.token)
    split <;> rename_i heq <;> rw [heq] at hinvoke <;>
      exact ⟨rfl, rfl, ⟨rfl, rfl, rfl⟩, hinvoke⟩

theorem go_looks (e : Entry) (party now : Nat) :
    Looks r e.call e.deadline now (r.go e party now) := by
  have hanswer := @answer?_keeps r e party now
  unfold go
  generalize r.answer? e party now = answered at hanswer
  obtain ⟨answer?, e', r'⟩ := answered
  obtain ⟨hcall, hdeadline, hr, hm⟩ := hanswer
  dsimp only at hcall hdeadline hr hm ⊢
  split
  · rename_i hnone
    refine .pending hcall hdeadline (Nat.lt_of_not_le fun hlate => ?_) hr hm
    -- a call that is late does not go on
    rw [hdeadline, decide_eq_true hlate] at hnone
    cases answer? with
    | some a => cases hnone
    | none =>
      simp only [decide?, if_true] at hnone
      split at hnone <;> cases hnone
  · rw [hcall]
    refine (looks_observed _).of_keeps (hr.trans ?_) ?_
    · have hdropped := @keeps_dropService r' e'.service
      split
      · exact ⟨rfl, rfl, rfl⟩
      · exact ⟨hdropped.router, hdropped.controller, hdropped.classifier⟩
      · exact ⟨hdropped.router, hdropped.controller, hdropped.classifier⟩
    · split <;> simp [hm]

theorem enter_looks (party now : Nat) :
    Looks r c (now + c.timeoutMs) now (r.enter c party now) := by
  unfold enter
  split
  · exact looks_observed _
  · rename_i free _
    split
    · exact looks_observed _
    · have hlooks := @go_looks { r with free } ⟨c, now + c.timeoutMs, r.serve c now⟩ party now
      exact hlooks.of_keeps ⟨rfl, rfl, rfl⟩ rfl

end Relay
end Switchboard
