import Mathlib.Data.List.Forall2
import Switchboard.Call.Exchange
import Switchboard.Proofs.Call.Looking
import Switchboard.Proofs.Message.Request

/-! What becomes of one entry of a body.

An entry that is no request is refused at once, and so is a request that becomes no call; every
other request becomes a call, and is answered when that has ended (`Slot.go_goes`). So when the
answer to a call depends on nothing but what the call asks for (`Answering`), the response to an
entry depends on nothing but the entry (`Answering.response?`), however many others there are
beside it and however often it has to be looked at (`Slot.Serves`). -/
namespace Switchboard
open Json Redirect

/-! ### Responses without a run -/

/-- How calls are answered, by what they ask for. -/
abbrev Answering := Method → List Raw → Answer

/-- The entry is a valid request that is not to be answered. -/
def Notifies (entry : Raw) : Prop := ∃ q, Request.ofRaw entry = .ok q ∧ q.isNotification = true

namespace Answering
variable (ans : Answering) {entry : Raw} {a : Response}

/-- What a request comes to. -/
def outcome (q : Request) : Outcome :=
  match Method.parse q.method with
  | none => .error (ClassifyError.malformedMethod q.method).object
  | some name =>
    match q.arguments with
    | .error e => .error (ClassifyError.invalidParams e).object
    | .ok arguments => (ans name arguments).mapError CallError.object

/-- The response to an entry, if it gets one. -/
def response? (entry : Raw) : Option Response :=
  match Request.ofRaw entry with
  | .error (i, e) => some (.failure i e)
  | .ok q => q.id?.map fun i => .ofOutcome i (ans.outcome q)

theorem response?_eq_none : ans.response? entry = none ↔ Notifies entry := by
  unfold response? Notifies
  cases Request.ofRaw entry with
  | error refusal => simp
  | ok q => simp [Request.isNotification]

/-- A response is under the id of the request. -/
theorem response?_id {q : Request} (h : ans.response? entry = some a)
    (hq : Request.ofRaw entry = .ok q) : q.id? = some a.id := by
  rw [response?, hq] at h
  obtain ⟨i, hi, rfl⟩ := Option.map_eq_some_iff.mp h
  cases ans.outcome q <;> exact hi

/-- An entry that is no request is refused under the id that can be found in it, and null when
there is none, whatever answers calls. -/
theorem response?_refused {i : Id} {e : ErrorObject} (h : Request.ofRaw entry = .error (i, e)) :
    ans.response? entry = some (.failure i e) ∧ i = Request.salvagedId entry.chars :=
  ⟨by rw [response?, h], Request.ofRaw_eq_error h⟩

end Answering

/-! ### A look at an entry -/

/-- Nothing changes about the requests in flight and about the time that calls are given. -/
structure Relay.Spares (r r' : Relay) : Prop where
  controller : r'.controller = r.controller
  timeoutMs : r'.classifier.timeoutMs = r.classifier.timeoutMs

namespace Relay
variable {r r' : Relay}

theorem Spares.refl (r : Relay) : Spares r r := ⟨rfl, rfl⟩

theorem Spares.trans {r'' : Relay} (h : Spares r r') (h' : Spares r' r'') : Spares r r'' :=
  ⟨h'.controller.trans h.controller, h'.timeoutMs.trans h.timeoutMs⟩

theorem Keeps.spares (h : Keeps r r') : Spares r r' :=
  ⟨h.controller, congrArg Classifier.timeoutMs h.classifier⟩

end Relay

/-- What a request becomes: nothing, or a call for what it asks for. -/
inductive Classifier.Classifies (c : Classifier) (q : Request) (token : Token) :
    Except ClassifyError Call × Classifier → Prop
  | refused {e : ClassifyError} (h : ∀ ans : Answering, ans.outcome q = .error e.object) :
      Classifies c q token (.error e, c)
  | made {call : Call} (hm : Method.parse q.method = some call.name)
      (ha : q.arguments = .ok call.arguments) (ht : call.timeoutMs = c.timeoutMs)
      (hk : call.token = token) :
      Classifies c q token (.ok call, { c with next := c.next + 1 })

theorem Classifier.classify_classifies (c : Classifier) (q : Request) (token : Token) :
    c.Classifies q token (c.classify q token) := by
  unfold classify
  split
  · rename_i hm
    exact .refused fun ans => by rw [Answering.outcome, hm]
  · rename_i name hm
    split
    · rename_i e ha
      exact .refused fun ans => by simp only [Answering.outcome, hm, ha]
    · rename_i arguments ha
      exact .made hm ha rfl rfl

/-- The request asks for what the call is for. -/
def Request.Asks (q : Request) (c : Call) : Prop :=
  Method.parse q.method = some c.name ∧ q.arguments = .ok c.arguments

theorem Request.Asks.outcome {q : Request} {c : Call} (h : q.Asks c) (ans : Answering) :
    ans.outcome q = (ans c.name c.arguments).mapError CallError.object := by
  simp only [Answering.outcome, h.1, h.2]

namespace Slot

/-- The call that ends when an entry is looked at, and its answer. -/
def ending (s : Slot) (r : Relay) (parent : Token) (party now : Nat) : Option (Call × Answer) :=
  match s with
  | .fresh raw =>
    match Request.ofRaw raw with
    | .error _ => none
    | .ok request =>
      let (token, tokens) := r.tokens.child parent
      match r.classifier.classify request token with
      | (.error _, _) => none
      | (.ok call, classifier) =>
        match { r with tokens, classifier }.enter call party now with
        | (.ended a, _) => some (call, a)
        | (.pending _, _) => none
  | .running _ e =>
    match r.go e party now with
    | (.ended a, _) => some (e.call, a)
    | (.pending _, _) => none
  | .finished _ => none

/-- What a look at an entry comes to, and which call it ends. -/
inductive Goes (timeoutMs now : Nat) : Slot → Slot → Option (Call × Answer) → Prop
  | refused {raw : Raw} {i : Id} {e : ErrorObject} (h : Request.ofRaw raw = .error (i, e)) :
      Goes timeoutMs now (.fresh raw) (.finished (some (.failure i e))) none
  | unfit {raw : Raw} {q : Request} {e : ErrorObject} (hq : Request.ofRaw raw = .ok q)
      (h : ∀ ans : Answering, ans.outcome q = .error e) :
      Goes timeoutMs now (.fresh raw) (.finished (q.id?.map fun i => .failure i e)) none
  | begun {raw : Raw} {q : Request} {e : Entry} (hq : Request.ofRaw raw = .ok q)
      (ha : q.Asks e.call) (hd : e.deadline = now + timeoutMs) :
      Goes timeoutMs now (.fresh raw) (.running q.id? e) none
  | answered {raw : Raw} {q : Request} {c : Call} {a : Answer} (hq : Request.ofRaw raw = .ok q)
      (ha : q.Asks c) : Goes timeoutMs now (.fresh raw) (respond q.id? a) (some (c, a))
  | goesOn {id? : Option Id} {e e' : Entry} (hc : e'.call = e.call)
      (hd : e'.deadline = e.deadline) (hn : now < e.deadline) :
      Goes timeoutMs now (.running id? e) (.running id? e') none
  | ended {id? : Option Id} {e : Entry} {a : Answer} :
      Goes timeoutMs now (.running id? e) (respond id? a) (some (e.call, a))
  | settled {response? : Option Response} :
      Goes timeoutMs now (.finished response?) (.finished response?) none

variable {r : Relay} {parent : Token} {party now timeoutMs : Nat} {s s' : Slot}
  {ending? : Option (Call × Answer)}

theorem go_goes (s : Slot) (r : Relay) (parent : Token) (party now : Nat) :
    Goes r.classifier.timeoutMs now s (s.go r parent party now).1
      (s.ending r parent party now) ∧ r.Spares (s.go r parent party now).2 := by
  cases s with
  | finished => exact ⟨.settled, .refl r⟩
  | running id? e =>
    have hlooks := @Relay.go_looks r e party now
    simp only [go, ending]
    generalize r.go e party now = looked at hlooks
    cases hlooks with
    | pending hc hd hn hr => exact ⟨.goesOn hc hd hn, hr.spares⟩
    | ended hr => exact ⟨.ended, hr.spares⟩
  | fresh raw =>
    simp only [go, begin_, ending]
    cases hq : Request.ofRaw raw with
    | error refusal => exact ⟨.refused hq, .refl r⟩
    | ok q =>
      have hmade := r.classifier.classify_classifies q (r.tokens.child parent).1
      generalize r.tokens.child parent = child at hmade
      obtain ⟨token, tokens⟩ := child
      dsimp only at hmade ⊢
      generalize r.classifier.classify q token = classified at hmade
      cases hmade with
      | refused h => exact ⟨.unfit hq h, rfl, rfl⟩
      | @made call hm ha ht =>
        have hlooks := @Relay.enter_looks
          { r with tokens, classifier := { r.classifier with next := r.classifier.next + 1 } }
          call party now
        dsimp only
        generalize Relay.enter _ call party now = looked at hlooks
        cases hlooks with
        | pending hc hd hn hr =>
          exact ⟨.begun hq (hc ▸ ⟨hm, ha⟩) (ht ▸ hd), hr.spares.controller, hr.spares.timeoutMs⟩
        | ended hr => exact ⟨.answered hq ⟨hm, ha⟩, hr.spares.controller, hr.spares.timeoutMs⟩

/-! ### One entry until it is finished -/

/-- The slot is that of the entry, and if it is finished it has its response. -/
inductive Serves (ans : Answering) (raw : Raw) : Slot → Prop
  | fresh : Serves ans raw (.fresh raw)
  | running {q : Request} {e : Entry} (hq : Request.ofRaw raw = .ok q) (ha : q.Asks e.call) :
      Serves ans raw (.running q.id? e)
  | finished : Serves ans raw (.finished (ans.response? raw))

/-- The entry has been looked at, and its call has time until then. -/
inductive Due (deadline : Nat) : Slot → Prop
  | running {id? : Option Id} {e : Entry} (h : e.deadline ≤ deadline) :
      Due deadline (.running id? e)
  | finished {response? : Option Response} : Due deadline (.finished response?)

theorem respond_serves {ans : Answering} {raw : Raw} {q : Request} {c : Call}
    (hq : Request.ofRaw raw = .ok q) (ha : q.Asks c) :
    Serves ans raw (respond q.id? (ans c.name c.arguments)) := by
  have hresponse : ans.response? raw =
      q.id?.map fun i => .ofOutcome i ((ans c.name c.arguments).mapError CallError.object) := by
    rw [Answering.response?, hq, ← ha.outcome ans]
  rw [respond, ← hresponse]
  exact .finished

/-- **While calls are answered by what they ask for, so are entries.** -/
theorem Goes.serves {ans : Answering} {raw : Raw} (h : Goes timeoutMs now s s' ending?)
    (hs : Serves ans raw s)
    (hans : ∀ e ∈ ending?, e.2 = ans e.1.name e.1.arguments) : Serves ans raw s' := by
  cases h with
  | @refused _ i e h =>
    cases hs
    have hresponse : ans.response? raw = some (.failure i e) := (ans.response?_refused h).1
    rw [← hresponse]
    exact .finished
  | @unfit _ q e hq h =>
    cases hs
    have hresponse : ans.response? raw = q.id?.map fun i => .failure i e := by
      simp only [Answering.response?, hq, h]
      rfl
    rw [← hresponse]
    exact .finished
  | begun hq ha =>
    cases hs
    exact .running hq ha
  | @answered _ q c a hq ha =>
    cases hs
    rw [show a = ans c.name c.arguments from hans (c, a) rfl]
    exact respond_serves hq ha
  | goesOn hc =>
    cases hs with
    | running hq ha => exact .running hq (hc ▸ ha)
  | @ended _ e a =>
    cases hs with
    | running hq ha =>
      rw [show a = ans e.call.name e.call.arguments from hans (e.call, a) rfl]
      exact respond_serves hq ha
  | settled => exact hs

theorem Goes.due {deadline : Nat} (h : Goes timeoutMs now s s' ending?)
    (hs : (∃ raw, s = .fresh raw) ∧ now + timeoutMs ≤ deadline ∨ s.Due deadline) :
    s'.Due deadline := by
  cases h with
  | refused | unfit | answered | ended | settled => exact .finished
  | begun _ _ hd =>
    rcases hs with ⟨-, hlast⟩ | hs
    · exact .running (hd ▸ hlast)
    · cases hs
  | goesOn _ hd =>
    rcases hs with ⟨⟨raw, hraw⟩, -⟩ | hs
    · cases hraw
    · cases hs with
      | running hlast => exact .running (hd ▸ hlast)

/-- When the time of its call is up, an entry is finished. -/
theorem Goes.late {deadline : Nat} (h : Goes timeoutMs now s s' ending?) (hs : s.Due deadline)
    (hlate : deadline ≤ now) : s'.isFinished = true := by
  cases hs with
  | running hlast =>
    cases h with
    | goesOn _ _ hn => exact absurd hn (by omega)
    | ended => rfl
  | finished =>
    cases h
    rfl

/-! ### All entries, one after the other -/

/-- The calls that end when the entries are looked at. -/
def endings (r : Relay) (parent : Token) (party now : Nat) : List Slot → List (Call × Answer)
  | [] => []
  | s :: rest =>
    (s.ending r parent party now).toList ++
      endings (s.go r parent party now).2 parent party now rest

theorem goAll_spares (slots : List Slot) (r : Relay) :
    r.Spares (goAll r parent party now slots).2 := by
  induction slots generalizing r with
  | nil => exact .refl r
  | cons s rest ih => exact (s.go_goes r parent party now).2.trans (ih _)

theorem goAll_serves {ans : Answering} {raws : List Raw} {slots : List Slot}
    (h : List.Forall₂ (Serves ans) raws slots)
    (hans : ∀ e ∈ endings r parent party now slots, e.2 = ans e.1.name e.1.arguments) :
    List.Forall₂ (Serves ans) raws (goAll r parent party now slots).1 := by
  induction h generalizing r with
  | nil => exact .nil
  | @cons raw s raws rest hs hrest ih =>
    simp only [endings, List.mem_append, Option.mem_toList] at hans
    exact .cons ((s.go_goes r parent party now).1.serves hs fun e he => hans e (.inl he))
      (ih fun e he => hans e (.inr he))

theorem goAll_due {deadline : Nat} {slots : List Slot}
    (h : ∀ s ∈ slots, (∃ raw, s = .fresh raw) ∧ now + r.classifier.timeoutMs ≤ deadline ∨
      s.Due deadline) :
    ∀ s ∈ (goAll r parent party now slots).1, s.Due deadline := by
  induction slots generalizing r with
  | nil => exact fun s hs => by cases hs
  | cons s rest ih =>
    obtain ⟨hgoes, hspares⟩ := s.go_goes r parent party now
    obtain ⟨hs, hrest⟩ := List.forall_mem_cons.mp h
    exact List.forall_mem_cons.mpr ⟨hgoes.due hs, ih (hspares.timeoutMs ▸ hrest)⟩

theorem goAll_late {deadline : Nat} {slots : List Slot} (h : ∀ s ∈ slots, s.Due deadline)
    (hlate : deadline ≤ now) :
    (goAll r parent party now slots).1.all isFinished = true := by
  induction slots generalizing r with
  | nil => rfl
  | cons s rest ih =>
    obtain ⟨hs, hrest⟩ := List.forall_mem_cons.mp h
    exact Bool.and_eq_true_iff.mpr
      ⟨(s.go_goes r parent party now).1.late hs hlate, ih hrest⟩

/-- Entries that are all finished have their responses. -/
theorem responses_of_finished {ans : Answering} {raws : List Raw} {slots : List Slot}
    (h : List.Forall₂ (Serves ans) raws slots) (hall : slots.all isFinished = true) :
    slots.filterMap response? = raws.filterMap ans.response? := by
  induction h with
  | nil => rfl
  | cons hs hrest ih =>
    obtain ⟨hfinished, hall⟩ := Bool.and_eq_true_iff.mp hall
    cases hs with
    | fresh | running => cases hfinished
    | finished => rw [List.filterMap_cons, List.filterMap_cons, ih hall]; rfl

end Slot
end Switchboard
