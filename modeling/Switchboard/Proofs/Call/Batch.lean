import Switchboard.Http.Visit
import Switchboard.Node.Build
import Switchboard.Proofs.Call.Responding
import Switchboard.Proofs.Message.Bodies
import Switchboard.Proofs.Service.Routing

/-! Bodies and the answers to them.

A request is looked at when it comes in, and again whenever something may have happened to its
calls; in between others use the relay. A *passage* is a request on its way through any such looks,
together with the calls of it that have ended. Whatever the others do, the request is over when
all its calls are, and they are over when their time is up. If the calls have been answered by what
they ask for, a batch is answered with the responses that its entries get one by one
(`answered_one_by_one`). A relay that redirects nothing, and whose handlers answer at once, answers
so by itself (`Relay.Prompt.answers`). -/
namespace Switchboard
open Json

/-! ### The answer to a body -/

namespace Payload

def isBatch : Payload → Bool
  | .single _ => false
  | .batch _ => true

end Payload

namespace Answering
variable (ans : Answering)

/-- The responses to entries, in their order. -/
def responses (entries : List Raw) : List Response := entries.filterMap ans.response?

/-- What a batch is answered with. -/
def batchText? (entries : List Raw) : Option (List Char) :=
  if ans.responses entries = [] then none
  else some (writeList ((ans.responses entries).map Response.write))

/-- What a body is answered with. -/
def text? : Payload → Option (List Char)
  | .single entry => (ans.response? entry).map Response.write
  | .batch entries => ans.batchText? entries

/-- The answer of an exchange whose entries have their responses. -/
theorem text?_eq {x : Exchange} {p : Payload} (hbatch : x.batch = p.isBatch)
    (hslots : x.slots.filterMap Slot.response? = ans.responses p.entries) :
    x.text? = ans.text? p := by
  unfold Exchange.text?
  rw [hslots, hbatch]
  cases p with
  | single entry =>
    show (ans.responses [entry]).head?.map Response.write = _
    rw [responses, text?]
    cases h : ans.response? entry <;> simp [h]
  | batch entries =>
    show (if (ans.responses entries).isEmpty then none
      else some (writeList ((ans.responses entries).map Response.write))) = _
    simp only [text?, batchText?, List.isEmpty_iff]

end Answering

/-! ### One look at a request -/

theorem Controller.release_inFlight (c : Controller) : c.release.inFlight = c.inFlight - 1 := by
  by_cases h : c.inFlight = 1 <;> simp [release, leave, notify, h]

namespace Exchange
variable {r : Relay} {body : ByteArray} {p : Payload} {party now : Nat}

/-- A body before its entries have been looked at. -/
def opened (token : Token) (p : Payload) : Exchange := ⟨token, p.isBatch, p.entries.map Slot.fresh⟩

/-- The relay when a request has come in. -/
def admitted (r : Relay) : Relay :=
  { r with tokens := (r.tokens.child Relay.calls).2, controller := r.controller.enter }

theorem begin_eq (h : Payload.parse body = .ok p) (r : Relay) (party now : Nat) :
    begin_ body r party now =
      (opened (r.tokens.child Relay.calls).1 p).go (admitted r) party now := by
  rw [begin_, h]
  cases p <;> rfl

/-- The calls that end when the request is looked at. -/
def endings (x : Exchange) (r : Relay) (party now : Nat) : List (Call × Answer) :=
  Slot.endings r x.token party now x.slots

/-- A request is over when all its entries are finished. -/
theorem go_ended {x : Exchange}
    (h : (Slot.goAll r x.token party now x.slots).1.all Slot.isFinished = true) :
    ∃ text?, (x.go r party now).1 = .ended text? := by
  simp only [go, h, if_true]
  exact ⟨_, rfl⟩

/-- What a look at a request comes to. -/
inductive Goes (x : Exchange) (r : Relay) (slots : List Slot) (r' : Relay) :
    Progress × Relay → Prop
  | pending : Goes x r slots r' (.pending { x with slots }, r')
  | ended (h : slots.all Slot.isFinished = true) :
      Goes x r slots r' (.ended { x with slots }.text?, leave x.token r')

theorem go_goes (x : Exchange) (r : Relay) (party now : Nat) :
    Goes x r (Slot.goAll r x.token party now x.slots).1 (Slot.goAll r x.token party now x.slots).2
      (x.go r party now) := by
  unfold go
  dsimp only
  split
  · rename_i h
    exact .ended h
  · exact .pending

end Exchange

/-! ### A request on its way -/

/-- A request is looked at: at a relay, as everybody else has left it, and at a time. -/
structure Look where
  relay : Relay
  now : Nat
  /-- The other requests in flight. -/
  others : Nat
  counts : relay.controller.inFlight = others + 1

/-- A request on its way, and what has been seen of it. -/
structure Passage where
  progress : Exchange.Progress
  relay : Relay
  /-- The calls that have ended, with their answers. -/
  ended : List (Call × Answer)
  /-- The other requests that were in flight at the last look. -/
  others : Nat

namespace Passage

/-- A body comes in. -/
def begin_ (body : ByteArray) (r : Relay) (party now : Nat) : Passage where
  progress := (Exchange.begin_ body r party now).1
  relay := (Exchange.begin_ body r party now).2
  ended :=
    match Payload.parse body with
    | .error _ => []
    | .ok p =>
      (Exchange.opened (r.tokens.child Relay.calls).1 p).endings (Exchange.admitted r) party now
  others := r.controller.inFlight

/-- The request is looked at, unless it is over. -/
def look (p : Passage) (party : Nat) (l : Look) : Passage :=
  match p.progress with
  | .ended _ => p
  | .pending x =>
    { progress := (x.go l.relay party l.now).1
      relay := (x.go l.relay party l.now).2
      ended := p.ended ++ x.endings l.relay party l.now
      others := l.others }

def through (body : ByteArray) (r : Relay) (party now : Nat) (looks : List Look) : Passage :=
  looks.foldl (fun p l => p.look party l) (begin_ body r party now)

/-- The calls that have ended were answered by what they ask for. -/
def Agrees (p : Passage) (ans : Answering) : Prop :=
  ∀ e ∈ p.ended, e.2 = ans e.1.name e.1.arguments

/-- What holds of the passage of a body. -/
def Fits (payload : Payload) (deadline : Nat) (p : Passage) : Prop :=
  match p.progress with
  | .pending x => x.batch = payload.isBatch ∧ (∀ s ∈ x.slots, s.Due deadline) ∧
      p.relay.controller.inFlight = p.others + 1 ∧
      ∀ ans, p.Agrees ans → List.Forall₂ (Slot.Serves ans) payload.entries x.slots
  | .ended text? => p.relay.controller.inFlight = p.others ∧
      ∀ ans : Answering, p.Agrees ans → text? = ans.text? payload

variable {payload : Payload} {deadline party now : Nat} {p : Passage}

theorem fits_go {x : Exchange} {r : Relay} {others : Nat} {before : List (Call × Answer)}
    (hbatch : x.batch = payload.isBatch)
    (hdue : ∀ s ∈ x.slots, (∃ raw, s = .fresh raw) ∧ now + r.classifier.timeoutMs ≤ deadline ∨
      s.Due deadline)
    (hcounts : r.controller.inFlight = others + 1)
    (hserves : ∀ ans : Answering, (∀ e ∈ before, e.2 = ans e.1.name e.1.arguments) →
      List.Forall₂ (Slot.Serves ans) payload.entries x.slots) :
    Fits payload deadline ⟨(x.go r party now).1, (x.go r party now).2,
      before ++ x.endings r party now, others⟩ := by
  have hgoes := x.go_goes r party now
  have hspares := @Slot.goAll_spares x.token party now x.slots r
  have hserved (ans : Answering)
      (hans : ∀ e ∈ before ++ x.endings r party now, e.2 = ans e.1.name e.1.arguments) :
      List.Forall₂ (Slot.Serves ans) payload.entries
        (Slot.goAll r x.token party now x.slots).1 :=
    Slot.goAll_serves (hserves ans fun e he => hans e (List.mem_append_left _ he))
      fun e he => hans e (List.mem_append_right _ he)
  generalize x.go r party now = result at hgoes
  cases hgoes with
  | pending =>
    exact ⟨hbatch, Slot.goAll_due hdue, by rw [hspares.controller, hcounts], hserved⟩
  | ended hall =>
    refine ⟨?_, fun ans hans => ?_⟩
    · show (Controller.release _).inFlight = others
      rw [Controller.release_inFlight, hspares.controller, hcounts, Nat.add_sub_cancel]
    · exact ans.text?_eq hbatch (Slot.responses_of_finished (hserved ans hans) hall)

variable {body : ByteArray} {r : Relay}

theorem fits_begin (h : Payload.parse body = .ok payload) :
    Fits payload (now + r.classifier.timeoutMs) (begin_ body r party now) := by
  have hfits := @fits_go payload (now + r.classifier.timeoutMs) party now
    (Exchange.opened (r.tokens.child Relay.calls).1 payload) (Exchange.admitted r)
    r.controller.inFlight [] rfl (fun s hs => ?_) rfl fun ans _ => ?_
  · rw [begin_, Exchange.begin_eq h, h]
    exact hfits
  · obtain ⟨raw, -, rfl⟩ := List.mem_map.mp hs
    exact .inl ⟨⟨raw, rfl⟩, Nat.le_refl _⟩
  · exact List.forall₂_map_right_iff.mpr (List.forall₂_same.mpr fun raw _ => .fresh)

theorem Fits.look (h : Fits payload deadline p) (l : Look) :
    Fits payload deadline (p.look party l) := by
  cases hp : p.progress with
  | ended text? =>
    rw [Passage.look, hp]
    exact h
  | pending x =>
    rw [Fits, hp] at h
    obtain ⟨hbatch, hdue, -, hserves⟩ := h
    rw [Passage.look, hp]
    exact fits_go hbatch (fun s hs => .inr (hdue s hs)) l.counts hserves

/-- A request that is looked at when the time of its calls is up is over. -/
theorem Fits.late (h : Fits payload deadline p) {l : Look} (hlate : deadline ≤ l.now) :
    ∃ text?, (p.look party l).progress = .ended text? := by
  cases hp : p.progress with
  | ended text? => exact ⟨text?, by rw [Passage.look, hp]; exact hp⟩
  | pending x =>
    rw [Fits, hp] at h
    rw [Passage.look, hp]
    exact Exchange.go_ended (Slot.goAll_late h.2.1 hlate)

theorem look_ended {text? : Option (List Char)} (h : p.progress = .ended text?) (l : Look) :
    p.look party l = p := by
  rw [Passage.look, h]

theorem looks_ended {text? : Option (List Char)} (h : p.progress = .ended text?)
    (looks : List Look) : looks.foldl (fun p l => p.look party l) p = p := by
  induction looks with
  | nil => rfl
  | cons l rest ih => rw [List.foldl_cons, look_ended h, ih]

theorem Fits.looks (h : Fits payload deadline p) (looks : List Look) :
    Fits payload deadline (looks.foldl (fun p l => p.look party l) p) := by
  induction looks generalizing p with
  | nil => exact h
  | cons l rest ih => exact ih (h.look l)

theorem Fits.looks_late (h : Fits payload deadline p) {looks : List Look}
    (hlate : ∃ l ∈ looks, deadline ≤ l.now) :
    ∃ text?, (looks.foldl (fun p l => p.look party l) p).progress = .ended text? := by
  induction looks generalizing p with
  | nil =>
    obtain ⟨l, hl, -⟩ := hlate
    cases hl
  | cons l rest ih =>
    obtain ⟨l', hl', hn⟩ := hlate
    rcases List.mem_cons.mp hl' with rfl | hl'
    · obtain ⟨text?, hended⟩ := @Fits.late _ _ party _ h _ hn
      rw [List.foldl_cons, looks_ended hended]
      exact ⟨text?, hended⟩
    · exact ih (h.look l) ⟨l', hl', hn⟩

/-- While the others neither come nor go, there are as many as there were. -/
theorem looks_others {n : Nat} {looks : List Look} (h : p.others = n)
    (hlooks : ∀ l ∈ looks, l.others = n) :
    (looks.foldl (fun p l => p.look party l) p).others = n := by
  induction looks generalizing p with
  | nil => exact h
  | cons l rest ih =>
    obtain ⟨hl, hrest⟩ := List.forall_mem_cons.mp hlooks
    refine ih ?_ hrest
    show (p.look party l).others = n
    unfold Passage.look
    split
    · exact h
    · exact hl

end Passage

/-- Whenever the body comes in, and however often the request is looked at, it is over at the
latest when the time of its calls is up, and not in flight any more; and if its calls have been
answered by what they ask for, the text is its answer. -/
structure Answering.Gives (ans : Answering) (body : ByteArray) (text? : Option (List Char)) :
    Prop where
  ends : ∀ r party now looks, (∃ l ∈ looks, now + r.classifier.timeoutMs ≤ l.now) →
    ∃ t, (Passage.through body r party now looks).progress = .ended t
  text : ∀ r party now looks t, (Passage.through body r party now looks).progress = .ended t →
    (Passage.through body r party now looks).Agrees ans → t = text?
  leaves : ∀ r party now looks t, (Passage.through body r party now looks).progress = .ended t →
    (Passage.through body r party now looks).relay.controller.inFlight =
      (Passage.through body r party now looks).others
  back : ∀ r party now looks t, (Passage.through body r party now looks).progress = .ended t →
    (∀ l ∈ looks, l.others = r.controller.inFlight) →
      (Passage.through body r party now looks).relay.controller.inFlight = r.controller.inFlight

/-- **An accepted body is answered with the responses to its entries.** -/
theorem Answering.gives_of_parse {body : ByteArray} {payload : Payload}
    (h : Payload.parse body = .ok payload) (ans : Answering) :
    ans.Gives body (ans.text? payload) := by
  have hfits (r : Relay) (party now : Nat) (looks : List Look) :
      Passage.Fits payload (now + r.classifier.timeoutMs)
        (Passage.through body r party now looks) :=
    (Passage.fits_begin h).looks looks
  have hleaves (r : Relay) (party now : Nat) (looks : List Look) {t : Option (List Char)}
      (ht : (Passage.through body r party now looks).progress = .ended t) :
      (Passage.through body r party now looks).relay.controller.inFlight =
        (Passage.through body r party now looks).others ∧
      ∀ ans : Answering, (Passage.through body r party now looks).Agrees ans →
        t = ans.text? payload := by
    have := hfits r party now looks
    rwa [Passage.Fits, ht] at this
  exact {
    ends := fun r party now looks hlate => (Passage.fits_begin h).looks_late hlate
    text := fun r party now looks t ht => (hleaves r party now looks ht).2 ans
    leaves := fun r party now looks t ht => (hleaves r party now looks ht).1
    back := fun r party now looks t ht hothers =>
      (hleaves r party now looks ht).1.trans (Passage.looks_others rfl hothers) }

/-! ### Batches -/

theorem Http.Visit.ofText_eq_empty {text? : Option (List Char)} :
    ofText text? = .empty 204 ↔ text? = none := by
  cases text? with
  | none => exact iff_of_true rfl rfl
  | some text => exact iff_of_false (fun h => by cases congrArg Response.status h) (by simp)

/-- **A batch is answered as its entries would be one by one.** Its answer holds the responses to
its entries, in their order; it has no content when there are none, which is when all entries are
valid notifications. An entry gets a response unless it is a valid notification, under its own id,
or under the id that can be found in it when it is no request. The response is what the entry gets
for its answer when it is posted alone, unless it is a list. What is refused as no request changes
nothing about the responses to the entries before and behind it. -/
theorem answered_one_by_one {body : ByteArray} {entries : List Raw}
    (hbody : Payload.parse body = .ok (.batch entries)) (ans : Answering) :
    ans.Gives body (ans.batchText? entries) ∧
    (Http.Visit.ofText (ans.batchText? entries) = .empty 204 ↔
      ∀ entry ∈ entries, Notifies entry) ∧
    (∀ entry ∈ entries, (ans.response? entry = none ↔ Notifies entry) ∧
      (∀ a q, ans.response? entry = some a → Request.ofRaw entry = .ok q → q.id? = some a.id) ∧
      (∀ i e, Request.ofRaw entry = .error (i, e) →
        ans.response? entry = some (.failure (Request.salvagedId entry.chars) e)) ∧
      (entry.chars.head? ≠ some '[' →
        ans.Gives entry.text.toUTF8 ((ans.response? entry).map Response.write))) ∧
    ∀ before bad behind i e, entries = before ++ bad :: behind →
      Request.ofRaw bad = .error (i, e) →
        ans.responses entries =
          ans.responses before ++ .failure i e :: ans.responses behind := by
  refine ⟨ans.gives_of_parse hbody, ?_, fun entry hentry => ⟨ans.response?_eq_none,
    fun a q => ans.response?_id, fun i e he => ?_, fun hhead => ?_⟩, ?_⟩
  · rw [Http.Visit.ofText_eq_empty, Answering.batchText?, Answering.responses]
    simp only [ite_eq_left_iff, reduceCtorEq, imp_false, not_not, List.filterMap_eq_nil_iff,
      ans.response?_eq_none]
  · obtain ⟨hresponse, hid⟩ := ans.response?_refused he
    rw [hresponse, hid]
  · exact ans.gives_of_parse (Payload.parse_text (Payload.entries_isText hbody entry hentry) hhead)
  · rintro before bad behind i e rfl he
    rw [Answering.responses, List.filterMap_append, List.filterMap_cons,
      (ans.response?_refused he).1]
    rfl

/-! ### A relay that answers at once -/

/-- What a router that redirects nothing answers to calls by itself. -/
def Router.own (router : Router) : Answering := fun name arguments =>
  match router.route name.namespaceName with
  | .handler h => (Router.answer h ⟨0, 0, ⟨0, []⟩, name, arguments⟩).1
  | _ => .error (.methodNotFound name.full)

/-- The relay redirects nothing, its handlers answer at once, it has a permit, and no call of it
is cancelled. -/
structure Relay.Prompt (r : Relay) : Prop where
  redirections : r.router.redirections = []
  delays : ∀ h ∈ r.router.handlers, ∀ method arguments, (h.handle method arguments).delayMs = 0
  free : 0 < r.free
  cancelled : ∀ n ∈ r.tokens.cancelled, n < r.tokens.next

namespace Relay
variable {r r' : Relay} {parent : Token} {party now : Nat}

theorem Prompt.congr (h : r.Prompt) (hrouter : r'.router = r.router) (hfree : r'.free = r.free)
    (htokens : r'.tokens = r.tokens) : r'.Prompt where
  redirections := hrouter ▸ h.redirections
  delays := hrouter ▸ h.delays
  free := hfree ▸ h.free
  cancelled := htokens ▸ h.cancelled

/-- Neither the token nor one above it has been cancelled. -/
def Runs (r : Relay) (token : Token) : Prop :=
  ∀ n ∈ token.own :: token.ancestors, n ∉ r.tokens.cancelled

theorem Prompt.serve (h : r.Prompt) (c : Call) (now : Nat) :
    r.serve c now = .replying now (r.router.own c.name c.arguments) := by
  have hnone : r.router.redirection? c.name.namespaceName = none := by
    rw [Router.redirection?, h.redirections]
    rfl
  cases hhandler : r.router.handler? c.name.namespaceName with
  | none => simp only [Relay.serve, Router.own, Router.route, hnone, hhandler]
  | some handler =>
    have hdelay : (Router.answer handler c).2 = 0 := by
      unfold Router.answer
      split
      · rfl
      · have := h.delays handler (List.mem_of_find?_eq_some hhandler) c.name.method
        dsimp only
        split <;> exact this _
    simp only [Relay.serve, Router.own, Router.route, hnone, hhandler, hdelay, Nat.add_zero]
    rfl

/-- A call of such a relay ends as soon as it comes in, with the router's own answer. -/
theorem Prompt.enter (h : r.Prompt) {c : Call} (hc : r.Runs c.token) (party now : Nat) :
    ∃ r', r.enter c party now = (.ended (r.router.own c.name c.arguments), r') ∧
      r'.router = r.router ∧ r'.free = r.free ∧ r'.tokens = r.tokens := by
  have hcancelled : r.tokens.isCancelled c.token = false :=
    List.any_eq_false.mpr fun n hn => by simpa using hc n hn
  have hfree : r.free ≠ 0 := Nat.ne_of_gt h.free
  refine ⟨{ r with free := r.free - 1 + 1 }.observed c (r.router.own c.name c.arguments), ?_, ?_⟩
  · simp [Relay.enter, takePermit, hfree, hcancelled, h.serve c now, go, answer?, decide?]
  · unfold observed
    split <;> exact ⟨rfl, Nat.sub_add_cancel h.free, rfl⟩

/-- What stays of such a relay while entries are looked at. -/
structure Ready (router : Router) (parent : Token) (r : Relay) : Prop where
  prompt : r.Prompt
  router : r.router = router
  runs : r.Runs parent

variable {router : Router}

/-- An entry that is looked at for the first time is finished. -/
theorem Ready.go_fresh (h : r.Ready router parent) (raw : Raw) (party now : Nat) :
    ((Slot.fresh raw).go r parent party now).1.isFinished = true ∧
      (∀ e ∈ (Slot.fresh raw).ending r parent party now,
        e.2 = router.own e.1.name e.1.arguments) ∧
      Ready router parent ((Slot.fresh raw).go r parent party now).2 := by
  simp only [Slot.go, Slot.begin_, Slot.ending]
  cases Request.ofRaw raw with
  | error refusal =>
    refine ⟨rfl, ?_, h⟩
    rintro e ⟨⟩
  | ok q =>
    -- the call gets a new token, which nobody has cancelled
    have hnew {classifier : Classifier} :
        { r with tokens := (r.tokens.child parent).2, classifier }.Runs
          (r.tokens.child parent).1 := by
      intro n hn hcancelled
      rcases List.mem_cons.mp hn with rfl | hn
      · exact Nat.lt_irrefl _ (h.prompt.cancelled _ hcancelled)
      · exact h.runs n hn hcancelled
    have hprompt {classifier : Classifier} :
        { r with tokens := (r.tokens.child parent).2, classifier }.Prompt :=
      { h.prompt with
        cancelled := fun n hn => Nat.lt_succ_of_lt (h.prompt.cancelled n hn) }
    have hmade := r.classifier.classify_classifies q (r.tokens.child parent).1
    dsimp only
    generalize r.classifier.classify q (r.tokens.child parent).1 = classified at hmade
    cases hmade with
    | refused =>
      refine ⟨rfl, ?_, hprompt, h.router, h.runs⟩
      rintro e ⟨⟩
    | @made call hm ha ht hk =>
      have hruns := @hnew { r.classifier with next := r.classifier.next + 1 }
      rw [← hk] at hruns
      obtain ⟨r', henter, hrouter, hfree, htokens⟩ := hprompt.enter hruns party now
      dsimp only
      rw [henter]
      refine ⟨rfl, ?_, hprompt.congr hrouter hfree htokens, hrouter.trans h.router, ?_⟩
      · rintro e ⟨⟩
        rw [← h.router]
      · rw [Runs, htokens]
        exact h.runs

theorem Ready.goAll (h : r.Ready router parent) (raws : List Raw) (party now : Nat) :
    (Slot.goAll r parent party now (raws.map Slot.fresh)).1.all Slot.isFinished = true ∧
      ∀ e ∈ Slot.endings r parent party now (raws.map Slot.fresh),
        e.2 = router.own e.1.name e.1.arguments := by
  induction raws generalizing r with
  | nil => exact ⟨rfl, fun e he => by cases he⟩
  | cons raw rest ih =>
    obtain ⟨hfinished, hans, hready⟩ := h.go_fresh raw party now
    obtain ⟨hall, hrest⟩ := ih hready
    refine ⟨Bool.and_eq_true_iff.mpr ⟨hfinished, hall⟩, fun e he => ?_⟩
    rcases List.mem_append.mp he with he | he
    · exact hans e (Option.mem_toList.mp he)
    · exact hrest e he

/-- **Such a relay answers a body at once, and each call with its router's own answer.** -/
theorem Prompt.answers (h : r.Prompt) (hcalls : r.Runs Relay.calls) {body : ByteArray}
    {payload : Payload} (hbody : Payload.parse body = .ok payload) (party now : Nat) :
    (Passage.begin_ body r party now).progress = .ended (r.router.own.text? payload) := by
  have hready : Ready r.router (r.tokens.child Relay.calls).1 (Exchange.admitted r) := by
    refine ⟨⟨h.redirections, h.delays, h.free, fun n hn => ?_⟩, rfl, fun n hn hcancelled => ?_⟩
    · exact Nat.lt_succ_of_lt (h.cancelled n hn)
    · rcases List.mem_cons.mp hn with rfl | hn
      · exact Nat.lt_irrefl _ (h.cancelled _ hcancelled)
      · exact hcalls n hn hcancelled
  obtain ⟨hall, hans⟩ := hready.goAll payload.entries party now
  obtain ⟨t, ht⟩ : ∃ t, (Passage.begin_ body r party now).progress = .ended t := by
    rw [Passage.begin_, Exchange.begin_eq hbody]
    exact Exchange.go_ended hall
  have hagrees : (Passage.through body r party now []).Agrees r.router.own := by
    simp only [Passage.through, List.foldl_nil, Passage.Agrees, Passage.begin_, hbody]
    exact hans
  rw [ht, (r.router.own.gives_of_parse hbody).text r party now [] t ht hagrees]

/-- The handlers that every node has answer at once; so a node that redirects nothing does, if
those that it has besides do. -/
theorem prompt_ofConfig {c : ServerConfig} {others : List Handler} (h : ofConfig c others = .ok r)
    (hredirects : c.redirects = []) (hfree : 0 < c.maxConcurrentCalls)
    (hothers : ∀ h ∈ others, ∀ method arguments, (h.handle method arguments).delayMs = 0) :
    r.Prompt ∧ r.Runs Relay.calls := by
  rw [ofConfig, hredirects] at h
  cases h
  refine ⟨⟨?_, fun h hh method arguments => ?_, hfree, ?_⟩, ?_⟩
  · simp only [Router.ofHandlers, Router.register, Router.foldl_register]
  · simp only [Router.ofHandlers, Router.register, Router.foldl_register, List.reverse_cons,
      List.append_assoc, List.mem_cons, List.mem_append, List.mem_reverse, List.not_mem_nil,
      or_false] at hh
    rcases hh with rfl | hh | rfl | rfl
    · simp only [Handler.rpc]
      split <;> rfl
    · exact hothers h hh method arguments
    · simp only [Handler.net]
      split <;> rfl
    · simp only [Handler.web3]
      split <;> rfl
  · rintro n ⟨⟩
  · rintro n - ⟨⟩

end Relay

/-! ### A batch that is answered at once -/

/-- A call, a notification, a value that is no request, and a call that nobody serves. -/
def mixed : List Raw :=
  [⟨writeObject [writeMember "jsonrpc" (writeString "2.0"), writeMember "id" ['1'],
      writeMember "method" (writeString "net_listening")]⟩,
    ⟨writeObject [writeMember "jsonrpc" (writeString "2.0"),
      writeMember "method" (writeString "zzz_q")]⟩,
    .ofString "7",
    ⟨writeObject [writeMember "jsonrpc" (writeString "2.0"), writeMember "id" (writeString "b"),
      writeMember "method" (writeString "zzz_q")]⟩]

def mixedBody : ByteArray := (Raw.list mixed).text.toUTF8

/-- A node without redirections answers at once, with three responses to the four entries. -/
theorem mixed_answered : ∃ relay, Relay.ofConfig {} [] = .ok relay ∧
    relay.router.own.Gives mixedBody (relay.router.own.batchText? mixed) ∧
    (Passage.begin_ mixedBody relay 0 0).progress = .ended (relay.router.own.batchText? mixed) ∧
    (relay.router.own.responses mixed).map
        (fun a => (a.id, a.result?, a.error?.map ErrorObject.code)) =
      [(.ofNat 1, some (.ofString "true"), none), (.null, none, some (-32600)),
        (.string "b", none, some (-32601))] := by
  have hbody : Payload.parse mixedBody = .ok (.batch mixed) := by
    have : (Payload.parse mixedBody).toOption = some (.batch mixed) := by decide +kernel
    cases h : Payload.parse mixedBody <;> rw [h] at this <;> cases this
    rfl
  refine ⟨_, rfl, (answered_one_by_one hbody _).1, ?_, by decide +kernel⟩
  obtain ⟨hprompt, hcalls⟩ := @Relay.prompt_ofConfig _ {} [] rfl rfl (by decide) (by simp)
  exact hprompt.answers hcalls hbody 0 0

end Switchboard
