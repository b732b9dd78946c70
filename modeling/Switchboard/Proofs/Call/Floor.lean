import Switchboard.Node.Life
import Switchboard.Proofs.Call.Batch
import Switchboard.Proofs.Call.GivingUp
import Switchboard.Proofs.Call.Orderliness

/-! All requests in flight at once.

A *floor* is a relay with the requests that are in flight on it. Bodies arrive, single entries are
looked at, requests finish and clients go away, in any order, while dials and connections take
their steps, tokens are cancelled as a whole and whatever else there is goes on. `Floor.Sound` says
what holds of every floor: as many requests are counted as there are, every call under way has one
permit, the hub carries all of them, and all tokens are different, each call's under that of its
request. What is done with a body as a whole is a run of such events (`Floor.run_go`,
`Floor.run_begin`). -/
namespace Switchboard
open Json Redirect

/-! ### Tokens -/

namespace Tokens

@[simp] theorem next_cancel (s : Tokens) (t : Token) : (s.cancel t).next = s.next := by
  unfold cancel
  split <;> rfl

/-- What is cancelled with a token is what hangs under it, or is the token itself. -/
theorem isCancelled_cancel (s : Tokens) (t u : Token) :
    (s.cancel t).isCancelled u = (s.isCancelled u || decide (t.own ∈ u.own :: u.ancestors)) := by
  have hmem (n : Nat) : n ∈ (s.cancel t).cancelled ↔ n ∈ s.cancelled ∨ n = t.own := by
    unfold cancel
    split
    · rename_i h
      exact ⟨.inl, fun hn => hn.elim id fun he => he ▸ h⟩
    · exact List.mem_cons.trans or_comm
  rw [Bool.eq_iff_iff]
  simp only [isCancelled, List.any_eq_true, decide_eq_true_eq, Bool.or_eq_true, hmem]
  constructor
  · rintro ⟨n, hn, hn' | rfl⟩
    · exact .inl ⟨n, hn, hn'⟩
    · exact .inr hn
  · rintro (⟨n, hn, hn'⟩ | hn)
    · exact ⟨n, hn, .inl hn'⟩
    · exact ⟨_, hn, .inr rfl⟩

end Tokens

/-! ### A look at one entry -/

namespace Slot
variable {r : Relay} {parent : Token} {party now : Nat} {rest : List Forwarding.Stage} {s s' : Slot}

/-- The call, while it is under way. -/
def entry? : Slot → Option Entry
  | .running _ e => some e
  | _ => none

/-- What a look makes of the permits, the tokens and what calls hold. -/
structure Fares (r : Relay) (parent : Token) (rest : List Forwarding.Stage) (s s' : Slot)
    (r' : Relay) : Prop where
  hub : r'.hub.Carries (s'.entry?.toList.map Entry.stage ++ rest)
  permits : r'.free + s'.entry?.toList.length = r.free + s.entry?.toList.length
  next : r.tokens.next ≤ r'.tokens.next
  /-- A call goes on under its token, or is new and has a new one. -/
  token : ∀ e' ∈ s'.entry?, (∃ e ∈ s.entry?, e'.call.token = e.call.token) ∨
    e'.call.token = (r.tokens.child parent).1 ∧ r.tokens.next < r'.tokens.next

theorem go_fares (hc : r.hub.Carries (s.entry?.toList.map Entry.stage ++ rest)) (parent : Token)
    (party now : Nat) :
    Fares r parent rest s (s.go r parent party now).1 (s.go r parent party now).2 := by
  cases s with
  | finished => exact ⟨hc, rfl, Nat.le_refl _, fun e' he' => by cases he'⟩
  | running id? e =>
    have hfares := Relay.go_fares hc party now
    simp only [go]
    generalize r.go e party now = went at hfares
    cases hfares with
    | pending hcall hfree htokens hc =>
      refine ⟨hc, congrArg (· + 1) hfree, Nat.le_of_eq (by rw [htokens]), fun e' he' => .inl ?_⟩
      cases he'
      exact ⟨e, rfl, congrArg Call.token hcall⟩
    | ended hfree htokens hc =>
      refine ⟨hc, hfree, ?_, fun e' he' => by cases he'⟩
      rcases htokens with h | h <;> simp [h]
  | fresh raw =>
    simp only [go, begin_]
    cases Request.ofRaw raw with
    | error refusal => exact ⟨hc, rfl, Nat.le_refl _, fun e' he' => by cases he'⟩
    | ok q =>
      have hmade := r.classifier.classify_classifies q (r.tokens.child parent).1
      dsimp only
      generalize r.classifier.classify q (r.tokens.child parent).1 = classified at hmade
      cases hmade with
      | refused => exact ⟨hc, rfl, Nat.le_succ _, fun e' he' => by cases he'⟩
      | @made call _ _ _ hk =>
        have henters := @Relay.enter_enters
          { r with
            tokens := (r.tokens.child parent).2
            classifier := { r.classifier with next := r.classifier.next + 1 } } rest hc call party now
        dsimp only
        generalize Relay.enter _ call party now = entered at henters
        cases henters with
        | pending hcall hfree htokens hc =>
          refine ⟨hc, hfree, ?_, fun e' he' => .inr ?_⟩
          · rw [htokens]
            exact Nat.le_succ _
          · cases he'
            rw [hcall, hk, htokens]
            exact ⟨rfl, Nat.lt_succ_self _⟩
        | ended hfree htokens hc =>
          refine ⟨hc, hfree, ?_, fun e' he' => by cases he'⟩
          rcases htokens with h | h <;> simp [h, Tokens.child]

end Slot

/-! ### Floors -/

namespace Exchange

/-- The calls that are under way. -/
def entries (x : Exchange) : List Entry := x.slots.filterMap Slot.entry?

/-- The request's token is under the one over all calls, and those of its calls are under its own. -/
structure Rooted (x : Exchange) : Prop where
  token : x.token.ancestors = Relay.calls.own :: Relay.calls.ancestors
  calls : ∀ e ∈ x.entries, e.call.token.ancestors = x.token.own :: x.token.ancestors

theorem Rooted.chain {x : Exchange} (h : x.Rooted) {n : Nat}
    (hn : n ∈ x.token.own :: x.token.ancestors) : n = x.token.own ∨ n = Relay.calls.own := by
  rw [h.token] at hn
  simpa [Relay.calls, Tokens.root] using hn

theorem Rooted.call_chain {x : Exchange} (h : x.Rooted) {e : Entry} (he : e ∈ x.entries) {n : Nat}
    (hn : n ∈ e.call.token.own :: e.call.token.ancestors) :
    n = e.call.token.own ∨ n = x.token.own ∨ n = Relay.calls.own := by
  rw [h.calls e he] at hn
  exact (List.mem_cons.mp hn).imp_right h.chain

/-- So it stays when a call goes on under its token, or a new one gets a token under the request's. -/
theorem Rooted.replaced {x : Exchange} {head tail : List Slot} {s s' : Slot}
    (h : Rooted { x with slots := head ++ s :: tail })
    (htoken : ∀ e' ∈ s'.entry?, (∃ e ∈ s.entry?, e'.call.token = e.call.token) ∨
      e'.call.token.ancestors = x.token.own :: x.token.ancestors) :
    Rooted { x with slots := head ++ s' :: tail } := by
  refine ⟨h.token, fun e' he' => ?_⟩
  obtain ⟨t, ht, hte⟩ := List.mem_filterMap.mp he'
  -- the calls of the other entries are the same
  have hother {t : Slot} {e : Entry} (ht : t ∈ head ++ s :: tail) (hte : t.entry? = some e) :
      e.call.token.ancestors = x.token.own :: x.token.ancestors :=
    h.calls e (List.mem_filterMap.mpr ⟨t, ht, hte⟩)
  rcases List.mem_append.mp ht with ht | ht
  · exact hother (List.mem_append_left _ ht) hte
  rcases List.mem_cons.mp ht with rfl | ht
  · rcases htoken e' hte with ⟨e, he, hsame⟩ | hunder
    · rw [hsame]
      exact hother (List.mem_append_right _ (List.mem_cons_self ..)) he
    · exact hunder
  · exact hother (List.mem_append_right _ (List.mem_cons_of_mem _ ht)) hte

@[simp] theorem entries_opened (token : Token) (p : Payload) : (opened token p).entries = [] := by
  rw [entries, opened, List.filterMap_map]
  exact List.filterMap_eq_nil_iff.mpr fun _ _ => rfl

theorem entries_finished {x : Exchange} (h : x.slots.all Slot.isFinished = true) : x.entries = [] := by
  refine List.filterMap_eq_nil_iff.mpr fun s hs => ?_
  have hfinished := List.all_eq_true.mp h s hs
  cases s with
  | finished => rfl
  | _ => cases hfinished

/-- Only the calls under way are given up. -/
theorem drop_eq (x : Exchange) (r : Relay) :
    x.drop r = leave x.token (x.entries.foldl Relay.drop r) := by
  have hslots (slots : List Slot) (r : Relay) :
      slots.foldl (fun r s => s.drop r) r = (slots.filterMap Slot.entry?).foldl Relay.drop r := by
    induction slots generalizing r with
    | nil => rfl
    | cons s rest ih =>
      cases s with
      | running id? e =>
        rw [List.foldl_cons, List.filterMap_cons_some (f := Slot.entry?) rfl, List.foldl_cons, ih]
        rfl
      | _ =>
        rw [List.foldl_cons, List.filterMap_cons_none (f := Slot.entry?) rfl, ih]
        rfl
  rw [drop, hslots, entries]

end Exchange

/-- A relay, and the requests that are in flight on it. -/
structure Floor where
  relay : Relay
  /-- Which dial has made which connection. -/
  made : List (Nat × Nat) := []
  exchanges : List Exchange := []

namespace Floor

/-- What can happen on a floor. -/
inductive Event where
  /-- A body comes in. -/
  | arrive (body : ByteArray)
  /-- An entry of a request is looked at, on behalf of a party. -/
  | look (request place party now : Nat)
  /-- A request is over. -/
  | finish (request : Nat)
  /-- The client of a request goes away. -/
  | hangUp (request : Nat)
  /-- A dial or a connection goes on. -/
  | act (a : Act)
  /-- All calls are cancelled, and those that come later. -/
  | stop
  /-- Whatever else there is changes. -/
  | beside (health : HealthState) (drains : List Drain) (metrics : Metrics) (warnings : List Warning)
      (due : List Due)

/-- A relay on which there has been no call. -/
def opened (longestFrame : Nat) (redirections : List Redirection) (limit : Nat)
    (classifier : Classifier) (router : Router) : Floor where
  relay := { hub := .ofRedirections longestFrame redirections, free := limit, classifier, router }

/-- The floor after an event, or nothing when it cannot happen now. -/
def step (g : Floor) : Event → Option Floor
  | .arrive body =>
    let token := (g.relay.tokens.child Relay.calls).1
    match Payload.parse body with
    | .error _ => some { g with relay := Exchange.leave token (Exchange.admitted g.relay) }
    | .ok p =>
      some { g with
        relay := Exchange.admitted g.relay
        exchanges := g.exchanges ++ [Exchange.opened token p] }
  | .look request place party now =>
    g.exchanges[request]?.bind fun x => x.slots[place]?.map fun s =>
      let (s, relay) := s.go g.relay x.token party now
      { g with relay, exchanges := g.exchanges.set request { x with slots := x.slots.set place s } }
  | .finish request =>
    g.exchanges[request]?.bind fun x =>
      if x.slots.all Slot.isFinished then
        some { g with
          relay := Exchange.leave x.token g.relay
          exchanges := g.exchanges.eraseIdx request }
      else none
  | .hangUp request =>
    g.exchanges[request]?.map fun x =>
      { g with relay := x.drop g.relay, exchanges := g.exchanges.eraseIdx request }
  | .act a =>
    if a.isOutside then
      (Course.step ⟨g.relay.hub, g.made, [], []⟩ a).map fun s =>
        { g with relay := { g.relay with hub := s.hub }, made := s.made }
    else none
  | .stop => some { g with relay := Life.cancelCalls g.relay }
  | .beside health drains metrics warnings due =>
    some { g with relay := { g.relay with
      hub := { g.relay.hub with metrics, warnings, due }
      controller := { g.relay.controller with health, drains } } }

def run (g : Floor) : List Event → Option Floor
  | [] => some g
  | a :: rest => (g.step a).bind fun g => g.run rest

theorem run_append {g g' : Floor} {as bs : List Event} (h : g.run as = some g') :
    g.run (as ++ bs) = g'.run bs := by
  induction as generalizing g with
  | nil =>
    cases h
    rfl
  | cons a rest ih =>
    obtain ⟨u, hu, hr⟩ := Option.bind_eq_some_iff.mp h
    rw [List.cons_append, run, hu]
    exact ih hr

/-- All calls that are under way. -/
def entries (g : Floor) : List Entry := g.exchanges.flatMap Exchange.entries

/-- The numbers of the tokens: that over all calls, those of the requests and those of the calls. -/
def numbers (g : Floor) : List Nat :=
  Relay.calls.own ::
    (g.exchanges.map (fun x => x.token.own) ++ g.entries.map fun e => e.call.token.own)

/-! ### What holds of every floor -/

/-- What holds of a floor, where there are so many permits. -/
structure Sound (limit : Nat) (g : Floor) : Prop where
  inFlight : g.relay.controller.inFlight = g.exchanges.length
  permits : g.relay.free + g.entries.length = limit
  carries : g.relay.hub.Carries (g.entries.map Entry.stage)
  orderly : Course.Orderly ⟨g.relay.hub, g.made, [], []⟩
  rooted : ∀ x ∈ g.exchanges, x.Rooted
  distinct : g.numbers.Nodup
  given : ∀ n ∈ g.numbers, n < g.relay.tokens.next

variable {limit : Nat} {g g' : Floor} {a : Event} {before after : List Exchange} {x : Exchange}

theorem sound_opened (longestFrame : Nat) (redirections : List Redirection) (limit : Nat)
    (classifier : Classifier) (router : Router) :
    Sound limit (opened longestFrame redirections limit classifier router) where
  inFlight := rfl
  permits := rfl
  carries := ⟨fun _ hc => (by cases hc), .nil, fun _ hk => (by cases hk), .nil,
    fun _ hs => (by cases hs), fun _ hd => (by cases hd)⟩
  orderly := Course.orderly_opened longestFrame redirections
  rooted _ hx := by cases hx
  distinct := List.nodup_singleton _
  given n hn := by
    cases List.mem_singleton.mp hn
    exact Nat.zero_lt_one

/-- Where the requests stay, and neither permits nor calls come or go. -/
theorem Sound.beside (hs : g.Sound limit) (hx : g'.exchanges = g.exchanges)
    (hin : g'.relay.controller.inFlight = g.relay.controller.inFlight)
    (hfree : g'.relay.free = g.relay.free) (hnext : g.relay.tokens.next ≤ g'.relay.tokens.next)
    (hc : g'.relay.hub.Carries (g.entries.map Entry.stage))
    (ho : Course.Orderly ⟨g'.relay.hub, g'.made, [], []⟩) : g'.Sound limit := by
  have hentries : g'.entries = g.entries := by rw [entries, hx, entries]
  have hnumbers : g'.numbers = g.numbers := by rw [numbers, hentries, hx, numbers]
  refine ⟨by rw [hin, hx, hs.inFlight], by rw [hfree, hentries, hs.permits], hentries ▸ hc, ho,
    hx ▸ hs.rooted, hnumbers ▸ hs.distinct, fun n hn => ?_⟩
  exact Nat.lt_of_lt_of_le (hs.given n (hnumbers ▸ hn)) hnext

/-- A request comes in. -/
theorem Sound.arrived (hs : g.Sound limit) (p : Payload) :
    Sound limit { g with
      relay := Exchange.admitted g.relay
      exchanges := g.exchanges ++ [Exchange.opened (g.relay.tokens.child Relay.calls).1 p] } := by
  have hentries : entries { g with
      relay := Exchange.admitted g.relay
      exchanges := g.exchanges ++ [Exchange.opened (g.relay.tokens.child Relay.calls).1 p] } =
        g.entries := by
    simp [entries]
  have hnumbers : (numbers { g with
      relay := Exchange.admitted g.relay
      exchanges := g.exchanges ++ [Exchange.opened (g.relay.tokens.child Relay.calls).1 p] }).Perm
        (g.relay.tokens.next :: g.numbers) := by
    simp only [numbers, hentries, List.map_append, List.append_assoc]
    exact @List.perm_middle _ _ (Relay.calls.own :: g.exchanges.map _) _
  refine ⟨?_, hentries ▸ hs.permits, hentries ▸ hs.carries.congr rfl rfl rfl, hs.orderly,
    fun x hx => ?_, ?_, fun n hn => ?_⟩
  · simp [Exchange.admitted, Controller.enter, hs.inFlight]
  · rcases List.mem_append.mp hx with hx | hx
    · exact hs.rooted x hx
    · cases List.mem_singleton.mp hx
      exact ⟨rfl, fun e he => by simp at he⟩
  · refine (hnumbers.nodup_iff).mpr (List.nodup_cons.mpr ⟨fun hmem => ?_, hs.distinct⟩)
    exact Nat.lt_irrefl _ (hs.given _ hmem)
  · rcases List.mem_cons.mp (hnumbers.mem_iff.mp hn) with rfl | hn
    · exact Nat.lt_succ_self _
    · exact Nat.lt_succ_of_lt (hs.given n hn)

/-! ### Looks -/

/-- Where one number takes the place of another, or comes in new, the numbers stay different. -/
theorem nodup_replace {p q : List Nat} {old? new? : Option Nat}
    (h : (p ++ (old?.toList ++ q)).Nodup)
    (hnew : ∀ n ∈ new?, n ∈ old? ∨ n ∉ p ++ (old?.toList ++ q)) : (p ++ (new?.toList ++ q)).Nodup := by
  have hrest : (p ++ q).Nodup :=
    h.sublist ((List.Sublist.refl p).append (List.sublist_append_right ..))
  cases new? with
  | none => exact hrest
  | some n =>
    rcases hnew n rfl with hold | hfresh
    · rw [show old? = some n from hold] at h
      exact h
    · refine List.nodup_middle.mpr (List.nodup_cons.mpr ⟨fun hmem => hfresh ?_, hrest⟩)
      rw [List.mem_append, List.mem_append]
      exact (List.mem_append.mp hmem).imp_right .inr

theorem lt_replace {p q : List Nat} {old? new? : Option Nat} {bound bound' : Nat}
    (h : ∀ n ∈ p ++ (old?.toList ++ q), n < bound) (hle : bound ≤ bound')
    (hnew : ∀ n ∈ new?, n ∈ old? ∨ n < bound') : ∀ n ∈ p ++ (new?.toList ++ q), n < bound' := by
  intro n hn
  simp only [List.mem_append, Option.mem_toList] at h hn
  rcases hn with hn | hn | hn
  · exact (h n (.inl hn)).trans_le hle
  · exact (hnew n hn).elim (fun hold => (h n (.inr (.inl hold))).trans_le hle) id
  · exact (h n (.inr (.inr hn))).trans_le hle

/-- The calls before and behind an entry, whatever has become of it. -/
theorem entries_at (before after : List Exchange) (x : Exchange) (head tail : List Slot) :
    ∃ p q, ∀ s : Slot, (before ++ { x with slots := head ++ s :: tail } :: after).flatMap
      Exchange.entries = p ++ (s.entry?.toList ++ q) := by
  refine ⟨before.flatMap Exchange.entries ++ head.filterMap Slot.entry?,
    tail.filterMap Slot.entry? ++ after.flatMap Exchange.entries, fun s => ?_⟩
  have hs : (s :: tail).filterMap Slot.entry? = s.entry?.toList ++ tail.filterMap Slot.entry? := by
    cases h : s.entry? with
    | none => exact List.filterMap_cons_none h
    | some e => exact List.filterMap_cons_some h
  simp only [List.flatMap_append, List.flatMap_cons, Exchange.entries, List.filterMap_append, hs,
    List.append_assoc]

theorem numbers_at {p q : List Entry} {e? : Option Entry} (h : g.entries = p ++ (e?.toList ++ q)) :
    g.numbers = (Relay.calls.own :: (g.exchanges.map (fun x => x.token.own) ++
      p.map fun e => e.call.token.own)) ++ ((e?.map fun e => e.call.token.own).toList ++
        q.map fun e => e.call.token.own) := by
  cases e? <;> simp [numbers, h]

/-- An entry is looked at. -/
theorem Sound.looked {head tail : List Slot} {s : Slot} (hs : g.Sound limit)
    (hx : g.exchanges = before ++ { x with slots := head ++ s :: tail } :: after)
    (party now : Nat) : Sound limit { g with
      relay := (s.go g.relay x.token party now).2
      exchanges := before ++
        { x with slots := head ++ (s.go g.relay x.token party now).1 :: tail } :: after } := by
  obtain ⟨p, q, hentries⟩ := entries_at before after x head tail
  have hold : g.entries = p ++ (s.entry?.toList ++ q) := by rw [entries, hx, hentries]
  have hperm (s' : Slot) : (p ++ (s'.entry?.toList ++ q)).Perm (s'.entry?.toList ++ (p ++ q)) :=
    List.perm_append_comm_assoc ..
  have hmap (s' : Slot) : (s'.entry?.toList ++ (p ++ q)).map Entry.stage =
      s'.entry?.toList.map Entry.stage ++ (p ++ q).map Entry.stage := List.map_append
  have hcarries : g.relay.hub.Carries
      (s.entry?.toList.map Entry.stage ++ (p ++ q).map Entry.stage) := by
    rw [← hmap]
    exact hs.carries.perm (hold ▸ (hperm s).map _)
  have hfares := Slot.go_fares hcarries x.token party now
  have hspares := (s.go_goes g.relay x.token party now).2
  have horderly : Course.Orderly ⟨(s.go g.relay x.token party now).2.hub, g.made, [], []⟩ :=
    Slot.go_kept (Course.orderly_kept g.made) hs.orderly s x.token
  generalize s.go g.relay x.token party now = went at hfares hspares horderly
  obtain ⟨s', r⟩ := went
  have hnew : entries { g with relay := r, exchanges := before ++
      { x with slots := head ++ s' :: tail } :: after } = p ++ (s'.entry?.toList ++ q) := hentries s'
  have htokens : (before ++ { x with slots := head ++ s' :: tail } :: after).map
      (fun x => x.token.own) = g.exchanges.map fun x => x.token.own := by
    simp [hx]
  have hwas := numbers_at hold
  have hnow := numbers_at hnew
  dsimp only at hfares hspares horderly hnow
  rw [htokens] at hnow
  constructor
  case inFlight =>
    rw [hspares.controller, hs.inFlight, hx]
    simp
  case permits =>
    have hpermits := hs.permits
    have hkept := hfares.permits
    rw [hnew]
    simp only [hold, List.length_append] at hpermits ⊢
    omega
  case carries =>
    refine hfares.hub.perm ?_
    rw [hnew, ← hmap]
    exact ((hperm s').map _).symm
  case orderly => exact horderly
  case rooted =>
    intro y hy
    rcases List.mem_append.mp hy with hy | hy
    · exact hs.rooted y (hx ▸ List.mem_append_left _ hy)
    rcases List.mem_cons.mp hy with rfl | hy
    · refine (hs.rooted _ (hx ▸ List.mem_append_right _ (List.mem_cons_self ..))).replaced
        fun e' he' => (hfares.token e' he').imp_right fun ⟨htoken, _⟩ => ?_
      rw [htoken]
      rfl
    · exact hs.rooted y (hx ▸ List.mem_append_right _ (List.mem_cons_of_mem _ hy))
  case distinct =>
    rw [hnow]
    refine nodup_replace (hwas ▸ hs.distinct) fun n hn => ?_
    obtain ⟨e', he', rfl⟩ := Option.map_eq_some_iff.mp hn
    rcases hfares.token e' he' with ⟨e, he, htoken⟩ | ⟨htoken, -⟩
    · exact .inl (Option.map_eq_some_iff.mpr ⟨e, he, by rw [htoken]⟩)
    · refine .inr fun hmem => Nat.lt_irrefl g.relay.tokens.next ?_
      rw [htoken] at hmem
      exact hs.given _ (hwas ▸ hmem)
  case given =>
    rw [hnow]
    refine lt_replace (hwas ▸ hs.given) hfares.next fun n hn => ?_
    obtain ⟨e', he', rfl⟩ := Option.map_eq_some_iff.mp hn
    rcases hfares.token e' he' with ⟨e, he, htoken⟩ | ⟨htoken, hlt⟩
    · exact .inl (Option.map_eq_some_iff.mpr ⟨e, he, by rw [htoken]⟩)
    · exact .inr (htoken ▸ hlt)

/-! ### Requests that go -/

theorem mem_around {α : Type} {before after : List α} {a b : α} (h : b ∈ before ++ after) :
    b ∈ before ++ a :: after :=
  (List.mem_append.mp h).elim (List.mem_append_left _) fun h =>
    List.mem_append_right _ (List.mem_cons_of_mem _ h)

/-- The client of a request goes away. -/
theorem Sound.dropped (hs : g.Sound limit) (hx : g.exchanges = before ++ x :: after) :
    Sound limit { g with relay := x.drop g.relay, exchanges := before ++ after } := by
  have hold : g.entries = before.flatMap Exchange.entries ++
      (x.entries ++ after.flatMap Exchange.entries) := by
    simp [entries, hx]
  have hnew : entries { g with relay := x.drop g.relay, exchanges := before ++ after } =
      before.flatMap Exchange.entries ++ after.flatMap Exchange.entries := List.flatMap_append
  have hperm : g.entries.Perm (x.entries ++
      (before.flatMap Exchange.entries ++ after.flatMap Exchange.entries)) :=
    hold ▸ List.perm_append_comm_assoc ..
  have hcarries : g.relay.hub.Carries (x.entries.map Entry.stage ++
      (before.flatMap Exchange.entries ++ after.flatMap Exchange.entries).map Entry.stage) := by
    rw [← List.map_append]
    exact hs.carries.perm (hperm.map _)
  obtain ⟨-, hrest, heq⟩ := Relay.drops_loses hcarries
  have horderly := Relay.drops_kept (Course.orderly_kept g.made) hs.orderly x.entries
  have hnumbers : (numbers { g with relay := x.drop g.relay, exchanges := before ++ after }).Sublist
      g.numbers := by
    simp only [numbers, hnew, hold, hx, List.map_append, List.map_cons]
    refine .cons_cons _
      (.append (.append (.refl _) (List.sublist_cons_self ..)) (.append (.refl _) ?_))
    exact List.sublist_append_right ..
  rw [Exchange.drop_eq] at hnew hnumbers ⊢
  rw [heq] at hnew hnumbers ⊢
  constructor
  case inFlight =>
    have hinFlight := hs.inFlight
    simp only [hx, List.length_append, List.length_cons] at hinFlight ⊢
    show (Controller.release _).inFlight = _
    rw [Controller.release_inFlight, hinFlight]
    omega
  case permits =>
    have hpermits := hs.permits
    rw [hnew]
    simp only [hold, List.length_append] at hpermits ⊢
    show g.relay.free + _ + _ = _
    omega
  case carries => exact hnew ▸ hrest
  case orderly => exact horderly
  case rooted => exact fun y hy => hs.rooted y (hx ▸ mem_around hy)
  case distinct => exact hs.distinct.sublist hnumbers
  case given =>
    intro n hn
    show n < (Tokens.cancel _ _).next
    rw [Tokens.next_cancel]
    exact hs.given n (hnumbers.subset hn)

/-! ### Every event -/

/-- What a list is around one of its places. -/
theorem exists_around {α : Type} {l : List α} {i : Nat} {b : α} (h : l[i]? = some b) :
    ∃ before after, l = before ++ b :: after ∧ before.length = i ∧
      l.eraseIdx i = before ++ after ∧ ∀ b', l.set i b' = before ++ b' :: after := by
  obtain ⟨hi, rfl⟩ := List.getElem?_eq_some_iff.mp h
  refine ⟨l.take i, l.drop (i + 1), ?_, List.length_take_of_le (Nat.le_of_lt hi),
    List.eraseIdx_eq_take_drop_succ .., fun b' => ?_⟩
  · rw [List.getElem_cons_drop, List.take_append_drop]
  · rw [List.set_eq_take_append_cons_drop, if_pos hi]

theorem Sound.step (hs : g.Sound limit) (h : g.step a = some g') : g'.Sound limit := by
  cases a with
  | arrive body =>
    simp only [Floor.step] at h
    split at h <;> cases h
    · refine hs.beside rfl ?_ rfl ?_ (hs.carries.congr rfl rfl rfl) hs.orderly
      · exact Controller.release_inFlight _
      · show _ ≤ (Tokens.cancel _ _).next
        rw [Tokens.next_cancel]
        exact Nat.le_succ _
    · exact hs.arrived _
  | look request place party now =>
    obtain ⟨x, hx, h⟩ := Option.bind_eq_some_iff.mp h
    obtain ⟨s, hslot, rfl⟩ := Option.map_eq_some_iff.mp h
    obtain ⟨before, after, hexchanges, -, -, hset⟩ := exists_around hx
    obtain ⟨head, tail, hslots, -, -, hplace⟩ := exists_around hslot
    rw [show x = { x with slots := head ++ s :: tail } by rw [← hslots]] at hexchanges
    dsimp only
    rw [hset, hplace]
    exact hs.looked hexchanges party now
  | finish request =>
    obtain ⟨x, hx, h⟩ := Option.bind_eq_some_iff.mp h
    split at h <;> cases h
    rename_i hfinished
    obtain ⟨before, after, hexchanges, -, herase, -⟩ := exists_around hx
    have hdropped := hs.dropped hexchanges
    rw [Exchange.drop_eq, Exchange.entries_finished hfinished] at hdropped
    rw [herase]
    exact hdropped
  | hangUp request =>
    obtain ⟨x, hx, rfl⟩ := Option.map_eq_some_iff.mp h
    obtain ⟨before, after, hexchanges, -, herase, -⟩ := exists_around hx
    rw [herase]
    exact hs.dropped hexchanges
  | act a =>
    simp only [Floor.step] at h
    split at h
    · rename_i ha
      obtain ⟨s, hstep, rfl⟩ := Option.map_eq_some_iff.mp h
      exact hs.beside rfl rfl rfl (Nat.le_refl _) (Hub.Carries.act hs.carries ha hstep)
        (hs.orderly.act hstep)
    · cases h
  | stop =>
    cases h
    refine hs.beside rfl rfl rfl ?_ hs.carries hs.orderly
    exact Nat.le_of_eq (Tokens.next_cancel ..).symm
  | beside health drains metrics warnings due =>
    cases h
    exact hs.beside rfl rfl rfl (Nat.le_refl _) (hs.carries.congr rfl rfl rfl)
      (hs.orderly.steady ⟨rfl, rfl, rfl, .of_eq rfl⟩)

/-- **What holds of the floor at first, holds of it whatever happens.** -/
theorem Sound.run {events : List Event} (hs : g.Sound limit) (h : g.run events = some g') :
    g'.Sound limit := by
  induction events generalizing g with
  | nil =>
    cases h
    exact hs
  | cons a rest ih =>
    obtain ⟨u, hu, hr⟩ := Option.bind_eq_some_iff.mp h
    exact ih (hs.step hu) hr

/-! ### Whole requests -/

/-- The entries of a request are looked at one after the other. -/
theorem run_goAll (hx : g.exchanges = before ++ x :: after) (party now : Nat) {head : List Slot}
    (slots : List Slot) (hslots : x.slots = head ++ slots) :
    ∃ events, g.run events = some { g with
      relay := (Slot.goAll g.relay x.token party now slots).2
      exchanges := before ++
        { x with slots := head ++ (Slot.goAll g.relay x.token party now slots).1 } :: after } := by
  induction slots generalizing g x head with
  | nil =>
    refine ⟨[], ?_⟩
    simp only [Slot.goAll, ← hslots, ← hx]
    rfl
  | cons s rest ih =>
    generalize hwent : s.go g.relay x.token party now = went at *
    obtain ⟨s', r⟩ := went
    have hstep : g.step (.look before.length head.length party now) = some { g with
        relay := r, exchanges := before ++ { x with slots := head ++ s' :: rest } :: after } := by
      simp [step, hx, hslots, hwent]
    have hmoved : ({ x with slots := head ++ s' :: rest } : Exchange).slots =
        (head ++ [s']) ++ rest := by
      simp
    obtain ⟨events, hrun⟩ := @ih { g with
      relay := r
      exchanges := before ++ { x with slots := head ++ s' :: rest } :: after } _ rfl _ hmoved
    refine ⟨.look before.length head.length party now :: events, ?_⟩
    rw [run, hstep, Option.bind_some, hrun]
    simp [Slot.goAll, hwent]

/-- **A look at a request is a run.** -/
theorem run_go (hx : g.exchanges = before ++ x :: after) (party now : Nat) :
    ∃ events g', g.run events = some g' ∧ g'.relay = (x.go g.relay party now).2 ∧
      g'.made = g.made ∧ g'.exchanges = match (x.go g.relay party now).1 with
        | .pending x' => before ++ x' :: after
        | .ended _ => before ++ after := by
  obtain ⟨events, hrun⟩ := run_goAll hx party now x.slots (List.nil_append _).symm
  have hgoes := x.go_goes g.relay party now
  generalize x.go g.relay party now = went at hgoes
  cases hgoes with
  | pending => exact ⟨events, _, hrun, rfl, rfl, rfl⟩
  | ended hall =>
    refine ⟨events ++ [.finish before.length], { g with
      relay := Exchange.leave x.token (Slot.goAll g.relay x.token party now x.slots).2
      exchanges := before ++ after }, (run_append hrun).trans ?_, rfl, rfl, rfl⟩
    have herase (y : Exchange) : (before ++ y :: after).eraseIdx before.length = before ++ after := by
      simp [List.eraseIdx_append_of_length_le]
    simpa [run, step, herase] using hall

/-- **So is the arrival of a body, with the first look at it.** -/
theorem run_begin (g : Floor) (body : ByteArray) (party now : Nat) :
    ∃ events g', g.run events = some g' ∧
      g'.relay = (Exchange.begin_ body g.relay party now).2 ∧ g'.made = g.made ∧
      g'.exchanges = match (Exchange.begin_ body g.relay party now).1 with
        | .pending x' => g.exchanges ++ [x']
        | .ended _ => g.exchanges := by
  cases hbody : Payload.parse body with
  | error e =>
    have hrun : g.run [.arrive body] = some { g with
        relay := Exchange.leave (g.relay.tokens.child Relay.calls).1 (Exchange.admitted g.relay) } := by
      simp only [run, step, hbody, Option.bind_some]
    refine ⟨[.arrive body], _, hrun, ?_, rfl, ?_⟩ <;> rw [Exchange.begin_, hbody]
    rfl
  | ok p =>
    have harrive : g.step (.arrive body) = some { g with
        relay := Exchange.admitted g.relay
        exchanges := g.exchanges ++ [Exchange.opened (g.relay.tokens.child Relay.calls).1 p] } := by
      simp only [step, hbody]
    obtain ⟨events, g', hrun, hrelay, hmade, hexchanges⟩ := @run_go { g with
        relay := Exchange.admitted g.relay
        exchanges := g.exchanges ++ [Exchange.opened (g.relay.tokens.child Relay.calls).1 p] }
      g.exchanges [] _ rfl party now
    refine ⟨.arrive body :: events, g', ?_, ?_, hmade, ?_⟩
    · rw [run, harrive]
      exact hrun
    · rw [hrelay, Exchange.begin_eq hbody]
    · rw [hexchanges, Exchange.begin_eq hbody]
      simp only [List.append_nil]

end Floor
end Switchboard
