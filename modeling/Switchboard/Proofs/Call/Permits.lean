import Switchboard.Proofs.Call.Labels

/-! The permits of the pipeline.

Making a call and looking at it are two things: the permit is taken when the call is made
(`Relay.grant`), and what the call is for is begun at the first look (`Relay.start`). A call that
comes in is both at once (`Relay.enter_eq`). In between, and at any later time, the call may be
given up.

A *gate* is a relay with any number of handles on its pipeline and a ticket for every call that was
made through one of them. `permits_balanced`: in any order of calls made, looked at and given up,
the free permits and the live calls together are as many as there were permits at first; a call is
turned away exactly when all of them are out, and comes to nothing but a count; and every permit
that was taken comes back once, when its call is over. -/
namespace Switchboard
open Redirect

/-! ### Making a call, and looking at it first -/

namespace Relay

/-- A call is made: it takes a permit if there is one. -/
def grant (r : Relay) : Bool × Relay :=
  match takePermit r.free with
  | none => (false, r)
  | some free => (true, { r with free })

/-- The first look at a call that has a permit. -/
def start (r : Relay) (c : Call) (party now : Nat) : Entry.Progress × Relay :=
  if r.tokens.isCancelled c.token then
    (.ended (.error .cancelled), { r with free := r.free + 1 }.observed c (.error .cancelled))
  else r.go ⟨c, now + c.timeoutMs, r.serve c now⟩ party now

/-- The first look at a call that has none. -/
def turnAway (r : Relay) (c : Call) : Entry.Progress × Relay :=
  (.ended (.error .overloaded), r.observed c (.error .overloaded))

theorem grant_none {r : Relay} (h : r.free = 0) : r.grant = (false, r) := by
  simp [grant, takePermit, h]

theorem grant_some {r : Relay} (h : r.free ≠ 0) :
    r.grant = (true, { r with free := r.free - 1 }) := by
  simp [grant, takePermit, h]

/-- **A call that comes in is made, and looked at for the first time.** -/
theorem enter_eq (r : Relay) (c : Call) (party now : Nat) :
    r.enter c party now =
      if r.grant.1 then r.grant.2.start c party now else r.grant.2.turnAway c := by
  unfold enter
  by_cases hfree : r.free = 0
  · simp [grant_none hfree, takePermit, hfree, turnAway]
  · have hback : r.free - 1 + 1 = r.free := by omega
    by_cases hcancelled : r.tokens.isCancelled c.token = true
    · simp [grant_some hfree, takePermit, hfree, start, hcancelled, hback]
    · simp [grant_some hfree, takePermit, hfree, start, hcancelled, serve]

/-! ### What a look does to the permits -/

@[simp] theorem observed_free (r : Relay) (c : Call) (a : Answer) :
    (r.observed c a).free = r.free := by
  unfold observed
  split <;> rfl

@[simp] theorem dropService_free (r : Relay) (s : Service) : (r.dropService s).free = r.free := by
  cases s <;> rfl

@[simp] theorem drop_free (r : Relay) (e : Entry) : (r.drop e).free = r.free + 1 := by
  rfl

end Relay

/-- The service does not answer that there is no permit. -/
def Service.Frank : Service → Prop
  | .forwarding _ => True
  | .replying _ a => a ≠ .error .overloaded

theorem CallError.ofForward_ne_overloaded (e : ForwardError) : ofForward e ≠ .overloaded := by
  cases e <;> simp [ofForward]

/-- A handler answers, or refuses the arguments. -/
theorem Router.answer_error {h : Handler} {c : Call} {e : CallError}
    (he : (Router.answer h c).1 = .error e) :
    (∃ detail, e = .invalidParams detail) ∨ ∃ o, e = .answered o := by
  unfold Router.answer at he
  split at he
  · cases he
    exact .inl ⟨_, rfl⟩
  · dsimp only at he
    split at he <;> cases he
    exact .inr ⟨_, rfl⟩

theorem Router.answer_ne_overloaded (h : Handler) (c : Call) :
    (Router.answer h c).1 ≠ .error .overloaded := fun he => by
  rcases Router.answer_error he with ⟨_, h⟩ | ⟨_, h⟩ <;> cases h

namespace Relay
variable {r : Relay} {c : Call} {e : Entry}

theorem serve_frank (r : Relay) (c : Call) (now : Nat) : (r.serve c now).Frank := by
  unfold serve
  split
  · split <;> simp [Service.Frank]
  · exact Router.answer_ne_overloaded _ c
  · simp [Service.Frank]

/-- A look at a call that holds a permit: it goes on with it, or ends and gives it back. -/
inductive Spends (r : Relay) : Entry.Progress × Relay → Prop
  | pending {e : Entry} {r' : Relay} (he : e.service.Frank) (hf : r'.free = r.free) :
      Spends r (.pending e, r')
  | ended {a : Answer} {r' : Relay} (ha : a ≠ .error .overloaded) (hf : r'.free = r.free + 1) :
      Spends r (.ended a, r')

/-- What the service does for a call takes no permit. -/
theorem answer?_frank (he : e.service.Frank) (party now : Nat) :
    (∀ a ∈ (r.answer? e party now).1, a ≠ .error .overloaded) ∧
      (r.answer? e party now).2.1.service.Frank ∧
      (r.answer? e party now).2.2.free = r.free := by
  unfold answer?
  split
  · rename_i readyAt result hs
    rw [hs] at he
    refine ⟨fun a ha => ?_, hs ▸ he, rfl⟩
    split at ha
    · cases ha
      exact he
    · cases ha
  · rename_i f hs
    split
    · refine ⟨fun a ha => ?_, he, rfl⟩
      cases ha
      simp
    · refine ⟨fun a ha => ?_, he, rfl⟩
      cases ha
      simpa using CallError.ofForward_ne_overloaded _
    · refine ⟨fun a ha => ?_, trivial, rfl⟩
      cases ha

theorem go_spends (he : e.service.Frank) (party now : Nat) : r.Spends (r.go e party now) := by
  have hanswer := @answer?_frank r e he party now
  unfold go
  generalize r.answer? e party now = answered at hanswer
  obtain ⟨answer?, e', r'⟩ := answered
  obtain ⟨hfrank, he', hfree⟩ := hanswer
  dsimp only at hfrank he' hfree ⊢
  split
  · exact .pending he' hfree
  · rename_i a ha
    refine .ended ?_ ?_
    · cases answer? with
      | some b =>
        cases ha
        exact hfrank _ rfl
      | none =>
        simp only [decide?] at ha
        split at ha
        · cases ha
          simp
        · split at ha <;> cases ha
          simp
    · rw [observed_free, ← hfree]
      split <;> simp

theorem start_spends (r : Relay) (c : Call) (party now : Nat) :
    r.Spends (r.start c party now) := by
  unfold start
  split
  · exact .ended (by simp) (by simp)
  · exact go_spends (r.serve_frank c now) party now

end Relay

/-! ### Tickets -/

/-- How far a call has come that was made. -/
inductive Phase where
  /-- Not looked at yet. -/
  | made
  | under (e : Entry)
  | answered (a : Answer)
  | dropped

namespace Phase

def ofProgress : Entry.Progress → Phase
  | .pending e => .under e
  | .ended a => .answered a

def isOver : Phase → Bool
  | .made | .under _ => false
  | .answered _ | .dropped => true

@[simp] theorem isOver_made : made.isOver = false := rfl

@[simp] theorem isOver_under (e : Entry) : (under e).isOver = false := rfl

@[simp] theorem isOver_answered (a : Answer) : (answered a).isOver = true := rfl

@[simp] theorem isOver_dropped : dropped.isOver = true := rfl

end Phase

structure Ticket where
  call : Call
  /-- It got a permit. -/
  admitted : Bool
  /-- How many calls were live when it was made. -/
  liveBefore : Nat
  phase : Phase := .made
  /-- How many permits have come back from it. -/
  returned : Nat := 0

/-- What can be done with a call that was made. -/
inductive Touch where
  | look (party now : Nat)
  | drop

namespace Ticket

/-- It holds a permit. -/
def isLive (k : Ticket) : Bool := k.admitted && !k.phase.isOver

/-- How far the call has come then, or nothing when it cannot be touched any more. One that has
been answered may still be dropped. -/
def touch (k : Ticket) (r : Relay) : Touch → Option (Phase × Relay)
  | .look party now =>
    match k.phase with
    | .made =>
      let (progress, r) := if k.admitted then r.start k.call party now else r.turnAway k.call
      some (.ofProgress progress, r)
    | .under e =>
      let (progress, r) := r.go e party now
      some (.ofProgress progress, r)
    | .answered _ | .dropped => none
  | .drop =>
    match k.phase with
    | .made => some (.dropped, if k.admitted then { r with free := r.free + 1 } else r)
    | .under e => some (.dropped, r.drop e)
    | .answered a => some (.answered a, r)
    | .dropped => none

/-- The ticket afterwards: what has come back is seen from the relay. -/
def moved (k : Ticket) (phase : Phase) (r r' : Relay) : Ticket :=
  { k with phase, returned := k.returned + (r'.free - r.free) }

/-- What holds of every ticket, where there were so many permits at first. -/
structure Sound (limit : Nat) (k : Ticket) : Prop where
  admitted : k.admitted = false ↔ k.liveBefore = limit
  under : ∀ e, k.phase = .under e → k.admitted = true ∧ e.service.Frank
  answered : ∀ a, k.phase = .answered a → (a = .error .overloaded ↔ k.admitted = false)
  returned : k.returned = if k.admitted && k.phase.isOver then 1 else 0

variable {limit : Nat} {k : Ticket} {r r' : Relay} {t : Touch} {phase : Phase}

@[simp] theorem moved_isLive (k : Ticket) (phase : Phase) (r r' : Relay) :
    (k.moved phase r r').isLive = (k.admitted && !phase.isOver) := rfl

/-- Once over it stays as it is. -/
theorem Sound.rests (h : k.Sound limit) (hfree : r'.free = r.free) (hover : k.phase = phase) :
    (k.moved phase r r').Sound limit ∧
      r'.free + (k.moved phase r r').isLive.toNat = r.free + k.isLive.toNat := by
  have hmoved : k.moved phase r r' = k := by simp [moved, hfree, ← hover]
  rw [hmoved, hfree]
  exact ⟨h, rfl⟩

/-- A ticket that is not over becomes one that is under way, with its permit, or over, without. -/
theorem Sound.spends (h : k.Sound limit) (hk : k.admitted = true) (hover : k.phase.isOver = false)
    {p : Entry.Progress × Relay} (hp : r.Spends p) :
    (k.moved (.ofProgress p.1) r p.2).Sound limit ∧
      p.2.free + (k.moved (.ofProgress p.1) r p.2).isLive.toNat = r.free + k.isLive.toNat := by
  have hreturned : k.returned = 0 := by simp [h.returned, hover]
  have hlive : k.isLive = true := by simp [isLive, hk, hover]
  cases hp with
  | @pending e r' he hf =>
    refine ⟨⟨h.admitted, fun e' he' => ?_, fun a ha => (by cases ha), ?_⟩, ?_⟩
    · cases he'
      exact ⟨hk, he⟩
    · simp [moved, Phase.ofProgress, hf, hreturned]
    · simp [Phase.ofProgress, hf, hk, hlive]
  | @ended a r' ha hf =>
    refine ⟨⟨h.admitted, fun e he => (by cases he), fun a' ha' => ?_, ?_⟩, ?_⟩
    · cases ha'
      simp [moved, ha, hk]
    · simp [moved, Phase.ofProgress, hf, hreturned, hk]
    · simp [Phase.ofProgress, hf, hlive]

/-- A ticket that is not over is given up, with its permit if it has one. -/
theorem Sound.dropped (h : k.Sound limit) (hover : k.phase.isOver = false)
    (hfree : r'.free = r.free + k.admitted.toNat) :
    (k.moved .dropped r r').Sound limit ∧
      r'.free + (k.moved .dropped r r').isLive.toNat = r.free + k.isLive.toNat := by
  have hreturned : k.returned = 0 := by simp [h.returned, hover]
  refine ⟨⟨h.admitted, fun e he => (by cases he), fun a ha => (by cases ha), ?_⟩, ?_⟩
  · cases hk : k.admitted <;> simp [moved, hfree, hreturned, hk]
  · rw [moved_isLive]
    simp [isLive, hfree, hover]

/-- One that got no permit has been answered at the first look, and had none to give back. -/
theorem Sound.turned_away (h : k.Sound limit) (hk : k.admitted = false)
    (hfree : r'.free = r.free) :
    (k.moved (.answered (.error .overloaded)) r r').Sound limit ∧
      r'.free + (k.moved (.answered (.error .overloaded)) r r').isLive.toNat =
        r.free + k.isLive.toNat := by
  have hreturned : k.returned = 0 := by simp [h.returned, hk]
  refine ⟨⟨h.admitted, fun e he => (by cases he), fun a ha => ?_, ?_⟩, ?_⟩
  · cases ha
    simp [moved, hk]
  · simp [moved, hfree, hreturned, hk]
  · rw [moved_isLive]
    simp [isLive, hfree, hk]

/-- **Whatever is done with a call, it has its permit as long as it is live.** -/
theorem Sound.touched (h : k.Sound limit) (ht : k.touch r t = some (phase, r')) :
    (k.moved phase r r').Sound limit ∧
      r'.free + (k.moved phase r r').isLive.toNat = r.free + k.isLive.toNat := by
  cases t with
  | look party now =>
    simp only [touch] at ht
    split at ht
    · rename_i hphase
      have hover : k.phase.isOver = false := by rw [hphase]; rfl
      cases ht
      cases hk : k.admitted
      · exact h.turned_away hk (by simp [Relay.turnAway])
      · exact h.spends hk hover (r.start_spends k.call party now)
    · rename_i e hphase
      have hover : k.phase.isOver = false := by rw [hphase]; rfl
      obtain ⟨hk, he⟩ := h.under e hphase
      cases ht
      exact h.spends hk hover (Relay.go_spends he party now)
    · cases ht
    · cases ht
  | drop =>
    simp only [touch] at ht
    split at ht
    · rename_i hphase
      cases ht
      refine h.dropped (by rw [hphase]; rfl) ?_
      cases k.admitted <;> rfl
    · rename_i e hphase
      cases ht
      refine h.dropped (by rw [hphase]; rfl) ?_
      simp [(h.under e hphase).1]
    · rename_i a hphase
      cases ht
      exact h.rests rfl hphase
    · cases ht

/-- A call without a permit is never served: it ends at the first look, and is counted. -/
theorem Sound.refused (h : k.Sound limit) (hk : k.admitted = false)
    (ht : k.touch r t = some (phase, r')) :
    (phase = .dropped ∨ phase = .answered (.error .overloaded)) ∧
      (r' = r ∨ r' = r.observed k.call (.error .overloaded)) := by
  have hunder (e : Entry) : k.phase ≠ .under e := fun he =>
    absurd (h.under e he).1 (by simp [hk])
  cases t with
  | look party now =>
    simp only [touch] at ht
    split at ht
    · rw [hk] at ht
      cases ht
      exact ⟨.inr rfl, .inr rfl⟩
    · rename_i e hphase
      exact absurd hphase (hunder e)
    · cases ht
    · cases ht
  | drop =>
    simp only [touch] at ht
    split at ht
    · rw [hk] at ht
      cases ht
      exact ⟨.inl rfl, .inl rfl⟩
    · rename_i e hphase
      exact absurd hphase (hunder e)
    · rename_i a hphase
      cases ht
      exact ⟨.inr (by rw [(h.answered a hphase).mpr hk]), .inl rfl⟩
    · cases ht

end Ticket

/-! ### Gates -/

/-- A relay with the handles on its pipeline, and every call that was made through one of them. -/
structure Gate where
  relay : Relay
  handles : Nat := 1
  tickets : List Ticket := []

namespace Gate

/-- What can happen at a gate. -/
inductive Event where
  /-- Another handle is made from one. -/
  | clone (handle : Nat)
  | call (handle : Nat) (call : Call)
  /-- Something is done with a call, given by its place. -/
  | touch (place : Nat) (t : Touch)
  /-- Whatever else changes. -/
  | goOn (hub : Hub) (tokens : Tokens) (controller : Controller) (classifier : Classifier)

def opened (relay : Relay) : Gate := { relay }

/-- How many calls hold a permit. -/
def live (g : Gate) : Nat := g.tickets.countP Ticket.isLive

/-- The gate after an event, or nothing when there is no such handle or no such call. -/
def step (g : Gate) : Event → Option Gate
  | .clone handle => if handle < g.handles then some { g with handles := g.handles + 1 } else none
  | .call handle call =>
    if handle < g.handles then
      let (admitted, relay) := g.relay.grant
      some { g with relay, tickets := g.tickets ++ [{ call, admitted, liveBefore := g.live }] }
    else none
  | .touch place t =>
    g.tickets[place]?.bind fun k => (k.touch g.relay t).map fun (phase, relay) =>
      { g with relay, tickets := g.tickets.set place (k.moved phase g.relay relay) }
  | .goOn hub tokens controller classifier =>
    some { g with relay := { g.relay with hub, tokens, controller, classifier } }

def run (g : Gate) : List Event → Option Gate
  | [] => some g
  | a :: rest => (g.step a).bind fun g => g.run rest

/-- What holds at every gate where there were so many permits at first. -/
structure Balanced (limit : Nat) (g : Gate) : Prop where
  balance : g.relay.free + g.live = limit
  sound : ∀ k ∈ g.tickets, k.Sound limit

variable {limit : Nat} {g g' : Gate} {a : Event}

theorem balanced_opened (relay : Relay) : Balanced relay.free (opened relay) where
  balance := rfl
  sound _ hk := by cases hk

theorem Balanced.called (hb : g.Balanced limit) (call : Call) :
    Balanced limit { g with
      relay := g.relay.grant.2
      tickets := g.tickets ++ [{ call, admitted := g.relay.grant.1, liveBefore := g.live }] } := by
  have hbalance := hb.balance
  by_cases hfree : g.relay.free = 0
  · rw [Relay.grant_none hfree]
    refine ⟨by simpa [live, Ticket.isLive, List.countP_append] using hbalance, fun k hk => ?_⟩
    rcases List.mem_append.mp hk with hk | hk
    · exact hb.sound k hk
    · rw [List.mem_singleton.mp hk]
      exact ⟨by simp only [true_iff]; omega, fun _ he => (by cases he), fun _ ha => (by cases ha),
        rfl⟩
  · rw [Relay.grant_some hfree]
    refine ⟨?_, fun k hk => ?_⟩
    · simp only [live, List.countP_append] at hbalance ⊢
      simp only [Ticket.isLive, List.countP_singleton, Phase.isOver_made, Bool.not_false,
        Bool.and_true, if_pos]
      omega
    · rcases List.mem_append.mp hk with hk | hk
      · exact hb.sound k hk
      · rw [List.mem_singleton.mp hk]
        exact ⟨by simp only [Bool.true_eq_false, false_iff]; omega, fun _ he => (by cases he),
          fun _ ha => (by cases ha), rfl⟩

/-- Where one ticket changes, the live ones change by that one. -/
theorem live_set (g : Gate) {place : Nat} (hplace : place < g.tickets.length) (k : Ticket)
    (relay : Relay) :
    live { g with relay, tickets := g.tickets.set place k } + g.tickets[place].isLive.toNat =
      g.live + k.isLive.toNat := by
  have hcounted : g.tickets[place].isLive.toNat ≤ g.live := by
    cases hlive : g.tickets[place].isLive
    · exact Nat.zero_le _
    · exact List.countP_pos_iff.mpr ⟨_, List.getElem_mem hplace, hlive⟩
  have htoNat (b : Bool) : b.toNat = if b = true then 1 else 0 := by cases b <;> rfl
  simp only [live, List.countP_set hplace, htoNat] at hcounted ⊢
  omega

theorem Balanced.step (hb : g.Balanced limit) (h : g.step a = some g') : g'.Balanced limit := by
  cases a with
  | clone handle =>
    simp only [Gate.step] at h
    split at h <;> cases h
    exact ⟨hb.balance, hb.sound⟩
  | call handle call =>
    simp only [Gate.step] at h
    split at h <;> cases h
    exact hb.called call
  | touch place t =>
    obtain ⟨k, hk, h⟩ := Option.bind_eq_some_iff.mp h
    obtain ⟨⟨phase, relay⟩, ht, rfl⟩ := Option.map_eq_some_iff.mp h
    obtain ⟨hplace, rfl⟩ := List.getElem?_eq_some_iff.mp hk
    have hmem : g.tickets[place] ∈ g.tickets := List.getElem_mem hplace
    obtain ⟨hsound, hkept⟩ := (hb.sound _ hmem).touched ht
    refine ⟨?_, fun k' hk' => ?_⟩
    · have hbalance := hb.balance
      have hlive := g.live_set hplace (g.tickets[place].moved phase g.relay relay) relay
      dsimp only at hlive ⊢
      omega
    · rcases List.mem_or_eq_of_mem_set hk' with hk' | rfl
      · exact hb.sound k' hk'
      · exact hsound
  | goOn hub tokens controller classifier =>
    cases h
    exact ⟨hb.balance, hb.sound⟩

theorem Balanced.run {events : List Event} (hb : g.Balanced limit) (h : g.run events = some g') :
    g'.Balanced limit := by
  induction events generalizing g with
  | nil =>
    cases h
    exact hb
  | cons a rest ih =>
    obtain ⟨u, hu, hr⟩ := Option.bind_eq_some_iff.mp h
    exact ih (hb.step hu) hr

/-! ### Balance -/

/-- **The permits balance.** Through however many handles calls are made, and in whatever order
they are made, looked at and given up, before the first look, midway or when they are over, the
free permits and the calls that hold one are together as many as there were free permits at first.
A call gets no permit, and is answered that there is none, exactly when that many calls were live
as it was made; it is never served, and nothing comes of it but that it is counted. The permit that
a call was given has come back once if the call is over, and not yet if it is not. -/
theorem permits_balanced {relay : Relay} {events : List Event}
    (h : (opened relay).run events = some g) :
    g.relay.free + g.live = relay.free ∧
    (∀ k ∈ g.tickets, (k.admitted = false ↔ k.liveBefore = relay.free) ∧
      (∀ a, k.phase = .answered a → (a = .error .overloaded ↔ k.liveBefore = relay.free)) ∧
      (k.liveBefore = relay.free → (∀ e, k.phase ≠ .under e) ∧
        ∀ t phase r, k.touch g.relay t = some (phase, r) →
          (phase = .dropped ∨ phase = .answered (.error .overloaded)) ∧
          (r = g.relay ∨ r = g.relay.observed k.call (.error .overloaded))) ∧
      k.returned = if k.admitted && k.phase.isOver then 1 else 0) ∧
    ∀ call party now, (g.relay.enter call party now).1 = .ended (.error .overloaded) ↔
      g.live = relay.free := by
  have hb := (balanced_opened relay).run h
  have hbalance := hb.balance
  refine ⟨hbalance, fun k hk => ?_, fun call party now => ?_⟩
  · have hsound := hb.sound k hk
    refine ⟨hsound.admitted, fun a ha => (hsound.answered a ha).trans hsound.admitted,
      fun hfull => ?_, hsound.returned⟩
    have hadmitted := hsound.admitted.mpr hfull
    exact ⟨fun e he => absurd (hsound.under e he).1 (by simp [hadmitted]),
      fun t phase r ht => hsound.refused hadmitted ht⟩
  · rw [Relay.enter_eq]
    by_cases hfree : g.relay.free = 0
    · rw [Relay.grant_none hfree]
      simp only [Bool.false_eq_true, if_false, Relay.turnAway, true_iff]
      omega
    · rw [Relay.grant_some hfree, if_pos rfl]
      refine ⟨fun hover => ?_, fun hfull => absurd hbalance (by omega)⟩
      have hspends := Relay.start_spends { g.relay with free := g.relay.free - 1 } call party now
      dsimp only at hover
      generalize Relay.start _ call party now = p at hspends hover
      cases hspends with
      | pending he hf => cases hover
      | ended ha hf =>
        cases hover
        exact absurd rfl ha

/-- While a call has the permit another is turned away; then a third gets it and gives it back
unseen, and the first is dropped at last. -/
def overlapping : List Event := [
  .clone 0, .call 0 (Traffic.asking "sleeper" 1), .touch 0 (.look 0 0),
  .call 1 (Traffic.asking "sleeper" 2), .touch 1 (.look 0 10), .touch 0 (.look 0 50),
  .call 1 (Traffic.asking "sleeper" 3), .touch 2 .drop, .touch 0 .drop]

/-- One permit and two handles. -/
theorem permits_balanced_one :
    ∃ relay g, Relay.ofConfig { maxConcurrentCalls := 1 } [Traffic.sleeper] = .ok relay ∧
      (opened relay).run overlapping = some g ∧
      g.tickets.map Ticket.liveBefore = [0, 1, 0] ∧ g.tickets.map Ticket.returned = [1, 0, 1] ∧
      g.relay.free + g.live = 1 := by
  obtain ⟨relay, hrelay, hfree⟩ : ∃ relay,
      Relay.ofConfig { maxConcurrentCalls := 1 } [Traffic.sleeper] = .ok relay ∧ relay.free = 1 :=
    ⟨_, rfl, rfl⟩
  obtain ⟨g, hrun, hbefore, hreturned⟩ : ∃ g, (opened relay).run overlapping = some g ∧
      g.tickets.map Ticket.liveBefore = [0, 1, 0] ∧
      g.tickets.map Ticket.returned = [1, 0, 1] := by
    cases hrelay
    exact ⟨_, rfl, rfl, rfl⟩
  exact ⟨relay, g, hrelay, hrun, hbefore, hreturned, hfree ▸ (permits_balanced hrun).1⟩

end Gate
end Switchboard
