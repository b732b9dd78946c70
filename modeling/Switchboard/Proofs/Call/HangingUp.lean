import Switchboard.Proofs.Call.Floor

/-! Clients that go away.

When the client of a request goes away, whatever its calls are about, the request is in flight no
more and its calls are given up: what they held is free again, and everything that is not theirs
stays as it is (`Floor.Vanishes`). A dial that one of them has begun goes on, and whoever wants the
connection later waits for it. -/
namespace Switchboard
open Json Redirect

/-! ### Dials that go on -/

namespace Redirect.Hub
variable {h h' : Hub} {stages : List Forwarding.Stage} {i d : Nat}

theorem Loses.fates (hl : Loses stages h h') : h'.fates = h.fates := by
  have hbare (h : Hub) : h.fates = (h.dials.map Dial.bare).map fun d => (d.manager, d.outcome?) := by
    rw [List.map_map]
    rfl
  rw [hbare, hl.dials, ← hbare]

/-- Whoever wants the connection of a manager that has a dial under way waits for that dial. -/
theorem ask_joins (hs : h.state? i = some (.dialing d)) (hf : h.Flies i d) (party now : Nat) :
    ∃ place, (h.ask i party now).1 = .waits d place := by
  obtain ⟨m, hm, hstate⟩ := Option.map_eq_some_iff.mp hs
  have hask : m.ask h.isClosed h.dials.length = (.joins d, m) := by
    simp only [Manager.ask, hstate]
  rw [Flies, Hub.fates, List.getElem?_map] at hf
  obtain ⟨x, hx, -⟩ := Option.map_eq_some_iff.mp hf
  simp only [ask, hm, hask, setManager_self hm]
  exact wait_some hx party

end Redirect.Hub

namespace Floor
variable {limit : Nat} {g g' : Floor} {before after : List Exchange} {x y : Exchange} {e : Entry}

/-- What becomes of a call that is not given up: it is where it was. -/
inductive Undisturbed (h h' : Hub) : Forwarding.Stage → Prop
  | wanting : Undisturbed h h' .wanting
  /-- It has its seat. -/
  | dialing {dial place : Nat} (hseat : h'.seat? (dial, place) = h.seat? (dial, place)) :
      Undisturbed h h' (.dialing dial place)
  /-- Its connection has it, and its pending entry if there was one, unless calls of the connection
  hold the same id. -/
  | calling {connection key : Nat}
      (hcall : ∀ c, h.connections[connection]? = some c → c.Unmixed →
        ∃ c', h'.connections[connection]? = some c' ∧ c'.caller? key = c.caller? key ∧
          ∀ id, (id, key) ∈ c'.pending ↔ (id, key) ∈ c.pending) :
      Undisturbed h h' (.calling connection key)

/-- A request has vanished from the floor. -/
structure Vanishes (g g' : Floor) (before : List Exchange) (x : Exchange) (after : List Exchange) :
    Prop where
  exchanges : g'.exchanges = before ++ after
  inFlight : g'.relay.controller.inFlight + 1 = g.relay.controller.inFlight
  permits : g'.relay.free = g.relay.free + x.entries.length
  /-- Whatever hangs under its token is cancelled. -/
  cancelled : ∀ u : Token, x.token.own ∈ u.own :: u.ancestors → g'.relay.tokens.isCancelled u = true
  calls : ∀ e ∈ x.entries, x.token.own ∈ e.call.token.ancestors
  /-- No token of another request is. -/
  others : ∀ y ∈ before ++ after,
    g'.relay.tokens.isCancelled y.token = g.relay.tokens.isCancelled y.token ∧
      ∀ e ∈ y.entries,
        g'.relay.tokens.isCancelled e.call.token = g.relay.tokens.isCancelled e.call.token
  /-- Of the hub, only what its calls held is lost. -/
  hub : Hub.Loses (x.entries.map Entry.stage) g.relay.hub g'.relay.hub
  /-- The calls of the others are where they were. -/
  undisturbed : ∀ y ∈ before ++ after, ∀ e ∈ y.entries,
    Undisturbed g.relay.hub g'.relay.hub e.stage
  /-- Dials that are under way go on, and whoever wants the connection later waits for them, unless
  the manager has been closed. -/
  dials : ∀ i d, g.relay.hub.Flies i d → g'.relay.hub.Flies i d ∧
    (g'.relay.hub.state? i = some .closed ∨
      ∀ party now, ∃ place, (g'.relay.hub.ask i party now).1 = .waits d place)

/-- A call that does not share its key or its seat with those that are lost is undisturbed. -/
theorem undisturbed_of_loses {h h' : Hub} {stages : List Forwarding.Stage} {s : Forwarding.Stage}
    (hl : Hub.Loses stages h h')
    (hkey : ∀ key, s.key? = some key → key ∉ stages.filterMap Forwarding.Stage.key?)
    (hseat : ∀ seat, s.seat? = some seat → seat ∉ stages.filterMap Forwarding.Stage.seat?) :
    Undisturbed h h' s := by
  cases s with
  | wanting => exact .wanting
  | dialing dial place => exact .dialing (hl.seats _ (hseat _ rfl))
  | calling connection key =>
    refine .calling fun c hc hu => ?_
    have hno : key ∉ stages.filterMap (Forwarding.Stage.keyOn? connection) := by
      intro hmem
      obtain ⟨s', hs', hon⟩ := List.mem_filterMap.mp hmem
      refine hkey key rfl (List.mem_filterMap.mpr ⟨s', hs', ?_⟩)
      cases s' with
      | calling c' key' =>
        simp only [Forwarding.Stage.keyOn?, Option.ite_none_right_eq_some] at hon
        exact hon.2
      | _ => cases hon
    exact ⟨_, hl.calls connection c hc hu, Connection.caller?_without hno,
      fun id => List.mem_filter.trans (and_iff_left (decide_eq_true hno))⟩

/-- With the token of a request no token of another request is cancelled. -/
theorem Sound.cancel_others (hs : g.Sound limit) (hx : g.exchanges = before ++ x :: after) :
    ∀ y ∈ before ++ after,
      (g.relay.tokens.cancel x.token).isCancelled y.token = g.relay.tokens.isCancelled y.token ∧
        ∀ e ∈ y.entries, (g.relay.tokens.cancel x.token).isCancelled e.call.token =
          g.relay.tokens.isCancelled e.call.token := by
  -- the request's number is neither that over all calls nor another's
  have hnumbers : g.numbers.Perm (x.token.own :: (Relay.calls.own ::
      ((before ++ after).map fun x => x.token.own)) ++ g.entries.map fun e => e.call.token.own) := by
    simp only [numbers, hx, List.map_append, List.map_cons, ← List.cons_append]
    exact List.perm_middle.append_right _
  have hdistinct := (hnumbers.nodup_iff).mp hs.distinct
  rw [List.cons_append] at hdistinct
  obtain ⟨hnew, -⟩ := List.nodup_cons.mp hdistinct
  rw [List.mem_append, not_or, List.mem_cons, not_or] at hnew
  obtain ⟨⟨hcalls, hrequests⟩, hentry⟩ := hnew
  have hkept {u : Token} (hu : x.token.own ∉ u.own :: u.ancestors) :
      (g.relay.tokens.cancel x.token).isCancelled u = g.relay.tokens.isCancelled u := by
    rw [Tokens.isCancelled_cancel, decide_eq_false hu, Bool.or_false]
  intro y hy
  have hne : x.token.own ≠ y.token.own := fun he => hrequests (he ▸ List.mem_map_of_mem hy)
  have hmem : y ∈ g.exchanges := hx ▸ mem_around hy
  refine ⟨hkept fun hin => ?_, fun e he => hkept fun hin => ?_⟩
  · exact ((hs.rooted y hmem).chain hin).elim hne hcalls
  · rcases (hs.rooted y hmem).call_chain he hin with h | h | h
    · exact hentry (h ▸ List.mem_map_of_mem (List.mem_flatMap.mpr ⟨y, hmem, he⟩))
    · exact hne h
    · exact hcalls h

theorem Sound.vanishes (hs : g.Sound limit) (hx : g.exchanges = before ++ x :: after) :
    Vanishes g { g with relay := x.drop g.relay, exchanges := before ++ after } before x after := by
  have hentries : g.entries = before.flatMap Exchange.entries ++
      (x.entries ++ after.flatMap Exchange.entries) := by
    simp [entries, hx]
  have hperm : g.entries.Perm (x.entries ++ (before ++ after).flatMap Exchange.entries) := by
    rw [hentries, List.flatMap_append]
    exact List.perm_append_comm_assoc ..
  have hcarries : g.relay.hub.Carries (x.entries.map Entry.stage ++
      ((before ++ after).flatMap Exchange.entries).map Entry.stage) := by
    rw [← List.map_append]
    exact hs.carries.perm (hperm.map _)
  obtain ⟨hloses, -, heq⟩ := Relay.drops_loses hcarries
  have hmem : x ∈ g.exchanges := hx ▸ List.mem_append_right _ (List.mem_cons_self ..)
  have hdrop : x.drop g.relay = Exchange.leave x.token { g.relay with
      hub := (x.entries.foldl Relay.drop g.relay).hub
      free := g.relay.free + x.entries.length } := by
    rw [Exchange.drop_eq, ← heq]
  rw [hdrop]
  constructor
  case exchanges => rfl
  case inFlight =>
    have hinFlight := hs.inFlight
    simp only [hx, List.length_append, List.length_cons] at hinFlight
    show (Controller.release _).inFlight + 1 = _
    rw [Controller.release_inFlight, hinFlight]
    omega
  case permits => rfl
  case cancelled =>
    intro u hu
    show (Tokens.cancel _ _).isCancelled u = true
    rw [Tokens.isCancelled_cancel, decide_eq_true hu, Bool.or_true]
  case calls =>
    intro e he
    rw [(hs.rooted x hmem).calls e he]
    exact List.mem_cons_self ..
  case others => exact hs.cancel_others hx
  case hub => exact hloses
  case undisturbed =>
    intro y hy e he
    have hin : e ∈ (before ++ after).flatMap Exchange.entries := List.mem_flatMap.mpr ⟨y, hy, he⟩
    have hstage := List.mem_map_of_mem (f := Entry.stage) hin
    refine undisturbed_of_loses hloses (fun key hkey hlost => ?_) fun seat hseat hlost => ?_
    · have hkeys := hcarries.keys
      rw [List.filterMap_append] at hkeys
      exact List.disjoint_of_nodup_append hkeys hlost (List.mem_filterMap.mpr ⟨_, hstage, hkey⟩)
    · have hseats := hcarries.seats
      rw [List.filterMap_append] at hseats
      exact List.disjoint_of_nodup_append hseats hlost (List.mem_filterMap.mpr ⟨_, hstage, hseat⟩)
  case dials =>
    intro i d hf
    have hstate := hs.orderly.flying i d hf
    rw [← Hub.state?_congr hloses.managers] at hstate
    have hf' := (Hub.flies_congr hloses.fates).mpr hf
    refine ⟨hf', ?_⟩
    rcases hstate with hstate | hstate
    · exact .inr fun party now => Hub.ask_joins hstate hf' party now
    · exact .inl hstate

/-! ### Whoever hangs up -/

/-- **A client that goes away leaves nothing behind.** Whatever has happened on the floor, and
wherever the calls of a request stand, its client may go away. Then one request less is in flight,
and every permit that its calls held is free; whatever hangs under the request's token is cancelled,
and no token of another request is; of the hub, only what its calls held is lost, and the calls of
the other requests are where they were; and the dials that are under way go on, so that whoever
wants the connection later waits for them. No two calls of a connection hold the same id unless
there have been as many calls as there are ids. -/
theorem hang_up_leaves_nothing {longestFrame : Nat} {redirections : List Redirection}
    {classifier : Classifier} {router : Router} {events : List Event}
    (h : (opened longestFrame redirections limit classifier router).run events = some g)
    (hx : g.exchanges = before ++ x :: after) :
    (∃ g', g.step (.hangUp before.length) = some g' ∧ Vanishes g g' before x after) ∧
      (g.relay.hub.nextKey < UInt64.size → ∀ c ∈ g.relay.hub.connections, c.Unmixed) := by
  have hs := (sound_opened longestFrame redirections limit classifier router).run h
  have hstep : g.step (.hangUp before.length) =
      some { g with relay := x.drop g.relay, exchanges := before ++ after } := by
    simp [step, hx, List.eraseIdx_append_of_length_le]
  exact ⟨⟨_, hstep, hs.vanishes hx⟩, fun hfew c hc => (hs.carries.hosts c hc).unmixed hfew⟩

/-- Two requests of two calls each, one for a handler and one for an endpoint that is dialed. -/
def dialing : Option Floor :=
  let redirections : List Redirection := [⟨⟨"ext", "tcp://h:1", 100⟩, .tcp "h:1"⟩]
  let body := (Raw.list [⟨(Request.call 1 "sleeper_q" []).write⟩,
    ⟨(Request.call 2 "ext_q" []).write⟩]).text.toUTF8
  (opened 1024 redirections 4 { timeoutMs := 1000 } ⟨redirections, [Traffic.sleeper]⟩).run
    [.arrive body, .look 0 0 0 0, .look 0 1 0 0, .arrive body, .look 1 0 1 5, .look 1 1 1 5]

/-- The client goes away whose call has begun the dial, which goes on. The call of the other
request, which waits for it too, keeps its seat. -/
theorem dialing_hung_up : ∃ g g', dialing = some g ∧ g.step (.hangUp 0) = some g' ∧
    g.relay.controller.inFlight = 2 ∧ g'.relay.controller.inFlight = 1 ∧
    g.relay.free = 0 ∧ g'.relay.free = 2 ∧ g'.relay.hub.Underway 0 ∧
    g'.relay.hub.seat? (0, 0) = none ∧ g'.relay.hub.seat? (0, 1) = some 1 := by
  have hseen : (dialing.map fun g => ((g.relay.controller.inFlight, g.relay.free),
      (decide (g.relay.hub.Underway 0), g.relay.hub.seat? (0, 1)),
      g.exchanges.map fun x => x.entries.map Entry.stage)) =
        some ((2, 0), (true, some 1), [[.wanting, .dialing 0 0], [.wanting, .dialing 0 1]]) := by
    decide +kernel
  obtain ⟨g, hrun, hseen⟩ := Option.map_eq_some_iff.mp hseen
  simp only [Prod.mk.injEq, decide_eq_true_eq] at hseen
  obtain ⟨⟨hinFlight, hfree⟩, ⟨hunderway, hseat⟩, hstages⟩ := hseen
  obtain ⟨x, rest, hx, hstages, -⟩ := List.map_eq_cons_iff.mp hstages
  obtain ⟨⟨g', hstep, hvanishes⟩, -⟩ :=
    hang_up_leaves_nothing hrun (show g.exchanges = [] ++ x :: rest from hx)
  have hlength : x.entries.length = 2 := by
    simpa using congrArg List.length hstages
  have hloses := hvanishes.hub
  rw [hstages] at hloses
  obtain ⟨i, hflies⟩ := Hub.underway_iff.mp hunderway
  refine ⟨g, g', hrun, hstep, hinFlight, ?_, hfree, ?_, ?_, ?_, ?_⟩
  · have := hvanishes.inFlight
    omega
  · rw [hvanishes.permits, hfree, hlength]
  · exact Hub.underway_iff.mpr ⟨i, (hvanishes.dials i 0 hflies).1⟩
  · exact hloses.empty _ (by decide)
  · exact (hloses.seats _ (by decide)).trans hseat

end Floor
end Switchboard
