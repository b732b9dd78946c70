import Switchboard.Proofs.Call.Floor

/-! What the pipeline does to calls, and what it leaves alone.

A call that is turned away is counted, and nothing else happens (`Relay.enter_full`,
`Relay.enter_dead`). A call that is let through is looked at until one of three things has come:
the router's answer, the cancellation of its token, its deadline. On any floor, whichever comes
alone decides how the call ends (`Relay.Settles`), and a deadline cancels the token of its own call
and of no other (`Floor.CancelsOnly`). -/
namespace Switchboard
open Json Redirect

namespace Floor
variable {limit : Nat} {g g' : Floor} {r : Relay} {e : Entry} {others : List Entry}

/-! ### Calls on a floor -/

/-- A call on the floor, with the relay that it finds and the other calls: one that is under way, or
one of a request in flight that has just got its token and its permit. -/
inductive AtHand (g : Floor) : Relay → Entry → List Entry → Prop
  | underWay {e : Entry} {before after : List Entry} (he : g.entries = before ++ e :: after) :
      AtHand g g.relay e (before ++ after)
  | letThrough {x : Exchange} {c : Call} {r : Relay} {classifier : Classifier} {now : Nat}
      (hx : x ∈ g.exchanges) (hc : c.token = (g.relay.tokens.child x.token).1)
      (hr : r = { g.relay with tokens := (g.relay.tokens.child x.token).2, classifier }) :
      AtHand g { r with free := r.free - 1 } ⟨c, now + c.timeoutMs, r.serve c now⟩ g.entries

/-- The token of the call is cancelled, and that of no other call and of no request. -/
structure CancelsOnly (g : Floor) (c : Call) (others : List Entry) (tokens : Tokens) : Prop where
  call : tokens.isCancelled c.token = true
  others : ∀ e ∈ others,
    tokens.isCancelled e.call.token = g.relay.tokens.isCancelled e.call.token
  requests : ∀ x ∈ g.exchanges, tokens.isCancelled x.token = g.relay.tokens.isCancelled x.token

/-- The number of a token above calls: that over all calls, or a request's. -/
def IsAbove (g : Floor) (n : Nat) : Prop :=
  n ∈ Relay.calls.own :: g.exchanges.map fun x => x.token.own

theorem Sound.request_chain (hs : g.Sound limit) {x : Exchange} (hx : x ∈ g.exchanges) {n : Nat}
    (hn : n ∈ x.token.own :: x.token.ancestors) : g.IsAbove n := by
  rcases (hs.rooted x hx).chain hn with rfl | rfl
  · exact List.mem_cons_of_mem _ (List.mem_map_of_mem hx)
  · exact List.mem_cons_self ..

theorem Sound.call_chain (hs : g.Sound limit) (he : e ∈ g.entries) {n : Nat}
    (hn : n ∈ e.call.token.own :: e.call.token.ancestors) :
    n = e.call.token.own ∨ g.IsAbove n := by
  obtain ⟨x, hx, he⟩ := List.mem_flatMap.mp he
  rcases (hs.rooted x hx).call_chain he hn with rfl | rfl | rfl
  · exact .inl rfl
  · exact .inr (List.mem_cons_of_mem _ (List.mem_map_of_mem hx))
  · exact .inr (List.mem_cons_self ..)

/-- What a call at hand holds is carried with what the others hold, and its token is its own. -/
structure AtHand.Apart (g : Floor) (r : Relay) (e : Entry) (others : List Entry) : Prop where
  carries : r.hub.Carries (e.stage :: others.map Entry.stage)
  tokens : ∀ u, r.tokens.isCancelled u = g.relay.tokens.isCancelled u
  above : ¬g.IsAbove e.call.token.own
  others : ∀ e' ∈ others, e' ∈ g.entries ∧ e'.call.token.own ≠ e.call.token.own

theorem Sound.apart (hs : g.Sound limit) (h : g.AtHand r e others) :
    AtHand.Apart g r e others := by
  cases h with
  | @underWay _ before after he =>
    have hperm : g.entries.Perm (e :: (before ++ after)) := he ▸ List.perm_middle
    have hnumbers : g.numbers.Perm (e.call.token.own :: (Relay.calls.own ::
        (g.exchanges.map (fun x => x.token.own) ++
          (before ++ after).map fun e => e.call.token.own))) :=
      ((hperm.map _).append_left _).cons _ |>.trans
        (@List.perm_middle _ _ (Relay.calls.own :: g.exchanges.map _) _)
    obtain ⟨hnew, -⟩ := List.nodup_cons.mp ((hnumbers.nodup_iff).mp hs.distinct)
    rw [← List.cons_append, List.mem_append, not_or] at hnew
    refine ⟨hs.carries.perm (hperm.map _), fun _ => rfl, hnew.1, fun e' he' => ⟨?_, fun hsame => ?_⟩⟩
    · exact hperm.mem_iff.mpr (List.mem_cons_of_mem _ he')
    · exact hnew.2 (hsame ▸ List.mem_map_of_mem (f := fun e : Entry => e.call.token.own) he')
  | @letThrough x c r classifier now hx hc hr =>
    subst hr
    have hnew : c.token.own = g.relay.tokens.next := by rw [hc]; rfl
    have hfresh (n : Nat) (hn : n ∈ g.numbers) : n ≠ c.token.own :=
      hnew ▸ Nat.ne_of_lt (hs.given n hn)
    refine ⟨?_, fun _ => rfl, fun habove => ?_, fun e' he' => ⟨he', hfresh _ ?_⟩⟩
    · rw [Relay.serve_stage]
      exact hs.carries.wanting
    · refine hfresh _ ?_ rfl
      rw [numbers, ← List.cons_append]
      exact List.mem_append_left _ habove
    · exact List.mem_cons_of_mem _ (List.mem_append_right _ (List.mem_map_of_mem he'))

theorem Sound.cancelsOnly (hs : g.Sound limit) (ha : AtHand.Apart g r e others) :
    g.CancelsOnly e.call others (r.tokens.cancel e.call.token) where
  call := by
    rw [Tokens.isCancelled_cancel]
    simp
  others e' he' := by
    obtain ⟨hmem, hne⟩ := ha.others e' he'
    have hno : e.call.token.own ∉ e'.call.token.own :: e'.call.token.ancestors := fun hin =>
      (hs.call_chain hmem hin).elim (fun h => hne h.symm) ha.above
    rw [Tokens.isCancelled_cancel, decide_eq_false hno, Bool.or_false, ha.tokens]
  requests x hx := by
    have hno : e.call.token.own ∉ x.token.own :: x.token.ancestors := fun hin =>
      ha.above (hs.request_chain hx hin)
    rw [Tokens.isCancelled_cancel, decide_eq_false hno, Bool.or_false, ha.tokens]

/-! ### How a call ends -/

/-- What a look makes of a call, by what has come for it. -/
structure Settles (g : Floor) (r : Relay) (e : Entry) (others : List Entry) (party now : Nat) :
    Prop where
  /-- While nothing has come, the call goes on as the router would by itself. -/
  quiet : (r.turn e party now).answer? = none → r.tokens.isCancelled e.call.token = false →
    now < e.deadline → r.go e party now =
      (.pending { e with service := (r.turn e party now).service },
        { r with hub := (r.turn e party now).hub })
  /-- The router's answer is passed on as it is: the call is counted, a connection that failed is
  warned of, and the permit is given back. -/
  answer : ∀ a, (r.turn e party now).answer? = some a →
    r.tokens.isCancelled e.call.token = false → now < e.deadline → ∃ metrics warnings,
      r.go e party now = (.ended a, { r with
        hub := { (r.turn e party now).hub with metrics, warnings }
        free := r.free + 1 })
  token : (r.turn e party now).answer? = none → r.tokens.isCancelled e.call.token = true →
    now < e.deadline → (r.go e party now).1 = .ended (.error .cancelled) ∧
      (r.go e party now).2.tokens = r.tokens ∧
      Hub.Forgets [e.stage] r.hub (r.go e party now).2.hub
  deadline : (r.turn e party now).answer? = none → r.tokens.isCancelled e.call.token = false →
    e.deadline ≤ now → (r.go e party now).1 = .ended (.error (.timeout e.call.timeoutMs)) ∧
      g.CancelsOnly e.call others (r.go e party now).2.tokens ∧
      Hub.Forgets [e.stage] r.hub (r.go e party now).2.hub

theorem Sound.settles (hs : g.Sound limit) (h : g.AtHand r e others) (party now : Nat) :
    g.Settles r e others party now := by
  have ha := hs.apart h
  constructor
  case quiet => exact fun hnone hlive hearly => Relay.go_quiet hlive hnone hearly
  case answer => exact fun a hsome hlive _ => Relay.go_answered hlive hsome
  case token => exact fun hnone hdead _ => Relay.go_cancelled ha.carries hdead hnone
  case deadline =>
    intro hnone hlive hlate
    obtain ⟨hended, htokens, hforgets⟩ := Relay.go_late ha.carries hlive hnone hlate
    exact ⟨hended, htokens ▸ hs.cancelsOnly ha, hforgets⟩

/-! ### What happens to a call in between -/

/-- What an event makes of a call that is under way. -/
inductive Fate (g g' : Floor) (e : Entry) : Event → Prop
  | stays {a : Event} (he : e ∈ g'.entries) : Fate g g' e a
  | looked {request place party now : Nat} (hr : g'.relay = (g.relay.go e party now).2)
      (hp : ∀ e', (g.relay.go e party now).1 = .pending e' → e' ∈ g'.entries) :
      Fate g g' e (.look request place party now)
  | left {request : Nat} {x : Exchange} (hx : g.exchanges[request]? = some x) (he : e ∈ x.entries) :
      Fate g g' e (.hangUp request)

/-- **A call that is under way stays as it is until it is looked at, or its client goes away.** -/
theorem step_fate {a : Event} (h : g.step a = some g') (he : e ∈ g.entries) : Fate g g' e a := by
  cases a with
  | arrive body =>
    simp only [step] at h
    split at h <;> cases h
    · exact .stays he
    · refine .stays ?_
      rw [entries, List.flatMap_append]
      exact List.mem_append_left _ he
  | look request place party now =>
    obtain ⟨x, hx, h⟩ := Option.bind_eq_some_iff.mp h
    obtain ⟨s, hslot, rfl⟩ := Option.map_eq_some_iff.mp h
    obtain ⟨before, after, hexchanges, -, -, hset⟩ := exists_around hx
    obtain ⟨head, tail, hslots, -, -, hplace⟩ := exists_around hslot
    obtain ⟨p, q, hentries⟩ := entries_at before after x head tail
    rw [show x = { x with slots := head ++ s :: tail } by rw [← hslots]] at hexchanges
    have hnow {e' : Entry} {s' : Slot} (he' : e' ∈ p ++ (s'.entry?.toList ++ q)) :
        e' ∈ (g.exchanges.set request { x with slots := x.slots.set place s' }).flatMap
          Exchange.entries := by
      rwa [hset, hplace, hentries]
    rw [entries, hexchanges, hentries] at he
    dsimp only
    rcases List.mem_append.mp he with he | he
    · exact .stays (hnow (List.mem_append_left _ he))
    rcases List.mem_append.mp he with he | he
    · obtain ⟨id?, rfl⟩ : ∃ id?, s = .running id? e := by
        cases s <;> simp [Slot.entry?] at he
        exact ⟨_, by rw [he]⟩
      refine .looked rfl fun e' he' => ?_
      refine hnow (List.mem_append_right _ (List.mem_append_left _ ?_))
      simp [Slot.go, he', Slot.ofProgress, Slot.entry?]
    · exact .stays (hnow (List.mem_append_right _ (List.mem_append_right _ he)))
  | finish request =>
    obtain ⟨x, hx, h⟩ := Option.bind_eq_some_iff.mp h
    split at h <;> cases h
    rename_i hfinished
    obtain ⟨before, after, hexchanges, -, herase, -⟩ := exists_around hx
    rw [entries, hexchanges, List.flatMap_append, List.flatMap_cons,
      Exchange.entries_finished hfinished, List.nil_append, ← List.flatMap_append, ← herase] at he
    exact .stays he
  | hangUp request =>
    obtain ⟨x, hx, rfl⟩ := Option.map_eq_some_iff.mp h
    obtain ⟨before, after, hexchanges, -, herase, -⟩ := exists_around hx
    rw [entries, hexchanges, List.flatMap_append, List.flatMap_cons] at he
    rcases List.mem_append.mp he with he | he
    · refine .stays ?_
      rw [entries, herase, List.flatMap_append]
      exact List.mem_append_left _ he
    rcases List.mem_append.mp he with he | he
    · exact .left hx he
    · refine .stays ?_
      rw [entries, herase, List.flatMap_append]
      exact List.mem_append_right _ he
  | act a =>
    simp only [step] at h
    split at h
    · obtain ⟨s, -, rfl⟩ := Option.map_eq_some_iff.mp h
      exact .stays he
    · cases h
  | stop | beside =>
    cases h
    exact .stays he

/-! ### Transparency -/

/-- **Calls that are turned away have no effect, and the others are passed through.** Whatever the
router is, a call for which there is no permit ends as overloaded, else a call that has been
cancelled ends as cancelled, and in both cases nothing happens but that it is counted: nobody
serves it, and the hub, the tokens and the permits are as before. Any other call is served, and
stays as it is but for looks at it, unless its client goes away. As long as there is neither the
router's answer, nor a token cancelled, nor a deadline past, a look lets the router go on as it would
by itself; the one of them that a look finds alone decides: the answer is passed on as it is, the
token ends the call as cancelled, and the deadline ends it as late, and cancels its token and that of
no other call or request. In the last two cases nothing stays pending for it, and no connection is
closed. -/
theorem pipeline_transparent {longestFrame : Nat} {redirections : List Redirection}
    {classifier : Classifier} {router : Router} {events : List Event}
    (h : (opened longestFrame redirections limit classifier router).run events = some g) :
    (∀ (r : Relay) (c : Call) (party now : Nat),
      (r.free = 0 →
        r.enter c party now = (.ended (.error .overloaded), r.counted c (.error .overloaded))) ∧
      (r.free ≠ 0 → r.tokens.isCancelled c.token = true →
        r.enter c party now = (.ended (.error .cancelled), r.counted c (.error .cancelled))) ∧
      (r.free ≠ 0 → r.tokens.isCancelled c.token = false → r.enter c party now =
        { r with free := r.free - 1 }.go ⟨c, now + c.timeoutMs, r.serve c now⟩ party now)) ∧
    (∀ r e others, g.AtHand r e others → ∀ party now, g.Settles r e others party now) ∧
    ∀ a g' e, g.step a = some g' → e ∈ g.entries → Fate g g' e a := by
  have hs := (sound_opened longestFrame redirections limit classifier router).run h
  refine ⟨fun r c party now => ⟨fun hfree => ?_, fun hfree hdead => ?_, fun hfree hlive => ?_⟩,
    fun r e others hat party now => hs.settles hat party now, fun a g' e hstep he => ?_⟩
  · exact Relay.enter_full hfree c party now
  · exact Relay.enter_dead hfree hdead party now
  · exact Relay.enter_live hfree hlive party now
  · exact step_fate hstep he

/-- Two calls of a method that takes its time, on a relay that gives them 40 ms. -/
def sleeping : Option Floor :=
  let sleepers : List Raw :=
    [⟨(Request.call 1 "sleeper_q" []).write⟩, ⟨(Request.call 2 "sleeper_q" []).write⟩]
  (opened 1024 [] 2 { timeoutMs := 40 } ⟨[], [Traffic.sleeper]⟩).run
    [.arrive (Raw.list sleepers).text.toUTF8, .look 0 0 0 0, .look 0 1 0 0]

/-- When the time of one of them is up, its token is cancelled and the other's is not. -/
theorem late_alone : ∃ g e e', sleeping = some g ∧ g.entries = [e, e'] ∧
    (g.relay.go e 0 40).1 = .ended (.error (.timeout 40)) ∧
    (g.relay.go e 0 40).2.tokens.isCancelled e.call.token = true ∧
    (g.relay.go e 0 40).2.tokens.isCancelled e'.call.token = false := by
  have hseen : (sleeping.map fun g => g.entries.map fun e => (e.deadline, e.call.timeoutMs,
      (g.relay.turn e 0 40).answer?.isSome, g.relay.tokens.isCancelled e.call.token)) =
        some [(40, 40, false, false), (40, 40, false, false)] := by
    decide +kernel
  obtain ⟨g, hrun, hseen⟩ := Option.map_eq_some_iff.mp hseen
  obtain ⟨e, rest, hentries, he, hrest⟩ := List.map_eq_cons_iff.mp hseen
  obtain ⟨e', rest, rfl, he', hrest⟩ := List.map_eq_cons_iff.mp hrest
  cases List.map_eq_nil_iff.mp hrest
  simp only [Prod.mk.injEq] at he he'
  obtain ⟨hdeadline, htimeout, hreply, hlive⟩ := he
  have hat : g.AtHand g.relay e [e'] := @AtHand.underWay g e [] [e'] hentries
  obtain ⟨hended, hcancels, -⟩ := ((pipeline_transparent hrun).2.1 _ _ _ hat 0 40).deadline
    (by simpa using hreply) hlive (Nat.le_of_eq hdeadline)
  refine ⟨g, e, e', hrun, hentries, htimeout ▸ hended, hcancels.call, ?_⟩
  rw [hcancels.others e' (List.mem_singleton_self _), he'.2.2.2]

end Floor
end Switchboard
