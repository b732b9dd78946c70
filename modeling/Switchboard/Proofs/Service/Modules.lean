import Mathlib.Data.List.Sort
import Switchboard.Proofs.Call.Permits
import Switchboard.Proofs.Service.Routing

/-! The namespaces a node says it has.

`rpc` is made from the names that are answered for before it is registered, and adds its own to
them; so it lists what the node answers for once it is there (`Router.served_ofHandlers`). Those are
the namespaces with a route (`Router.route_eq_nowhere`), and whatever is done for a call that has
one, the router never says that nobody serves it (`Router.Working.known`). -/
namespace Switchboard
open Json Redirect Text

/-! ### Names in their order, each once -/

namespace Handler
variable {names names' : List String}

theorem ascending_insert {name : String} (h : Ascending names) :
    Ascending (distinct.insert name names) := by
  rw [ascending_iff] at h ⊢
  induction names with
  | nil => exact List.pairwise_singleton ..
  | cons n rest ih =>
    obtain ⟨hn, hrest⟩ := List.pairwise_cons.mp h
    unfold distinct.insert
    split
    · rename_i hlt
      refine List.pairwise_cons.mpr ⟨fun m hm => ?_, h⟩
      rcases List.mem_cons.mp hm with rfl | hm
      · exact hlt
      · exact hlt.trans (hn m hm)
    · split
      · exact h
      · rename_i hle hne
        refine List.pairwise_cons.mpr ⟨fun m hm => ?_, ih hrest⟩
        rcases mem_insert.mp hm with rfl | hm
        · exact lt_of_le_of_ne (not_lt.mp hle) (Ne.symm hne)
        · exact hn m hm

theorem ascending_distinct (names : List String) : Ascending (distinct names) := by
  induction names with
  | nil => exact .nil
  | cons name rest ih => exact ascending_insert ih

/-- It only matters which names there are. -/
theorem distinct_congr (h : ∀ n, n ∈ names ↔ n ∈ names') : distinct names = distinct names' :=
  (ascending_iff.mp (ascending_distinct names)).eq_of_mem_iff
    (ascending_iff.mp (ascending_distinct names')) fun {n} => by
      rw [mem_distinct, mem_distinct, h]

end Handler

namespace Router
variable {router : Router} {c : Call} {s : Service} {a : Answer}

/-! ### What is answered for -/

theorem served_register (r : Router) (h : Handler) :
    (r.register h).served = Handler.distinct (h.namespaceName :: r.served) := by
  refine Handler.distinct_congr fun n => ?_
  rw [List.mem_cons, served, Handler.mem_distinct, register, List.map_cons, List.cons_append,
    List.mem_cons]

/-- **`rpc` lists what the router answers for that it is registered with.** -/
theorem served_ofHandlers (redirections : List Redirection) (others : List Handler) :
    ∃ names, (ofHandlers redirections others).handler? "rpc" = some (Handler.rpc names) ∧
      (ofHandlers redirections others).served = Handler.modules names :=
  ⟨_, List.find?_cons_of_pos rfl, served_register _ _⟩

theorem mem_served_ofHandlers {redirections : List Redirection} {others : List Handler}
    {name : String} :
    name ∈ (ofHandlers redirections others).served ↔
      name ∈ ["rpc", "web3", "net"] ∨ (∃ h ∈ others, h.namespaceName = name) ∨
        ∃ q ∈ redirections, q.namespaceName = name := by
  rw [served, Handler.mem_distinct, ofHandlers, register, foldl_register]
  simp only [List.map_cons, List.map_reverse, List.append_nil, List.mem_append, List.mem_cons,
    List.mem_reverse, List.mem_map, List.not_mem_nil, or_false, or_assoc, Handler.rpc,
    Handler.web3, Handler.net]

/-! ### What is done for a call -/

/-- What the router does for a call, from the beginning and however often it is looked at, whatever
else happens to the relay in the meantime. -/
inductive Working (router : Router) (c : Call) : Service → Prop
  | begun {r : Relay} (hr : r.router = router) (now : Nat) : Working router c (r.serve c now)
  | looked {s : Service} (h : Working router c s) {r : Relay} (hr : r.router = router)
      (deadline party now : Nat) :
      Working router c (r.answer? ⟨c, deadline, s⟩ party now).2.1.service

/-- The router itself answers the call so. -/
def Gives (router : Router) (c : Call) (a : Answer) : Prop :=
  ∃ (s : Service) (r : Relay) (deadline party now : Nat), Working router c s ∧ r.router = router ∧
    (r.answer? ⟨c, deadline, s⟩ party now).1 = some a

/-- The service does not say that nobody serves the call. -/
def Known : Service → Prop
  | .forwarding _ => True
  | .replying _ a => ∀ method, a ≠ .error (.methodNotFound method)

theorem serve_known {r : Relay} (h : c.name.namespaceName ∈ r.router.served) (now : Nat) :
    Known (r.serve c now) := by
  unfold Relay.serve
  split
  · split <;> simp [Known]
  · intro method he
    rcases answer_error he with ⟨_, h⟩ | ⟨_, h⟩ <;> cases h
  · rename_i hroute
    exact absurd h (route_eq_nowhere.mp hroute)

theorem answer?_known {r : Relay} {e : Entry} (h : Known e.service) (party now : Nat) :
    Known (r.answer? e party now).2.1.service ∧
      ∀ method, (r.answer? e party now).1 ≠ some (.error (.methodNotFound method)) := by
  unfold Relay.answer?
  split
  · rename_i readyAt result hs
    rw [hs] at h
    refine ⟨hs ▸ h, fun method ha => ?_⟩
    split at ha
    · cases ha
      exact h method rfl
    · cases ha
  · split
    · exact ⟨h, fun method ha => by cases ha⟩
    · rename_i err _ _
      refine ⟨h, fun method ha => ?_⟩
      cases err <;> cases ha
    · exact ⟨trivial, fun method ha => by cases ha⟩

theorem Working.known (h : Working router c s) (hc : c.name.namespaceName ∈ router.served) :
    Known s := by
  induction h with
  | begun hr now => exact serve_known (hr ▸ hc) now
  | looked _ hr deadline party now ih => exact (answer?_known ih party now).1

theorem Working.refused (h : Working router c s) (hc : c.name.namespaceName ∉ router.served) :
    ∃ now, s = .replying now (.error (.methodNotFound c.name.full)) := by
  induction h with
  | @begun r hr now =>
    rw [← hr] at hc
    exact ⟨now, by rw [Relay.serve, route_eq_nowhere.mpr hc]⟩
  | looked _ hr deadline party now ih =>
    obtain ⟨readyAt, rfl⟩ := ih
    exact ⟨readyAt, rfl⟩

/-- **A call under a namespace that is answered for is never refused as one that nobody serves,
and any other call is always refused so.** -/
theorem gives_methodNotFound {method : String} (hc : c.name.namespaceName ∈ router.served) :
    ¬router.Gives c (.error (.methodNotFound method)) := by
  rintro ⟨s, r, deadline, party, now, hs, -, ha⟩
  exact (answer?_known (e := ⟨c, deadline, s⟩) (hs.known hc) party now).2 method ha

theorem gives_refusal (hc : c.name.namespaceName ∉ router.served) :
    router.Gives c a ↔ a = .error (.methodNotFound c.name.full) := by
  constructor
  · rintro ⟨s, r, deadline, party, now, hs, -, ha⟩
    obtain ⟨readyAt, rfl⟩ := hs.refused hc
    simp only [Relay.answer?] at ha
    split at ha <;> cases ha
    rfl
  · rintro rfl
    let r : Relay := ⟨.ofRedirections 0 [], (Tokens.root {}).2, 0, {}, { timeoutMs := 0 }, router⟩
    have hserve : r.serve c 0 = .replying 0 (.error (.methodNotFound c.name.full)) := by
      rw [Relay.serve, route_eq_nowhere.mpr hc]
    exact ⟨_, r, 0, 0, 0, .begun (r := r) rfl 0, rfl, by rw [hserve]; rfl⟩

end Router

/-! ### The modules of a node -/

namespace Relay
variable {config : ServerConfig} {others : List Handler} {r : Relay}

/-- **A node lists what it routes.** Whatever configuration is accepted, the list that `rpc` gives
has exactly the namespaces that the router answers for, in its order; a namespace is among these
exactly when the router never says of a call under it, whatever its method, that nobody serves it,
and of any other call it says so and nothing else. They are those of the node's handlers and of the
enabled targets, in strictly ascending order, also where a target is enabled for a namespace that
has a handler. -/
theorem modules_routed (h : ofConfig config others = .ok r) :
    (∃ served, r.router.handler? "rpc" = some served ∧ ∀ arguments,
      (served.handle "modules" arguments).result =
        .ok (.object (r.router.served.map fun name => (name, .string Handler.moduleVersion)))) ∧
    (∀ name, name ∈ r.router.served ↔ ∀ c : Call, c.name.namespaceName = name →
      ∀ method, ¬r.router.Gives c (.error (.methodNotFound method))) ∧
    (∀ c : Call, c.name.namespaceName ∉ r.router.served →
      ∀ a, r.router.Gives c a ↔ a = .error (.methodNotFound c.name.full)) ∧
    Ascending r.router.served ∧ r.router.served.Nodup ∧
    ∀ name, name ∈ r.router.served ↔ name ∈ ["rpc", "web3", "net"] ∨
      (∃ h ∈ others, h.namespaceName = name) ∨
        ∃ t ∈ config.redirects, t.isEnabled = true ∧ t.namespaceName = name := by
  unfold ofConfig at h
  split at h
  · cases h
  · rename_i redirections hredirections
    cases h
    obtain ⟨names, hrpc, hserved⟩ := Router.served_ofHandlers redirections others
    have hascending : Ascending (Router.ofHandlers redirections others).served :=
      Handler.ascending_distinct _
    refine ⟨⟨_, hrpc, fun _ => by rw [hserved]; rfl⟩, fun name => ⟨?_, fun hnever => ?_⟩,
      fun c hc a => Router.gives_refusal hc, hascending, hascending.nodup, fun name => ?_⟩
    · rintro hname c rfl method
      exact Router.gives_methodNotFound hname
    · by_contra hname
      let c : Call := ⟨0, 0, ⟨0, []⟩, ⟨name, "q"⟩, []⟩
      exact hnever c rfl _ ((Router.gives_refusal (c := c) hname).mpr rfl)
    · rw [Router.mem_served_ofHandlers, Redirection.exists_named_iff hredirections]

/-- Targets for namespaces that the node serves itself, for another one, and a disabled one. -/
def overlapping : ServerConfig :=
  { redirects := [⟨"web3", "x:1", 5⟩, ⟨"rpc", "/s", 5⟩, ⟨"arb", "y:2", 5⟩, ⟨"off", " ", 5⟩] }

theorem modules_overlapping : ∃ r, ofConfig overlapping [] = .ok r ∧
    r.router.served = ["arb", "net", "rpc", "web3"] ∧ Ascending ["arb", "net", "rpc", "web3"] ∧
    (∀ method method', ¬r.router.Gives ⟨1, 5, ⟨1, []⟩, ⟨"rpc", method⟩, []⟩
      (.error (.methodNotFound method'))) ∧
    r.router.Gives ⟨1, 5, ⟨1, []⟩, ⟨"off", "q"⟩, []⟩ (.error (.methodNotFound "off_q")) := by
  obtain ⟨r, hr, hserved⟩ : ∃ r, ofConfig overlapping [] = .ok r ∧
      r.router.served = ["arb", "net", "rpc", "web3"] := ⟨_, rfl, by decide⟩
  obtain ⟨-, hknown, hrefused, hascending, -⟩ := modules_routed hr
  rw [hserved] at hknown hrefused hascending
  exact ⟨r, hr, hserved, hascending,
    fun method => (hknown "rpc").mp (by decide) ⟨1, 5, ⟨1, []⟩, ⟨"rpc", method⟩, []⟩ rfl,
    (hrefused ⟨1, 5, ⟨1, []⟩, ⟨"off", "q"⟩, []⟩ (by decide) _).mpr rfl⟩

end Relay
end Switchboard
