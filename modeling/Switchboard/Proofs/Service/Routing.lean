import Switchboard.Proofs.Call.Labels
import Switchboard.Proofs.Call.Relaying
import Switchboard.Proofs.Redirect.Targets

/-! Where calls go.

A list of targets that is accepted stands for one redirection for each enabled target, each under a
name of its own; the disabled ones are checked and leave nothing behind. So a call goes to the one
enabled target that has its namespace, else to the handler that was registered last for it, else
nowhere; and a list without its disabled targets is accepted as well, and stands for the same
(`routed_exactly`). -/
namespace Switchboard
open Redirect

/-! ### Handlers that are registered -/

namespace Router

/-- A router with handlers that were registered in that order. -/
def registering (redirections : List Redirection) (handlers : List Handler) : Router :=
  handlers.foldl register ⟨redirections, []⟩

theorem foldl_register (hs : List Handler) (q : Router) :
    hs.foldl register q = ⟨q.redirections, hs.reverse ++ q.handlers⟩ := by
  induction hs generalizing q with
  | nil => rfl
  | cons h rest ih => rw [List.foldl_cons, ih, register, List.reverse_cons, List.append_assoc]; rfl

variable {redirections : List Redirection} {handlers : List Handler} {name : String}

theorem registering_eq :
    registering redirections handlers = ⟨redirections, handlers.reverse⟩ := by
  rw [registering, foldl_register, List.append_nil]

/-- The router of a node is one of these. -/
theorem ofHandlers_eq (redirections : List Redirection) (others : List Handler) :
    ∃ handlers, ofHandlers redirections others = registering redirections handlers := by
  refine ⟨Handler.web3 Handler.clientVersion :: Handler.net :: others ++
    [.rpc ((Handler.web3 Handler.clientVersion :: Handler.net :: others).foldl register
      ⟨redirections, []⟩).served], ?_⟩
  rw [registering, List.foldl_append]
  rfl

/-- **Of the handlers of one namespace the last one counts.** -/
theorem route_last {before after : List Handler} {h : Handler}
    (hno : ∀ q ∈ redirections, q.namespaceName ≠ name)
    (hhandlers : handlers = before ++ h :: after) (hname : h.namespaceName = name)
    (hlast : ∀ h' ∈ after, h'.namespaceName ≠ name) :
    (registering redirections handlers).route name = .handler h := by
  have hredirection : redirections.find? (fun q => q.namespaceName == name) = none := by
    simpa using hno
  have hafter : after.reverse.find? (fun h => h.namespaceName == name) = none := by
    simpa using hlast
  rw [registering_eq, route, redirection?, hredirection, handler?, hhandlers, List.reverse_append,
    List.reverse_cons, List.append_assoc, List.find?_append, hafter]
  simp [hname]

theorem route_nowhere (hno : ∀ q ∈ redirections, q.namespaceName ≠ name)
    (hhandlers : ∀ h ∈ handlers, h.namespaceName ≠ name) :
    (registering redirections handlers).route name = .nowhere := by
  have hredirection : redirections.find? (fun q => q.namespaceName == name) = none := by
    simpa using hno
  have hhandler : handlers.reverse.find? (fun h => h.namespaceName == name) = none := by
    simpa using hhandlers
  rw [registering_eq, route, redirection?, hredirection, handler?, hhandler]

end Router

/-! ### Calls -/

namespace Relay
variable {r : Relay} {targets : List Target} {redirections : List Redirection}
  {handlers : List Handler} {c : Call} {t : Target}

/-- The call is forwarded under its own name, through the manager of that target and no other. -/
def Forwards (r : Relay) (c : Call) (t : Target) : Prop :=
  ∃ manager m, r.hub.managers[manager]? = some m ∧ m.redirection.Of t ∧
    (∀ (i : Nat) (m' : Manager), r.hub.managers[i]? = some m' →
      m'.redirection.namespaceName = c.name.namespaceName → m'.redirection = m.redirection) ∧
    ∀ now, r.serve c now =
      .forwarding { manager, method := c.name.full, arguments := c.arguments }

/-- The handler is given the call. -/
def Hands (r : Relay) (c : Call) (h : Handler) : Prop :=
  ∀ now, r.serve c now = .replying (now + (Router.answer h c).2) (Router.answer h c).1

/-- Nobody serves the call. -/
def Refuses (r : Relay) (c : Call) : Prop :=
  ∀ now, r.serve c now = .replying now (.error (.methodNotFound c.name.full))

theorem forwards_enabled (h : Redirection.ofTargets targets = .ok redirections)
    (hhub : r.hub.managers.map Manager.redirection = redirections)
    (hrouter : r.router = .registering redirections handlers) (ht : t ∈ targets)
    (henabled : t.isEnabled = true) (hname : t.namespaceName = c.name.namespaceName) :
    r.Forwards c t := by
  obtain ⟨q, hq, hof⟩ := Redirection.exists_of_enabled h ht henabled
  have hqname : q.namespaceName = c.name.namespaceName := by
    rw [Redirection.namespaceName, hof.1, hname]
  have hroute : r.router.route c.name.namespaceName = .redirect q := by
    cases hfind : redirections.find? fun q => q.namespaceName == c.name.namespaceName with
    | none =>
      have := List.find?_eq_none.mp hfind q hq
      simp [hqname] at this
    | some q' =>
      have hq' : q'.namespaceName = c.name.namespaceName := by simpa using List.find?_some hfind
      cases Redirection.eq_of_namespaceName h (List.mem_of_find?_eq_some hfind) hq
        (hq'.trans hqname.symm)
      rw [hrouter, Router.registering_eq, Router.route, Router.redirection?, hfind]
  have hwired : r.Wired := by
    rw [Wired, hhub, hrouter, Router.registering_eq]
  obtain ⟨manager, hmanager⟩ := hwired.manager? hroute
  obtain ⟨hlt, hfound⟩ := List.findIdx?_eq_some_iff_getElem.mp hmanager
  have hmem (i : Nat) (m : Manager) (hm : r.hub.managers[i]? = some m) :
      m.redirection ∈ redirections :=
    hhub ▸ List.mem_map.mpr ⟨m, List.mem_of_getElem? hm, rfl⟩
  have hm := List.getElem?_eq_getElem hlt
  have hsame (i : Nat) (m : Manager) (hm : r.hub.managers[i]? = some m)
      (hn : m.redirection.namespaceName = c.name.namespaceName) : m.redirection = q :=
    Redirection.eq_of_namespaceName h (hmem i m hm) hq (hn.trans hqname.symm)
  have hthis : r.hub.managers[manager].redirection = q :=
    hsame manager _ hm ((by simpa using hfound.1 : _ = q.namespaceName).trans hqname)
  exact ⟨manager, _, hm, hthis ▸ hof, fun i m' hm' hn => (hsame i m' hm' hn).trans hthis.symm,
    fun now => serve_redirected hroute hmanager now⟩

/-- The relay with the redirections of a list of targets, none of them used yet, and with handlers
that were registered in that order. -/
def equipped (r : Relay) (longestFrame : Nat) (redirections : List Redirection)
    (handlers : List Handler) : Relay :=
  { r with
    hub := .ofRedirections longestFrame redirections
    router := .registering redirections handlers }

/-- **Routing is exact, and a disabled target is as good as none.** Whatever has been done with the
redirections that a list of targets stands for, and whatever handlers were registered: a call is
forwarded exactly when an enabled target has its namespace, through the manager of that target;
otherwise the handler that was registered last for its namespace answers it, and if there is none,
nobody serves it and the caller is told its full name. The list without its disabled targets is
accepted too and stands for the same redirections: the two have the same names and the same
reports, and a relay equipped with one answers for the same namespaces, has the same routes and
does the same for every call as with the other. -/
theorem routed_exactly (h : Redirection.ofTargets targets = .ok redirections)
    {longestFrame : Nat} {acts : List Act} {s : Course}
    (hrun : (Course.opened longestFrame redirections).run acts = some s) (hhub : r.hub = s.hub)
    (hrouter : r.router = .registering redirections handlers) :
    ((∃ f, ∀ now, r.serve c now = .forwarding f) ↔
      ∃ t ∈ targets, t.isEnabled = true ∧ t.namespaceName = c.name.namespaceName) ∧
    (∀ t ∈ targets, t.isEnabled = true → t.namespaceName = c.name.namespaceName →
      r.Forwards c t) ∧
    ((∀ t ∈ targets, t.isEnabled = true → t.namespaceName ≠ c.name.namespaceName) →
      (∀ before served after, handlers = before ++ served :: after →
        served.namespaceName = c.name.namespaceName →
        (∀ h' ∈ after, h'.namespaceName ≠ c.name.namespaceName) → r.Hands c served) ∧
      ((∀ h' ∈ handlers, h'.namespaceName ≠ c.name.namespaceName) → r.Refuses c)) ∧
    ∃ fewer, Redirection.ofTargets (targets.filter Target.isEnabled) = .ok fewer ∧
      fewer.map Redirection.namespaceName = redirections.map Redirection.namespaceName ∧
      (Hub.ofRedirections longestFrame fewer).statuses =
        (Hub.ofRedirections longestFrame redirections).statuses ∧
      (r.equipped longestFrame fewer handlers).router.served =
        (r.equipped longestFrame redirections handlers).router.served ∧
      (∀ name, (r.equipped longestFrame fewer handlers).router.route name =
        (r.equipped longestFrame redirections handlers).router.route name) ∧
      (∀ call party now, (r.equipped longestFrame fewer handlers).enter call party now =
        (r.equipped longestFrame redirections handlers).enter call party now) ∧
      ∀ (config : ServerConfig) (others : List Handler), config.redirects = targets →
        ∃ node, ofConfig config others = .ok node ∧
          ofConfig { config with redirects := targets.filter Target.isEnabled } others =
            .ok node := by
  have hredirections : r.hub.managers.map Manager.redirection = redirections :=
    hhub ▸ Course.map_redirection_run hrun
  have hforwards (t : Target) (ht : t ∈ targets) (henabled : t.isEnabled = true)
      (hname : t.namespaceName = c.name.namespaceName) : r.Forwards c t :=
    forwards_enabled h hredirections hrouter ht henabled hname
  have hnone (hno : ∀ t ∈ targets, t.isEnabled = true → t.namespaceName ≠ c.name.namespaceName) :
      ∀ q ∈ redirections, q.namespaceName ≠ c.name.namespaceName := by
    intro q hq hname
    obtain ⟨t, ht, hof⟩ := (Redirection.mem_ofTargets h).mp hq
    exact hno t ht hof.isEnabled (hof.1 ▸ hname)
  refine ⟨⟨fun ⟨f, hf⟩ => ?_, fun ⟨t, ht, henabled, hname⟩ => ?_⟩, hforwards, fun hno => ⟨?_, ?_⟩,
    ?_⟩
  · -- what is not redirected is answered, now or later
    by_contra hno
    have hno := hnone fun t ht henabled hname => hno ⟨t, ht, henabled, hname⟩
    have hserve := hf 0
    have hfind : r.router.redirection? c.name.namespaceName = none := by
      rw [hrouter, Router.registering_eq, Router.redirection?]
      simpa using hno
    rw [serve, Router.route, hfind] at hserve
    cases hhandler : r.router.handler? c.name.namespaceName <;> rw [hhandler] at hserve <;>
      cases hserve
  · obtain ⟨manager, m, -, -, -, hserve⟩ := hforwards t ht henabled hname
    exact ⟨_, hserve⟩
  · intro before served after hhandlers hname hlast now
    rw [serve, hrouter, Router.route_last (hnone hno) hhandlers hname hlast]
  · intro hhandlers now
    rw [serve, hrouter, Router.route_nowhere (hnone hno) hhandlers]
  · have hfewer : Redirection.ofTargets (targets.filter Target.isEnabled) = .ok redirections :=
      Redirection.collect_filter (fun _ hn => hn) h
    refine ⟨redirections, hfewer, rfl, rfl, rfl, fun _ => rfl, fun _ _ _ => rfl,
      fun config others hconfig => ?_⟩
    simp only [ofConfig, hconfig, h, hfewer]
    exact ⟨_, rfl, rfl⟩

/-- A target with an endpoint, and one whose endpoint is blank. -/
def half : List Target := [⟨"arb", "node.ipc", 1000⟩, ⟨"off", " \u3000", 0⟩]

/-- A handler that answers every method with the same text. -/
def saying (name text : String) : Handler := ⟨name, fun _ _ => ⟨.ok (.string text), 0⟩⟩

/-- Handlers for both namespaces, two of them for the second one. -/
def sayings : List Handler := [saying "off" "first", saying "arb" "local", saying "off" "second"]

/-- A redirection wins over a handler, of two handlers the last one, and a disabled target counts
for nothing. -/
theorem routed_half : ∃ (redirections : List Redirection) (r : Relay),
    Redirection.ofTargets half = .ok redirections ∧
    r.hub = (Course.opened 64 redirections).hub ∧ r.router = .registering redirections sayings ∧
    r.Forwards (Traffic.asking "arb" 1) ⟨"arb", "node.ipc", 1000⟩ ∧
    r.Hands (Traffic.asking "off" 2) (saying "off" "second") ∧ r.Refuses (Traffic.asking "zzz" 3) := by
  obtain ⟨redirections, h⟩ : ∃ redirections, Redirection.ofTargets half = .ok redirections := by
    have hok : (Redirection.ofTargets half).isOk = true := by decide +kernel
    cases h : Redirection.ofTargets half with
    | ok redirections => exact ⟨redirections, rfl⟩
    | error e =>
      rw [h] at hok
      cases hok
  have hoff : ∀ name, name ≠ "arb" → ∀ t ∈ half, t.isEnabled = true → t.namespaceName ≠ name := by
    have honly : ∀ t ∈ half, t.isEnabled = true → t.namespaceName = "arb" := by decide +kernel
    exact fun name hname t ht henabled => honly t ht henabled ▸ hname.symm
  have hrouted (c : Call) := @routed_exactly
    { hub := (Course.opened 64 redirections).hub
      free := 1
      classifier := { timeoutMs := 1000 }
      router := .registering redirections sayings } half redirections sayings c h 64 [] _ rfl rfl rfl
  refine ⟨redirections, _, h, rfl, rfl,
    (hrouted _).2.1 _ (List.mem_cons_self ..) (by decide +kernel) rfl, ?_, ?_⟩
  · exact ((hrouted _).2.2.1 (hoff "off" (by decide))).1 (sayings.take 2) _ [] rfl rfl
      fun _ hh => by cases hh
  · exact ((hrouted _).2.2.1 (hoff "zzz" (by decide))).2 (by decide)

end Relay
end Switchboard
