import Switchboard.Proofs.Http.Visiting

/-! Discretion: failures on the way to an endpoint are told as nothing but internal errors.

A node answers a request over HTTP with what its exchange comes to, in the headers of its
configuration (`Http.Occasion.response_of_ended`). A call that was forwarded and did not get through
is told as any internal failure (`Unreached.told`), so neither where a namespace is redirected to
nor how long and how a dial failed can be read from the response: two nodes with the same handlers
that redirect the same namespaces answer a body with the same bytes, if none of its forwarded calls
gets through and its other calls end alike (`Http.unreached_unseen`). -/
namespace Switchboard
open Json Redirect

/-! ### Calls that do not get through -/

/-- The namespace of the call is redirected. -/
def Relay.Redirects (r : Relay) (c : Call) : Prop :=
  ∃ q, r.router.redirection? c.name.namespaceName = some q

/-- How a forwarded call ends that does not get through: there is no connection, or it is closed,
or the call cannot be written. -/
inductive Unreached : Answer → Prop
  | connect (endpoint reason : String) :
      Unreached (.error (.ofForward (.connect endpoint reason)))
  | closed : Unreached (.error (.ofForward .closed))
  | encode (detail : String) : Unreached (.error (.ofForward (.encode detail)))

/-- Its caller is told what callers are told about an internal failure. -/
theorem Unreached.told {a : Answer} (h : Unreached a) (detail : String) :
    a.mapError CallError.object = .error (CallError.failed detail).object := by
  cases h <;> rfl

/-- The nodes have the same handlers, and redirect the same namespaces, wherever to. -/
structure Relay.Alike (r r' : Relay) : Prop where
  handlers : r.router.handlers = r'.router.handlers
  namespaces : ∀ name, name ∈ r.router.redirections.map Redirection.namespaceName ↔
    name ∈ r'.router.redirections.map Redirection.namespaceName

/-- The other calls end alike: where the call of an entry is not redirected, that of the same entry
has ended in the same way. -/
def Fate.Alike (r : Relay) (f f' : Fate) : Prop :=
  ∀ c a, f = some (c, a) → ¬r.Redirects c → ∃ c', f' = some (c', a)

namespace Relay
variable {r r' : Relay} {c c' : Call} {now : Nat}

theorem redirects_iff :
    r.Redirects c ↔ c.name.namespaceName ∈ r.router.redirections.map Redirection.namespaceName := by
  unfold Redirects Router.redirection?
  rw [← Option.isSome_iff_exists, List.find?_isSome, List.mem_map]
  simp only [beq_iff_eq]

theorem Alike.redirects (h : r.Alike r') (hname : c.name = c'.name) (hr : r.Redirects c) :
    r'.Redirects c' := by
  rw [redirects_iff] at hr ⊢
  exact hname ▸ (h.namespaces _).mp hr

/-- Calls that are not redirected are served alike. -/
theorem Alike.serve (h : r.Alike r') (hr : ¬r.Redirects c) : r.serve c now = r'.serve c now := by
  have hr' : ¬r'.Redirects c := fun hr' => hr (by
    rw [redirects_iff] at hr' ⊢
    exact (h.namespaces _).mpr hr')
  have hnone {r : Relay} (hr : ¬r.Redirects c) :
      r.router.redirection? c.name.namespaceName = none :=
    Option.eq_none_iff_forall_ne_some.mpr fun q hq => hr ⟨q, hq⟩
  simp only [Relay.serve, Router.route, hnone hr, hnone hr', Router.handler?, h.handlers]
  cases r'.router.handlers.find? fun h => h.namespaceName == c.name.namespaceName <;> rfl

/-- What callers are told is the same, when no forwarded call gets through and the others end
alike. -/
theorem Alike.told_eq (h : r.Alike r') {fates fates' : List Fate}
    (hasked : fates.map Fate.asked = fates'.map Fate.asked)
    (hlost : ∀ c a, some (c, a) ∈ fates → r.Redirects c → Unreached a)
    (hlost' : ∀ c a, some (c, a) ∈ fates' → r'.Redirects c → Unreached a)
    (hothers : List.Forall₂ (Fate.Alike r) fates fates') :
    fates.map Fate.told = fates'.map Fate.told := by
  induction hothers with
  | nil => rfl
  | @cons f f' fates fates' hf _ ih =>
    obtain ⟨hhead, htail⟩ := List.cons.inj hasked
    have hrest := ih htail (fun c a hmem => hlost c a (List.mem_cons_of_mem f hmem))
      fun c a hmem => hlost' c a (List.mem_cons_of_mem f' hmem)
    rw [List.map_cons, List.map_cons, hrest]
    refine congrArg (· :: _) ?_
    match f, f' with
    | none, none => rfl
    | some (c, a), some (c', a') =>
      by_cases hr : r.Redirects c
      · have hname : c.name = c'.name := congrArg Prod.fst (Option.some.inj hhead)
        have ha := hlost c a (List.mem_cons_self ..) hr
        have ha' := hlost' c' a' (List.mem_cons_self ..) (h.redirects hname hr)
        exact congrArg some ((ha.told "").trans (ha'.told "").symm)
      · obtain ⟨c'', he⟩ := hf c a rfl hr
        cases he
        rfl

end Relay
/-! ### Requests over HTTP -/

namespace Http

/-- A request whose calls are not looked at is answered at once, whatever the relay is. -/
theorem Visit.begin_refused {config : NetworkConfig} {request : Request}
    (hpath : request.path = "/") (hno : ¬request.Admitted config) (freshId : String) :
    ∃ response, ∀ uptime r party now,
      (begin_ request ⟨config, freshId, uptime⟩ r party now).1 = .ended response := by
  have hresource : Resource.ofPath? request.path = some .calls := by rw [hpath]; rfl
  cases hpassed : turnedAway? config request with
  | some response => exact ⟨sent request response, fun _ _ _ _ => by simp only [begin_, hpassed]⟩
  | none =>
    by_cases htime : 0 < config.requestTimeoutMs
    · have hgoes (now : Nat) : ¬now + config.requestTimeoutMs ≤ now := by omega
      cases hmethod : Resource.calls.allows request.method with
      | false =>
        refine ⟨enveloped ⟨config, freshId, 0⟩ request (.empty 405), fun _ _ _ now => ?_⟩
        simp only [begin_, hpassed, go, if_neg (hgoes now), serve, hresource, hmethod,
          Bool.not_false, if_true]
        rfl
      | true =>
        have hlength : request.bodyLimit config.maxBodyBytes < request.body.length := by
          by_contra hlength
          exact hno ⟨hpassed, hmethod, Nat.not_lt.mp hlength, htime⟩
        refine ⟨enveloped ⟨config, freshId, 0⟩ request
          (.plain 413 ("Failed to buffer the request body: " ++ tooLong)), fun _ _ _ now => ?_⟩
        simp only [begin_, hpassed, go, if_neg (hgoes now), serve, hresource, hmethod,
          Bool.not_true, Bool.false_eq_true, if_false, if_pos hlength]
        rfl
    · have hlate (now : Nat) : now + config.requestTimeoutMs ≤ now := by omega
      refine ⟨expired ⟨config, freshId, 0⟩ request, fun _ _ _ now => ?_⟩
      simp only [begin_, hpassed]
      exact go_late (hlate now)

namespace Occasion
variable {o o' : Occasion} {request : Request}

/-- The answer to a request whose calls are not looked at has nothing to do with the relay. -/
theorem progress_of_refused (hpath : request.path = "/") (hconfig : o.site.config = o'.site.config)
    (hid : o.site.freshId = o'.site.freshId) (hno : ¬request.Admitted o.site.config) :
    ∃ response, o.progress request = .ended response ∧ o'.progress request = .ended response := by
  obtain ⟨response, hresponse⟩ := Visit.begin_refused hpath hno o.site.freshId
  refine ⟨response, ?_, ?_⟩
  · rw [progress, hresponse o.site.uptime, Visit.looks_ended]
  · have hsite : o'.site = ⟨o.site.config, o.site.freshId, o'.site.uptime⟩ := by rw [hconfig, hid]
    rw [progress, hsite, hresponse, Visit.looks_ended]

end Occasion

/-- **Transport failures reveal nothing.** Two nodes have the same handlers and redirect the same
namespaces, to whatever endpoints; a request is posted to both, and whatever happens there, its
exchange is over on both before its time is up. If no forwarded call of its body gets through on
either, and the other calls end alike, then both answer it, with the same bytes, and the caller of
each forwarded call is told what callers are told about an internal failure. -/
theorem unreached_unseen {o o' : Occasion} {request : Request} (hpath : request.path = "/")
    (hconfig : o.site.config = o'.site.config) (hid : o.site.freshId = o'.site.freshId)
    (halike : o.relay.Alike o'.relay) {text? text'? : Option (List Char)}
    (hended : (o.hearing request).passage.progress = .ended text?)
    (hended' : (o'.hearing request).passage.progress = .ended text'?)
    (hlost : ∀ c a, some (c, a) ∈ (o.hearing request).fates → o.relay.Redirects c → Unreached a)
    (hlost' : ∀ c a, some (c, a) ∈ (o'.hearing request).fates → o'.relay.Redirects c → Unreached a)
    (hothers : List.Forall₂ (Fate.Alike o.relay) (o.hearing request).fates
      (o'.hearing request).fates) :
    (∃ response, o.progress request = .ended response ∧ o'.progress request = .ended response) ∧
    (∀ c a, some (c, a) ∈ (o.hearing request).fates ++ (o'.hearing request).fates →
      o.relay.Redirects c → ∀ detail,
        a.mapError CallError.object = .error (CallError.failed detail).object) ∧
    ∀ c now, ¬o.relay.Redirects c → o.relay.serve c now = o'.relay.serve c now := by
  refine ⟨?_, fun c a hmem hr detail => ?_, fun c now hr => halike.serve hr⟩
  · by_cases hadmitted : request.Admitted o.site.config
    · refine ⟨_, Occasion.response_of_ended hpath hadmitted hended, ?_⟩
      rw [Occasion.response_of_ended hpath (hconfig ▸ hadmitted) hended',
        Hearing.text_eq hended hended' fun payload hbody => ?_]
      · simp only [Visit.delivered, Visit.enveloped, hconfig, hid]
      · have hasked := (Hearing.tells_through hbody _).asked_eq (Hearing.tells_through hbody _)
          hended hended'
        exact halike.told_eq hasked hlost hlost' hothers
    · exact Occasion.progress_of_refused hpath hconfig hid hadmitted
  · rcases List.mem_append.mp hmem with hmem | hmem
    · exact (hlost c a hmem hr).told detail
    · exact (hlost' c a hmem (halike.redirects rfl hr)).told detail

/-! ### An outage behind two nodes -/

/-- The namespaces of the calls of a body that is over, each with the result or the label that the
failure is counted under. -/
def outcomes? (h : Hearing) : Option (List (Option (String × Except String Raw))) :=
  match h.passage.progress with
  | .pending _ => none
  | .ended _ =>
    some (h.fates.map (Option.map fun e =>
      (e.1.name.namespaceName, e.2.mapError CallError.outcome)))

/-- Two calls, one that is redirected and has failed under the label, and one that is answered. -/
def servedBeside (label : String) : List (Option (String × Except String Raw)) :=
  [some ("arbtrace", .error label), some ("net", .ok (.ofString "true"))]

theorem ended_of_servedBeside {h : Hearing} {label : String}
    (hlabel : outcomes? h = some (servedBeside label)) :
    (∃ text?, h.passage.progress = .ended text?) ∧
      ∃ c a c', h.fates = [some (c, a), some (c', .ok (.ofString "true"))] ∧
        c.name.namespaceName = "arbtrace" ∧ c'.name.namespaceName = "net" ∧
        a.mapError CallError.outcome = .error label := by
  unfold outcomes? at hlabel
  cases hp : h.passage.progress with
  | pending x =>
    rw [hp] at hlabel
    cases hlabel
  | ended text? =>
    rw [hp] at hlabel
    refine ⟨⟨text?, rfl⟩, ?_⟩
    obtain ⟨f, _, hfates, hf, hrest⟩ := List.map_eq_cons_iff.mp (Option.some.inj hlabel)
    obtain ⟨f', _, rfl, hf', hnil⟩ := List.map_eq_cons_iff.mp hrest
    obtain rfl := List.map_eq_nil_iff.mp hnil
    obtain ⟨⟨c, a⟩, rfl, he⟩ := Option.map_eq_some_iff.mp hf
    obtain ⟨⟨c', a'⟩, rfl, he'⟩ := Option.map_eq_some_iff.mp hf'
    obtain ⟨hc, ha⟩ := Prod.mk.inj he
    obtain ⟨hc', ha'⟩ := Prod.mk.inj he'
    match a' with
    | .ok t =>
      cases ha'
      exact ⟨c, a, c', hfates, hc, hc', ha⟩

theorem unreached_of_outcome {a : Answer} {label : String}
    (h : a.mapError CallError.outcome = .error label)
    (hlabel : label = "connect_error" ∨ label = "closed") : Unreached a := by
  match a with
  | .ok t => cases h
  | .error e =>
    cases h
    cases e <;> simp [CallError.outcome] at hlabel
    · exact .connect _ _
    · exact .closed

theorem unreached_of_servedBeside {h : Hearing} {label : String}
    (hh : outcomes? h = some (servedBeside label))
    (hlabel : label = "connect_error" ∨ label = "closed") {c : Call} {a : Answer}
    (hmem : some (c, a) ∈ h.fates) (hc : c.name.namespaceName = "arbtrace") : Unreached a := by
  obtain ⟨-, c₁, a₁, c₂, hfates, -, hc₂, ha⟩ := ended_of_servedBeside hh
  simp only [hfates, List.mem_cons, List.not_mem_nil, or_false] at hmem
  rcases hmem with hmem | hmem <;> cases hmem
  · exact unreached_of_outcome ha hlabel
  · exact absurd (hc₂.symm.trans hc) (by decide)

/-- A node that redirects one namespace, to the socket. -/
def redirecting (path : String) (connectTimeoutMs : Nat) : Relay :=
  let q : Redirection := ⟨⟨"arbtrace", path, connectTimeoutMs⟩, .ipc path⟩
  { hub := .ofRedirections 64 [q]
    free := 2
    classifier := { timeoutMs := 1000 }
    router := .ofHandlers [q] [] }

theorem redirecting_redirects {path : String} {connectTimeoutMs : Nat} {c : Call} :
    (redirecting path connectTimeoutMs).Redirects c ↔ c.name.namespaceName = "arbtrace" :=
  Relay.redirects_iff.trans List.mem_singleton

/-- A call that is redirected, and one that is not. -/
def posted : Request where
  method := "POST"
  path := "/"
  headers := []
  body := (Raw.list [⟨writeObject [writeMember "jsonrpc" (writeString "2.0"),
      writeMember "id" ['1'], writeMember "method" (writeString "arbtrace_call")]⟩,
    ⟨writeObject [writeMember "jsonrpc" (writeString "2.0"), writeMember "id" ['2'],
      writeMember "method" (writeString "net_listening")]⟩]).text.toUTF8.toList

/-- The relay, when the request has come in and the dial that it asks for has failed. -/
def undialed : Relay :=
  let r := (Passage.begin_ ⟨posted.body.toArray⟩ (redirecting "node.ipc" 1000) 0 0).relay
  { r with hub := r.hub.endDial 0 (.error "Connection refused") }

def refused : Occasion where
  site := ⟨{}, "request", 3⟩
  relay := redirecting "node.ipc" 1000
  party := 0
  now := 0
  looks := [⟨undialed, 5, 0, by decide +kernel⟩]

theorem refused_outcomes :
    outcomes? (refused.hearing posted) = some (servedBeside "connect_error") := by
  decide +kernel

/-- Another node, whose connections have been closed before. -/
def closing : Occasion where
  site := ⟨{}, "request", 80⟩
  relay := { redirecting "spare.ipc" 20 with hub := (redirecting "spare.ipc" 20).hub.closeAll }
  party := 4
  now := 70
  looks := []

/-- One node cannot dial its endpoint, and the other has closed its connection: the client sees no
difference. -/
theorem outage_unseen :
    outcomes? (refused.hearing posted) = some (servedBeside "connect_error") ∧
    outcomes? (closing.hearing posted) = some (servedBeside "closed") ∧
    ∃ response, refused.progress posted = .ended response ∧
      closing.progress posted = .ended response := by
  have hrefused := refused_outcomes
  have hclosing : outcomes? (closing.hearing posted) = some (servedBeside "closed") := by
    decide +kernel
  obtain ⟨⟨text?, hended⟩, c, a, d, hfates, hc, -⟩ := ended_of_servedBeside hrefused
  obtain ⟨⟨text'?, hended'⟩, c', a', d', hfates', -⟩ := ended_of_servedBeside hclosing
  have hothers : List.Forall₂ (Fate.Alike refused.relay) (refused.hearing posted).fates
      (closing.hearing posted).fates := by
    rw [hfates, hfates']
    refine .cons (fun _ _ heq hno => ?_) (.cons (fun _ _ heq _ => ?_) .nil)
    · cases heq
      exact absurd (redirecting_redirects.mpr hc) hno
    · cases heq
      exact ⟨d', rfl⟩
  refine ⟨hrefused, hclosing, (@unreached_unseen refused closing posted rfl rfl rfl
    ⟨rfl, fun _ => Iff.rfl⟩ _ _ hended hended' (fun c a hmem hr => ?_) (fun c a hmem hr => ?_)
    hothers).1⟩
  · exact unreached_of_servedBeside hrefused (.inl rfl) hmem (redirecting_redirects.mp hr)
  · exact unreached_of_servedBeside hclosing (.inr rfl) hmem (redirecting_redirects.mp hr)

end Http
end Switchboard
