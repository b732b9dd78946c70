import Switchboard.Proofs.Call.Discretion

/-! Which responses bear the id of their request.

Every request has an id, its own or a fresh one. It is put on the response next to what serves the
request, inside of all that surrounds it. So the surroundings answer without it: a request that
declares too long a body is refused, one that asks what scripts of another origin may do is told,
and one whose time is up gets no other answer. Every other response, be it that a path is not
served, that a path does not have a method or that a body turns out too long, bears the id of its
request, once (`Http.ids_returned`). -/
namespace Switchboard.Http
open Redirect

/-! ### Ids among the headers -/

namespace Response
variable {r : Response} {request : Request} {origins : List String}

/-- All ids that the response bears. -/
def ids (r : Response) : List String :=
  (r.headers.filter fun h => h.1 == requestIdHeader).map Prod.snd

@[simp]
theorem ids_withHeader (r : Response) (name value : String) :
    (r.withHeader name value).ids =
      r.ids ++ if name = requestIdHeader then [value] else [] := by
  by_cases h : name = requestIdHeader <;> simp [ids, withHeader, h]

theorem ids_empty (status : Nat) : (empty status).ids = [] := rfl

theorem ids_plain (status : Nat) (text : String) : (plain status text).ids = [] := rfl

theorem ids_json (body : List Char) : (json body).ids = [] := rfl

theorem ids_allowing : (r.allowing origins request).ids = r.ids := by
  unfold allowing
  split
  · simp [requestIdHeader]
  · rfl

theorem ids_shared : (r.shared origins request).ids = r.ids := by
  simp [shared, ids_allowing, requestIdHeader]

theorem ids_correlated (fresh : String) :
    (r.correlated fresh request).ids = r.ids ++ [request.id fresh] := by
  simp [correlated]

theorem ids_framed (resource : Resource) : (r.framed resource request).ids = r.ids := by
  have hlength (text : String) : ((if resource.allows request.method then r
      else r.withHeader "allow" (",".intercalate resource.methods)).withHeader
        "content-length" text).ids = r.ids := by
    split <;> simp [requestIdHeader]
  unfold framed
  dsimp only
  split
  · exact hlength _
  · exact hlength _

end Response

theorem ids_sent (request : Request) (response : Response) :
    (sent request response).ids = response.ids := by
  unfold sent
  split
  · exact response.ids_framed _
  · rfl

/-! ### What surrounds what serves requests -/

variable {site : Site} {request : Request} {r : Relay} {party now : Nat}

theorem ids_turnedAway {config : NetworkConfig} {response : Response}
    (h : turnedAway? config request = some response) : response.ids = [] := by
  unfold turnedAway? at h
  split at h
  · cases h
    exact Response.ids_plain _ _
  · split at h
    · cases h
      simp [preflight, Response.ids_allowing, Response.ids_empty, requestIdHeader]
    · cases h

theorem turnedAway?_eq_none_iff {config : NetworkConfig} :
    turnedAway? config request = none ↔
      request.declaresTooMuch config.maxBodyBytes = false ∧ request.method ≠ "OPTIONS" := by
  unfold turnedAway?
  cases request.declaresTooMuch config.maxBodyBytes <;> simp

theorem Resource.eq_root_of_calls {path : String} (h : ofPath? path = some calls) :
    path = "/" := by
  unfold ofPath? at h
  split at h
  case h_1 => rfl
  all_goals cases h

namespace Visit

theorem ids_expired : (expired site request).ids = [] := by
  rw [expired, ids_sent, Response.ids_shared, Response.ids_empty]

theorem ids_enveloped (site : Site) (request : Request) (response : Response) :
    (enveloped site request response).ids = response.ids ++ [request.id site.freshId] := by
  rw [enveloped, ids_sent, Response.ids_shared, Response.ids_correlated]

theorem ids_ofText (text? : Option (List Char)) : (ofText text?).ids = [] := by
  cases text? <;> rfl

/-! ### What serves requests -/

/-- Whatever is no call, and calls that are not looked at, are answered at once. -/
theorem serve_unasked {v : Visit}
    (hno : v.request.path = "/" → Resource.calls.allows v.request.method = true →
      v.request.bodyLimit site.config.maxBodyBytes < v.request.body.length) :
    ∃ response, response.ids = [] ∧ (v.serve site r party now).1 = .ended response := by
  unfold serve
  cases hresource : Resource.ofPath? v.request.path with
  | none => exact ⟨.empty 404, Response.ids_empty _, rfl⟩
  | some resource =>
    dsimp only
    cases hmethod : resource.allows v.request.method with
    | false => exact ⟨.empty 405, Response.ids_empty _, rfl⟩
    | true =>
      cases resource with
      | calls =>
        have hlength := hno (Resource.eq_root_of_calls hresource) hmethod
        simp only [Bool.not_true, Bool.false_eq_true, if_false, if_pos hlength]
        exact ⟨_, Response.ids_plain _ _, rfl⟩
      | health => exact ⟨_, Response.ids_json _, rfl⟩
      | liveness => exact ⟨_, Response.ids_empty _, rfl⟩
      | readiness => exact ⟨_, Response.ids_empty _, rfl⟩

theorem begin_unasked (hpassed : turnedAway? site.config request = none)
    (htime : 0 < site.config.requestTimeoutMs)
    (hno : ¬(request.path = "/" ∧ request.Admitted site.config)) :
    ∃ response, response.ids = [] ∧
      (begin_ request site r party now).1 = .ended (enveloped site request response) := by
  have hgoes : ¬now + site.config.requestTimeoutMs ≤ now := by omega
  obtain ⟨response, hids, hserve⟩ := @serve_unasked site r party now
    ⟨request, now + site.config.requestTimeoutMs, none⟩ fun hpath hmethod => by
      by_contra hlength
      exact hno ⟨hpath, hpassed, hmethod, Nat.not_lt.mp hlength, htime⟩
  refine ⟨response, hids, ?_⟩
  simp only [begin_, hpassed, go, if_neg hgoes]
  generalize serve _ site r party now = result at hserve
  obtain ⟨progress, r⟩ := result
  cases hserve
  rfl

end Visit

/-! ### Requests over HTTP -/

namespace Occasion
variable {o : Occasion} {request : Request}

/-- The request comes through to what serves it, and is served before its time is up: its calls
have been answered by then, and whatever is no call is answered at once. -/
structure Serves (o : Occasion) (request : Request) : Prop where
  length : request.declaresTooMuch o.site.config.maxBodyBytes = false
  method : request.method ≠ "OPTIONS"
  time : 0 < o.site.config.requestTimeoutMs
  calls : request.path = "/" → request.Admitted o.site.config →
    ∃ text?, (o.hearing request).passage.progress = .ended text?

/-- What surrounds what serves requests answers by itself. -/
def refusal (o : Occasion) (request : Request) : Response :=
  match turnedAway? o.site.config request with
  | some response => sent request response
  | none => Visit.expired o.site request

theorem ids_refusal : (o.refusal request).ids = [] := by
  unfold refusal
  split
  · rename_i h
    rw [ids_sent, ids_turnedAway h]
  · exact Visit.ids_expired

/-- A request that is served is answered under its id. -/
theorem Serves.progress_eq (h : o.Serves request) :
    ∃ response, response.ids = [] ∧
      o.progress request = .ended (Visit.enveloped o.site request response) := by
  by_cases hasked : request.path = "/" ∧ request.Admitted o.site.config
  · obtain ⟨text?, hended⟩ := h.calls hasked.1 hasked.2
    exact ⟨_, Visit.ids_ofText text?, response_of_ended hasked.1 hasked.2 hended⟩
  · obtain ⟨response, hids, hbegin⟩ := @Visit.begin_unasked o.site request o.relay o.party o.now
      (turnedAway?_eq_none_iff.mpr ⟨h.length, h.method⟩) h.time hasked
    exact ⟨response, hids, by rw [progress, hbegin, Visit.looks_ended]⟩

/-- A request that is not served waits for its time to be up, or has been answered by what
surrounds what would serve it. -/
theorem progress_of_not_serves (h : ¬o.Serves request) :
    (∃ v, o.progress request = .pending v ∧
      ¬∃ l ∈ o.looks, o.now + o.site.config.requestTimeoutMs ≤ l.now) ∨
    o.progress request = .ended (o.refusal request) := by
  cases hpassed : turnedAway? o.site.config request with
  | some response =>
    right
    simp only [progress, Visit.begin_, refusal, hpassed]
    exact Visit.looks_ended ..
  | none =>
    have hrefusal : o.refusal request = Visit.expired o.site request := by
      simp only [refusal, hpassed]
    by_cases htime : 0 < o.site.config.requestTimeoutMs
    · obtain ⟨hlength, hmethod⟩ := turnedAway?_eq_none_iff.mp hpassed
      -- Whatever is no call has been served, so the request waits for its calls.
      have hcalls : ∃ x, request.path = "/" ∧ request.Admitted o.site.config ∧
          (o.hearing request).passage.progress = .pending x := by
        by_contra hno
        refine h ⟨hlength, hmethod, htime, fun hpath hadmitted => ?_⟩
        cases hx : (o.hearing request).passage.progress with
        | pending x => exact absurd ⟨x, hpath, hadmitted, hx⟩ hno
        | ended text? => exact ⟨text?, rfl⟩
      obtain ⟨x, hpath, hadmitted, hx⟩ := hcalls
      rw [progress_timed hpath hadmitted, hx, hrefusal, Visit.timed]
      split
      · exact .inr rfl
      · rename_i hlate
        exact .inl ⟨_, rfl, hlate⟩
    · right
      have hlate : o.now + o.site.config.requestTimeoutMs ≤ o.now := by omega
      have hbegin : (Visit.begin_ request o.site o.relay o.party o.now).1 =
          .ended (Visit.expired o.site request) := by
        simp only [Visit.begin_, hpassed]
        exact Visit.go_late hlate
      rw [progress, hbegin, Visit.looks_ended, hrefusal]

end Occasion

/-- **A response bears the id of its request exactly if what serves requests has given it.**
Whatever the configuration and the request are, and whatever happens to the relay meanwhile: a
request that is let through and served in time is answered, and the response bears one id, the one
that the client sent, or a fresh one. Any other request is answered by what surrounds that, when it
comes in or when it is looked at after its time is up, and such a response bears no id, also if the
client sent one. -/
theorem ids_returned (o : Occasion) (request : Request) :
    (o.Serves request → ∃ response, o.progress request = .ended response ∧
      response.ids = [(request.header? requestIdHeader).getD o.site.freshId]) ∧
    (¬o.Serves request → ∀ response, o.progress request = .ended response →
      response = o.refusal request ∧ response.ids = []) ∧
    ((∃ l ∈ o.looks, o.now + o.site.config.requestTimeoutMs ≤ l.now) →
      ∃ response, o.progress request = .ended response) := by
  refine ⟨fun h => ?_, fun h response hended => ?_, fun hlate => ?_⟩
  · obtain ⟨response, hids, hended⟩ := h.progress_eq
    refine ⟨_, hended, ?_⟩
    rw [Visit.ids_enveloped, hids]
    rfl
  · rcases Occasion.progress_of_not_serves h with ⟨v, hpending, -⟩ | hrefused
    · cases hpending.symm.trans hended
    · cases hrefused.symm.trans hended
      exact ⟨rfl, Occasion.ids_refusal⟩
  · by_cases h : o.Serves request
    · obtain ⟨response, -, hended⟩ := h.progress_eq
      exact ⟨_, hended⟩
    · rcases Occasion.progress_of_not_serves h with ⟨v, -, hearly⟩ | hrefused
      · exact absurd hlate hearly
      · exact ⟨_, hrefused⟩

/-! ### One client, one id -/

/-- The calls, from a client that sends an id. -/
def named : Request := { posted with headers := [(requestIdHeader, "probe-7")] }

/-- The client asks first what it may send. -/
def asking : Request := { named with method := "OPTIONS", body := [] }

/-- The client says how long the body is. -/
def declared : Request :=
  { named with headers := named.headers ++ [("content-length", toString named.body.length)] }

/-- A node that takes short bodies only. -/
def tight : Occasion := { refused with site := ⟨{ maxBodyBytes := 16 }, "request", 3⟩ }

/-- The dial takes longer than the request has time. -/
def late : Occasion where
  site := ⟨{ requestTimeoutMs := 20 }, "request", 3⟩
  relay := redirecting "node.ipc" 1000
  party := 0
  now := 0
  looks :=
    [⟨(Passage.begin_ ⟨posted.body.toArray⟩ (redirecting "node.ipc" 1000) 0 0).relay, 20, 0,
      by decide +kernel⟩]

/-- The client finds its id again when one call cannot be forwarded and the other is answered, not
when it only asks what it may send; and it is answered when its time is up. -/
theorem named_returned :
    (refused.Serves named ∧ ∃ response, refused.progress named = .ended response ∧
      response.ids = ["probe-7"]) ∧
    (¬refused.Serves asking ∧ ∃ response, refused.progress asking = .ended response ∧
      response.ids = []) ∧
    ∃ response, late.progress named = .ended response := by
  have hserves : refused.Serves named :=
    ⟨rfl, by decide, by decide, fun _ _ => (ended_of_servedBeside refused_outcomes).1⟩
  have hasking : ¬refused.Serves asking := fun h => h.method rfl
  obtain ⟨response, hended⟩ : ∃ response, refused.progress asking = .ended response := ⟨_, rfl⟩
  exact ⟨⟨hserves, (ids_returned refused named).1 hserves⟩,
    ⟨hasking, response, hended, ((ids_returned refused asking).2.1 hasking response hended).2⟩,
    (ids_returned late named).2.2 ⟨_, List.mem_singleton_self _, Nat.le_refl 20⟩⟩

/-- The status and the ids of the response, once there is one. -/
def Visit.Progress.seen? : Progress → Option (Nat × List String)
  | .pending _ => none
  | .ended response => some (response.status, response.ids)

/-- **The surroundings lose the id.** The client sends it each time, and finds it on none of the
responses of what surrounds the paths, though a body that is as long and does not say so is refused
under it. -/
theorem lost_outside :
    (∀ request ∈ [named, asking, declared], request.header? requestIdHeader = some "probe-7") ∧
    (late.progress named).seen? = some (408, []) ∧
    (refused.progress asking).seen? = some (200, []) ∧
    (tight.progress declared).seen? = some (413, []) ∧
    (tight.progress named).seen? = some (413, ["probe-7"]) := by
  refine ⟨?_, ?_, ?_, ?_, ?_⟩ <;> decide +kernel

end Switchboard.Http
