import Switchboard.Proofs.Call.Fates

/-! Requests over HTTP, and all looks at them.

A request is looked at when it comes in, and again until it is answered; in between others use the
relay. An *occasion* is a node as a request finds it, together with these looks. A request whose
calls are looked at is answered with what the exchange of its body comes to before its time is up,
or else ends with its time (`Http.Occasion.progress_timed`). -/
namespace Switchboard.Http
open Json Redirect

/-! ### One visit -/

namespace Visit

/-- The request is looked at again, unless it has been answered. -/
def look (site : Site) (party : Nat) (p : Progress) (l : Look) : Progress :=
  match p with
  | .pending v => (v.go site l.relay party l.now).1
  | .ended response => .ended response

theorem looks_ended (site : Site) (party : Nat) (response : Response) (looks : List Look) :
    looks.foldl (look site party) (.ended response) = .ended response :=
  List.foldl_fixed' (fun _ => rfl) looks

/-- A response that comes in time, as it is sent. -/
def enveloped (site : Site) (request : Request) (response : Response) : Response :=
  sent request ((response.correlated site.freshId request).shared site.config.corsOrigins request)

/-- The response that carries what an exchange comes to. -/
def delivered (site : Site) (request : Request) (text? : Option (List Char)) : Response :=
  enveloped site request (ofText text?)

/-- The response to a request whose time is up. -/
def expired (site : Site) (request : Request) : Response :=
  sent request ((Response.empty 408).shared site.config.corsOrigins request)

variable {site : Site} {request : Request} {deadline party now : Nat} {r : Relay}

/-- In time, a visit goes as far as its exchange. -/
theorem go_exchange {v : Visit} {x : Exchange} (hx : v.exchange? = some x)
    (htime : now < v.deadline) :
    (v.go site r party now).1 =
      match (x.go r party now).1 with
      | .pending x => .pending { v with exchange? := some x }
      | .ended text? => .ended (delivered site v.request text?) := by
  simp only [go, if_neg (Nat.not_le.mpr htime), hx]
  generalize x.go r party now = result
  obtain ⟨progress, r⟩ := result
  cases progress <;> rfl

theorem go_late {v : Visit} (h : v.deadline ≤ now) :
    (v.go site r party now).1 = .ended (expired site v.request) := by
  simp only [go, if_pos h]
  rfl

/-- What a visit has come to after these looks, when its exchange has come to that in time. -/
def timed (site : Site) (request : Request) (deadline : Nat) (looks : List Look) :
    Exchange.Progress → Progress
  | .ended text? => .ended (delivered site request text?)
  | .pending x =>
    if ∃ l ∈ looks, deadline ≤ l.now then .ended (expired site request)
    else .pending ⟨request, deadline, some x⟩

theorem timed_cons {l : Look} (hl : l.now < deadline) (looks : List Look) :
    timed site request deadline (l :: looks) = timed site request deadline looks := by
  have hlate : (∃ l' ∈ l :: looks, deadline ≤ l'.now) ↔ ∃ l' ∈ looks, deadline ≤ l'.now := by
    simp [Nat.not_le.mpr hl]
  funext progress
  cases progress with
  | ended text? => rfl
  | pending x => simp only [timed, hlate]

/-- A visit goes as far as its exchange while it has time, and ends with its time. -/
theorem looks_timed {p : Passage} {x : Exchange} (hp : p.progress = .pending x)
    (looks : List Look) :
    looks.foldl (look site party) (.pending ⟨request, deadline, some x⟩) =
      timed site request deadline looks
        ((looks.takeWhile fun l => l.now < deadline).foldl
          (fun p l => p.look party l) p).progress := by
  -- The passage of the body is looked at along with the visit, up to the first look that is late.
  induction looks generalizing p x with
  | nil =>
    rw [List.takeWhile_nil, List.foldl_nil, List.foldl_nil, hp]
    simp [timed]
  | cons l rest ih =>
    rw [List.foldl_cons, look]
    by_cases hl : l.now < deadline
    · have hlook : (p.look party l).progress = (x.go l.relay party l.now).1 := by
        rw [Passage.look, hp]
      rw [List.takeWhile_cons_of_pos (by simpa using hl), List.foldl_cons, timed_cons hl,
        @go_exchange site party l.now l.relay ⟨request, deadline, some x⟩ x rfl hl]
      cases hx : (x.go l.relay party l.now).1 with
      | pending x' => exact ih (hlook.trans hx)
      | ended text? =>
        rw [Passage.looks_ended (hlook.trans hx), looks_ended, hlook, hx]
        rfl
    · have hlate : ∃ l' ∈ l :: rest, deadline ≤ l'.now :=
        ⟨l, List.mem_cons_self .., Nat.not_lt.mp hl⟩
      rw [List.takeWhile_cons_of_neg (by simpa using hl), List.foldl_nil, hp,
        go_late (Nat.not_lt.mp hl), looks_ended, timed, if_pos hlate]

end Visit

/-- The calls of the request are looked at when it arrives. -/
structure Request.Admitted (config : NetworkConfig) (request : Request) : Prop where
  passed : turnedAway? config request = none
  method : Resource.calls.allows request.method = true
  length : request.body.length ≤ request.bodyLimit config.maxBodyBytes
  time : 0 < config.requestTimeoutMs

/-- The visit of a request whose calls are looked at goes as far as its exchange. -/
theorem Visit.begin_admitted {site : Site} {request : Request} {r : Relay} {party now : Nat}
    (hpath : request.path = "/") (hadmitted : request.Admitted site.config) :
    (begin_ request site r party now).1 =
      match (Exchange.begin_ ⟨request.body.toArray⟩ r party now).1 with
      | .pending x => .pending ⟨request, now + site.config.requestTimeoutMs, some x⟩
      | .ended text? => .ended (delivered site request text?) := by
  have hresource : Resource.ofPath? request.path = some .calls := by rw [hpath]; rfl
  have htime : ¬now + site.config.requestTimeoutMs ≤ now := by
    have := hadmitted.time
    omega
  simp only [begin_, hadmitted.passed, go, if_neg htime, serve, hresource, hadmitted.method,
    Bool.not_true, Bool.false_eq_true, if_false, if_neg (Nat.not_lt.mpr hadmitted.length)]
  generalize Exchange.begin_ _ r party now = result
  obtain ⟨progress, r⟩ := result
  cases progress <;> rfl

/-! ### Occasions -/

/-- A node as a request finds it, and all looks at the request, whatever happens in between. -/
structure Occasion where
  site : Site
  relay : Relay
  party : Nat
  now : Nat
  looks : List Look

namespace Occasion
variable (o : Occasion) {request : Request} {text? : Option (List Char)}

/-- What becomes of the request. -/
def progress (request : Request) : Visit.Progress :=
  o.looks.foldl (Visit.look o.site o.party)
    (Visit.begin_ request o.site o.relay o.party o.now).1

/-- The looks before the time of the request is up. -/
def inTime : List Look :=
  o.looks.takeWhile fun l => l.now < o.now + o.site.config.requestTimeoutMs

/-- What becomes of its body in time. -/
def hearing (request : Request) : Hearing :=
  .through ⟨request.body.toArray⟩ o.relay o.party o.now o.inTime

variable {o}

/-- **What the exchange comes to in time is what the request is answered with**, or it ends with its
time. -/
theorem progress_timed (hpath : request.path = "/") (hadmitted : request.Admitted o.site.config) :
    o.progress request =
      Visit.timed o.site request (o.now + o.site.config.requestTimeoutMs) o.looks
        (o.hearing request).passage.progress := by
  rw [hearing, Hearing.through_passage, Passage.through, progress,
    Visit.begin_admitted hpath hadmitted]
  cases hx : (Exchange.begin_ ⟨request.body.toArray⟩ o.relay o.party o.now).1 with
  | pending x => exact Visit.looks_timed (p := .begin_ _ o.relay o.party o.now) hx o.looks
  | ended t =>
    rw [Passage.looks_ended (p := .begin_ _ o.relay o.party o.now) hx, Visit.looks_ended]
    exact congrArg (Visit.timed _ _ _ _) hx.symm

theorem response_of_ended (hpath : request.path = "/")
    (hadmitted : request.Admitted o.site.config)
    (hended : (o.hearing request).passage.progress = .ended text?) :
    o.progress request = .ended (Visit.delivered o.site request text?) := by
  rw [progress_timed hpath hadmitted, hended]
  rfl

end Occasion
end Switchboard.Http
