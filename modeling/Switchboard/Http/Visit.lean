import Switchboard.Call.Exchange
import Switchboard.Http.Envelope

/-! An HTTP request on its way through the node.

Whoever asks for something has a limited time for it, after which the request ends
without its answer and is given up. Everything but calls is answered at once. -/
namespace Switchboard.Http
open Json Redirect

/-! ### Health -/

/-- What `/health` says about a redirection. -/
def redirectText (s : Status) : List Char :=
  writeObject [writeMember "namespace" (writeString s.namespaceName),
    writeMember "endpoint" (writeString s.endpoint), writeMember "state" (writeString s.state),
    writeMember "dials" (toString s.dials).toList]

/-- What `/health` says of a node that has been up for that many seconds. -/
def healthText (r : Relay) (uptime : Nat) : List Char :=
  writeObject [writeMember "state" (writeString r.controller.health.name),
    writeMember "in_flight" (toString r.controller.inFlight).toList,
    writeMember "uptime_secs" (toString uptime).toList,
    writeMember "redirects" (writeList (r.hub.statuses.map redirectText))]

/-- Ready is the one state in which requests should come. -/
def readiness (r : Relay) : Response :=
  .empty (if r.controller.health = .ready then 200 else 503)

/-! ### Visits -/

/-- What a node knows about itself when it answers. -/
structure Site where
  config : NetworkConfig
  /-- The id for a request that brings none. -/
  freshId : String
  /-- For how many seconds the node has been up. -/
  uptime : Nat

structure Visit where
  request : Request
  deadline : Nat
  /-- The calls the request makes, once it has been looked at. -/
  exchange? : Option Exchange := none

namespace Visit

inductive Progress where
  | pending (v : Visit)
  | ended (response : Response)

def drop (v : Visit) (r : Relay) : Relay :=
  match v.exchange? with
  | some x => x.drop r
  | none => r

/-- The response that carries an answer. -/
def ofText : Option (List Char) → Response
  | some text => .json text
  | none => .empty 204

/-- What has become of the calls. -/
def ofExchange (v : Visit) : Exchange.Progress × Relay → Progress × Relay
  | (.pending x, r) => (.pending { v with exchange? := some x }, r)
  | (.ended text?, r) => (.ended (ofText text?), r)

/-- The request is looked at. -/
def serve (v : Visit) (site : Site) (r : Relay) (party now : Nat) : Progress × Relay :=
  match Resource.ofPath? v.request.path with
  | none => (.ended (.empty 404), r)
  | some resource =>
    if !resource.allows v.request.method then (.ended (.empty 405), r)
    else
      match resource with
      | .calls =>
        if v.request.bodyLimit site.config.maxBodyBytes < v.request.body.length then
          (.ended (.plain 413 ("Failed to buffer the request body: " ++ tooLong)), r)
        else v.ofExchange (Exchange.begin_ ⟨v.request.body.toArray⟩ r party now)
      | .health => (.ended (.json (healthText r site.uptime)), r)
      | .liveness => (.ended (.empty 200), r)
      | .readiness => (.ended (readiness r), r)

/-- As far as the request goes now; its time is looked at first. -/
def go (v : Visit) (site : Site) (r : Relay) (party now : Nat) : Progress × Relay :=
  let finish (response : Response) : Progress :=
    .ended (sent v.request (response.shared site.config.corsOrigins v.request))
  if v.deadline ≤ now then (finish (.empty 408), v.drop r)
  else
    let result := match v.exchange? with
      | some x => v.ofExchange (x.go r party now)
      | none => v.serve site r party now
    match result with
    | (.pending v, r) => (.pending v, r)
    | (.ended response, r) => (finish (response.correlated site.freshId v.request), r)

/-- A request arrives. -/
def begin_ (request : Request) (site : Site) (r : Relay) (party now : Nat) : Progress × Relay :=
  match turnedAway? site.config request with
  | some response => (.ended (sent request response), r)
  | none =>
    ({ request, deadline := now + site.config.requestTimeoutMs } : Visit).go site r party now

/-- When the request is to be looked at again, whatever happens. -/
def wakes (v : Visit) : List Nat :=
  v.deadline :: (match v.exchange? with
    | some x => x.wakes
    | none => [])

end Visit
end Switchboard.Http
