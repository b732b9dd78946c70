import Switchboard.Call.Exchange
import Switchboard.Node.Build
import Switchboard.Proofs.Call.Classifying
import Switchboard.Proofs.Connection.Answering
import Switchboard.Proofs.Connection.Lines
import Switchboard.Proofs.Hub.Accounting

/-! Calls and results that are passed on.

A request under a redirected namespace becomes a call that is forwarded under the very name it
came with, with the texts it has for its arguments (`Slot.begin_redirected`), and every line that
carries it is spelt from these (`Dispatch.line_eq`). What a call over a connection returns is what
its caller is answered with (`Slot.go_returned`), so a result is passed back as the endpoint spelt
it (`relayed_as_spelt`). -/
namespace Switchboard
open Json Redirect

/-! ### From an entry to a forwarded call -/

/-- The relay has a manager for each of its redirections. -/
def Relay.Wired (r : Relay) : Prop :=
  r.hub.managers.map Manager.redirection = r.router.redirections

namespace Relay
variable {r : Relay}

theorem redirections_ofHandlers (redirections : List Redirection) (others : List Handler) :
    (Router.ofHandlers redirections others).redirections = redirections := by
  have hfold (hs : List Handler) (q : Router) :
      (hs.foldl Router.register q).redirections = q.redirections := by
    induction hs generalizing q with
    | nil => rfl
    | cons h hs ih => exact ih (q.register h)
  exact hfold _ _

theorem map_redirection_ofRedirections (longestFrame : Nat) (redirections : List Redirection) :
    (Hub.ofRedirections longestFrame redirections).managers.map Manager.redirection =
      redirections := by
  rw [Hub.ofRedirections, List.map_map]
  exact List.map_id _

/-- A relay is wired as it is put together. -/
theorem wired_ofConfig {c : ServerConfig} {others : List Handler} (h : ofConfig c others = .ok r) :
    r.Wired := by
  unfold ofConfig at h
  split at h <;> cases h
  exact (map_redirection_ofRedirections _ _).trans (redirections_ofHandlers _ _).symm

end Relay

namespace Redirect.Course

/-- A manager that is changed keeps its redirection. -/
theorem map_redirection_set {managers : List Manager} {i : Nat} {m m' : Manager}
    (hm : managers[i]? = some m) (h : m'.redirection = m.redirection) :
    (managers.set i m').map Manager.redirection = managers.map Manager.redirection := by
  obtain ⟨hi, rfl⟩ := List.getElem?_eq_some_iff.mp hm
  rw [List.map_set, h, ← List.getElem_map Manager.redirection (h := by simpa using hi),
    List.set_getElem_self]

theorem map_redirection_changes {s s' : Course} {a : Act} {es : List Notice}
    (h : Changes s a s' es) :
    s'.hub.managers.map Manager.redirection = s.hub.managers.map Manager.redirection := by
  have same {i : Nat} {m m' : Manager} (hm : s.hub.managers[i]? = some m)
      (hs : s'.hub.managers = s.hub.managers.set i m') (hr : m'.redirection = m.redirection) :
      s'.hub.managers.map Manager.redirection = s.hub.managers.map Manager.redirection := by
    rw [hs, map_redirection_set hm hr]
  cases h with
  | steady h => rw [h.managers]
  | begins hm _ hb => exact same hm hb.managers rfl
  | connects _ _ hmanagers => rw [hmanagers]
  | @ends d _ reason _ _ _ hm he =>
    generalize s.result d reason = result at he
    cases he with
    | kept _ hmanagers => exact same hm hmanagers rfl
    | failed _ hmanagers => exact same hm hmanagers rfl
    | late _ hmanagers => rw [hmanagers]
  | closes hm hc => exact same hm hc.managers rfl

/-- Whatever is done on a hub, it keeps its redirections. -/
theorem map_redirection_run {longestFrame : Nat} {redirections : List Redirection} {s : Course}
    {acts : List Act} (h : (opened longestFrame redirections).run acts = some s) :
    s.hub.managers.map Manager.redirection = redirections := by
  refine (run_preserves (P := fun s => Accounted s ∧
    s.hub.managers.map Manager.redirection = redirections) ?_ h
    ⟨accounted_opened .., Relay.map_redirection_ofRedirections ..⟩).2
  intro s s' a _ ⟨hacc, hsame⟩ hstep
  obtain ⟨es, -, hc⟩ := step_changes hacc.orderly.owned hstep
  exact ⟨hacc.step hstep, (map_redirection_changes hc).trans hsame⟩

end Redirect.Course

/-! ### A call that is redirected -/

section Calls
variable {r : Relay} {entry : Raw} {q : Request} {items : List Raw} {name : Method}
  {redirection : Redirection}

/-- A wired relay has a manager where its router has a redirection. -/
theorem Relay.Wired.manager? (h : r.Wired) {ns : String}
    (hroute : r.router.route ns = .redirect redirection) :
    ∃ manager, r.hub.manager? redirection.namespaceName = some manager := by
  have hmem : redirection ∈ r.router.redirections := by
    unfold Router.route at hroute
    split at hroute
    · rename_i hfind
      cases hroute
      exact List.mem_of_find?_eq_some hfind
    · split at hroute <;> cases hroute
  rw [← h] at hmem
  obtain ⟨m, hm, rfl⟩ := List.mem_map.mp hmem
  refine Option.isSome_iff_exists.mp (List.findIdx?_isSome.trans ?_)
  exact List.any_eq_true.mpr ⟨m, hm, beq_self_eq_true _⟩

theorem Relay.serve_redirected {c : Call} {manager : Nat}
    (hroute : r.router.route c.name.namespaceName = .redirect redirection)
    (hm : r.hub.manager? redirection.namespaceName = some manager) (now : Nat) :
    r.serve c now = .forwarding { manager, method := c.name.full, arguments := c.arguments } := by
  simp only [serve, hroute, hm]

/-- A request by position becomes a call with the texts of its arguments. -/
theorem Classifier.classify_positional (c : Classifier) (hr : entry.IsText)
    (hq : Request.ofRaw entry = .ok q) (ha : Request.Positional entry items)
    (hname : Method.parse q.method = some name) (token : Token) :
    c.classify q token =
      (.ok ⟨c.next, c.timeoutMs, token, name, items⟩, { c with next := c.next + 1 }) := by
  simp only [classify, hname, ha.arguments hr (Request.takes_of_ofRaw hr hq)]

/-- **An entry under a redirected namespace becomes a call that is forwarded** under the name it
came with, with the texts it has for its arguments. -/
theorem Slot.begin_redirected (hw : r.Wired) (hr : entry.IsText)
    (hq : Request.ofRaw entry = .ok q) (ha : Request.Positional entry items)
    (hname : Method.parse q.method = some name)
    (hroute : r.router.route name.namespaceName = .redirect redirection) :
    ∃ manager, r.hub.manager? redirection.namespaceName = some manager ∧
      ∀ parent party now, ∃ (call : Call) (r' : Relay), r'.hub = r.hub ∧
        begin_ entry r parent party now =
          (ofProgress q.id? (r'.enter call party now).1, (r'.enter call party now).2) ∧
        r'.serve call now =
          .forwarding { manager, method := q.method, arguments := items } := by
  obtain ⟨manager, hm⟩ := hw.manager? hroute
  refine ⟨manager, hm, fun parent party now => ?_⟩
  have hcall := r.classifier.classify_positional hr hq ha hname (r.tokens.child parent).1
  refine ⟨⟨r.classifier.next, r.classifier.timeoutMs, (r.tokens.child parent).1, name, items⟩,
    { r with
      tokens := (r.tokens.child parent).2
      classifier := { r.classifier with next := r.classifier.next + 1 } }, rfl, ?_, ?_⟩
  · simp only [begin_, hq, hcall]
  · refine (Relay.serve_redirected hroute hm now).trans ?_
    rw [(Method.parse_splits hname).rejoined]

/-- A call whose connection is there starts on it, with its own method and arguments. -/
theorem Forwarding.send_starts {f : Forwarding} {h : Hub} {connection : Nat} {c : Connection}
    (hc : h.connections[connection]? = some c) (party : Nat) :
    ∃ h' : Hub, h'.connections[connection]? = some (c.start h.nextKey f.method f.arguments) ∧
      f.send h party connection =
        { f with stage := .calling connection h.nextKey }.collect h' := by
  refine ⟨(h.beginCall connection party f.method f.arguments).2, ?_, rfl⟩
  show (h.connections.modify connection _)[connection]? = _
  rw [List.getElem?_modify_eq, hc]
  rfl

end Calls

/-! ### What is written -/

theorem Id.write_ofNat {n : Nat} (hn : n < UInt64.size) : (ofNat n).write = (toString n).toList := by
  rw [show ofNat n = .number (Number.ofNat n) from rfl, number_write, Number.text_ofNat hn]
  exact Nat.toList_repr.symm

/-- A name that needs no escapes, as it is written before a member. -/
theorem Json.writeMember_plain {name : String} (h : name.toList.flatMap escaped = name.toList)
    (value : List Char) : writeMember name value = '"' :: (name.toList ++ ('"' :: ':' :: value)) := by
  simp [writeMember, writeString, h]

theorem writeString_protocolVersion : writeString protocolVersion = "\"2.0\"".toList := by decide

/-- **The line of a forwarded call**: its id in digits, its method as a string, and the texts of
its arguments with nothing but commas between them. -/
theorem Redirect.Dispatch.line_eq {d : Dispatch} (hid : d.id < UInt64.size) :
    d.line = "\x7b\"jsonrpc\":\"2.0\",\"id\":".toList ++ (toString d.id).toList ++
      ",\"method\":".toList ++ writeString d.method ++ ",\"params\":[".toList ++
        List.intercalate [','] (d.arguments.map Raw.chars) ++ "]\x7d".toList := by
  rw [Dispatch.line, Request.write_call]
  simp only [Request.callMembers, Raw.spelt, List.map_cons, List.map_nil, writeObject_cons,
    afterCommas_cons, writeMember_plain (show "jsonrpc".toList.flatMap escaped = _ by decide),
    writeMember_plain (show "id".toList.flatMap escaped = _ by decide),
    writeMember_plain (show "method".toList.flatMap escaped = _ by decide),
    writeMember_plain (show "params".toList.flatMap escaped = _ by decide),
    writeString_protocolVersion, Id.write_ofNat hid, Raw.list, writeList]
  simp [afterCommas]

/-- The text of an answer with a result. -/
theorem Response.write_success (i : Id) (t : Raw) :
    (success i t).write = "\x7b\"jsonrpc\":\"2.0\",\"id\":".toList ++ i.write ++
      ",\"result\":".toList ++ t.chars ++ ['\x7d'] := by
  simp [write, success, writeObject_cons, afterCommas, writeString_protocolVersion,
    writeMember_plain (show "jsonrpc".toList.flatMap escaped = _ by decide),
    writeMember_plain (show "id".toList.flatMap escaped = _ by decide),
    writeMember_plain (show "result".toList.flatMap escaped = _ by decide)]

/-! ### The way back -/

open Connection

/-- **What a call over a connection has returned is what its caller is answered with**, unless the
call was cancelled. -/
theorem Slot.go_returned {r : Relay} {e : Entry} {f : Forwarding} {connection key : Nat}
    {outcome : Outcome} (hservice : e.service = .forwarding f)
    (hstage : f.stage = .calling connection key)
    (htoken : r.tokens.isCancelled e.call.token = false)
    (hresult : r.hub.result? connection key = some (resultOf outcome)) (i : Id)
    (parent : Token) (party now : Nat) :
    ((running (some i) e).go r parent party now).1 = .finished (some (.ofOutcome i outcome)) := by
  have hgo : f.go r.hub party now =
      (.ended (resultOf outcome), r.hub.abandonCall connection key) := by
    simp only [Forwarding.go, hstage, Forwarding.collect, hresult]
  cases outcome with
  | ok t =>
    have hinvoke : f.invoke r.hub false party now =
        (.ended (.ok t), r.hub.abandonCall connection key) := by
      rw [Forwarding.invoke, hgo]
      rfl
    simp only [go, Relay.go, Relay.answer?, hservice, htoken, hinvoke, decide?]
    rfl
  | error err =>
    have hinvoke : f.invoke r.hub false party now =
        (.ended (.error (.remote err)), r.hub.abandonCall connection key) := by
      rw [Forwarding.invoke, hgo]
      rfl
    simp only [go, Relay.go, Relay.answer?, hservice, htoken, hinvoke, decide?,
      CallError.ofForward]
    rfl

/-- The next frame is read, and from then on the call has the outcome for its reply, as long as it
is not given up. If it waited for the reply, its caller is answered with the outcome when the
call can take no more steps, unless it was cancelled. -/
def Redirect.Session.PassesBack (s : Session) (n key : Nat) (outcome : Outcome) : Prop :=
  ∃ s₁, s.step .readFrame = some s₁ ∧ ∀ later s', s₁.run later = some s' →
    (∀ m ∈ later, m ≠ .abandon key) →
      Resolved (¬s.connection.Waits key n) s'.connection key n outcome ∧
      (s.connection.Waits key n → s'.connection.callStep key = none →
        ∀ (r : Relay) (connection : Nat) (e : Entry) (f : Forwarding),
          r.hub.connections[connection]? = some s'.connection → e.service = .forwarding f →
          f.stage = .calling connection key → r.tokens.isCancelled e.call.token = false →
          ∀ i parent party now, ((Slot.running (some i) e).go r parent party now).1 =
            .finished (some (.ofOutcome i outcome)))

/-- A frame that answers a pending id is passed back. -/
theorem Redirect.Kept.passesBack {s : Session} {n key : Nat} {line : List Char}
    {rest : List UInt8} {outcome : Outcome} (h : Kept s) (hp : (n, key) ∈ s.connection.pending)
    (hread : s.connection.reader = .reading)
    (hf : incoming s.connection.longestFrame s.connection.ended s.connection.received =
      .frame line rest)
    (hd : Delivery.ofFrame line = .answer n outcome) : s.PassesBack n key outcome := by
  obtain ⟨s₁, hstep, hlater⟩ := h.readFrame_resolved hp hread hf hd
  refine ⟨s₁, hstep, fun later s' hrun hkeeps => ?_⟩
  obtain ⟨hk, hr⟩ := hlater later s' hrun hkeeps
  refine ⟨hr, fun hw hstill r connection e f hc hservice hstage htoken i parent party now => ?_⟩
  have hr' : Resolved False s'.connection key n outcome := by
    rwa [show (¬s.connection.Waits key n) = False from eq_false (not_not_intro hw)] at hr
  obtain ⟨k, hk', hs⟩ := hr'.result hk.tied hstill
  refine Slot.go_returned hservice hstage htoken ?_ i parent party now
  simp only [Hub.result?, hc, Option.bind_some, hk', hs]

/-! ### There and back -/

/-- **Calls and results are passed on as they are spelt.** An entry of a body that asks for a
redirected method is forwarded under the very name that it has, whose parts are those before and
behind its first underscore, with the texts of its arguments as they stand in the body; with these
it starts on the connection that it gets, and every line that carries such a call to the endpoint
consists of them, with nothing but commas between the arguments. A frame that is read as a response
under a pending id, with a result and without an error, is passed back with the text of that
result, as it stands in the frame. -/
theorem relayed_as_spelt :
    (∀ {body : ByteArray} {payload : Payload} {entry : Raw} {q : Request} {items : List Raw}
        {name : Method} {r : Relay} {redirection : Redirection},
      Payload.parse body = .ok payload → entry ∈ payload.entries → Request.ofRaw entry = .ok q →
      Request.Positional entry items → Method.parse q.method = some name → r.Wired →
      r.router.route name.namespaceName = .redirect redirection →
      (∃ (text : String) (b : List Char) (whole : Raw) (b' : List Char),
        String.fromUTF8? body = some text ∧ text.toList = b ++ (whole.chars ++ b') ∧ Blank b ∧
          Blank b' ∧ payload.Spelt whole) ∧
      (∃ t, Request.Layout.Has entry "method" t ∧ t.IsString q.method) ∧
      name.full = q.method ∧ '_' ∉ name.namespaceName.toList ∧
      (∃ manager, r.hub.manager? redirection.namespaceName = some manager ∧
        ∀ parent party now, ∃ (call : Call) (r' : Relay), r'.hub = r.hub ∧
          Slot.begin_ entry r parent party now =
            (Slot.ofProgress q.id? (r'.enter call party now).1, (r'.enter call party now).2) ∧
          r'.serve call now =
            .forwarding { manager, method := q.method, arguments := items }) ∧
      (∀ manager stage (h : Hub) party connection c, h.connections[connection]? = some c →
        ∃ h' : Hub,
          h'.connections[connection]? = some (c.start h.nextKey q.method items) ∧
          Forwarding.send ⟨manager, q.method, items, stage⟩ h party connection =
            Forwarding.collect ⟨manager, q.method, items, .calling connection h.nextKey⟩ h') ∧
      ∀ {longestFrame : Nat} {capacity : Capacity} {ms : List Move} {s : Session} {key : Nat},
        (Session.opened longestFrame capacity).run ms = some s →
        (∀ method arguments, .enter key method arguments ∈ ms →
          method = q.method ∧ arguments = items) →
        (s.connection.writer ≠ .finished →
          takenOf s.log ++ s.connection.queue = (dispatchesOf s.log).map Dispatch.line) ∧
        ∀ d ∈ dispatchesOf s.log, d.key = key →
          d.line = "\x7b\"jsonrpc\":\"2.0\",\"id\":".toList ++ (toString d.id).toList ++
            ",\"method\":".toList ++ writeString q.method ++ ",\"params\":[".toList ++
              List.intercalate [','] (items.map Raw.chars) ++ "]\x7d".toList) ∧
    (∀ {longestFrame : Nat} {capacity : Capacity} {ms : List Move} {s : Session} {n key : Nat}
        {line : List Char} {rest : List UInt8} {a : Response},
      (Session.opened longestFrame capacity).run ms = some s → (n, key) ∈ s.connection.pending →
      s.connection.reader = .reading →
      incoming s.connection.longestFrame s.connection.ended s.connection.received =
        .frame line rest →
      Response.parse line = .ok a → a.id.natural? = some n →
      ∃ (b : List Char) (frame : Raw) (b' : List Char), Blank b ∧ frame.IsText ∧ Blank b' ∧
        line = b ++ (frame.chars ++ b') ∧
        ∀ t, Response.Layout.Has frame "result" t → Response.Faultless frame →
          s.PassesBack n key (.ok t) ∧
          ∀ i, (Response.ofOutcome i (.ok t)).write =
            "\x7b\"jsonrpc\":\"2.0\",\"id\":".toList ++ i.write ++
              ",\"result\":".toList ++ t.chars ++ ['\x7d']) := by
  constructor
  · intro body payload entry q items name r redirection hbody hentry hq hargs hname hw hroute
    have hr := Payload.entries_isText hbody entry hentry
    have htakes := Request.takes_of_ofRaw hr hq
    obtain ⟨text, b, whole, b', htext, hchars, hb, hb', -, hspelt⟩ := Payload.spelt_of_parse hbody
    obtain ⟨t, ht⟩ := Request.exists_method hr htakes
    obtain ⟨hfull, hfirst, -, -⟩ := Method.parse_splits hname
    refine ⟨⟨text, b, whole, b', htext, hchars, hb, hb', hspelt⟩,
      ⟨t, ht, Request.method_of_has htakes ht⟩, hfull, hfirst,
      Slot.begin_redirected hw hr hq hargs hname hroute,
      fun manager stage h party connection c hc =>
        @Forwarding.send_starts ⟨manager, q.method, items, stage⟩ h connection c hc party, ?_⟩
    intro longestFrame capacity ms s key hrun hkey
    have hsent := sent_of_run hrun
    refine ⟨hsent.lined.queue, fun d hd hdk => ?_⟩
    obtain ⟨hm, -⟩ := hsent.traced.dispatches d hd
    obtain ⟨hmethod, harguments⟩ := hkey _ _ (hdk ▸ hm)
    rw [Dispatch.line_eq (hsent.kept.numbered.dispatch_lt hd), hmethod, harguments]
  · intro longestFrame capacity ms s n key line rest a hrun hp hread hf ha hid
    obtain ⟨b, frame, b', hb, hframe, hb', hline, htakes⟩ := Response.laidOut ha
    refine ⟨b, frame, b', hb, hframe, hb', hline, fun t ht hno => ?_⟩
    have houtcome : a.outcome = .ok t := by
      rw [Response.outcome, Response.error_of_faultless hframe htakes hno,
        Response.result_of_has htakes ht]
    have hd : Delivery.ofFrame line = .answer n (.ok t) := by
      simp only [Delivery.ofFrame, ha, hid, houtcome]
    exact ⟨(kept_of_run hrun).passesBack hp hread hf hd, fun i => Response.write_success i t⟩

/-- A request with blanks around and inside its arguments. -/
def spacedMembers : List (String × Raw) :=
  [("jsonrpc", ⟨writeString "2.0"⟩), ("id", .ofString "7"),
    ("method", ⟨writeString "arbtrace_call"⟩), ("params", .ofString "[ [1, 2] , 1.10 ]")]

def spacedCall : Raw := ⟨writeObject (Raw.spelt spacedMembers)⟩

/-- The texts of its arguments. -/
def spacedArguments : List Raw := [.ofString "[1, 2]", .ofString "1.10"]

def arbtrace : Redirection := ⟨⟨"arbtrace", "node.ipc", 1000⟩, .ipc "node.ipc"⟩

/-- A relay with one redirection. -/
def arbtraceRelay : Relay :=
  { hub := .ofRedirections 64 [arbtrace]
    free := 1
    classifier := { timeoutMs := 1000 }
    router := ⟨[arbtrace], []⟩ }

/-- An answer with the result `1.10`, and its line feed. -/
def tenths : Raw := ⟨writeObject (Raw.spelt (Response.answering 1 "result" (.ofString "1.10")))⟩

theorem spacedCall_params : Request.Positional spacedCall spacedArguments := by
  have htext : ∀ m ∈ spacedMembers, m.2.IsText := by
    unfold Raw.IsText
    decide +kernel
  have hlist : (Raw.ofString "[ [1, 2] , 1.10 ]").IsList spacedArguments := by
    have hblank : Blank [' '] := fun c hc => by cases List.mem_singleton.mp hc; rfl
    have hitems : ∀ a ∈ spacedArguments, a.IsText := by
      unfold Raw.IsText
      decide +kernel
    exact @Raw.IsList.items
      [⟨[' '], .ofString "[1, 2]", [' '], hblank, hblank⟩,
        ⟨[' '], .ofString "1.10", [' '], hblank, hblank⟩]
      (List.cons_ne_nil _ _) (List.forall_mem_map.mp hitems)
  have hfield : Field.written "params" (.ofString "[ [1, 2] , 1.10 ]") ∈ Field.all spacedMembers :=
    Field.written_mem (by decide)
  exact .listed (.named (Raw.isObject_written htext) hfield (Field.written_named ..)) hlist

/-- The request is sent with the texts of its arguments, and the result comes back as it is
spelt. -/
theorem tenths_relayed :
    (∃ s, (Session.opened 1048576 65536).run (sentOnce "arbtrace_call" spacedArguments) = some s ∧
      (dispatchesOf s.log).map Dispatch.line = [("\x7b\"jsonrpc\":\"2.0\",\"id\":1," ++
        "\"method\":\"arbtrace_call\",\"params\":[[1, 2],1.10]\x7d").toList]) ∧
    ∃ s, (Session.opened 1048576 65536).run
        (waitingOnce ++ [.receive (Text.utf8 (tenths.chars ++ ['\n']))]) = some s ∧
      s.PassesBack 1 5 (.ok (.ofString "1.10")) := by
  constructor
  · have hrun : ((Session.opened 1048576 65536).run (sentOnce "arbtrace_call" spacedArguments)).any
        (fun s => decide ((dispatchesOf s.log).map (fun d => (d.key, d.id)) = [(0, 1)])) := by
      decide +kernel
    obtain ⟨s, hs, hd⟩ := (Option.any_eq_true _ _).mp hrun
    obtain ⟨d, hlog, hids⟩ := List.map_eq_singleton_iff.mp (of_decide_eq_true hd)
    have hbody : Payload.parse (String.ofList spacedCall.chars).toUTF8 = .ok (.single spacedCall) := by
      have : (Payload.parse (String.ofList spacedCall.chars).toUTF8).toOption =
          some (.single spacedCall) := by
        decide +kernel
      cases h : Payload.parse (String.ofList spacedCall.chars).toUTF8 <;> rw [h] at this <;> cases this
      rfl
    have hq : Request.ofRaw spacedCall = .ok ⟨"2.0", some (.ofNat 7), "arbtrace_call",
        some (.ofString "[ [1, 2] , 1.10 ]")⟩ := by
      have : (Request.ofRaw spacedCall).toOption = some ⟨"2.0", some (.ofNat 7), "arbtrace_call",
          some (.ofString "[ [1, 2] , 1.10 ]")⟩ := by
        decide +kernel
      cases h : Request.ofRaw spacedCall <;> rw [h] at this <;> cases this
      rfl
    obtain ⟨-, -, -, -, -, -, hlines⟩ := relayed_as_spelt.1 hbody (List.mem_singleton_self _) hq
      spacedCall_params (show Method.parse "arbtrace_call" = some ⟨"arbtrace", "call"⟩ by decide)
      (show arbtraceRelay.Wired from rfl)
      (show arbtraceRelay.router.route "arbtrace" = .redirect arbtrace from rfl)
    have hkey : ∀ method arguments, Move.enter 0 method arguments ∈ sentOnce "arbtrace_call" spacedArguments →
        method = "arbtrace_call" ∧ arguments = spacedArguments := by
      intro method arguments hm
      simpa [sentOnce] using hm
    refine ⟨s, hs, ?_⟩
    rw [hlog, List.map_singleton, (hlines hs hkey).2 d (hlog ▸ List.mem_singleton_self d) (congrArg Prod.fst hids),
      show d.id = 1 from congrArg Prod.snd hids]
    decide
  · have hrun : ((Session.opened 1048576 65536).run
        (waitingOnce ++ [.receive (Text.utf8 (tenths.chars ++ ['\n']))])).any
        (fun s => decide ((1, 5) ∈ s.connection.pending ∧ s.connection.reader = .reading ∧
          incoming s.connection.longestFrame s.connection.ended s.connection.received =
            .frame tenths.chars [])) := by
      decide +kernel
    obtain ⟨s, hs, hd⟩ := (Option.any_eq_true _ _).mp hrun
    obtain ⟨hp, hread, hf⟩ := of_decide_eq_true hd
    have ht : Raw.IsText (.ofString "1.10") := by
      unfold Raw.IsText
      decide +kernel
    have hwell := Response.result_wellFormed (n := 1) ht
    obtain ⟨a, ha⟩ := Response.takes_of_readable hwell (by decide) Response.result_readable
    have hparse : Response.parse tenths.chars = .ok a := by
      have := (Response.parse_eq_ok_iff hwell.object.isText blank_nil blank_nil).mpr ha
      rwa [List.nil_append, List.append_nil] at this
    obtain ⟨b, frame, b', hb, hframe, hb', hline, hback⟩ := relayed_as_spelt.2 hs hp hread hf
      hparse (Response.id_of_takes hwell (by decide) ha)
    have hsame : tenths = frame := by
      refine (hwell.object.isText.unique_padded hframe blank_nil hb (Heads.nil _) hb'.stops ?_).1
      rw [List.nil_append, List.append_nil]
      exact hline
    subst hsame
    have hfaultless : Response.Faultless tenths := by
      intro t herror
      by_contra hne
      obtain ⟨e, he, -⟩ := Response.error_of_has ha herror hne
      have hsays := Response.says_of_takes hwell ha
      rw [Response.outcome, he] at hsays
      cases hsays with
      | error hno => exact hno _ Response.answering_part (Field.written_named ..)
    exact ⟨s, hs, (hback _ (.named hwell.object Response.answering_part (Field.written_named ..))
      hfaultless).1⟩
end Switchboard
