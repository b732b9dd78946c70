import Switchboard.Message.Payload
import Switchboard.Proofs.Connection.Correlation
import Switchboard.Proofs.Message.Line
import Switchboard.Proofs.Text.Cutting

/-! What the endpoint is sent.

The calls queue their lines in some order, the writer takes them in that order, and what it
sends are these lines, each with a line feed (`Lined`). Whether the endpoint sees as many
lines as there were calls depends on the arguments: they are sent as they are spelt, line
feeds included. -/
namespace Switchboard.Redirect
open Json Connection

/-- The line that carries the call. -/
def Dispatch.line (d : Dispatch) : List Char := (Request.call d.id d.method d.arguments).write

/-! ### Read off the log -/

/-- The lines the writer has taken, in order. -/
def takenOf (log : List Event) : List (List Char) :=
  log.filterMap fun
    | .taken line => some line
    | _ => none

/-- Everything that was sent. -/
def sentOf (log : List Event) : List Char :=
  log.flatMap fun
    | .sent chars => chars
    | _ => []

@[simp] theorem takenOf_append (a b : List Event) : takenOf (a ++ b) = takenOf a ++ takenOf b :=
  List.filterMap_append

@[simp] theorem sentOf_append (a b : List Event) : sentOf (a ++ b) = sentOf a ++ sentOf b :=
  List.flatMap_append

/-! ### One move, as seen from the writer -/

namespace Connection

variable {c c' : Connection} {k : Caller} {key : Nat} {es : List Event}

/-- Nothing is queued, taken or sent. -/
structure Idles (c c' : Connection) (es : List Event) : Prop where
  writer : c'.writer = c.writer
  queue : c'.queue = c.queue
  queued : dispatchesOf es = []
  taken : takenOf es = []
  sent : sentOf es = []

/-- What a move does to the queue and to the writer, and what is seen of it. -/
inductive Writes (c c' : Connection) (es : List Event) : Prop
  | idles (h : Idles c c' es)
  | queued {d : Dispatch} (hw : c.writer ≠ .finished) (hw' : c'.writer = c.writer)
      (hq : c'.queue = c.queue ++ [d.line])
      (he : es = [.queued d.key d.id d.method d.arguments])
  | taken {line : List Char} (hw : c.writer = .idle) (hq : c.queue = line :: c'.queue)
      (hw' : c'.writer = .sending (line ++ ['\n'])) (he : es = [.taken line])
  | sent {chars left : List Char} (hw : c.writer = .sending (chars ++ left))
      (hw' : c'.writer = if left.isEmpty then .idle else .sending left)
      (hq : c'.queue = c.queue) (he : es = [.sent chars])
  | left (hw : c.writer ≠ .finished) (hw' : c'.writer = .stopped ∨ c'.writer = .closing)
      (hq : c'.queue = c.queue) (he : es = [])
  | finished (hw' : c'.writer = .finished) (he : es = [])

theorem Advances.writes (h : Advances c k c' es) : Writes c c' es := by
  cases h with
  | @queued id hs hw hq =>
    exact .queued (d := ⟨k.key, id, k.method, k.arguments⟩) hw rfl rfl rfl
  | _ => exact .idles ⟨rfl, rfl, rfl, rfl, rfl⟩

/-- **Every move is one of these for the writer.** -/
theorem step_writes {m : Move} (h : c.step m = some c') : Writes c c' (c.events m c') := by
  cases step_moves h with
  | calls hk ha =>
    rw [ha.seen hk]
    exact ha.writes
  | @abandons key =>
    rw [abandon_frame]
    refine .idles ⟨rfl, rfl, ?_, ?_, ?_⟩
    all_goals
      cases hk : c.caller? key <;> simp only [events, hk] <;> rfl
  | closes _ hc =>
    cases hc <;> exact .idles ⟨rfl, rfl, rfl, rfl, rfl⟩
  | takes hw hq => exact .taken hw hq rfl (by simp only [events, hq]; rfl)
  | @sends rest left hw _ _ hleft =>
    subst hleft
    rw [← List.take_append_drop (c.capacity.bytes - c.outgoing.length) rest] at hw
    exact .sent hw rfl rfl (by simp only [events, List.drop_left])
  | fails hw | stops hw => exact .left (by rw [hw]; simp) (.inl rfl) rfl rfl
  | marks hw => exact .left (by rw [hw]; simp) (.inr rfl) rfl rfl
  | finishes => exact .finished rfl rfl
  | @reads line rest _ hi =>
    obtain ⟨_, _, hd⟩ := deliver_only { c with received := rest } line
    simp only [hd, events, hi]
    exact .idles ⟨rfl, rfl, rfl, rfl, rfl⟩
  | readsNoMore _ hi =>
    refine .idles ⟨rfl, rfl, ?_, ?_, ?_⟩
    all_goals rcases hi with hi | hi <;> simp only [events, hi] <;> rfl
  | _ => exact .idles ⟨rfl, rfl, rfl, rfl, rfl⟩

end Connection
/-! ### Every session -/

/-- The lines, each with its line feed. -/
def fed (lines : List (List Char)) : List Char := lines.flatMap (· ++ ['\n'])

theorem fed_append (a b : List (List Char)) : fed (a ++ b) = fed a ++ fed b :=
  List.flatMap_append

structure Lined (s : Session) : Prop where
  taken : takenOf s.log <+: (dispatchesOf s.log).map Dispatch.line
  queue : s.connection.writer ≠ .finished →
    takenOf s.log ++ s.connection.queue = (dispatchesOf s.log).map Dispatch.line
  sent : sentOf s.log <+: fed (takenOf s.log)
  rest : ∀ rest, s.connection.writer = .sending rest →
    sentOf s.log ++ rest = fed (takenOf s.log)
  idle : s.connection.writer = .idle → sentOf s.log = fed (takenOf s.log)

theorem lined_opened (longestFrame : Nat) (capacity : Capacity) :
    Lined (.opened longestFrame capacity) where
  taken := List.nil_prefix
  queue _ := rfl
  sent := List.nil_prefix
  rest _ h := by cases h
  idle _ := rfl

variable {s s' : Session}

theorem Lined.idles {c' : Connection} {es : List Event} (h : Lined s)
    (hi : Idles s.connection c' es) : Lined ⟨c', s.log ++ es⟩ := by
  obtain ⟨hw, hq, hd, ht, hs⟩ := hi
  constructor
  case taken => simpa [hd, ht] using h.taken
  case queue => simpa [hd, ht, hw, hq] using h.queue
  case sent => simpa [ht, hs] using h.sent
  case rest => simpa [ht, hs, hw] using h.rest
  case idle => simpa [ht, hs, hw] using h.idle

theorem Lined.queued {c' : Connection} {d : Dispatch} (h : Lined s)
    (hw : s.connection.writer ≠ .finished) (hw' : c'.writer = s.connection.writer)
    (hq : c'.queue = s.connection.queue ++ [d.line]) :
    Lined ⟨c', s.log ++ [.queued d.key d.id d.method d.arguments]⟩ := by
  have hd : dispatchesOf [.queued d.key d.id d.method d.arguments] = [d] := rfl
  have ht : takenOf [.queued d.key d.id d.method d.arguments] = [] := rfl
  have hs : sentOf [.queued d.key d.id d.method d.arguments] = [] := rfl
  constructor
  case taken =>
    simp only [dispatchesOf_append, takenOf_append, ht, List.append_nil, List.map_append]
    exact h.taken.trans (List.prefix_append ..)
  case queue =>
    intro _
    simp only [dispatchesOf_append, takenOf_append, hd, ht, hq, List.append_nil, List.map_append]
    rw [← List.append_assoc, h.queue hw]
    rfl
  case sent => simpa [ht, hs] using h.sent
  case rest => simpa [ht, hs, hw'] using h.rest
  case idle => simpa [ht, hs, hw'] using h.idle

theorem Lined.takes {c' : Connection} {line : List Char} (h : Lined s)
    (hw : s.connection.writer = .idle) (hq : s.connection.queue = line :: c'.queue)
    (hw' : c'.writer = .sending (line ++ ['\n'])) : Lined ⟨c', s.log ++ [.taken line]⟩ := by
  have hd : dispatchesOf [.taken line] = [] := rfl
  have ht : takenOf [.taken line] = [line] := rfl
  have hs : sentOf [.taken line] = [] := rfl
  have hqueue := h.queue (by rw [hw]; simp)
  have hidle := h.idle hw
  have hfed : fed (takenOf s.log ++ [line]) = fed (takenOf s.log) ++ (line ++ ['\n']) := by
    rw [fed_append]
    simp [fed]
  rw [hq] at hqueue
  constructor
  case taken =>
    simp only [dispatchesOf_append, takenOf_append, hd, ht, List.append_nil]
    exact ⟨c'.queue, by rw [← hqueue]; simp⟩
  case queue =>
    intro _
    simp only [dispatchesOf_append, takenOf_append, hd, ht, List.append_nil]
    rw [← hqueue]
    simp
  case sent =>
    simp only [takenOf_append, sentOf_append, ht, hs, List.append_nil, hfed, hidle]
    exact List.prefix_append ..
  case rest =>
    intro rest hr
    cases hw'.symm.trans hr
    simp only [takenOf_append, sentOf_append, ht, hs, List.append_nil, hfed, hidle]
  case idle =>
    intro hr
    cases hw'.symm.trans hr

theorem Lined.sends {c' : Connection} {chars left : List Char} (h : Lined s)
    (hw : s.connection.writer = .sending (chars ++ left))
    (hw' : c'.writer = if left.isEmpty then .idle else .sending left)
    (hq : c'.queue = s.connection.queue) : Lined ⟨c', s.log ++ [.sent chars]⟩ := by
  have hd : dispatchesOf [.sent chars] = [] := rfl
  have ht : takenOf [.sent chars] = [] := rfl
  have hs : sentOf [.sent chars] = chars := by simp [sentOf]
  have hrest : (sentOf s.log ++ chars) ++ left = fed (takenOf s.log) := by
    rw [List.append_assoc]
    exact h.rest _ hw
  constructor
  case taken => simpa [hd, ht] using h.taken
  case queue =>
    intro _
    simp only [dispatchesOf_append, takenOf_append, hd, ht, hq, List.append_nil]
    exact h.queue (by rw [hw]; simp)
  case sent =>
    simp only [takenOf_append, sentOf_append, ht, hs, List.append_nil]
    exact ⟨left, hrest⟩
  case rest =>
    intro rest hr
    simp only [takenOf_append, sentOf_append, ht, hs, List.append_nil]
    rw [hw'] at hr
    split at hr
    · cases hr
    · cases hr
      exact hrest
  case idle =>
    intro hr
    simp only [takenOf_append, sentOf_append, ht, hs, List.append_nil]
    rw [hw'] at hr
    split at hr
    · rename_i hempty
      rwa [List.isEmpty_iff.mp hempty, List.append_nil] at hrest
    · cases hr

theorem Lined.step {m : Move} (h : Lined s) (hm : s.step m = some s') : Lined s' := by
  obtain ⟨hstep, hlog⟩ := Session.step_eq_some hm
  obtain ⟨c', log⟩ := s'
  dsimp only at hstep hlog
  subst hlog
  have hw := step_writes hstep
  generalize s.connection.events m c' = es at hw
  cases hw with
  | idles hi => exact h.idles hi
  | queued hw hw' hq he =>
    subst he
    exact h.queued hw hw' hq
  | taken hw hq hw' he =>
    subst he
    exact h.takes hw hq hw'
  | sent hw hw' hq he =>
    subst he
    exact h.sends hw hw' hq
  | left hw hw' hq he =>
    subst he
    rw [List.append_nil]
    refine ⟨h.taken, fun _ => hq ▸ h.queue hw, h.sent, fun rest hr => ?_, fun hr => ?_⟩
    · rcases hw' with hw' | hw' <;> cases hw'.symm.trans hr
    · rcases hw' with hw' | hw' <;> cases hw'.symm.trans hr
  | finished hw' he =>
    subst he
    rw [List.append_nil]
    refine ⟨h.taken, fun hr => absurd hw' hr, h.sent, fun rest hr => ?_, fun hr => ?_⟩
    · cases hw'.symm.trans hr
    · cases hw'.symm.trans hr

/-! ### Whose lines they are -/

theorem dispatch_of_step {c c' : Connection} {m : Move} {d : Dispatch} (h : c.step m = some c')
    (hd : d ∈ dispatchesOf (c.events m c')) :
    ∃ k ∈ c.callers, k.stage = .ready d.id ∧ d.key = k.key ∧
      begun k = .enter d.key d.method d.arguments := by
  have ha := step_affects h
  generalize c.events m c' = es at ha hd
  cases ha with
  | advanced hk ha =>
    cases ha with
    | queued hs =>
      cases List.mem_singleton.mp hd
      exact ⟨_, (caller?_mem hk).1, hs, rfl, rfl⟩
    | _ => cases hd
  | others _ he =>
    rw [(quiet_events he).2.2.1] at hd
    cases hd
  | _ => cases hd

/-- Every call on the connection, and every line that was queued, is that of a call that began
with one of the moves. -/
structure Traced (ms : List Move) (s : Session) : Prop where
  callers : ∀ k ∈ s.connection.callers, begun k ∈ ms
  dispatches : ∀ d ∈ dispatchesOf s.log,
    .enter d.key d.method d.arguments ∈ ms ∧ .listed d.key d.id ∈ s.log

theorem Traced.step {ms : List Move} {m : Move} (h : Traced ms s) (hk : Kept s) (hm : m ∈ ms)
    (hs : s.step m = some s') : Traced ms s' := by
  obtain ⟨hstep, hlog⟩ := Session.step_eq_some hs
  constructor
  · intro k' hk'
    rcases begun_of_affects hk.tied (step_affects hstep) hk' with ⟨k, hmem, he⟩ | he
    · exact he ▸ h.callers k hmem
    · exact he ▸ hm
  · intro d hd
    rw [hlog] at hd ⊢
    rw [dispatchesOf_append] at hd
    rcases List.mem_append.mp hd with hd | hd
    · exact ⟨(h.dispatches d hd).1, List.mem_append_left _ (h.dispatches d hd).2⟩
    · obtain ⟨k, hmem, hready, hkey, he⟩ := dispatch_of_step hstep hd
      refine ⟨he ▸ h.callers k hmem, List.mem_append_left _ ?_⟩
      rw [hkey]
      exact hk.correlated.entered k hmem d.id (by rw [hready]; rfl)

/-- What holds of the lines of every session. -/
structure Sent (ms : List Move) (s : Session) : Prop where
  kept : Kept s
  lined : Lined s
  traced : Traced ms s

theorem sent_of_run {longestFrame : Nat} {capacity : Capacity} {ms : List Move}
    (h : (Session.opened longestFrame capacity).run ms = some s) : Sent ms s := by
  refine Session.run_preserves (P := Sent ms) ?_ h
    ⟨kept_opened .., lined_opened .., (fun _ hk => by cases hk), fun _ hd => by cases hd⟩
  intro s s' m hm hs hstep
  exact ⟨hs.kept.step hstep, hs.lined.step hstep, hs.traced.step hs.kept hm hstep⟩

/-- An id that a line bears fits a word. -/
theorem Numbered.dispatch_lt (h : Numbered s) {d : Dispatch} (hd : d ∈ dispatchesOf s.log) :
    d.id < UInt64.size := by
  have hq := h.queued d.id
  have hpos := List.count_pos_iff.mpr (List.mem_map_of_mem (f := Dispatch.id) hd)
  have hmem : d.id ∈ idsOf s.log := List.count_pos_iff.mp (by omega)
  rw [h.taken] at hmem
  obtain ⟨i, _, hi⟩ := List.mem_map.mp hmem
  rw [← hi]
  exact UInt64.toNat_lt _

/-! ### What the endpoint reads -/

open Text (utf8 utf8_append feed_mem_utf8 splitOn_lines_iff)

/-- A call that begins does so with arguments that are one value's text each. -/
def Move.Spelt : Move → Prop
  | .enter _ _ arguments => ∀ a ∈ arguments, a.IsText
  | _ => True

/-- The arguments of a request, cut out of the text it came as, are such texts. -/
theorem Move.spelt_of_request {r : Request} {arguments : List Raw}
    (h : r.arguments = .ok arguments) (key : Nat) (method : String) :
    (Move.enter key method arguments).Spelt := Request.arguments_isText h

/-- The line is read as a request with the call's own id, method and arguments. -/
def Dispatch.Carried (d : Dispatch) : Prop :=
  ∃ r, Request.ofRaw ⟨d.line⟩ = .ok r ∧ r.id?.bind Id.natural? = some d.id ∧
    r.method = d.method ∧ r.arguments = .ok d.arguments

theorem Dispatch.carried {d : Dispatch} (hid : d.id < UInt64.size)
    (ha : ∀ a ∈ d.arguments, a.IsText) : d.Carried := by
  refine ⟨_, Request.ofRaw_call hid d.method ha, ?_, Request.method_call ..,
    Request.arguments_call d.id d.method ha⟩
  rw [Request.id?_call, Option.bind_some]
  exact Request.natural?_ofNat hid

theorem utf8_fed (lines : List (List Char)) :
    utf8 (fed lines) = (lines.map utf8).flatMap (· ++ [lineFeed]) := by
  induction lines with
  | nil => rfl
  | cons l lines ih =>
    rw [List.map_cons, List.flatMap_cons, ← ih, ← List.singleton_append, fed_append, utf8_append]
    refine congrArg (· ++ utf8 (fed lines)) ?_
    simp only [fed, List.flatMap_cons, List.flatMap_nil, List.append_nil, utf8_append]
    rfl

/-- **What the endpoint is sent are the lines of calls, each read as its own call, and it sees
one line for each of them exactly when no argument holds a line feed.** In every session whose
arguments came out of requests (`Move.spelt_of_request`), the lines the writer has taken are those
of calls that began, in the order in which they were queued; the bytes that were sent are these
lines with a line feed each, as far as they go; and where the writer has sent all it has taken,
cutting the bytes at every line feed gives these lines just when none of their arguments holds
one. -/
theorem lines_sent {longestFrame : Nat} {capacity : Capacity} {ms : List Move}
    (h : (Session.opened longestFrame capacity).run ms = some s)
    (hspelt : ∀ m ∈ ms, m.Spelt) :
    ∃ calls, calls <+: dispatchesOf s.log ∧ takenOf s.log = calls.map Dispatch.line ∧
      (∀ d ∈ calls, .enter d.key d.method d.arguments ∈ ms ∧ .listed d.key d.id ∈ s.log ∧
        d.Carried) ∧
      ((callsOf s.log).length < UInt64.size → (calls.map Dispatch.id).Nodup) ∧
      utf8 (sentOf s.log) <+: calls.flatMap (fun d => utf8 d.line ++ [lineFeed]) ∧
      (s.connection.writer = .idle →
        ((utf8 (sentOf s.log)).splitOn lineFeed = calls.map (fun d => utf8 d.line) ++ [[]] ↔
          ∀ d ∈ calls, ∀ a ∈ d.arguments, '\n' ∉ a.chars)) := by
  have hsent := sent_of_run h
  obtain ⟨rest, hrest⟩ := hsent.lined.taken
  obtain ⟨calls, later, hcalls, htaken, _⟩ := List.map_eq_append_iff.mp hrest.symm
  have hbegin : calls <+: dispatchesOf s.log := ⟨later, hcalls.symm⟩
  have hlt (d : Dispatch) (hd : d ∈ calls) : d.id < UInt64.size :=
    hsent.kept.numbered.dispatch_lt (hbegin.subset hd)
  have hfed : utf8 (fed (takenOf s.log)) = calls.flatMap fun d => utf8 d.line ++ [lineFeed] := by
    rw [utf8_fed, ← htaken, List.map_map, List.flatMap_map]
    rfl
  refine ⟨calls, hbegin, htaken.symm, fun d hd => ?_, fun hfew => ?_, ?_, fun hidle => ?_⟩
  · obtain ⟨hm, hl⟩ := hsent.traced.dispatches d (hbegin.subset hd)
    exact ⟨hm, hl, Dispatch.carried (hlt d hd) (hspelt _ hm)⟩
  · exact (hsent.kept.numbered.dispatches_nodup hfew).sublist (hbegin.sublist.map _)
  · obtain ⟨unsent, hunsent⟩ := hsent.lined.sent
    exact ⟨utf8 unsent, by rw [← utf8_append, hunsent, hfed]⟩
  · have hmap : (calls.map Dispatch.line).map utf8 = calls.map fun d => utf8 d.line := by
      rw [List.map_map]
      rfl
    rw [hsent.lined.idle hidle, utf8_fed, ← htaken, hmap, splitOn_lines_iff]
    simp only [List.forall_mem_map]
    refine forall₂_congr fun d hd => ?_
    show lineFeed ∉ utf8 d.line ↔ _
    rw [show lineFeed = 10 from rfl, feed_mem_utf8, Dispatch.line,
      Request.feed_mem_call (hlt d hd)]
    simp

/-- One call, until its line has been sent. -/
def sentOnce (method : String) (arguments : List Raw) : List Move :=
  [.enter 0 method arguments, .call 0, .call 0, .call 0, .call 0, .call 0, .takeLine, .sendMore]

/-- Blanks inside an argument do no harm as long as they are not line feeds. -/
def spaced : Raw := .ofString "[1, 2]"

theorem spaced_sent :
    ∃ s, (Session.opened 1048576 65536).run (sentOnce "arbtrace_call" [spaced]) = some s ∧
      takenOf s.log = [Dispatch.line ⟨0, 1, "arbtrace_call", [spaced]⟩] ∧
      (utf8 (sentOf s.log)).splitOn lineFeed = (takenOf s.log).map utf8 ++ [[]] := by
  have hrun : ((Session.opened 1048576 65536).run (sentOnce "arbtrace_call" [spaced])).any
      (fun s => decide (s.connection.writer = .idle ∧
        takenOf s.log = [Dispatch.line ⟨0, 1, "arbtrace_call", [spaced]⟩] ∧
        ∀ d ∈ dispatchesOf s.log, ∀ a ∈ d.arguments, '\n' ∉ a.chars)) := by
    decide +kernel
  obtain ⟨s, hs, hd⟩ := (Option.any_eq_true _ _).mp hrun
  obtain ⟨hidle, htaken, hfeed⟩ := of_decide_eq_true hd
  have htext : ∀ a ∈ [spaced], a.IsText := by
    unfold Raw.IsText
    decide +kernel
  have hspelt : ∀ m ∈ sentOnce "arbtrace_call" [spaced], m.Spelt := by
    simpa [sentOnce, Move.Spelt] using htext
  obtain ⟨calls, hbegin, hcalls, _, _, _, hcut⟩ := lines_sent hs hspelt
  refine ⟨s, hs, htaken, ?_⟩
  rw [hcalls, List.map_map]
  exact (hcut hidle).mpr fun d hd => hfeed d (hbegin.subset hd)

/-- A request that nobody made. -/
def smuggled : String :=
  "\x7b\"jsonrpc\":\"2.0\",\"id\":7,\"method\":\"admin_stop\",\"params\":[]\x7d"

/-- A body with one argument, which holds that request on a line of its own. -/
def smuggling : String :=
  "\x7b\"jsonrpc\":\"2.0\",\"id\":1,\"method\":\"arbtrace_call\",\"params\":[[\n" ++ smuggled ++
    "\n]]\x7d"

/-- The argument, as it is spelt. -/
def smuggler : Raw := .ofString ("[\n" ++ smuggled ++ "\n]")

/-- The body is one call with that argument. It makes the endpoint see three lines, and the
second of them is a request with an id and a namespace that the relay did not assign. -/
theorem smuggled_line :
    (Payload.parse smuggling.toUTF8).toOption = some (.single (.ofString smuggling)) ∧
    (Request.ofRaw (.ofString smuggling)).toOption.bind (fun r => r.arguments.toOption) =
      some [smuggler] ∧
    (∃ s, (Session.opened 1048576 65536).run (sentOnce "arbtrace_call" [smuggler]) = some s ∧
      callsOf s.log = [0] ∧ idsOf s.log = [1] ∧
      ((utf8 (sentOf s.log)).splitOn lineFeed).length = 4 ∧
      utf8 smuggled.toList ∈ (utf8 (sentOf s.log)).splitOn lineFeed) ∧
    (Request.ofRaw (.ofString smuggled)).toOption =
      some ⟨"2.0", some (.ofNat 7), "admin_stop", some (.ofString "[]")⟩ := by
  have hrun : ((Session.opened 1048576 65536).run (sentOnce "arbtrace_call" [smuggler])).any
      (fun s => decide (callsOf s.log = [0] ∧ idsOf s.log = [1] ∧
        ((utf8 (sentOf s.log)).splitOn lineFeed).length = 4 ∧
        utf8 smuggled.toList ∈ (utf8 (sentOf s.log)).splitOn lineFeed)) := by
    decide +kernel
  obtain ⟨s, hs, hd⟩ := (Option.any_eq_true _ _).mp hrun
  exact ⟨by decide +kernel, by decide +kernel, ⟨s, hs, of_decide_eq_true hd⟩, by decide +kernel⟩

end Switchboard.Redirect
