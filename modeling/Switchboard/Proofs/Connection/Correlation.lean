import Switchboard.Proofs.Connection.Following
import Switchboard.Proofs.Connection.Numbering

/-! Every answer reaches its own call.

A call returns with an answer only after a frame that bears its id was read, and after it
had entered itself under that id (`Correlated`). A frame reaches at most the call whose
pending entry bears its id, and no frame reaches a call under an id that was given up. -/
namespace Switchboard.Redirect
open Json Connection

/-! ### What stands in the log -/

/-- Each event stands behind what it asks for. -/
def Always (P : List Event → Event → Prop) (log : List Event) : Prop :=
  ∀ before e after, log = before ++ e :: after → P before e

theorem Always.append {P : List Event → Event → Prop} {log es : List Event} (h : Always P log)
    (hes : ∀ before e after, es = before ++ e :: after → P (log ++ before) e) :
    Always P (log ++ es) := by
  intro before e after he
  rcases List.append_eq_append_iff.mp he with ⟨rest, rfl, hr⟩ | ⟨rest, rfl, hr⟩
  · exact hes rest e after hr
  · cases rest with
    | nil =>
      have := hes [] e after hr.symm
      rwa [List.append_nil, List.append_nil] at this
    | cons x rest =>
      cases hr
      exact h before e rest rfl

/-- The log shows that the call entered itself under the id, and after that a frame for it
that says this outcome. -/
def Answered (log : List Event) (key id : Nat) (outcome : Outcome) : Prop :=
  ∃ a b c line, log = a ++ .listed key id :: (b ++ .read line (some (id, key)) :: c) ∧
    Delivery.ofFrame line = .answer id outcome

theorem Answered.append {log : List Event} {key id : Nat} {outcome : Outcome}
    (h : Answered log key id outcome) (es : List Event) :
    Answered (log ++ es) key id outcome := by
  obtain ⟨a, b, c, line, rfl, hd⟩ := h
  exact ⟨a, b, c ++ es, line, by simp, hd⟩

theorem answered_of_read {log : List Event} {key id : Nat} {outcome : Outcome} {line : List Char}
    (hl : .listed key id ∈ log) (hd : Delivery.ofFrame line = .answer id outcome) :
    Answered (log ++ [.read line (some (id, key))]) key id outcome := by
  obtain ⟨a, b, rfl⟩ := List.append_of_mem hl
  exact ⟨a, b, [], line, by simp, hd⟩

/-- What must have been seen before an event. -/
def Genuine (before : List Event) : Event → Prop
  | .returned key id? result =>
    result = .error .closed ∨
      ∃ id outcome, id? = some id ∧ result = resultOf outcome ∧ Answered before key id outcome
  | .read line (some (id, key)) =>
    .listed key id ∈ before ∧ (∃ outcome, Delivery.ofFrame line = .answer id outcome) ∧
      ((callsOf before).length < UInt64.size → id ∉ freedOf before)
  | _ => True

theorem Event.Quiet.genuine {e : Event} (h : e.Quiet) (before : List Event) :
    Genuine before e := by
  cases e with
  | read line addressee? =>
    cases addressee? with
    | none => trivial
    | some p => exact h.elim
  | returned => exact h.elim
  | _ => trivial

structure Correlated (s : Session) : Prop where
  entered : ∀ k ∈ s.connection.callers, ∀ id, k.stage.listed? = some id →
    .listed k.key id ∈ s.log
  answered : ∀ k ∈ s.connection.callers, ∀ id outcome, k.stage.listed? = some id →
    k.reply = .answered outcome → Answered s.log k.key id outcome
  genuine : Always Genuine s.log

/-! ### Every session -/

variable {s s' : Session}

theorem correlated_opened (longestFrame : Nat) (capacity : Capacity) :
    Correlated (.opened longestFrame capacity) where
  entered _ hk := by cases hk
  answered _ hk := by cases hk
  genuine before e after he := by
    have := congrArg List.length he
    simp [Session.opened] at this

theorem Correlated.follow {c' : Connection} {es : List Event} (h : Correlated s)
    (hf : AllFollow es s.connection c') (hg : Always Genuine (s.log ++ es)) :
    Correlated ⟨c', s.log ++ es⟩ where
  entered k' hk' id hl := by
    obtain ⟨k, hk, hkey, _, _, hs | hs | ⟨_, id', hs, he⟩, _⟩ := hf k' hk'
    · rw [hs] at hl
      cases hl
    · rw [hkey]
      exact List.mem_append_left _ (h.entered k hk id (hs.symm.trans hl))
    · rw [hs] at hl
      cases hl
      rw [hkey]
      exact List.mem_append_right _ he
  answered k' hk' id outcome hl hr := by
    obtain ⟨k, hk, hkey, _, _, hs | hs | ⟨hopen, _⟩, hreply⟩ := hf k' hk'
    · rw [hs] at hl
      cases hl
    · rw [hkey]
      exact (h.answered k hk id outcome (hs.symm.trans hl) (hreply outcome hr)).append es
    · rw [hopen] at hreply
      cases hreply outcome hr
  genuine := hg

theorem Always.snoc {P : List Event → Event → Prop} {log : List Event} {e : Event}
    (h : Always P log) (he : P log e) : Always P (log ++ [e]) := by
  refine h.append fun before x after hx => ?_
  cases before with
  | nil =>
    cases hx
    rwa [List.append_nil]
  | cons y before =>
    injection hx with _ hx
    simp at hx

theorem Correlated.genuine_advances {c' : Connection} {k : Caller} {es : List Event}
    (h : Correlated s) (hk : k ∈ s.connection.callers) (ha : Advances s.connection k c' es) :
    Always Genuine (s.log ++ es) := by
  cases ha with
  | answered hs hr =>
    refine h.genuine.snoc (.inr ⟨_, _, rfl, rfl, ?_⟩)
    exact h.answered k hk _ _ (by rw [hs]; rfl) hr
  | refused => exact h.genuine.snoc (.inl rfl)
  | turnedBack => exact h.genuine.snoc (.inl rfl)
  | unsent => exact h.genuine.snoc (.inl rfl)
  | lost => exact h.genuine.snoc (.inl rfl)
  | numbered => exact h.genuine.snoc trivial
  | listed => exact h.genuine.snoc trivial
  | queued => exact h.genuine.snoc trivial
  | admitted =>
    rw [List.append_nil]
    exact h.genuine
  | ready =>
    rw [List.append_nil]
    exact h.genuine

/-- A frame for the pending call under the id. -/
theorem Correlated.handOver {line : List Char} {id key : Nat} {outcome : Outcome}
    (h : Correlated s) (ht : Tied s.connection) (hn : Numbered s)
    (hd : Delivery.ofFrame line = .answer id outcome) (hp : (id, key) ∈ s.connection.pending) :
    Correlated ⟨s.connection.handOver id key outcome, s.log ++ [.read line (some (id, key))]⟩ := by
  obtain ⟨k, hk, rfl, hs, -⟩ := ht.caller _ hp
  have hlisted := h.entered k hk id hs
  have hgenuine : Genuine s.log (.read line (some (id, k.key))) :=
    ⟨hlisted, ⟨outcome, hd⟩, fun hfew => hn.not_freed ht hfew hk (Stage.id?_of_listed? hs)⟩
  have hrest := h.follow (allFollow_keep fun p => p.1 != id) (h.genuine.snoc hgenuine)
  constructor
  case genuine => exact hrest.genuine
  case entered =>
    intro k' hk' id' hl
    obtain ⟨k₁, hk₁, ⟨_, rfl⟩ | ⟨_, rfl⟩⟩ := mem_update hk'
    · exact hrest.entered k₁ hk₁ id' hl
    · exact hrest.entered k' hk₁ id' hl
  case answered =>
    intro k' hk' id' outcome' hl hr
    obtain ⟨k₁, hk₁, ⟨hkey, rfl⟩ | ⟨_, rfl⟩⟩ := mem_update hk'
    · cases hr
      obtain ⟨k₀, hk₀, rfl⟩ := mem_keep hk₁
      rw [kept_key] at hkey
      cases ht.eq_of_key hk₀ hk hkey
      have hl : (s.connection.kept _ k).stage.listed? = some id' := hl
      rw [kept_stage] at hl
      cases hs.symm.trans hl
      show Answered _ (s.connection.kept _ k).key id outcome
      rw [kept_key]
      exact answered_of_read hlisted hd
    · exact hrest.answered k' hk₁ id' outcome' hl hr

theorem Correlated.enter (h : Correlated s) (key : Nat) (method : String) (arguments : List Raw) :
    Correlated ⟨s.connection.enter key method arguments, s.log ++ [.entered key]⟩ where
  entered k hk id hl := by
    rcases List.mem_append.mp hk with hk | hk
    · exact List.mem_append_left _ (h.entered k hk id hl)
    · cases List.mem_singleton.mp hk
      cases hl
  answered k hk id outcome hl hr := by
    rcases List.mem_append.mp hk with hk | hk
    · exact (h.answered k hk id outcome hl hr).append _
    · cases List.mem_singleton.mp hk
      cases hl
  genuine := h.genuine.snoc trivial

theorem Correlated.congr {c d : Connection} {log : List Event} (h : Correlated ⟨d, log⟩)
    (hd : c.callers = d.callers) : Correlated ⟨c, log⟩ where
  entered k hk := h.entered k (hd ▸ hk)
  answered k hk := h.answered k (hd ▸ hk)
  genuine := h.genuine

theorem Correlated.step {m : Move} (h : Correlated s) (ht : Tied s.connection) (hn : Numbered s)
    (hm : s.step m = some s') : Correlated s' := by
  obtain ⟨hstep, hlog⟩ := Session.step_eq_some hm
  obtain ⟨c', log⟩ := s'
  dsimp only at hstep hlog
  subst hlog
  have ha := step_affects hstep
  generalize s.connection.events m c' = es at ha
  cases ha with
  | entered => exact h.enter _ _ _
  | advanced hk ha =>
    exact h.follow (allFollow_advances ht hk ha) (h.genuine_advances (caller?_mem hk).1 ha)
  | abandoned => exact h.follow allFollow_abandon (h.genuine.snoc trivial)
  | answered hd hp ha =>
    exact (h.handOver ht hn hd (List.mem_of_find?_eq_some hp)).congr ha.callers
  | cleared ha =>
    exact h.follow ((allFollow_keep _).congr ha.callers) (by rw [List.append_nil]; exact h.genuine)
  | others ha he =>
    refine h.follow ((allFollow_refl _ _).congr ha.callers) (h.genuine.append ?_)
    rintro before e after rfl
    exact (he e (by simp)).genuine _

/-- What holds of the ids and answers of every session. -/
structure Kept (s : Session) : Prop where
  tied : Tied s.connection
  numbered : Numbered s
  correlated : Correlated s

theorem kept_opened (longestFrame : Nat) (capacity : Capacity) :
    Kept (.opened longestFrame capacity) :=
  ⟨tied_opened .., numbered_opened .., correlated_opened ..⟩

theorem Kept.step {m : Move} (h : Kept s) (hm : s.step m = some s') : Kept s' :=
  ⟨h.tied.step (Session.step_eq_some hm).1, h.numbered.step h.tied hm,
    h.correlated.step h.tied h.numbered hm⟩

theorem kept_of_run {longestFrame : Nat} {capacity : Capacity} {ms : List Move}
    (h : (Session.opened longestFrame capacity).run ms = some s) : Kept s :=
  Session.run_preserves (fun _ _ _ _ hs hm => hs.step hm) h (kept_opened ..)

/-- A frame leaves every call alone that it is not for. -/
theorem Kept.others_unchanged (h : Kept s) {line : List Char} {rest : List UInt8} {k : Caller}
    (hk : k ∈ s.connection.callers)
    (hne : ∀ id, s.connection.addressee? line ≠ some (id, k.key)) :
    k ∈ (deliver { s.connection with received := rest } line).1.callers := by
  cases ha : s.connection.addressee? line with
  | none =>
    rw [deliver_none ha]
    exact hk
  | some p =>
    obtain ⟨id, key⟩ := p
    obtain ⟨outcome, _, hp, he⟩ := deliver_some ha rest
    have hmem := List.mem_of_find?_eq_some hp
    have hkey : k.key ≠ key := fun hkey => hne id (hkey ▸ ha)
    have hkept : s.connection.kept (fun p => p.1 != id) k = k := by
      refine kept_eq fun q hq hqk => bne_iff_ne.mpr fun hid => hkey ?_
      -- two entries under one id are the same entry
      have := List.inj_on_of_nodup_map h.tied.ids hq hmem hid
      rw [← hqk, this]
    have hforget : k ∈ (s.connection.forget id).callers := List.mem_map.mpr ⟨k, hk, hkept⟩
    rw [he]
    exact List.mem_map.mpr ⟨k, hforget, if_neg hkey⟩

/-- **Every answer reaches its own call, in whatever order things happen.** In every session of
fewer than `UInt64.size` calls, the ids that calls take differ; a call returns with an answer only
when a frame that bears its id and says just this was read after it had entered itself; a frame
changes no call but the one whose pending entry bears its id, and one that bears no pending id
changes nothing at all; and after an id has been given up, no frame that bears it reaches
anybody. -/
theorem answers_reach_their_calls {longestFrame : Nat} {capacity : Capacity} {ms : List Move}
    {s : Session}
    (h : (Session.opened longestFrame capacity).run ms = some s)
    (hfew : (callsOf s.log).length < UInt64.size) :
    (idsOf s.log).Nodup ∧
    (∀ before after key id? outcome,
      s.log = before ++ .returned key id? (resultOf outcome) :: after →
        ∃ id, id? = some id ∧ Answered before key id outcome) ∧
    (∀ s' line rest, s.step .readFrame = some s' →
      incoming s.connection.longestFrame s.connection.ended s.connection.received =
        .frame line rest →
      (∀ k ∈ s.connection.callers, (∀ id, s.connection.addressee? line ≠ some (id, k.key)) →
        k ∈ s'.connection.callers) ∧
      ((∀ id outcome, Delivery.ofFrame line = .answer id outcome →
          ∀ p ∈ s.connection.pending, p.1 ≠ id) →
        s'.connection = { s.connection with received := rest })) ∧
    (∀ before after e id, s.log = before ++ e :: after → e.freed? = some id →
      ∀ line outcome to?, .read line to? ∈ after → Delivery.ofFrame line = .answer id outcome →
        to? = none) := by
  have hkept := kept_of_run h
  refine ⟨hkept.numbered.ids_nodup hfew, ?_, ?_, ?_⟩
  · intro before after key id? outcome hlog
    rcases hkept.correlated.genuine _ _ _ hlog with hc | ⟨id, outcome', rfl, ho, hans⟩
    · cases outcome <;> cases hc
    · refine ⟨id, rfl, ?_⟩
      cases outcome <;> cases outcome' <;> cases ho <;> exact hans
  · intro s' line rest hs hf
    rw [readFrame_frame hf (Session.step_eq_some hs).1]
    refine ⟨fun k hk hne => hkept.others_unchanged hk hne, fun hnone => deliver_none ?_ rest⟩
    cases ha : s.connection.addressee? line with
    | none => rfl
    | some p =>
      obtain ⟨outcome, hd, hp, _⟩ := deliver_some ha rest
      exact absurd rfl (hnone _ outcome hd p (List.mem_of_find?_eq_some hp))
  · intro before after e id hlog hfreed line outcome to? hread hd
    cases to? with
    | none => rfl
    | some p =>
      obtain ⟨id', key⟩ := p
      obtain ⟨mid, rest, rfl⟩ := List.append_of_mem hread
      have hsplit : s.log = (before ++ e :: mid) ++ .read line (some (id', key)) :: rest := by
        rw [hlog]
        simp
      obtain ⟨_, ⟨outcome', hd'⟩, hfree⟩ := hkept.correlated.genuine _ _ _ hsplit
      cases hd.symm.trans hd'
      have hbefore : (callsOf (before ++ e :: mid)).length ≤ (callsOf s.log).length := by
        rw [hsplit, callsOf_append (before ++ e :: mid)]
        exact (List.sublist_append_left ..).length_le
      refine absurd ?_ (hfree (by omega))
      rw [freedOf_append]
      exact List.mem_append_right _ (List.mem_filterMap.mpr ⟨e, List.mem_cons_self .., hfreed⟩)

/-- One call, answered under its id. -/
def answeredOnce : List Move :=
  [.enter 5 "arb_x" [], .call 5, .call 5, .call 5, .call 5, .call 5,
    .receive "\x7b\"jsonrpc\":\"2.0\",\"id\":1,\"result\":7\x7d\n".toUTF8.toList, .readFrame,
    .call 5]

/-- A call returned with a result. -/
def Event.isResult : Event → Bool
  | .returned _ _ (.ok _) => true
  | _ => false

theorem answered_once_correlated :
    ∃ s, (Session.opened 64 64).run answeredOnce = some s ∧ (callsOf s.log).length < UInt64.size ∧
      (idsOf s.log).Nodup ∧
      ∃ before after key id text, s.log = before ++ .returned key (some id) (.ok text) :: after ∧
        Answered before key id (.ok text) := by
  have hrun : ((Session.opened 64 64).run answeredOnce).any
      (fun s => decide ((callsOf s.log).length < UInt64.size) && s.log.any Event.isResult) := by
    decide +kernel
  cases hs : (Session.opened 64 64).run answeredOnce with
  | none =>
    rw [hs] at hrun
    cases hrun
  | some s =>
  rw [hs] at hrun
  obtain ⟨hfew, hany⟩ := Bool.and_eq_true_iff.mp hrun
  obtain ⟨e, he, hresult⟩ := List.any_eq_true.mp hany
  obtain ⟨hnodup, hgenuine, _⟩ := answers_reach_their_calls hs (of_decide_eq_true hfew)
  refine ⟨s, rfl, of_decide_eq_true hfew, hnodup, ?_⟩
  obtain ⟨before, after, hlog⟩ := List.append_of_mem he
  cases e with
  | returned key id? result =>
    cases result with
    | ok text =>
      obtain ⟨id, rfl, hans⟩ := hgenuine before after key id? (.ok text) hlog
      exact ⟨before, after, key, id, text, hlog, hans⟩
    | error => cases hresult
  | _ => cases hresult

end Switchboard.Redirect
