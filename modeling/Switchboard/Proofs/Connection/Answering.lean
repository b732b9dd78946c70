import Switchboard.Proofs.Connection.Correlation
import Switchboard.Proofs.Message.Answers

/-! Answers that arrive.

A frame that answers a pending id takes the entry off and gives its call the reply
(`Tied.deliver_answer`), and a call that waits and has its reply returns just that, whatever
happens meanwhile, unless it is given up (`Resolved.run`). A well-formed answer is such a frame
exactly when it is readable (`well_formed_answered`): what is decoded in an error, its data above
all, may be beyond what is decoded, and then the call waits on. -/
namespace Switchboard.Redirect
open Json

variable {n key : Nat}

namespace Connection

variable {c c' : Connection} {k : Caller} {outcome : Outcome}

/-! ### A reply is handed over -/

theorem Tied.find_pending (h : Tied c) (hp : (n, key) ∈ c.pending) :
    c.pending.find? (fun p => p.1 == n) = some (n, key) := by
  cases hf : c.pending.find? fun p => p.1 == n with
  | none =>
    have := List.find?_eq_none.mp hf _ hp
    simp at this
  | some p =>
    have hmem := List.mem_of_find?_eq_some hf
    have hid : p.1 = n := by simpa using List.find?_some hf
    rw [List.inj_on_of_nodup_map h.ids hmem hp hid]

/-- A frame that answers a pending id is handed to the call that waits under it. -/
theorem Tied.deliver_answer (h : Tied c) (hp : (n, key) ∈ c.pending) {line : List Char}
    (hd : Delivery.ofFrame line = .answer n outcome) :
    c.deliver line = (c.handOver n key outcome, []) := by
  simp only [deliver, hd, reply, h.find_pending hp]
  rfl

theorem deliver_undecodable {line : List Char} (hd : Delivery.ofFrame line = .undecodable) :
    c.deliver line = (c, [.undecodableFrame]) := by
  simp only [deliver, hd]

theorem handOver_pending : ∀ p ∈ (c.handOver n key outcome).pending, p.1 ≠ n := fun _ hp =>
  (forget_pending.mp hp).2

/-- The call that a reply was handed to, with its reply. -/
theorem Tied.handOver_caller (h : Tied c) (hp : (n, key) ∈ c.pending) (outcome : Outcome) :
    ∃ k, (c.handOver n key outcome).caller? key = some k ∧ k.reply = .answered outcome ∧
      k.stage.listed? = some n := by
  obtain ⟨k, hk, rfl, hs, -⟩ := h.caller _ hp
  have hf : ∀ k : Caller, ({ k with reply := .answered outcome } : Caller).key = k.key := fun _ => rfl
  refine ⟨{ c.kept (fun p => p.1 != n) k with reply := .answered outcome }, ?_, rfl, ?_⟩
  · rw [Connection.handOver, update_caller? hf, forget, keep_caller?, h.caller?_eq hk]
    rfl
  · show (c.kept _ k).stage.listed? = some n
    rw [kept_stage]
    exact hs

/-- A call that waits and has its reply can return it. -/
theorem callStep_answered (hk : c.caller? key = some k) (hs : k.stage = .waiting n)
    (hr : k.reply = .answered outcome) :
    c.callStep key = some (c.finish key n (resultOf outcome)) := by
  obtain ⟨-, rfl⟩ := caller?_mem hk
  rw [callStep, hk]
  cases outcome <;> simp only [Option.bind_some, advance, hs, hr] <;> rfl

/-! ### A reply is kept -/

/-- How far a call can be that has its reply: it waits, or has returned the reply. One that was
answered `early`, before it waited, may have to queue its line first, or to turn back. -/
inductive Settling (early : Prop) (n : Nat) (outcome : Outcome) : Stage → Prop
  | listed (h : early) : Settling early n outcome (.listed n)
  | ready (h : early) : Settling early n outcome (.ready n)
  | waiting : Settling early n outcome (.waiting n)
  | returned : Settling early n outcome (.returned (resultOf outcome))
  | turnedBack (h : early) : Settling early n outcome (.returned (.error .closed))

/-- The call has its reply, and nothing else can become of it. -/
def Resolved (early : Prop) (c : Connection) (key n : Nat) (outcome : Outcome) : Prop :=
  ∃ k ∈ c.callers, k.key = key ∧ k.reply = .answered outcome ∧ Settling early n outcome k.stage

/-- A call that has no entry is left as it is when entries are taken off. -/
theorem keep_mem (hk : k ∈ c.callers) (hno : ∀ p ∈ c.pending, p.2 ≠ k.key)
    (stays : Nat × Nat → Bool) : k ∈ (c.keep stays).callers :=
  List.mem_map.mpr ⟨k, hk, kept_eq fun p hp hkey => absurd hkey (hno p hp)⟩

/-- A call that has its reply has no entry any more. -/
theorem Tied.kept_answered (h : Tied c) (hk : k ∈ c.callers) (hr : k.reply = .answered outcome)
    (stays : Nat × Nat → Bool) : k ∈ (c.keep stays).callers := by
  refine keep_mem hk (fun p hp hkey => ?_) stays
  have := (h.entry_eq hp hk hkey).2
  rw [hr] at this
  cases this

theorem mem_update_other (hk : k ∈ c.callers) {key' : Nat} (hne : k.key ≠ key')
    (f : Caller → Caller) : k ∈ (c.update key' f).callers :=
  List.mem_map.mpr ⟨k, hk, if_neg hne⟩

theorem Tied.other_advances {k' : Caller} {es : List Event} (h : Tied c) (hk : k ∈ c.callers)
    (hr : k.reply = .answered outcome) (hne : k.key ≠ k'.key) (ha : Advances c k' c' es) :
    k ∈ c'.callers := by
  have hset {d : Connection} (hd : k ∈ d.callers) (stage : Stage) :
      k ∈ (d.setStage k'.key stage).callers := mem_update_other hd hne _
  have hkeep (stays : Nat × Nat → Bool) := h.kept_answered hk hr stays
  cases ha with
  | refused => exact hset hk _
  | admitted => exact hset hk _
  | numbered => exact hset hk _
  | @listed id => exact hset (d := c.list k'.key id) (hkeep _) _
  | turnedBack => exact hset (hkeep _) _
  | ready => exact hset hk _
  | unsent => exact hset (hkeep _) _
  | queued => exact hset hk _
  | answered => exact hset (hkeep _) _
  | lost => exact hset (hkeep _) _

/-- The steps of a call that has its reply. -/
theorem Tied.settling_advances {early : Prop} {es : List Event} (h : Tied c) (hk : k ∈ c.callers)
    (hr : k.reply = .answered outcome) (hs : Settling early n outcome k.stage)
    (ha : Advances c k c' es) :
    ∃ stage, { k with stage := stage } ∈ c'.callers ∧ Settling early n outcome stage := by
  have hset {d : Connection} (hd : k ∈ d.callers) (stage : Stage) :
      { k with stage := stage } ∈ (d.setStage k.key stage).callers :=
    List.mem_map.mpr ⟨k, hd, if_pos rfl⟩
  have hkeep (stays : Nat × Nat → Bool) := h.kept_answered hk hr stays
  generalize hstage : k.stage = stage at hs
  cases hs with
  | listed he =>
    cases ha with
    | turnedBack => exact ⟨_, hset (hkeep _) _, .turnedBack he⟩
    | ready hs' =>
      cases hstage.symm.trans hs'
      exact ⟨_, hset hk _, .ready he⟩
    | _ hs' => cases hstage.symm.trans hs'
  | ready he =>
    cases ha with
    | unsent => exact ⟨_, hset (hkeep _) _, .turnedBack he⟩
    | queued hs' =>
      cases hstage.symm.trans hs'
      exact ⟨_, hset hk _, .waiting⟩
    | _ hs' => cases hstage.symm.trans hs'
  | waiting =>
    cases ha with
    | answered _ hr' =>
      cases hr.symm.trans hr'
      exact ⟨_, hset (hkeep _) _, .returned⟩
    | lost _ hr' => cases hr.symm.trans hr'
    | _ hs' => cases hstage.symm.trans hs'
  | returned | turnedBack =>
    cases ha with
    | answered hs' | lost hs' => cases hstage.symm.trans hs'
    | _ hs' => cases hstage.symm.trans hs'

theorem Resolved.step {early : Prop} {m : Move} (h : Resolved early c key n outcome) (ht : Tied c)
    (hs : c.step m = some c') (hm : m ≠ .abandon key) : Resolved early c' key n outcome := by
  obtain ⟨k, hk, rfl, hr, hstage⟩ := h
  have stays (hk' : k ∈ c'.callers) : Resolved early c' k.key n outcome := ⟨k, hk', rfl, hr, hstage⟩
  have ha := step_affects hs
  generalize c.events m c' = es at ha
  cases ha with
  | entered => exact stays (List.mem_append_left _ hk)
  | @advanced key' k' _ _ hk' ha =>
    obtain ⟨hm', rfl⟩ := caller?_mem hk'
    by_cases hkey : k.key = k'.key
    · cases ht.eq_of_key hk hm' hkey
      obtain ⟨stage, hmem, hstage'⟩ := ht.settling_advances hk hr hstage ha
      exact ⟨_, hmem, rfl, hr, hstage'⟩
    · exact stays (ht.other_advances hk hr hkey ha)
  | @abandoned key' k' hk' =>
    have hne : k.key ≠ key' := fun he => hm (by rw [he])
    refine stays ?_
    simp only [abandon, hk']
    refine List.mem_filter.mpr ⟨?_, by simpa using hne⟩
    split
    · exact ht.kept_answered hk hr _
    · exact hk
  | @answered line id key' outcome' _ hd hp ha =>
    have hne : k.key ≠ key' := fun he => by
      have := (ht.entry_eq (List.mem_of_find?_eq_some hp) hk he.symm).2
      rw [hr] at this
      cases this
    exact stays (ha.callers ▸ mem_update_other (ht.kept_answered hk hr _) hne _)
  | cleared ha => exact stays (ha.callers ▸ ht.kept_answered hk hr _)
  | others ha => exact stays (ha.callers ▸ hk)

/-- The call has queued its line and waits for the reply. -/
def Waits (c : Connection) (key n : Nat) : Prop := ∃ k ∈ c.callers, k.key = key ∧ k.stage = .waiting n

theorem Tied.not_waits (h : Tied c) (hk : k ∈ c.callers) (hne : k.stage ≠ .waiting n) :
    ¬c.Waits k.key n := fun ⟨_, hk', hkey, hw⟩ => hne (h.eq_of_key hk' hk hkey ▸ hw)

/-- The call that a reply was handed to has it. -/
theorem Tied.handOver_resolved (h : Tied c) (hp : (n, key) ∈ c.pending) (outcome : Outcome) :
    Resolved (¬c.Waits key n) (c.handOver n key outcome) key n outcome := by
  obtain ⟨k, hk, rfl, hs, -⟩ := h.caller _ hp
  refine ⟨{ c.kept (fun p => p.1 != n) k with reply := .answered outcome }, ?_, kept_key _, rfl, ?_⟩
  · exact List.mem_map.mpr ⟨_, List.mem_map_of_mem hk, if_pos (kept_key _)⟩
  · show Settling _ n outcome (c.kept _ k).stage
    rw [kept_stage]
    have early : k.stage ≠ .waiting n → ¬c.Waits k.key n := h.not_waits hk
    generalize hstage : k.stage = stage at hs early
    cases stage with
    | listed id =>
      cases hs
      exact .listed (early fun he => by cases he)
    | ready id =>
      cases hs
      exact .ready (early fun he => by cases he)
    | waiting id =>
      cases hs
      exact .waiting
    | _ => cases hs

/-- A frame that answers a pending id is read, and the call that it is for has the reply. -/
theorem Tied.readFrame_resolved (h : Tied c) (hp : (n, key) ∈ c.pending)
    (hread : c.reader = .reading) {line : List Char} {rest : List UInt8}
    (hf : incoming c.longestFrame c.ended c.received = .frame line rest)
    (hd : Delivery.ofFrame line = .answer n outcome) :
    ∃ c', c.step .readFrame = some c' ∧ Resolved (¬c.Waits key n) c' key n outcome := by
  have ha : c.addressee? line = some (n, key) := by
    simp only [addressee?, hd, h.find_pending hp]
  obtain ⟨outcome', hd', -, hc⟩ := deliver_some ha rest
  cases hd.symm.trans hd'
  have hstep : c.step .readFrame = some { c.handOver n key outcome with received := rest } := by
    rw [Connection.step, Connection.readFrame, if_pos hread, hf]
    exact congrArg some hc
  exact ⟨_, hstep, h.handOver_resolved hp outcome⟩

/-- A call that did not have to queue its line any more has returned its reply as soon as it
cannot take a step. -/
theorem Resolved.result (h : Resolved False c key n outcome) (ht : Tied c)
    (hstill : c.callStep key = none) :
    ∃ k, c.caller? key = some k ∧ k.stage = .returned (resultOf outcome) := by
  obtain ⟨k, hk, rfl, hr, hs⟩ := h
  have hfind := ht.caller?_eq hk
  generalize hstage : k.stage = stage at hs
  cases hs with
  | listed he => exact he.elim
  | ready he => exact he.elim
  | waiting => cases hstill.symm.trans (callStep_answered hfind hstage hr)
  | returned => exact ⟨k, hfind, hstage⟩
  | turnedBack he => exact he.elim

end Connection

open Connection

/-- **A call that has its reply returns it and nothing else**, in every session in which it is not
given up, unless it was answered before it waited and turns back. -/
theorem Connection.Resolved.run {early : Prop} {s s' : Session} {ms : List Move}
    {outcome : Outcome} (h : Resolved early s.connection key n outcome) (hk : Kept s)
    (hrun : s.run ms = some s') (hms : ∀ m ∈ ms, m ≠ .abandon key) :
    Resolved early s'.connection key n outcome :=
  (Session.run_preserves (P := fun s => Kept s ∧ Resolved early s.connection key n outcome)
    (fun _ _ m hm ⟨hk, hr⟩ hstep =>
      ⟨hk.step hstep, hr.step hk.tied (Session.step_eq_some hstep).1 (hms m hm)⟩)
    hrun ⟨hk, h⟩).2

/-- **A frame that answers a pending id is read, and from then on its call has the reply**: in every
session that goes on without the call being given up, it returns that and nothing else, unless it
did not wait yet and turns back. -/
theorem Kept.readFrame_resolved {s : Session} (h : Kept s) (hp : (n, key) ∈ s.connection.pending)
    (hread : s.connection.reader = .reading) {line : List Char} {rest : List UInt8}
    (hf : incoming s.connection.longestFrame s.connection.ended s.connection.received =
      .frame line rest)
    {outcome : Outcome} (hd : Delivery.ofFrame line = .answer n outcome) :
    ∃ s₁, s.step .readFrame = some s₁ ∧ ∀ ms s', s₁.run ms = some s' →
      (∀ m ∈ ms, m ≠ .abandon key) →
        Kept s' ∧ Resolved (¬s.connection.Waits key n) s'.connection key n outcome := by
  obtain ⟨c', hc, hr⟩ := h.tied.readFrame_resolved hp hread hf hd
  have hstep : s.step .readFrame = some ⟨c', s.log ++ s.connection.events .readFrame c'⟩ := by
    rw [Session.step, hc]
    rfl
  have hk := h.step hstep
  refine ⟨_, hstep, fun ms s' hrun hms => ⟨?_, hr.run hk hrun hms⟩⟩
  exact Session.run_preserves (P := Kept) (fun _ _ _ _ hk hs => hk.step hs) hrun hk

/-- A pending id fits a word. -/
theorem Kept.pending_lt {s : Session} (h : Kept s) (hp : (n, key) ∈ s.connection.pending) :
    n < UInt64.size := by
  obtain ⟨k, hk, -, hs, -⟩ := h.tied.caller _ hp
  have hb := h.numbered.balance n
  have hheld : holding n k.stage = 1 := if_pos (Stage.id?_of_listed? hs)
  have hrest := weigh_drop (w := holding n) h.tied.keys hk
  have hmem : n ∈ idsOf s.log := List.count_pos_iff.mp (by omega)
  rw [h.numbered.taken] at hmem
  obtain ⟨i, -, hi⟩ := List.mem_map.mp hmem
  rw [← hi]
  exact UInt64.toNat_lt _

/-! ### Well-formed answers -/

variable {r : Raw} {fields : List Field} {b b' : List Char}

theorem ofFrame_well_formed (h : Response.WellFormed r fields n) (hn : n < UInt64.size)
    (hb : Blank b) (hb' : Blank b') (hr : Response.Readable fields) :
    ∃ outcome, Response.Says fields outcome ∧
      Delivery.ofFrame (b ++ (r.chars ++ b')) = .answer n outcome := by
  obtain ⟨a, ha⟩ := Response.takes_of_readable h hn hr
  refine ⟨a.outcome, Response.says_of_takes h ha, ?_⟩
  have hparse := (Response.parse_eq_ok_iff h.object.isText hb hb').mpr ha
  simp only [Delivery.ofFrame, hparse, Response.id_of_takes h hn ha]

theorem ofFrame_unreadable (h : Response.WellFormed r fields n) (hb : Blank b) (hb' : Blank b')
    (hr : ¬Response.Readable fields) :
    Delivery.ofFrame (b ++ (r.chars ++ b')) = .undecodable := by
  cases hparse : Response.parse (b ++ (r.chars ++ b')) with
  | error fault => simp only [Delivery.ofFrame, hparse]
  | ok a =>
    have ha := (Response.parse_eq_ok_iff h.object.isText hb hb').mp hparse
    exact absurd (Response.readable_of_takes h.object ha) hr

/-- **A well-formed answer resolves the call it is for exactly when all that is decoded in it means
something.** Then the pending entry is taken off, and the call has what the answer says for its
reply, which it returns as soon as it waits; otherwise the frame is undecodable and everything
stays as it was. Results are never decoded: an answer with a result is lost only for one of its
names or its version. -/
theorem well_formed_answered {longestFrame : Nat} {capacity : Capacity} {ms : List Move}
    {s : Session}
    (hrun : (Session.opened longestFrame capacity).run ms = some s)
    (hp : (n, key) ∈ s.connection.pending) (hb : Blank b) (hb' : Blank b')
    (h : Response.WellFormed r fields n) :
    (Response.Readable fields →
      ∃ outcome c', Response.Says fields outcome ∧
        s.connection.deliver (b ++ (r.chars ++ b')) = (c', []) ∧
        (∀ p ∈ c'.pending, p.1 ≠ n) ∧
        ∃ k, c'.caller? key = some k ∧ k.reply = .answered outcome ∧
          (k.stage = .waiting n →
            c'.callStep key = some (c'.finish key n (resultOf outcome)))) ∧
    (¬Response.Readable fields →
      s.connection.deliver (b ++ (r.chars ++ b')) = (s.connection, [.undecodableFrame])) := by
  have hkept := kept_of_run hrun
  have hn := hkept.pending_lt hp
  constructor
  · intro hr
    obtain ⟨outcome, hsays, hd⟩ := ofFrame_well_formed h hn hb hb' hr
    obtain ⟨k, hk, hreply, -⟩ := hkept.tied.handOver_caller hp outcome
    exact ⟨outcome, _, hsays, hkept.tied.deliver_answer hp hd, handOver_pending, k, hk, hreply,
      fun hs => callStep_answered hk hs hreply⟩
  · exact fun hr => deliver_undecodable (ofFrame_unreadable h hb hb' hr)

/-- One call, until it waits under the id 1. -/
def waitingOnce : List Move :=
  [.enter 5 "arb_x" [], .call 5, .call 5, .call 5, .call 5, .call 5]

/-- An answer with the result 7. -/
def seven : Raw := ⟨writeObject (Raw.spelt (Response.answering 1 "result" ⟨['7']⟩))⟩

theorem seven_answered :
    ∃ s, (Session.opened 64 64).run waitingOnce = some s ∧ (1, 5) ∈ s.connection.pending ∧
      ∃ c' k, s.connection.deliver seven.chars = (c', []) ∧ c'.caller? 5 = some k ∧
        k.reply = .answered (.ok ⟨['7']⟩) := by
  have hrun : ((Session.opened 64 64).run waitingOnce).any
      (fun s => decide ((1, 5) ∈ s.connection.pending)) := by
    decide +kernel
  obtain ⟨s, hs, hp⟩ := (Option.any_eq_true _ _).mp hrun
  have hp := of_decide_eq_true hp
  have ht : Raw.IsText ⟨['7']⟩ := Raw.IsWhole.isText (i := 7) rfl
  obtain ⟨hreadable, -⟩ :=
    well_formed_answered hs hp blank_nil blank_nil (Response.result_wellFormed ht)
  obtain ⟨outcome, c', hsays, hd, -, k, hk, hreply, -⟩ := hreadable Response.result_readable
  rw [List.nil_append, List.append_nil] at hd
  refine ⟨s, hs, hp, c', k, hd, hk, ?_⟩
  cases hsays with
  | result h =>
    obtain ⟨f, hf, hn, rfl⟩ := h
    obtain ⟨t, ht, he⟩ := named_written hf hn
    simp [Response.answering] at ht
    rw [hreply, he, ht]
  | error hno =>
    exact absurd (Field.written_named ..) (hno _ Response.answering_part)

/-- An answer with an error whose data is a list with 125 others around it. -/
def buried : Raw :=
  ⟨writeObject (Raw.spelt (Response.answering 1 "error"
    ⟨writeObject (Raw.spelt (ErrorObject.told (-32000) "too deep" (.nested 125)))⟩))⟩

/-- The answer is well formed, and the call that it is for is left waiting. -/
theorem buried_unanswered :
    ∃ s, (Session.opened 64 64).run waitingOnce = some s ∧ (1, 5) ∈ s.connection.pending ∧
      (∃ fields, Response.WellFormed buried fields 1) ∧
      s.connection.deliver buried.chars = (s.connection, [.undecodableFrame]) := by
  have hrun : ((Session.opened 64 64).run waitingOnce).any
      (fun s => decide ((1, 5) ∈ s.connection.pending)) := by
    decide +kernel
  obtain ⟨s, hs, hp⟩ := (Option.any_eq_true _ _).mp hrun
  have hcode : Fits64 (-32000) := by unfold Fits64; decide
  have htext := Raw.nested_isText 125
  have hwell := Response.error_wellFormed (n := 1)
    (@ErrorObject.told_wellFormed (.nested 125) (-32000) "too deep" hcode htext)
  have hun : ¬Response.Readable (Field.all (Response.answering 1 "error"
      ⟨writeObject (Raw.spelt (ErrorObject.told (-32000) "too deep" (.nested 125)))⟩)) := fun h =>
    absurd ((denotes_nested_iff 125 2).mp (h.data_denotes hcode htext)) (by decide)
  have hframe := ofFrame_unreadable hwell blank_nil blank_nil hun
  rw [List.nil_append, List.append_nil] at hframe
  exact ⟨s, hs, of_decide_eq_true hp, ⟨_, hwell⟩, deliver_undecodable hframe⟩

end Switchboard.Redirect
