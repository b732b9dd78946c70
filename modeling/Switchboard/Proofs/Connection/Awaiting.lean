import Switchboard.Proofs.Connection.Answering
import Switchboard.Proofs.Connection.Ending
import Switchboard.Proofs.Connection.Leaving
import Switchboard.Proofs.Connection.Reading

/-! What becomes of the calls that are pending while the stream is read.

A pending call is owed what the first line says that is for it (`saidTo`); when the reader has
finished and no line was for it, it is owed that nobody answers (`replyDue`). Every move but the
call's being given up keeps this (`Owes.step`), as long as no other call holds its id. A reader that
has stopped answers nobody, so all that can be seen of a call that was not answered before is that
the connection is closed (`returns_closed`). -/
namespace Switchboard.Redirect
open Json

/-! ### What the lines say to a call -/

/-- What a line says to the call that waits under the id. -/
def Delivery.outcome? (id : Nat) : Delivery → Option Outcome
  | .answer n outcome => if n = id then some outcome else none
  | _ => none

/-- What the first of the lines says that is for the id. -/
def saidTo (id : Nat) (lines : List (List Char)) : Option Outcome :=
  lines.findSome? fun line => (Delivery.ofFrame line).outcome? id

theorem saidTo_append (id : Nat) (a b : List (List Char)) :
    saidTo id (a ++ b) = (saidTo id a).or (saidTo id b) := List.findSome?_append

/-- The reply that is due under an id after these lines. -/
def replyDue (id : Nat) (lines : List (List Char)) (reader : Reader) : Reply :=
  match saidTo id lines with
  | some outcome => .answered outcome
  | none => if reader = .finished then .lost else .open_

theorem Delivery.outcome?_eq_some {id : Nat} {d : Delivery} {outcome : Outcome}
    (h : d.outcome? id = some outcome) : d = .answer id outcome := by
  unfold Delivery.outcome? at h
  split at h
  · split at h <;> cases h
    rename_i hid
    rw [hid]
  · cases h

theorem replyDue_of_some {id : Nat} {lines : List (List Char)} {reader : Reader}
    {outcome : Outcome} (h : saidTo id lines = some outcome) :
    replyDue id lines reader = .answered outcome := by rw [replyDue, h]

theorem replyDue_of_none {id : Nat} {lines : List (List Char)} {reader : Reader}
    (h : saidTo id lines = none) (hr : reader ≠ .finished) : replyDue id lines reader = .open_ := by
  rw [replyDue, h]
  exact if_neg hr

theorem replyDue_congr (id : Nat) (lines : List (List Char)) {reader reader' : Reader}
    (h : reader' = .finished ↔ reader = .finished) :
    replyDue id lines reader' = replyDue id lines reader := by
  simp only [replyDue, h]

theorem replyDue_of_finished {id : Nat} {lines : List (List Char)}
    (h : saidTo id lines = none) : replyDue id lines .finished = .lost := by
  rw [replyDue, h]
  exact if_pos rfl

namespace Connection

variable {c c' : Connection} {k k' : Caller} {early : Prop} {key id : Nat} {reply : Reply}
  {m : Move} {es : List Event}

/-- How far a call can be that was pending under the id and to which this reply is due. One that
did not wait yet may turn back. -/
inductive Owed (early : Prop) (id : Nat) (reply : Reply) (k : Caller) : Prop
  | waits (hr : k.reply = reply) (hs : k.stage = .waiting id)
  | comes (he : early) (hr : k.reply = reply) (hs : k.stage = .listed id ∨ k.stage = .ready id)
  | returned (hr : reply ≠ .open_) (hs : k.stage = .returned (verdict reply))
  | turnedBack (he : early) (hs : k.stage = .returned (.error .closed))

/-- The call of this key was pending under the id, and this reply is due to it. -/
def Owes (early : Prop) (c : Connection) (key id : Nat) (reply : Reply) : Prop :=
  ∃ k ∈ c.callers, k.key = key ∧ Owed early id reply k

theorem Owed.kept (h : Owed early id reply k) (ht : Tied c) (hk : k ∈ c.callers)
    {stays : Nat × Nat → Bool}
    (hstay : k.stage.id? = some id → k.reply = .open_ → stays (id, k.key) = true) :
    Owed early id reply (c.kept stays k) := by
  have same (hs : k.stage.listed? = some id) : c.kept stays k = k :=
    kept_eq fun p hp hkey => by
      obtain ⟨hl, hopen⟩ := ht.entry_eq hp hk hkey
      have hid : p = (id, k.key) := Prod.ext (Option.some.inj (hl.symm.trans hs)) hkey
      rw [hid]
      exact hstay (Stage.id?_of_listed? hs) hopen
  cases h with
  | waits hr hs =>
    rw [same (by rw [hs]; rfl)]
    exact .waits hr hs
  | comes he hr hs =>
    rw [same (by rcases hs with hs | hs <;> rw [hs] <;> rfl)]
    exact .comes he hr hs
  | returned hr hs => exact .returned hr ((kept_stage _).trans hs)
  | turnedBack he hs => exact .turnedBack he ((kept_stage _).trans hs)

theorem Owes.congr (h : c.Owes early key id reply) (hc : c'.callers = c.callers) :
    c'.Owes early key id reply := by
  rw [Owes, hc]
  exact h

theorem Owes.update (h : c.Owes early key id reply) {key' : Nat} (hne : key ≠ key')
    (f : Caller → Caller) : (c.update key' f).Owes early key id reply := by
  obtain ⟨k, hk, rfl, ho⟩ := h
  exact ⟨k, mem_update_other hk hne f, rfl, ho⟩

theorem Owes.keep (h : c.Owes early key id reply) (ht : Tied c) {stays : Nat × Nat → Bool}
    (hstay : ∀ k ∈ c.callers, k.key = key → k.stage.id? = some id → k.reply = .open_ →
      stays (id, key) = true) :
    (c.keep stays).Owes early key id reply := by
  obtain ⟨k, hk, rfl, ho⟩ := h
  exact ⟨c.kept stays k, List.mem_map_of_mem hk, kept_key _, Owed.kept ho ht hk (hstay k hk rfl)⟩

/-- Another call gives up an id of its own. -/
theorem Owes.forget (h : c.Owes early key id reply) (ht : Tied c) (hu : c.Unmixed)
    (hk' : k' ∈ c.callers) (hne : k'.key ≠ key) {n : Nat} (hid : k'.stage.id? = some n) :
    (c.forget n).Owes early key id reply :=
  h.keep ht fun k hk hkey hs _ => bne_iff_ne.mpr fun he =>
    hne ((hu k' hk' k hk n hid (he ▸ hs)) ▸ hkey)

/-! ### The steps of calls -/

theorem Owes.advances_other (h : c.Owes early key id reply) (ht : Tied c) (hu : c.Unmixed)
    (hk' : k' ∈ c.callers) (hne : k'.key ≠ key) (ha : Advances c k' c' es) :
    c'.Owes early key id reply := by
  have hset {d : Connection} (hd : d.Owes early key id reply) (stage : Stage) :
      (d.setStage k'.key stage).Owes early key id reply := hd.update (Ne.symm hne) _
  have hforget {n : Nat} (hid : k'.stage.id? = some n) := h.forget ht hu hk' hne hid
  cases ha with
  | refused | admitted | ready => exact hset h _
  | numbered => exact (hset h (.numbered c.nextId.toNat)).congr rfl
  | @queued n => exact (hset h (.waiting n)).congr rfl
  | @listed n hs =>
    have hd : (c.list k'.key n).Owes early key id reply :=
      (hforget (by rw [hs]; rfl)).congr rfl
    exact hset hd _
  | turnedBack hs | unsent hs | answered hs | lost hs => exact hset (hforget (by rw [hs]; rfl)) _

/-- The call that is owed the reply takes a step. -/
theorem Owed.advances (h : Owed early id reply k) (hk : k ∈ c.callers)
    (ha : Advances c k c' es) : c'.Owes early k.key id reply := by
  have hset {d : Connection} {k₁ : Caller} (hd : k₁ ∈ d.callers) (hkey : k₁.key = k.key)
      {stage : Stage} (ho : Owed early id reply { k₁ with stage := stage }) :
      (d.setStage k.key stage).Owes early k.key id reply :=
    ⟨_, List.mem_map.mpr ⟨k₁, hd, if_pos hkey⟩, hkey, ho⟩
  have hfin {n : Nat} {result : Forwarded}
      (ho : Owed early id reply { c.kept (fun p => p.1 != n) k with stage := .returned result }) :
      (c.finish k.key n result).Owes early k.key id reply :=
    hset (List.mem_map_of_mem hk) (kept_key _) ho
  cases h with
  | waits hr hs =>
    cases ha with
    | answered _ hr' =>
      cases hr.symm.trans hr'
      exact hfin (.returned nofun rfl)
    | lost _ hr' =>
      cases hr.symm.trans hr'
      exact hfin (.returned nofun rfl)
    | _ hs' => cases hs.symm.trans hs'
  | comes he hr hs =>
    rcases hs with hs | hs
    · cases ha with
      | turnedBack => exact hfin (.turnedBack he rfl)
      | ready hs' =>
        cases hs.symm.trans hs'
        exact hset hk rfl (.comes he hr (.inr rfl))
      | _ hs' => cases hs.symm.trans hs'
    · cases ha with
      | unsent => exact hfin (.turnedBack he rfl)
      | queued hs' =>
        cases hs.symm.trans hs'
        have ho : Owed early id reply { k with stage := .waiting id } := .waits hr rfl
        exact (hset hk rfl ho).congr rfl
      | _ hs' => cases hs.symm.trans hs'
  | returned _ hs | turnedBack _ hs =>
    cases ha with
    | answered hs' | lost hs' => cases hs.symm.trans hs'
    | _ hs' => cases hs.symm.trans hs'

theorem Owes.advances (h : c.Owes early key id reply) (ht : Tied c) (hu : c.Unmixed)
    (hk' : k' ∈ c.callers) (ha : Advances c k' c' es) : c'.Owes early key id reply := by
  by_cases hne : k'.key = key
  · obtain ⟨k, hk, rfl, ho⟩ := h
    cases ht.eq_of_key hk hk' hne.symm
    exact Owed.advances ho hk ha
  · exact h.advances_other ht hu hk' hne ha

/-! ### The other moves -/

theorem Owes.abandon (h : c.Owes early key id reply) (ht : Tied c) (hu : c.Unmixed) {key' : Nat}
    (hne : key' ≠ key) : (c.abandon key').Owes early key id reply := by
  have hdrop {d : Connection} (hd : d.Owes early key id reply) :
      Owes early { d with callers := d.callers.filter fun k => k.key != key' } key id reply := by
    obtain ⟨k, hk, hkey, ho⟩ := hd
    exact ⟨k, List.mem_filter.mpr ⟨hk, bne_iff_ne.mpr (hkey ▸ Ne.symm hne)⟩, hkey, ho⟩
  unfold Connection.abandon
  cases hk : c.caller? key' with
  | none => exact h
  | some k' =>
    obtain ⟨hmem, rfl⟩ := caller?_mem hk
    refine hdrop ?_
    cases hid : k'.stage.id? with
    | none => exact h
    | some n => exact h.forget ht hu hmem hne hid

/-- The reader takes no frame and does not clear the entries. -/
theorem Owes.step_other (h : c.Owes early key id reply) (ht : Tied c) (hu : c.Unmixed)
    (hm : m ≠ .abandon key) (hd : m.disturbs = false) (hr : m ≠ .readFrame)
    (hc : c.reader = .clearing → m ≠ .closeReader) (hs : c.step m = some c') :
    c'.Owes early key id reply := by
  cases step_moves hs with
  | enters =>
    obtain ⟨k, hk, hkey, ho⟩ := h
    exact ⟨k, List.mem_append_left _ hk, hkey, ho⟩
  | calls hk ha => exact h.advances ht hu (caller?_mem hk).1 ha
  | abandons => exact h.abandon ht hu fun he => hm (he ▸ rfl)
  | reads | readsNoMore => exact absurd rfl hr
  | clears hclearing => exact absurd rfl (hc hclearing)
  | begins | closes | releases | fails => cases hd
  | _ => exact h.congr rfl

/-- Only the clearing brings the reader to its end. -/
theorem step_finished_iff (hr : m ≠ .readFrame)
    (hc : c.reader = .clearing → m ≠ .closeReader) (hs : c.step m = some c') :
    c'.reader = .finished ↔ c.reader = .finished := by
  cases step_moves hs with
  | calls _ ha => rw [ha.marks.2]
  | abandons => rw [abandon_frame]
  | closes _ hc' => cases hc' <;> exact Iff.rfl
  | reads | readsNoMore => exact absurd rfl hr
  | leaves hreading => simp [hreading]
  | readerMarks hstopped => simp [hstopped]
  | clears hclearing => exact absurd rfl (hc hclearing)
  | _ => exact Iff.rfl

/-- Once it is told, nothing else is told to it. -/
theorem Owed.not_pending (h : Owed early id reply k) (ht : Tied c) (hk : k ∈ c.callers)
    (hr : reply ≠ .open_) {p : Nat × Nat} (hp : p ∈ c.pending) : p.2 ≠ k.key := by
  intro hkey
  obtain ⟨hl, hopen⟩ := ht.entry_eq hp hk hkey
  cases h with
  | waits hr' => exact hr (hr'.symm.trans hopen)
  | comes _ hr' => exact hr (hr'.symm.trans hopen)
  | returned _ hs | turnedBack _ hs =>
    rw [hs] at hl
    cases hl

theorem Owes.keep_told (h : c.Owes early key id reply) (ht : Tied c) (hr : reply ≠ .open_)
    (stays : Nat × Nat → Bool) : (c.keep stays).Owes early key id reply := by
  obtain ⟨k, hk, rfl, ho⟩ := h
  exact ⟨k, keep_mem hk (fun p hp => Owed.not_pending ho ht hk hr hp) stays, rfl, ho⟩

theorem Owes.looks_told (h : c.Owes early key id reply) (ht : Tied c) (hr : reply ≠ .open_)
    {lines : List (List Char)} (hl : Looks c c' lines) : c'.Owes early key id reply := by
  cases hl with
  | stops => exact h.congr rfl
  | @frame line rest hi =>
    cases ha : c.addressee? line with
    | none =>
      rw [deliver_none ha]
      exact h.congr rfl
    | some p =>
      obtain ⟨outcome, -, hp, he⟩ := deliver_some ha rest
      rw [he]
      have hne : key ≠ p.2 := by
        obtain ⟨k, hk, rfl, ho⟩ := h
        exact (Owed.not_pending ho ht hk hr (List.mem_of_find?_eq_some hp)).symm
      exact ((h.keep_told ht hr _).update hne _).congr rfl

/-! ### The reply -/

/-- A call that nobody has answered is pending, or has turned back. -/
theorem Owed.pending (h : Owed early id .open_ k) (ht : Tied c) (hk : k ∈ c.callers) :
    (id, k.key) ∈ c.pending ∧ k.stage.listed? = some id ∧
        (∀ reply, Owed early id reply { k with reply := reply }) ∨
      k.stage.listed? = none ∧ ∀ reply, Owed early id reply k := by
  cases h with
  | waits hr hs =>
    have hl : k.stage.listed? = some id := by rw [hs]; rfl
    exact .inl ⟨ht.entry k hk id hl hr, hl, fun reply => .waits rfl hs⟩
  | comes he hr hs =>
    have hl : k.stage.listed? = some id := by rcases hs with hs | hs <;> rw [hs] <;> rfl
    exact .inl ⟨ht.entry k hk id hl hr, hl, fun reply => .comes he rfl hs⟩
  | returned hr => exact absurd rfl hr
  | turnedBack he hs => exact .inr ⟨by rw [hs]; rfl, fun _ => .turnedBack he hs⟩

/-- When the entries are cleared, a call that nobody has answered is told so. -/
theorem Owes.clear (h : c.Owes early key id .open_) (ht : Tied c) :
    c.clear.Owes early key id .lost := by
  obtain ⟨k, hk, rfl, ho⟩ := h
  rcases Owed.pending ho ht hk with ⟨hp, -, hlost⟩ | ⟨-, hback⟩
  · have hany : (c.pending.any fun p => p.2 == k.key && !false) = true :=
      List.any_eq_true.mpr ⟨_, hp, by simp⟩
    exact ⟨{ k with reply := .lost }, List.mem_map.mpr ⟨k, hk, if_pos hany⟩, rfl, hlost .lost⟩
  · exact Owes.keep_told ⟨k, hk, rfl, hback .lost⟩ ht nofun _

/-- A frame that answers the id is handed to the call. -/
theorem Owes.answered (h : c.Owes early key id .open_) (ht : Tied c) {line : List Char}
    {rest : List UInt8} (hi : incoming c.longestFrame c.ended c.received = .frame line rest)
    {outcome : Outcome} (hd : Delivery.ofFrame line = .answer id outcome) :
    (deliver { c with received := rest } line).1.Owes early key id (.answered outcome) := by
  obtain ⟨k, hk, rfl, ho⟩ := h
  rcases Owed.pending ho ht hk with ⟨hp, -, hanswered⟩ | ⟨-, hback⟩
  · have ht' : Tied { c with received := rest } := ht.congr rfl rfl
    rw [ht'.deliver_answer hp hd]
    have hkept : c.kept (fun p => p.1 != id) k ∈ (c.forget id).callers := List.mem_map_of_mem hk
    refine ⟨{ c.kept (fun p => p.1 != id) k with reply := .answered outcome },
      List.mem_map.mpr ⟨_, hkept, if_pos (kept_key _)⟩, kept_key _, ?_⟩
    unfold Connection.kept
    split <;> exact hanswered _
  · exact Owes.looks_told ⟨k, hk, rfl, hback _⟩ ht nofun (.frame hi)

/-- Any other frame leaves the call unanswered. -/
theorem Owes.unanswered (h : c.Owes early key id .open_) (ht : Tied c) {line : List Char}
    (rest : List UInt8) (hd : (Delivery.ofFrame line).outcome? id = none) :
    (deliver { c with received := rest } line).1.Owes early key id .open_ := by
  cases ha : c.addressee? line with
  | none =>
    rw [deliver_none ha]
    exact h.congr rfl
  | some p =>
    obtain ⟨outcome, hd', hp, he⟩ := deliver_some ha rest
    have hid : p.1 ≠ id := by
      rintro rfl
      rw [hd', Delivery.outcome?, if_pos rfl] at hd
      cases hd
    have hkey : key ≠ p.2 := by
      rintro rfl
      obtain ⟨k, hk, hkey, ho⟩ := h
      have hl := (ht.entry_eq (List.mem_of_find?_eq_some hp) hk hkey.symm).1
      rcases Owed.pending ho ht hk with ⟨-, hl', -⟩ | ⟨hl', -⟩
      · exact hid (Option.some.inj (hl.symm.trans hl'))
      · cases hl.symm.trans hl'
    have hkept : (c.forget p.1).Owes early key id .open_ :=
      h.keep ht fun _ _ _ _ _ => bne_iff_ne.mpr hid.symm
    rw [he]
    exact (hkept.update hkey _).congr rfl

theorem Owes.looks {lines new : List (List Char)}
    (h : c.Owes early key id (replyDue id lines c.reader)) (ht : Tied c)
    (hr : c.reader = .reading) (hl : Looks c c' new) :
    c'.Owes early key id (replyDue id (lines ++ new) c'.reader) := by
  cases hsaid : saidTo id lines with
  | some outcome =>
    rw [replyDue_of_some hsaid] at h
    rw [replyDue_of_some (by rw [saidTo_append, hsaid, Option.some_or])]
    exact h.looks_told ht nofun hl
  | none =>
    rw [replyDue_of_none hsaid (by simp [hr])] at h
    have hnew : saidTo id (lines ++ new) = saidTo id new := by
      rw [saidTo_append, hsaid, Option.none_or]
    cases hl with
    | stops =>
      rw [replyDue_of_none hnew (show Reader.stopped ≠ .finished by simp)]
      exact h.congr rfl
    | @frame line rest hi =>
      cases hd : (Delivery.ofFrame line).outcome? id with
      | some outcome =>
        have hfirst : saidTo id [line] = some outcome := by simp [saidTo, hd]
        rw [replyDue_of_some (hnew.trans hfirst)]
        exact h.answered ht hi (Delivery.outcome?_eq_some hd)
      | none =>
        obtain ⟨_, _, hdeliver⟩ := deliver_only { c with received := rest } line
        have hreader : (deliver { c with received := rest } line).1.reader = .reading := by
          rw [hdeliver]
          exact hr
        have hfirst : saidTo id [line] = none := by simp [saidTo, hd]
        rw [replyDue_of_none (hnew.trans hfirst) (by simp [hreader])]
        exact h.unanswered ht rest hd

theorem Owes.clears {lines : List (List Char)}
    (h : c.Owes early key id (replyDue id lines c.reader)) (ht : Tied c)
    (hr : c.reader = .clearing) : c.clear.Owes early key id (replyDue id lines .finished) := by
  cases hsaid : saidTo id lines with
  | some outcome =>
    rw [replyDue_of_some hsaid] at h ⊢
    exact h.keep_told ht nofun _
  | none =>
    rw [replyDue_of_none hsaid (by simp [hr])] at h
    rw [replyDue_of_finished hsaid]
    exact h.clear ht

/-- **What is due to a call is what the lines say to it**, and that nobody answers when the reader
has finished. -/
theorem Owes.step {lines : List (List Char)} (h : c.Owes early key id (replyDue id lines c.reader))
    (ht : Tied c) (hu : c.Unmixed) (hm : m ≠ .abandon key) (hd : m.disturbs = false)
    (hs : c.step m = some c') :
    c'.Owes early key id (replyDue id (lines ++ linesRead (c.events m c')) c'.reader) := by
  by_cases hr : m = .readFrame
  · subst hr
    obtain ⟨hreading, hl⟩ := readFrame_looks hs
    exact h.looks ht hreading hl
  rw [events_unread hr, List.append_nil]
  by_cases hc : c.reader = .clearing ∧ m = .closeReader
  · obtain ⟨hclearing, rfl⟩ := hc
    simp only [Connection.step, closeReader, hclearing, Option.some.injEq] at hs
    subst hs
    exact (h.clears ht hclearing).congr rfl
  · have hc : c.reader = .clearing → m ≠ .closeReader := fun hc' he => hc ⟨hc', he⟩
    rw [replyDue_congr id lines (step_finished_iff hr hc hs)]
    exact h.step_other ht hu hm hd hr hc hs

/-- A call that is pending is owed a reply. -/
theorem Tied.owes (h : Tied c) (hp : (id, key) ∈ c.pending) :
    c.Owes (¬c.Waits key id) key id .open_ := by
  obtain ⟨k, hk, rfl, hl, hr⟩ := h.caller _ hp
  refine ⟨k, hk, rfl, ?_⟩
  have early : k.stage ≠ .waiting id → ¬c.Waits k.key id := h.not_waits hk
  cases hs : k.stage with
  | waiting n =>
    rw [hs] at hl
    cases hl
    exact .waits hr hs
  | listed n =>
    rw [hs] at hl early
    cases hl
    exact .comes (early nofun) hr (.inl hs)
  | ready n =>
    rw [hs] at hl early
    cases hl
    exact .comes (early nofun) hr (.inr hs)
  | _ =>
    rw [hs] at hl
    cases hl

end Connection

open Connection

variable {s s' : Session} {ms : List Move} {key id : Nat}

/-- **A pending call is answered by the first line that is for it**, whatever else happens, unless
it is given up; and if the reader finishes before, the call is told that nobody answers. -/
theorem Kept.reply_due (h : Kept s) (hp : (id, key) ∈ s.connection.pending)
    (hr : s.connection.reader ≠ .finished) (hrun : s.run ms = some s')
    (hms : ∀ m ∈ ms, m.disturbs = false ∧ m ≠ .abandon key)
    (hfew : (callsOf s'.log).length < UInt64.size) :
    ∃ lines, linesRead s'.log = linesRead s.log ++ lines ∧
      s'.connection.Owes (¬s.connection.Waits key id) key id
        (replyDue id lines s'.connection.reader) := by
  refine (Session.run_preserves (P := fun t => Kept t ∧ ((callsOf t.log).length < UInt64.size →
    ∃ lines, linesRead t.log = linesRead s.log ++ lines ∧
      t.connection.Owes (¬s.connection.Waits key id) key id
        (replyDue id lines t.connection.reader))) ?_ hrun ⟨h, fun _ => ⟨[], ?_, ?_⟩⟩).2 hfew
  · rintro t t' m hm ⟨hk, ht⟩ hstep
    refine ⟨hk.step hstep, fun hfew' => ?_⟩
    obtain ⟨hmove, hlog⟩ := Session.step_eq_some hstep
    have hless : (callsOf t.log).length < UInt64.size := by
      rw [hlog, callsOf_append, List.length_append] at hfew'
      omega
    obtain ⟨lines, hlines, howes⟩ := ht hless
    refine ⟨lines ++ linesRead (t.connection.events m t'.connection), ?_, ?_⟩
    · rw [hlog, linesRead_append, hlines, List.append_assoc]
    · exact howes.step hk.tied (unmixed_of_numbered hk.numbered hk.tied hless) (hms m hm).2
        (hms m hm).1 hmove
  · exact (List.append_nil _).symm
  · rw [replyDue_of_none rfl hr]
    exact h.tied.owes hp

/-! ### When the reader has stopped -/

/-- No call of this key has an answer. -/
def Connection.Unanswered (c : Connection) (key : Nat) : Prop :=
  ∀ k ∈ c.callers, k.key = key → ∀ outcome, k.reply ≠ .answered outcome

/-- All that is seen of the call's return is that the connection is closed. -/
def OnlyClosed (key : Nat) (es : List Event) : Prop :=
  ∀ id? result, .returned key id? result ∈ es → result = .error .closed

theorem Connection.Unanswered.follow {c c' : Connection} (h : c.Unanswered key) (es : List Event)
    (hf : AllFollow es c c') : c'.Unanswered key := by
  intro k' hk' hkey outcome hr
  obtain ⟨k, hk, hf⟩ := hf k' hk'
  exact h k hk (hf.key.symm.trans hkey) outcome (hf.reply outcome hr)

theorem Connection.Unanswered.advances {c c' : Connection} {k : Caller} {es : List Event}
    (h : c.Unanswered key) (hk : k ∈ c.callers) (ha : Advances c k c' es) : OnlyClosed key es := by
  intro id? result hmem
  cases ha with
  | answered hs hr =>
    cases List.mem_singleton.mp hmem
    exact absurd hr (h k hk rfl _)
  | refused | turnedBack | unsent | lost =>
    cases List.mem_singleton.mp hmem
    rfl
  | numbered | listed | queued => cases List.mem_singleton.mp hmem
  | admitted | ready => cases hmem

/-- A reader that has stopped answers nobody. -/
theorem Connection.Unanswered.step {c c' : Connection} {m : Move} (h : c.Unanswered key)
    (ht : Tied c) (hr : c.reader ≠ .reading) (hs : c.step m = some c') :
    c'.reader ≠ .reading ∧ c'.Unanswered key ∧ OnlyClosed key (c.events m c') := by
  have hreader : c'.reader ≠ .reading := by
    cases step_marks hs with
    | same _ he => exact he ▸ hr
    | stopped _ he | marked _ he => simp [he]
    | cleared _ _ he => simp [he]
  refine ⟨hreader, ?_⟩
  have ha := step_affects hs
  have hread : m ≠ .readFrame := fun he => hr (readFrame_looks (he ▸ hs)).1
  generalize c.events m c' = es at ha
  cases ha with
  | entered =>
    refine ⟨fun k hk hkey outcome => ?_, fun id? result hmem => ?_⟩
    · rcases List.mem_append.mp hk with hk | hk
      · exact h k hk hkey outcome
      · cases List.mem_singleton.mp hk
        exact nofun
    · cases List.mem_singleton.mp hmem
  | advanced hk ha =>
    exact ⟨h.follow _ (allFollow_advances ht hk ha), h.advances (caller?_mem hk).1 ha⟩
  | abandoned =>
    refine ⟨h.follow [] allFollow_abandon, fun id? result hmem => ?_⟩
    cases List.mem_singleton.mp hmem
  | answered => exact absurd rfl hread
  | cleared ha => exact ⟨h.follow [] ((allFollow_keep _).congr ha.callers), nofun⟩
  | others ha hquiet =>
    exact ⟨h.follow [] ((allFollow_refl _ c).congr ha.callers), fun id? result hmem =>
      (hquiet _ hmem).elim⟩

/-- **When the reader has stopped, a call that has no answer returns with the connection being
closed**, whatever happens. -/
theorem returns_closed (ht : Tied s.connection) (hr : s.connection.reader ≠ .reading)
    (hu : s.connection.Unanswered key) (hrun : s.run ms = some s') :
    OnlyClosed key (s'.log.drop s.log.length) := by
  suffices h : ∃ es, s'.log = s.log ++ es ∧ OnlyClosed key es by
    obtain ⟨es, hlog, hes⟩ := h
    rw [hlog, List.drop_left]
    exact hes
  refine (Session.run_preserves (P := fun t => Tied t.connection ∧ t.connection.reader ≠ .reading ∧
    t.connection.Unanswered key ∧ ∃ es, t.log = s.log ++ es ∧ OnlyClosed key es) ?_ hrun
    ⟨ht, hr, hu, [], (List.append_nil _).symm, nofun⟩).2.2.2
  rintro t t' m - ⟨ht, hr, hu, es, hlog, hes⟩ hstep
  obtain ⟨hmove, hlog'⟩ := Session.step_eq_some hstep
  obtain ⟨hr', hu', hnew⟩ := hu.step ht hr hmove
  refine ⟨ht.step hmove, hr', hu', es ++ _, by rw [hlog', hlog, List.append_assoc],
    fun id? result hmem => ?_⟩
  exact (List.mem_append.mp hmem).elim (hes id? result) (hnew id? result)

/-! ### However the stream is cut -/

/-- **What the reader takes does not depend on how the stream is cut.** Whatever the reads, a
decoder that goes on searching where it left off gives out the frames of the stream. In a session
in which nobody closes the connection and no line is given up, it cannot be told when the bytes
arrived: everybody else doing the same, everything that happens is the same. The reader takes the
frames of the stream from the first on. The connection is not closed before it has taken all of
them, and then only when the endpoint has ended its sending or a line is too long or is not UTF-8.
By itself the reader comes to rest, and then this is just when the connection is closed. A pending
call that is not given up is answered by the first line that is for it, as long as there are enough
ids. What was not answered when the connection is closed returns with just this: at once if it
waits and the reader has finished, and otherwise if the stream has room for the line that is being
sent. -/
theorem frames_whatever_the_cut {longest : Nat} {capacity : Capacity} {ms : List Move} {s : Session}
    (h : (Session.opened longest capacity).run ms = some s)
    (hd : ∀ m ∈ ms, m.disturbs = false) :
    (∀ reads : List (List UInt8), reads.flatten = sentIn ms →
      Decoder.run longest (endsIn ms) {} reads = framesIn longest ms) ∧
    (∀ ms' s', (Session.opened longest capacity).run ms' = some s' → othersIn ms' = othersIn ms →
      sentIn ms' = sentIn ms → endsIn ms' = endsIn ms → s' = s) ∧
    linesRead s.log <+: framesIn longest ms ∧
    (s.connection.closed = true → linesRead s.log = framesIn longest ms ∧ OverIn longest ms) ∧
    (s.connection.ReaderRests → linesRead s.log = framesIn longest ms ∧
      (s.connection.closed = true ↔ OverIn longest ms)) ∧
    (∃ rs s', (∀ m ∈ rs, m.reads = true) ∧ s.run rs = some s' ∧ s'.connection.ReaderRests ∧
      linesRead s'.log = framesIn longest ms ∧
      (s'.connection.closed = true ↔ OverIn longest ms)) ∧
    (∀ id key, (id, key) ∈ s.connection.pending → s.connection.reader ≠ .finished →
      ∀ ms' s', s.run ms' = some s' → (∀ m ∈ ms', m.disturbs = false ∧ m ≠ .abandon key) →
        (callsOf s'.log).length < UInt64.size →
        ∃ lines, linesRead s'.log = linesRead s.log ++ lines ∧
          s'.connection.Owes (¬s.connection.Waits key id) key id
            (replyDue id lines s'.connection.reader)) ∧
    (s.connection.closed = true →
      (∀ id key, (id, key) ∈ s.connection.pending → ∀ ms' s', s.run ms' = some s' →
        OnlyClosed key (s'.log.drop s.log.length)) ∧
      (s.connection.reader = .finished → ∀ k ∈ s.connection.callers, ∀ id, k.stage = .waiting id →
        ∃ s', s.step (.call k.key) = some s' ∧
          s'.log = s.log ++ [.returned k.key (some id) (verdict k.reply)]) ∧
      (¬s.connection.Hindered → s.CanFinish)) := by
  have hreads := reads_of_run h hd
  have hkept := kept_of_run h
  have hregular := regular_of_run h
  refine ⟨fun reads hb => ?_, fun ms' s' h' ho hb he => ?_, ⟨_, hreads.parts.symm⟩,
    fun hc => hreads.drained (hreads.stopped hc), hreads.at_rest hregular.sound, ?_,
    fun id key hp hr ms' s' hrun hms hfew => ?_,
    fun hc => ⟨fun id key hp ms' s' hrun => ?_, fun hr k hk id hs => ?_, fun hfree => ?_⟩⟩
  · rw [(Decoder.searched_anew []).run_eq, List.nil_append, hb, framesIn]
  · have hall := Session.run_at_once h
    have hall' := Session.run_at_once h'
    rw [ho, hb, he] at hall'
    exact Option.some.inj (hall'.symm.trans hall)
  · obtain ⟨rs, t, hrs, hrun, hrest⟩ := hreads.comesToRest hregular.sound
    have hreads' := hreads.run (fun m hm => Move.quiet_of_reads (hrs m hm)) hrun
    have hsound := sound_of_run (Session.run_append h hrun)
    exact ⟨rs, t, hrs, hrun, hrest, hreads'.at_rest hsound hrest⟩
  · exact hkept.reply_due hp hr hrun hms hfew
  · refine returns_closed hkept.tied (hreads.stopped hc) (fun k hk hkey outcome hr => ?_) hrun
    have hopen := (hkept.tied.entry_eq hp hk hkey.symm).2
    cases hopen.symm.trans hr
  · exact waiting_returns hkept.tied hk hs fun hopen =>
      hregular.sound.shut.settled hr k hk ⟨⟨id, .inr hs⟩, hopen⟩
  · exact Session.canFinish_of_free hregular (.inl hc) hfree

/-- A call waits; the answer to it comes in two reads, the second of which begins with its line feed
and ends in a byte that is not UTF-8. -/
def cutInTwo : List Move :=
  [.enter 5 "arb_x" [], .call 5, .call 5, .call 5, .call 5, .call 5,
    .receive "\x7b\"jsonrpc\":\"2.0\",\"id\":1,\"result\":7\x7d\r".toUTF8.toList,
    .receive [10, 255], .readFrame, .call 5, .finish, .readFrame, .closeReader]

theorem cut_in_two_read :
    ∃ s, (Session.opened 64 64).run cutInTwo = some s ∧ s.connection.closed = true ∧
      (linesRead s.log).length = 1 ∧ linesRead s.log = framesIn 64 cutInTwo ∧
      OverIn 64 cutInTwo := by
  have hrun : ((Session.opened 64 64).run cutInTwo).any
      (fun s => s.connection.closed && decide ((linesRead s.log).length = 1)) := by
    decide +kernel
  cases hs : (Session.opened 64 64).run cutInTwo with
  | none =>
    rw [hs] at hrun
    cases hrun
  | some s =>
  rw [hs] at hrun
  obtain ⟨hclosed, hone⟩ := Bool.and_eq_true_iff.mp hrun
  obtain ⟨hlines, hover⟩ := (frames_whatever_the_cut hs (by decide)).2.2.2.1 hclosed
  exact ⟨s, rfl, hclosed, of_decide_eq_true hone, hlines, hover⟩

end Switchboard.Redirect
