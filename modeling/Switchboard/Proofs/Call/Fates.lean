import Switchboard.Proofs.Call.Batch

/-! How the calls of a body end, entry by entry.

A *fate* of an entry is its call and how that ended, none while the entry has no call that has
ended. A *hearing* is a passage together with the fates of the body's entries. Whatever the relay
and the looks are, a slot holds no more than its entry and its fate say (`Slot.Told`): a request
that becomes no call is answered by itself, and one that becomes a call by the error object or the
result of that. So two hearings of one body, in which the calls of each entry are told alike, end
with the same text (`Hearing.text_eq`). -/
namespace Switchboard
open Json

/-- The call of an entry, and how it ended. -/
abbrev Fate := Option (Call × Answer)

/-- What callers are told about how the call ended. -/
def Fate.told (f : Fate) : Option Outcome := f.map fun e => e.2.mapError CallError.object

/-- What the call asked for. -/
def Fate.asked (f : Fate) : Option (Method × List Raw) := f.map fun e => (e.1.name, e.1.arguments)

/-! ### One entry -/

namespace Slot
variable {raw : Raw} {s s' : Slot} {f f' : Fate} {timeoutMs now party : Nat} {r : Relay}
  {parent : Token}

/-- The slot is that of the entry, and it has the response to the entry's fate once it is
finished. -/
inductive Told (raw : Raw) : Slot → Fate → Prop
  | fresh : Told raw (.fresh raw) none
  | running {q : Request} {e : Entry} (hq : Request.ofRaw raw = .ok q) (ha : q.Asks e.call) :
      Told raw (.running q.id? e) none
  | uncalled {response? : Option Response} (h : ∀ ans : Answering, ans.response? raw = response?)
      (hno : ∀ q c, Request.ofRaw raw = .ok q → ¬q.Asks c) : Told raw (.finished response?) none
  | answered {q : Request} {c : Call} {a : Answer} (hq : Request.ofRaw raw = .ok q)
      (ha : q.Asks c) : Told raw (respond q.id? a) (some (c, a))

/-- A request that becomes no call, whatever it is answered, asks for none. -/
theorem not_asks_of_outcome {q : Request} {e : ErrorObject}
    (h : ∀ ans : Answering, ans.outcome q = .error e) (c : Call) : ¬q.Asks c := fun ha => by
  have := (h fun _ _ => .ok Raw.null).symm.trans (ha.outcome _)
  cases this

/-- An entry that is looked at has the fate that it had, or that it meets now. -/
theorem Goes.told (h : Goes timeoutMs now s s' f') (hs : Told raw s f) : Told raw s' (f.or f') := by
  cases h with
  | @refused _ i e h =>
    cases hs
    exact .uncalled (fun ans => (ans.response?_refused h).1) fun q c hq => by cases hq.symm.trans h
  | @unfit _ q e hq h =>
    cases hs
    refine .uncalled (fun ans => ?_) fun q' c hq' => ?_
    · simp only [Answering.response?, hq, h]
      rfl
    · cases hq.symm.trans hq'
      exact not_asks_of_outcome h c
  | begun hq ha =>
    cases hs
    exact .running hq ha
  | answered hq ha =>
    cases hs
    exact .answered hq ha
  | goesOn hc =>
    cases hs with
    | running hq ha => exact .running hq (hc ▸ ha)
  | ended =>
    cases hs with
    | running hq ha => exact .answered hq ha
  | settled => rwa [Option.or_none]

/-- Finished entries of one text whose fates are told alike have the same response. -/
theorem Told.response?_eq (h : Told raw s f) (h' : Told raw s' f') (hs : s.isFinished = true)
    (hs' : s'.isFinished = true) (htold : f.told = f'.told) : s.response? = s'.response? := by
  cases h with
  | fresh | running => cases hs
  | uncalled hans hno =>
    cases h' with
    | fresh | running => cases hs'
    | uncalled hans' => exact (hans fun _ _ => .ok Raw.null).symm.trans (hans' _)
    | answered hq ha => exact absurd ha (hno _ _ hq)
  | @answered q c a hq ha =>
    cases h' with
    | fresh | running => cases hs'
    | uncalled _ hno => exact absurd ha (hno _ _ hq)
    | @answered q' c' a' hq' =>
      cases hq.symm.trans hq'
      have htold : a.mapError CallError.object = a'.mapError CallError.object :=
        Option.some.inj htold
      simp only [respond, response?, htold]

/-- Finished entries of one text have asked for the same call, or for none. -/
theorem Told.asked_eq (h : Told raw s f) (h' : Told raw s' f') (hs : s.isFinished = true)
    (hs' : s'.isFinished = true) : f.asked = f'.asked := by
  cases h with
  | fresh | running => cases hs
  | uncalled _ hno =>
    cases h' with
    | fresh | running => cases hs'
    | uncalled => rfl
    | answered hq ha => exact absurd ha (hno _ _ hq)
  | @answered q c a hq ha =>
    cases h' with
    | fresh | running => cases hs'
    | uncalled _ hno => exact absurd ha (hno _ _ hq)
    | @answered q' c' a' hq' ha' =>
      cases hq.symm.trans hq'
      have hname := Option.some.inj (ha.1.symm.trans ha'.1)
      have harguments := Except.ok.inj (ha.2.symm.trans ha'.2)
      simp only [Fate.asked, Option.map_some, hname, harguments]

/-! ### All entries -/

/-- The calls that end when the entries are looked at, each at its entry's place. -/
def fates (r : Relay) (parent : Token) (party now : Nat) : List Slot → List Fate
  | [] => []
  | s :: rest =>
    s.ending r parent party now :: fates (s.go r parent party now).2 parent party now rest

/-- The slots and the fates are those of the entries, one by one. -/
inductive AllTold : List Raw → List Slot → List Fate → Prop
  | nil : AllTold [] [] []
  | cons {raw : Raw} {s : Slot} {f : Fate} {raws : List Raw} {slots : List Slot}
      {fates : List Fate} (h : Told raw s f) (hrest : AllTold raws slots fates) :
      AllTold (raw :: raws) (s :: slots) (f :: fates)

theorem allTold_begin (raws : List Raw) (r : Relay) :
    AllTold raws (goAll r parent party now (raws.map .fresh)).1
      (fates r parent party now (raws.map .fresh)) := by
  induction raws generalizing r with
  | nil => exact .nil
  | cons raw rest ih =>
    exact .cons (((Slot.fresh raw).go_goes r parent party now).1.told .fresh) (ih _)

theorem AllTold.goAll {raws : List Raw} {slots : List Slot} {known : List Fate}
    (h : AllTold raws slots known) :
    AllTold raws (goAll r parent party now slots).1
      (List.zipWith Option.or known (fates r parent party now slots)) := by
  induction h generalizing r with
  | nil => exact .nil
  | @cons raw s f raws slots known hs _ ih =>
    exact .cons ((s.go_goes r parent party now).1.told hs) ih

theorem AllTold.responses_eq {raws : List Raw} {slots slots' : List Slot} {known known' : List Fate}
    (h : AllTold raws slots known) (h' : AllTold raws slots' known')
    (hall : slots.all isFinished = true) (hall' : slots'.all isFinished = true)
    (htold : known.map Fate.told = known'.map Fate.told) :
    slots.filterMap response? = slots'.filterMap response? := by
  induction h generalizing slots' known' with
  | nil =>
    cases h'
    rfl
  | cons hs _ ih =>
    cases h' with
    | cons hs' hrest' =>
      obtain ⟨hfinished, hall⟩ := Bool.and_eq_true_iff.mp hall
      obtain ⟨hfinished', hall'⟩ := Bool.and_eq_true_iff.mp hall'
      obtain ⟨hhead, htail⟩ := List.cons.inj htold
      rw [List.filterMap_cons, List.filterMap_cons, ih hrest' hall hall' htail,
        hs.response?_eq hs' hfinished hfinished' hhead]

theorem AllTold.asked_eq {raws : List Raw} {slots slots' : List Slot} {known known' : List Fate}
    (h : AllTold raws slots known) (h' : AllTold raws slots' known')
    (hall : slots.all isFinished = true) (hall' : slots'.all isFinished = true) :
    known.map Fate.asked = known'.map Fate.asked := by
  induction h generalizing slots' known' with
  | nil =>
    cases h'
    rfl
  | cons hs _ ih =>
    cases h' with
    | cons hs' hrest' =>
      obtain ⟨hfinished, hall⟩ := Bool.and_eq_true_iff.mp hall
      obtain ⟨hfinished', hall'⟩ := Bool.and_eq_true_iff.mp hall'
      rw [List.map_cons, List.map_cons, hs.asked_eq hs' hfinished hfinished',
        ih hrest' hall hall']

end Slot

/-! ### A body on its way -/

/-- A passage, and the fates of the body's entries so far. -/
structure Hearing where
  passage : Passage
  fates : List Fate

namespace Hearing
variable {payload : Payload} {body : ByteArray} {r : Relay} {party now : Nat} {h h' : Hearing}

/-- A body comes in. -/
def begin_ (body : ByteArray) (r : Relay) (party now : Nat) : Hearing where
  passage := .begin_ body r party now
  fates :=
    match Payload.parse body with
    | .error _ => []
    | .ok p =>
      Slot.fates (Exchange.admitted r) (r.tokens.child Relay.calls).1 party now
        (p.entries.map .fresh)

/-- The request is looked at, unless it is over. -/
def look (h : Hearing) (party : Nat) (l : Look) : Hearing where
  passage := h.passage.look party l
  fates :=
    match h.passage.progress with
    | .ended _ => h.fates
    | .pending x =>
      List.zipWith Option.or h.fates (Slot.fates l.relay x.token party l.now x.slots)

def through (body : ByteArray) (r : Relay) (party now : Nat) (looks : List Look) : Hearing :=
  looks.foldl (fun h l => h.look party l) (begin_ body r party now)

/-- What is heard is the passage. -/
theorem through_passage (looks : List Look) :
    (through body r party now looks).passage = Passage.through body r party now looks :=
  (List.foldl_hom passage fun _ _ => rfl).symm

/-- The slots of the passage are told by the body's entries and their fates. -/
def Tells (payload : Payload) (h : Hearing) : Prop :=
  match h.passage.progress with
  | .pending x => x.batch = payload.isBatch ∧ Slot.AllTold payload.entries x.slots h.fates
  | .ended text? => ∃ x : Exchange, text? = x.text? ∧ x.batch = payload.isBatch ∧
      x.slots.all Slot.isFinished = true ∧ Slot.AllTold payload.entries x.slots h.fates

theorem tells_go {x : Exchange} {known : List Fate} {ended : List (Call × Answer)} {others : Nat}
    (hbatch : x.batch = payload.isBatch)
    (htold : Slot.AllTold payload.entries (Slot.goAll r x.token party now x.slots).1 known) :
    Tells payload ⟨⟨(x.go r party now).1, (x.go r party now).2, ended, others⟩, known⟩ := by
  have hgoes := x.go_goes r party now
  generalize x.go r party now = result at hgoes
  cases hgoes with
  | pending => exact ⟨hbatch, htold⟩
  | ended hall => exact ⟨_, rfl, hbatch, hall, htold⟩

theorem tells_begin (hbody : Payload.parse body = .ok payload) :
    Tells payload (begin_ body r party now) := by
  rw [begin_, Passage.begin_, Exchange.begin_eq hbody, hbody]
  exact tells_go rfl (Slot.allTold_begin payload.entries (Exchange.admitted r))

theorem Tells.look (htells : Tells payload h) (l : Look) : Tells payload (h.look party l) := by
  cases hp : h.passage.progress with
  | ended text? =>
    rw [Tells, hp] at htells
    rw [Hearing.look, hp, Passage.look_ended hp, Tells, hp]
    exact htells
  | pending x =>
    rw [Tells, hp] at htells
    rw [Hearing.look, Passage.look, hp]
    exact tells_go htells.1 htells.2.goAll

theorem tells_through (hbody : Payload.parse body = .ok payload) (looks : List Look) :
    Tells payload (through body r party now looks) :=
  List.foldlRecOn looks _ (tells_begin hbody) fun _ h l _ => h.look l

/-- What the exchange comes to depends on what its entries are told. -/
theorem Tells.text_eq (h₁ : Tells payload h) (h₂ : Tells payload h') {t t' : Option (List Char)}
    (hended : h.passage.progress = .ended t) (hended' : h'.passage.progress = .ended t')
    (htold : h.fates.map Fate.told = h'.fates.map Fate.told) : t = t' := by
  rw [Tells, hended] at h₁
  rw [Tells, hended'] at h₂
  obtain ⟨x, rfl, hbatch, hall, htells⟩ := h₁
  obtain ⟨x', rfl, hbatch', hall', htells'⟩ := h₂
  simp only [Exchange.text?, hbatch, hbatch', htells.responses_eq htells' hall hall' htold]

/-- Exchanges of one body that are over have asked for the same calls. -/
theorem Tells.asked_eq (h₁ : Tells payload h) (h₂ : Tells payload h') {t t' : Option (List Char)}
    (hended : h.passage.progress = .ended t) (hended' : h'.passage.progress = .ended t') :
    h.fates.map Fate.asked = h'.fates.map Fate.asked := by
  rw [Tells, hended] at h₁
  rw [Tells, hended'] at h₂
  obtain ⟨x, -, -, hall, htells⟩ := h₁
  obtain ⟨x', -, -, hall', htells'⟩ := h₂
  exact htells.asked_eq htells' hall hall'

/-- A body that is refused is over at once. -/
theorem through_refused {e : ErrorObject} (hbody : Payload.parse body = .error e)
    (looks : List Look) : (through body r party now looks).passage.progress =
      .ended (some (Response.failure .null e).write) := by
  have hbegin : (Passage.begin_ body r party now).progress =
      .ended (some (Response.failure .null e).write) := by
    simp only [Passage.begin_, Exchange.begin_, hbody]
  rw [through_passage, Passage.through, Passage.looks_ended hbegin]
  exact hbegin

/-- **Hearings of one body that are over have the same text**, if their entries are told alike. -/
theorem text_eq {r' : Relay} {party' now' : Nat} {looks looks' : List Look}
    {t t' : Option (List Char)}
    (hended : (through body r party now looks).passage.progress = .ended t)
    (hended' : (through body r' party' now' looks').passage.progress = .ended t')
    (htold : ∀ payload, Payload.parse body = .ok payload →
      (through body r party now looks).fates.map Fate.told =
        (through body r' party' now' looks').fates.map Fate.told) : t = t' := by
  cases hbody : Payload.parse body with
  | error e =>
    rw [through_refused hbody] at hended hended'
    cases hended
    cases hended'
    rfl
  | ok payload =>
    exact (tells_through hbody looks).text_eq (tells_through hbody looks') hended hended'
      (htold payload hbody)

end Hearing
end Switchboard
