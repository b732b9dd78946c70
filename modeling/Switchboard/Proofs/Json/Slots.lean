import Switchboard.Proofs.Json.Structures

/-! What a draft holds.

Each member of a plan is noted in a slot of its own in the draft (`Plan.Slot`), so a structure
holds what the text of its member was taken as, wherever that stands (`Slot.has`), and nothing
where the text has no such member (`Slot.lacks`). An object is read in any order when its known
members come to something (`reads_of_comes`): each is there at most once, and taken. -/
namespace Switchboard.Json

/-- No two members have the same name. -/
def Apart (fields : List Field) : Prop :=
  fields.Pairwise fun f g => ∀ name, f.Named name → ¬g.Named name

theorem Apart.unique {fields : List Field} (h : Apart fields) {f g : Field} {name : String}
    (hf : f ∈ fields) (hg : g ∈ fields) (hfn : f.Named name) (hgn : g.Named name) : f = g := by
  induction fields with
  | nil => cases hf
  | cons k fields ih =>
    obtain ⟨hk, hrest⟩ := List.pairwise_cons.mp h
    rcases List.mem_cons.mp hf with rfl | hf' <;> rcases List.mem_cons.mp hg with rfl | hg'
    · rfl
    · exact absurd hgn (hk g hg' name hfn)
    · exact absurd hfn (hk f hf' name hgn)
    · exact ih hrest hf' hg'

/-! ### Members of one name -/

instance (f : Field) (name : String) : Decidable (f.Named name) :=
  inferInstanceAs (Decidable (meaning? f.name = some name.toList))

/-- The texts of the members of the name, in their order. -/
def textsOf (fields : List Field) (name : String) : List Raw :=
  (fields.filter fun f => f.Named name).map fun f => f.value.text

section TextsOf
variable {fields : List Field} {f : Field} {name : String}

theorem textsOf_named (h : f.Named name) (fields : List Field) :
    textsOf (f :: fields) name = f.value.text :: textsOf fields name := by
  rw [textsOf, List.filter_cons_of_pos (by simpa using h), List.map_cons, textsOf]

theorem textsOf_unnamed (h : ¬f.Named name) (fields : List Field) :
    textsOf (f :: fields) name = textsOf fields name := by
  rw [textsOf, List.filter_cons_of_neg (by simpa using h), textsOf]

theorem textsOf_eq_nil_iff : textsOf fields name = [] ↔ ∀ f ∈ fields, ¬f.Named name := by
  simp [textsOf]

theorem textsOf_isText (ht : ∀ f ∈ fields, f.value.text.IsText) :
    ∀ t ∈ textsOf fields name, t.IsText := by
  intro t hmem
  obtain ⟨f, hf, rfl⟩ := List.mem_map.mp hmem
  exact ht f (List.mem_filter.mp hf).1

/-- Where no two members have the same name, there is at most one of a name. -/
theorem Apart.textsOf (h : Apart fields) (name : String) :
    textsOf fields name = [] ∨
      ∃ f ∈ fields, f.Named name ∧ Json.textsOf fields name = [f.value.text] := by
  induction fields with
  | nil => exact .inl rfl
  | cons f fields ih =>
    obtain ⟨hf, hrest⟩ := List.pairwise_cons.mp h
    by_cases hn : f.Named name
    · have hnil := textsOf_eq_nil_iff.mpr fun g hg => hf g hg name hn
      exact .inr ⟨f, List.mem_cons_self .., hn, by rw [textsOf_named hn, hnil]⟩
    · rw [textsOf_unnamed hn]
      exact (ih hrest).imp_right fun ⟨g, hg, hgn, hget⟩ => ⟨g, List.mem_cons_of_mem f hg, hgn, hget⟩

end TextsOf

namespace Plan

variable {δ α β : Type} {P : Plan δ α} {r t : Raw} {a : α} {d d' : δ} {fields : List Field}

/-- A member of the plan and the place in the draft where it alone is noted. -/
structure Slot (P : Plan δ α) (β : Type) where
  member : Member δ
  reader : Reader β
  set : β → δ → δ
  get : δ → Option β
  mem : member ∈ P.members
  value : member.value = reader.map set := by rfl
  settled : reader.Settled
  seen : ∀ d, member.seen d = (get d).isSome := by intros; rfl
  get_set : ∀ x d, get (set x d) = some x := by intros; rfl
  get_empty : get P.empty = none := by rfl
  others : ∀ m ∈ P.members, m = member ∨
    m.name ≠ member.name ∧ ∀ r note, m.value.Takes r note → r.IsText → ∀ d, get (note d) = get d

/-- A reader that notes elsewhere leaves a place of the draft alone. -/
theorem untouched {p : Reader β} (hp : p.Settled) {γ : Type} {get : δ → γ} {set : β → δ → δ}
    (h : ∀ x d, get (set x d) = get d) (r : Raw) (note : δ → δ) (hv : (p.map set).Takes r note)
    (hr : r.IsText) (d : δ) : get (note d) = get d := by
  obtain ⟨x, -, rfl⟩ := hv.of_map hp hr
  exact h x d

/-- Every member of the plan has a slot. -/
def Covered (P : Plan δ α) : Prop := ∀ m ∈ P.members, ∃ (β : Type) (S : Slot P β), S.member = m

theorem Covered.settled (h : P.Covered) : P.Settled := by
  intro m hm
  obtain ⟨β, S, rfl⟩ := h m hm
  rw [S.value]
  exact S.settled.map _

/-- The text of a member in a structure's text: by its name in an object, by its place in a
list. -/
inductive Has (P : Plan δ α) (r : Raw) : String → Raw → Prop
  | named {fields : List Field} {f : Field} {name : String} (ho : r.IsObject fields)
      (hf : f ∈ fields) (hn : f.Named name) : Has P r name f.value.text
  | placed {items : List Raw} {i : Nat} {m : Member δ} {t : Raw} (hl : r.IsList items)
      (hm : P.members[i]? = some m) (ht : items[i]? = some t) : Has P r m.name t

theorem Has.isText {name : String} (h : P.Has r name t) : t.IsText := by
  cases h with
  | named ho hf hn => exact ho.values_isText _ hf
  | placed hl hm ht => exact hl.items_isText _ (List.mem_of_getElem? ht)

namespace Slot
variable (S : Slot P β)

theorem eq_member {m : Member δ} (hm : m ∈ P.members) (hn : m.name = S.member.name) :
    m = S.member :=
  (S.others m hm).resolve_right fun h => h.1 hn

theorem find : P.members.find? (fun m => m.name == S.member.name) = some S.member := by
  cases h : P.members.find? fun m => m.name == S.member.name with
  | none =>
    have := List.find?_eq_none.mp h S.member S.mem
    simp at this
  | some m =>
    have hn := List.find?_some h
    rw [S.eq_member (List.mem_of_find?_eq_some h) (by simpa using hn)]

/-! ### Objects -/

/-- A member is noted in the slot exactly when it bears the slot's name. -/
theorem notes {f : Field} (h : P.Notes d f d') (ht : f.value.text.IsText) :
    (f.Named S.member.name ∧ S.get d = none ∧
      ∃ x, S.reader.Takes f.value.text x ∧ S.get d' = some x) ∨
    (¬f.Named S.member.name ∧ S.get d' = S.get d) := by
  cases h with
  | @skipped name hn hm =>
    refine .inr ⟨fun hs => ?_, rfl⟩
    rw [hn.unique hs, S.find] at hm
    cases hm
  | @noted name m note hn hm hs hv =>
    have hmem := List.mem_of_find?_eq_some hm
    have hname : m.name = name := by simpa using List.find?_some hm
    rcases S.others m hmem with rfl | ⟨hne, hkeep⟩
    · rw [S.seen, Option.isSome_eq_false_iff, Option.isNone_iff_eq_none] at hs
      rw [S.value] at hv
      obtain ⟨x, hx, rfl⟩ := hv.of_map S.settled ht
      exact .inl ⟨hname ▸ hn, hs, x, hx, S.get_set x d⟩
    · refine .inr ⟨fun hs => hne ?_, hkeep _ _ hv ht d⟩
      rw [hname, hn.unique hs]

theorem keeps (h : P.Reads d fields d') (ht : ∀ f ∈ fields, f.value.text.IsText) {x : β}
    (hx : S.get d = some x) : S.get d' = some x ∧ ∀ f ∈ fields, ¬f.Named S.member.name := by
  induction h with
  | nil => exact ⟨hx, fun _ hf => by cases hf⟩
  | @cons d₁ d₂ d₃ f fields hf hr ih =>
    rcases S.notes hf (ht f (List.mem_cons_self ..)) with ⟨-, hnone, -⟩ | ⟨hne, hget⟩
    · cases hx.symm.trans hnone
    · obtain ⟨hget', hrest⟩ := ih (fun g hg => ht g (List.mem_cons_of_mem f hg)) (hget.trans hx)
      refine ⟨hget', fun g hg => ?_⟩
      rcases List.mem_cons.mp hg with rfl | hg
      · exact hne
      · exact hrest g hg

theorem named (h : P.Reads d fields d') (ht : ∀ f ∈ fields, f.value.text.IsText)
    {f : Field} (hf : f ∈ fields) (hn : f.Named S.member.name) :
    ∃ x, S.reader.Takes f.value.text x ∧ S.get d' = some x := by
  induction h with
  | nil => cases hf
  | @cons d₁ d₂ d₃ g fields hg hr ih =>
    have hrest : ∀ k ∈ fields, k.value.text.IsText := fun k hk => ht k (List.mem_cons_of_mem g hk)
    rcases S.notes hg (ht g (List.mem_cons_self ..)) with ⟨hgn, -, x, hx, hget⟩ | ⟨hne, hget⟩
    · obtain ⟨hget', hno⟩ := S.keeps hr hrest hget
      rcases List.mem_cons.mp hf with rfl | hf
      · exact ⟨x, hx, hget'⟩
      · exact absurd hn (hno f hf)
    · rcases List.mem_cons.mp hf with rfl | hf
      · exact absurd hn hne
      · exact ih hrest hf

theorem unnamed (h : P.Reads d fields d') (ht : ∀ f ∈ fields, f.value.text.IsText)
    (hno : ∀ f ∈ fields, ¬f.Named S.member.name) : S.get d' = S.get d := by
  induction h with
  | nil => rfl
  | @cons d₁ d₂ d₃ f fields hf hr ih =>
    rcases S.notes hf (ht f (List.mem_cons_self ..)) with ⟨hn, -⟩ | ⟨-, hget⟩
    · exact absurd hn (hno f (List.mem_cons_self ..))
    · rw [ih (fun g hg => ht g (List.mem_cons_of_mem f hg)) fun g hg =>
        hno g (List.mem_cons_of_mem f hg), hget]

/-! ### Lists -/

theorem unfilled {ms : List (Member δ)} {items : List Raw} (h : Fills ms d items d')
    (ht : ∀ t ∈ items, t.IsText) (hms : ∀ m ∈ ms, m ∈ P.members ∧ m ≠ S.member) :
    S.get d' = S.get d := by
  induction h with
  | nil => rfl
  | @cons m ms d₁ d₂ t items note hv hr ih =>
    obtain ⟨hm, hne⟩ := hms m (List.mem_cons_self ..)
    have hkeep := ((S.others m hm).resolve_left hne).2 t note hv (ht t (List.mem_cons_self ..)) d₁
    rw [ih (fun s hs => ht s (List.mem_cons_of_mem t hs)) fun k hk =>
      hms k (List.mem_cons_of_mem m hk), hkeep]

/-- The element at the member's place is noted in the slot. -/
theorem filled {ms : List (Member δ)} {items : List Raw} (h : Fills ms d items d')
    (ht : ∀ t ∈ items, t.IsText) (hms : ∀ m ∈ ms, m ∈ P.members) (hnd : ms.Nodup) {i : Nat}
    (hi : ms[i]? = some S.member) :
    (∀ t, items[i]? = some t → ∃ x, S.reader.Takes t x ∧ S.get d' = some x) ∧
      (items[i]? = none → S.get d' = S.get d) := by
  induction h generalizing i with
  | nil => exact ⟨fun t ht => by simp at ht, fun _ => rfl⟩
  | @cons m ms d₁ d₂ t items note hv hr ih =>
    obtain ⟨hm, hnd⟩ := List.nodup_cons.mp hnd
    have hrest : ∀ s ∈ items, s.IsText := fun s hs => ht s (List.mem_cons_of_mem t hs)
    have hms' : ∀ k ∈ ms, k ∈ P.members := fun k hk => hms k (List.mem_cons_of_mem m hk)
    cases i with
    | zero =>
      cases hi
      rw [S.value] at hv
      obtain ⟨x, hx, rfl⟩ := hv.of_map S.settled (ht t (List.mem_cons_self ..))
      refine ⟨fun s hs => ?_, fun hs => by cases hs⟩
      cases hs
      refine ⟨x, hx, ?_⟩
      rw [S.unfilled hr hrest fun k hk => ⟨hms' k hk, fun he => hm (he ▸ hk)⟩, S.get_set]
    | succ i =>
      have hne : m ≠ S.member := fun he => hm (he ▸ List.mem_of_getElem? hi)
      have hkeep := ((S.others m (hms m (List.mem_cons_self ..))).resolve_left hne).2 t note hv
        (ht t (List.mem_cons_self ..)) d₁
      obtain ⟨hsome, hnone⟩ := ih hrest hms' hnd hi
      exact ⟨hsome, fun hs => (hnone hs).trans hkeep⟩

end Slot

/-! ### Any text -/

/-- A structure that is taken from an object was read from its members. -/
theorem reads_of_object (hP : P.Settled) (ho : r.IsObject fields)
    (h : (P.reader Char.utf8Size).Takes r a) :
    ∃ d, P.Reads P.empty fields d ∧ P.finish d = some a := by
  by_cases hd : ∃ d, P.Reads P.empty fields d ∧ ∃ a, P.finish d = some a
  · obtain ⟨d, hr, a', hf⟩ := hd
    cases (hr.takes ho hf).unique h
    exact ⟨d, hr, hf⟩
  · refine absurd (refuses_object hP ho fun d hr => ?_) h.not_refuses
    cases hf : P.finish d with
    | none => rfl
    | some a => exact absurd ⟨d, hr, a, hf⟩ hd

theorem fills_of_list (hP : P.Settled) {items : List Raw} (hl : r.IsList items)
    (h : (P.reader Char.utf8Size).Takes r a) :
    ∃ d, Fills P.members P.empty items d ∧ P.finish d = some a := by
  by_cases hd : ∃ d, Fills P.members P.empty items d ∧ ∃ a, P.finish d = some a
  · obtain ⟨d, hr, a', hf⟩ := hd
    cases (hr.takes hl hf).unique h
    exact ⟨d, hr, hf⟩
  · refine absurd (refuses_list hP hl fun d hr => ?_) h.not_refuses
    cases hf : P.finish d with
    | none => rfl
    | some a => exact absurd ⟨d, hr, a, hf⟩ hd

namespace Slot
variable (S : Slot P β)

/-- **A structure holds what the text of its member was taken as.** -/
theorem has (hP : P.Settled) (hnd : P.members.Nodup) (h : (P.reader Char.utf8Size).Takes r a)
    (ht : P.Has r S.member.name t) :
    ∃ d x, P.finish d = some a ∧ S.get d = some x ∧ S.reader.Takes t x := by
  generalize hname : S.member.name = name at ht
  cases ht with
  | named ho hf hn =>
    subst hname
    obtain ⟨d, hr, hfin⟩ := reads_of_object hP ho h
    obtain ⟨x, hx, hget⟩ := S.named hr ho.values_isText hf hn
    exact ⟨d, x, hfin, hget, hx⟩
  | @placed items i m t hl hm ht =>
    cases S.eq_member (List.mem_of_getElem? hm) hname.symm
    obtain ⟨d, hr, hfin⟩ := fills_of_list hP hl h
    obtain ⟨x, hx, hget⟩ := (S.filled hr hl.items_isText (fun _ hm => hm) hnd hm).1 t ht
    exact ⟨d, x, hfin, hget, hx⟩

/-- **A structure holds nothing where its text has no such member.** -/
theorem lacks (hP : P.Settled) (hnd : P.members.Nodup) (hr : r.IsText)
    (h : (P.reader Char.utf8Size).Takes r a) (hno : ∀ t, ¬P.Has r S.member.name t) :
    ∃ d, P.finish d = some a ∧ S.get d = none := by
  obtain ⟨d, hfin, ⟨fields, ho, hr⟩ | ⟨items, hl, hr⟩⟩ := (reader_takes_iff hP hr).mp h
  · refine ⟨d, hfin, (S.unnamed hr ho.values_isText fun f hf hn => hno _ (.named ho hf hn)).trans
      S.get_empty⟩
  · obtain ⟨i, hi⟩ := List.getElem?_of_mem S.mem
    refine ⟨d, hfin, ((S.filled hr hl.items_isText (fun _ hm => hm) hnd hi).2 ?_).trans
      S.get_empty⟩
    cases ht : items[i]? with
    | none => rfl
    | some t => exact absurd (.placed hl hi ht) (hno t)

end Slot

/-! ### Members in any order -/

/-- What the members of one name come to: nothing where there is none, and where there is one, what
its text is taken as. A second one is never right. -/
inductive Comes (p : Reader β) : List Raw → Option β → Prop
  | absent : Comes p [] none
  | once {t : Raw} {x : β} (h : p.Takes t x) : Comes p [t] (some x)

section Comes
variable {p : Reader β} {l : List Raw} {x? y? : Option β}

theorem Comes.unique (h : Comes p l x?) (h' : Comes p l y?) : x? = y? := by
  cases h with
  | absent => cases h'; rfl
  | once hx =>
    cases h' with
    | once hy => rw [hx.unique hy]

theorem Comes.map {γ : Type} (h : Comes p l x?) (f : β → γ) : Comes (p.map f) l (x?.map f) := by
  cases h with
  | absent => exact .absent
  | once hx => exact .once (hx.map f)

/-- What the members come to, where taking their texts means something else. -/
theorem comes_iff {Spells : Raw → β → Prop} (h : ∀ t ∈ l, ∀ x, p.Takes t x ↔ Spells t x) :
    Comes p l x? ↔ (l = [] ∧ x? = none) ∨ ∃ t x, l = [t] ∧ Spells t x ∧ x? = some x := by
  constructor
  · rintro (_ | hx)
    · exact .inl ⟨rfl, rfl⟩
    · exact .inr ⟨_, _, rfl, (h _ (List.mem_singleton_self _) _).mp hx, rfl⟩
  · rintro (⟨rfl, rfl⟩ | ⟨t, x, rfl, hx, rfl⟩)
    · exact .absent
    · exact .once ((h _ (List.mem_singleton_self _) _).mpr hx)

theorem comes_some_iff {Spells : Raw → β → Prop} (h : ∀ t ∈ l, ∀ x, p.Takes t x ↔ Spells t x)
    {x : β} : Comes p l (some x) ↔ ∃ t, l = [t] ∧ Spells t x := by
  rw [comes_iff h]
  constructor
  · rintro (⟨-, ⟨⟩⟩ | ⟨t, y, hl, hy, ⟨⟩⟩)
    exact ⟨t, hl, hy⟩
  · rintro ⟨t, hl, hx⟩
    exact .inr ⟨t, x, hl, hx, rfl⟩

end Comes

/-- **What is noted in a slot is what the members of its name come to**, wherever they stand. -/
theorem Slot.comes (S : Slot P β) (h : P.Reads d fields d') (ht : ∀ f ∈ fields, f.value.text.IsText)
    (hd : S.get d = none) : Comes S.reader (textsOf fields S.member.name) (S.get d') := by
  induction h with
  | nil => exact hd ▸ .absent
  | @cons d₁ d₂ d₃ f fields hf hr ih =>
    have hrest : ∀ g ∈ fields, g.value.text.IsText := fun g hg => ht g (List.mem_cons_of_mem f hg)
    rcases S.notes hf (ht f (List.mem_cons_self ..)) with ⟨hn, -, x, hx, hget⟩ | ⟨hn, hget⟩
    · obtain ⟨hget', hno⟩ := S.keeps hr hrest hget
      rw [textsOf_named hn, textsOf_eq_nil_iff.mpr hno, hget']
      exact .once hx
    · rw [textsOf_unnamed hn]
      exact ih hrest (hget.trans hd)

/-- **An object whose known members come to something is read**, whatever their order and whatever
other members there are. -/
theorem reads_of_comes (hP : P.Covered) (hn : ∀ f ∈ fields, ∃ name, f.Named name)
    (ht : ∀ f ∈ fields, f.value.text.IsText)
    (hc : ∀ m ∈ P.members, ∃ note?, Comes m.value (textsOf fields m.name) note?)
    (hs : ∀ m ∈ P.members, textsOf fields m.name ≠ [] → m.seen d = false) :
    ∃ d', P.Reads d fields d' := by
  induction fields generalizing d with
  | nil => exact ⟨d, .nil⟩
  | cons f fields ih =>
    have hrest (d : δ) := ih (d := d) (fun g hg => hn g (List.mem_cons_of_mem f hg))
      fun g hg => ht g (List.mem_cons_of_mem f hg)
    obtain ⟨name, hname⟩ := hn f (List.mem_cons_self ..)
    cases hm : P.members.find? (fun m => m.name == name) with
    | none =>
      have hother : ∀ m ∈ P.members, textsOf (f :: fields) m.name = textsOf fields m.name :=
        fun m hmem => textsOf_unnamed (fun hf => List.find?_eq_none.mp hm m hmem
          (beq_iff_eq.mpr (hf.unique hname))) fields
      obtain ⟨d', hr⟩ := hrest d (fun m hmem => hother m hmem ▸ hc m hmem)
        fun m hmem => hother m hmem ▸ hs m hmem
      exact ⟨d', .cons (.skipped hname hm) hr⟩
    | some m =>
      have hmem := List.mem_of_find?_eq_some hm
      have hmname : m.name = name := by simpa using List.find?_some hm
      subst hmname
      have hcomes := hc m hmem
      have hseen := hs m hmem
      rw [textsOf_named hname] at hcomes hseen
      obtain ⟨note?, hcomes⟩ := hcomes
      generalize hlast : textsOf fields m.name = others at hcomes
      cases hcomes with
      | @once _ note hnote =>
        -- a member of another name is noted elsewhere, and there is no second one of this name
        have hother (k : Member δ) (hk : k ∈ P.members) (hne : k ≠ m) :
            textsOf (f :: fields) k.name = textsOf fields k.name := by
          obtain ⟨γ, S, rfl⟩ := hP k hk
          exact textsOf_unnamed (fun hf => hne (S.eq_member hmem (hname.unique hf)).symm) fields
        obtain ⟨d', hr⟩ := hrest (note d)
          (fun k hk => by
            by_cases hkm : k = m
            · exact ⟨none, hkm ▸ hlast ▸ .absent⟩
            · exact hother k hk hkm ▸ hc k hk)
          fun k hk hget => by
            have hkm : k ≠ m := fun hkm => hget (hkm ▸ hlast)
            obtain ⟨γ, S, rfl⟩ := hP k hk
            have hkeep := ((S.others m hmem).resolve_left hkm.symm).2 _ _ hnote
              (ht f (List.mem_cons_self ..)) d
            rw [S.seen, hkeep, ← S.seen]
            exact hs _ hk (hother _ hk hkm ▸ hget)
        exact ⟨d', .cons (.noted hname hm (hseen (List.cons_ne_nil _ _)) hnote) hr⟩

theorem Covered.unseen (hP : P.Covered) : ∀ m ∈ P.members, m.seen P.empty = false := by
  intro m hm
  obtain ⟨β, S, rfl⟩ := hP m hm
  rw [S.seen, S.get_empty]
  rfl

/-- Every member's name means something, and no two mean the same. -/
structure Distinct (fields : List Field) : Prop where
  named : ∀ f ∈ fields, ∃ name, f.Named name
  apart : Apart fields

theorem Covered.reads (hP : P.Covered) (hd : Distinct fields)
    (ht : ∀ f ∈ fields, f.value.text.IsText)
    (hv : ∀ f ∈ fields, ∀ m ∈ P.members, f.Named m.name →
      ∃ note, m.value.Takes f.value.text note) : ∃ d, P.Reads P.empty fields d := by
  refine reads_of_comes hP hd.named ht (fun m hm => ?_) fun m hm _ => hP.unseen m hm
  rcases hd.apart.textsOf m.name with hnil | ⟨f, hf, hn, hget⟩
  · exact ⟨none, hnil ▸ .absent⟩
  · obtain ⟨note, hnote⟩ := hv f hf m hm hn
    exact ⟨some note, hget ▸ .once hnote⟩

/-! ### Elements in their places -/

theorem Fills.length_le {ms : List (Member δ)} {items : List Raw} (h : Fills ms d items d') :
    items.length ≤ ms.length := by
  induction h with
  | nil => exact Nat.zero_le _
  | cons _ _ ih => exact Nat.succ_le_succ ih

/-- **What is noted in a slot is what the element at its member's place comes to.** -/
theorem Slot.comes_placed (S : Slot P β) (hnd : P.members.Nodup) {items : List Raw}
    (h : Fills P.members P.empty items d) (ht : ∀ t ∈ items, t.IsText) {i : Nat}
    (hi : P.members[i]? = some S.member) : Comes S.reader items[i]?.toList (S.get d) := by
  obtain ⟨hsome, hnone⟩ := S.filled h ht (fun _ hm => hm) hnd hi
  cases hitem : items[i]? with
  | none => exact (hnone hitem).trans S.get_empty ▸ .absent
  | some t =>
    obtain ⟨x, hx, hget⟩ := hsome t hitem
    exact hget ▸ .once hx

/-- **A list that is not too long is read where its elements come to something.** -/
theorem fills_of_comes {ms : List (Member δ)} {items : List Raw} (hlen : items.length ≤ ms.length)
    (hc : ∀ (i : Nat) (m : Member δ), ms[i]? = some m →
      ∃ note?, Comes m.value items[i]?.toList note?) :
    ∃ d', Fills ms d items d' := by
  induction items generalizing ms d with
  | nil => exact ⟨d, .nil⟩
  | cons t items ih =>
    cases ms with
    | nil => cases hlen
    | cons m ms =>
      obtain ⟨note?, hfirst⟩ : ∃ note?, Comes m.value [t] note? := hc 0 m rfl
      cases hfirst with
      | @once _ note hnote =>
        obtain ⟨d', hr⟩ := ih (d := note d) (Nat.le_of_succ_le_succ hlen) fun i k hk =>
          hc (i + 1) k hk
        exact ⟨d', .cons hnote hr⟩

end Plan
end Switchboard.Json
