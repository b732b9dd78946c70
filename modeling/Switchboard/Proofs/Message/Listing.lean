import Switchboard.Proofs.Message.Asking

/-! Entries that are no objects.

A structure is read from a list as well, each element standing for the member of its place. So a
list of a version, an id, a method and perhaps params asks for a request like the object with these
members, and a list of nothing but an id is answered under it; every other entry that is no object
is refused under null (`Request.ofRaw_nonobject`). -/
namespace Switchboard
open Json

namespace Request
variable {entry : Raw} {items : List Raw} {q : Request} {i : Id}

/-- The texts that a list has for each part of a request, by their places. -/
def placed (items : List Raw) (name : String) : List Raw :=
  items[["jsonrpc", "id", "method", "params"].idxOf name]?.toList

theorem placed_isText (h : ∀ t ∈ items, t.IsText) (name : String) :
    ∀ t ∈ placed items name, t.IsText := by
  intro t ht
  exact h t (List.mem_of_getElem? (Option.mem_toList.mp ht))

/-- A request is taken from a list that is not too long when each of its parts is what the element
of its place comes to. -/
theorem takes_list_iff (hl : entry.IsList items) :
    (Layout.reader Char.utf8Size).Takes entry q ↔ items.length ≤ 4 ∧ ReadBy (placed items) q := by
  have ht := hl.items_isText
  constructor
  · intro h
    obtain ⟨d, hfills, hf⟩ := Plan.fills_of_list covered.settled hl h
    obtain ⟨hversion, hid, hmethod, hparams⟩ := finish_eq_some.mp hf
    exact ⟨hfills.length_le,
      hversion ▸ versionSlot.comes_placed members_nodup hfills ht (i := 0) rfl,
      hid ▸ idSlot.comes_placed members_nodup hfills ht (i := 1) rfl,
      hmethod ▸ methodSlot.comes_placed members_nodup hfills ht (i := 2) rfl, d.params?,
      paramsSlot.comes_placed members_nodup hfills ht (i := 3) rfl, hparams⟩
  · rintro ⟨hlen, hversion, hid, hmethod, params?, hparams, hjoin⟩
    have hcomes : ∀ (i : Nat) (m : Member Draft), Layout.members[i]? = some m →
        ∃ note?, Plan.Comes m.value items[i]?.toList note? := by
      intro i m hm
      match i, hm with
      | 0, rfl => exact ⟨_, hversion.map _⟩
      | 1, rfl => exact ⟨_, hid.map _⟩
      | 2, rfl => exact ⟨_, hmethod.map _⟩
      | 3, rfl => exact ⟨_, hparams.map _⟩
    obtain ⟨d, hfills⟩ := Plan.fills_of_comes (d := Layout.empty) hlen hcomes
    refine hfills.takes hl (finish_eq_some.mpr ⟨?_, ?_, ?_, ?_⟩)
    · exact (versionSlot.comes_placed members_nodup hfills ht (i := 0) rfl).unique hversion
    · exact (idSlot.comes_placed members_nodup hfills ht (i := 1) rfl).unique hid
    · exact (methodSlot.comes_placed members_nodup hfills ht (i := 2) rfl).unique hmethod
    · rw [← hjoin, ← (paramsSlot.comes_placed members_nodup hfills ht (i := 3) rfl).unique hparams]
      rfl

/-- The id that is found in a list is that of its only element. -/
theorem salvage?_list_iff (hl : entry.IsList items) :
    salvage? entry.chars = some i ↔
      Plan.Comes (Id.reader Char.utf8Size 1) items (some i) := by
  have ht := hl.items_isText
  have hnodup : Salvage.members.Nodup := List.nodup_singleton _
  rw [salvage?_eq_some_iff hl.isText]
  constructor
  · intro h
    obtain ⟨d, hfills, hf⟩ := Plan.fills_of_list salvage_covered.settled hl h
    cases hf
    have hcomes := salvageSlot.comes_placed hnodup hfills ht (i := 0) rfl
    rcases items with _ | ⟨t, _ | ⟨u, rest⟩⟩
    · exact hcomes
    · exact hcomes
    · have hlen : rest.length + 2 ≤ 1 := hfills.length_le
      omega
  · intro h
    cases h with
    | @once t _ hi =>
      have hfills : Plan.Fills Salvage.members Salvage.empty [t] (some i) :=
        .cons (hi.map fun i _ => some i) .nil
      exact hfills.takes hl rfl

theorem ofRaw_list_iff (hl : entry.IsList items) :
    ofRaw entry = .ok q ↔ items.length ≤ 4 ∧ AskedBy (placed items) q := by
  rw [ofRaw_eq_ok_iff hl.isText, takes_list_iff hl, and_assoc,
    readBy_iff (placed_isText hl.items_isText)]

/-- A list that is no request is refused under the id that its only element spells, and under null
where there is none. -/
theorem ofRaw_list_refused (hl : entry.IsList items)
    (hno : ¬∃ q, items.length ≤ 4 ∧ AskedBy (placed items) q) :
    ∃ (i : Id) (e : ErrorObject), ofRaw entry = .error (i, e) ∧ e.code = -32600 ∧
      ((∃ t, items = [t] ∧ i.Spelt t) ∨ (¬∃ t j, items = [t] ∧ Id.Spelt t j) ∧ i = .null) := by
  obtain ⟨e, he, hcode⟩ := ofRaw_refused fun ⟨q, hq⟩ => hno ⟨q, (ofRaw_list_iff hl).mp hq⟩
  exact ⟨_, e, he, hcode, salvagedId_cases hl.items_isText fun _ => salvage?_list_iff hl⟩

/-- A scalar is no request, and no id is found in it. -/
theorem ofRaw_scalar (hs : entry.IsScalar) :
    ∃ e : ErrorObject, ofRaw entry = .error (.null, e) ∧ e.code = -32600 := by
  have hr := hs.isText
  have hnone : salvage? entry.chars = none := by
    cases h : salvage? entry.chars with
    | none => rfl
    | some i =>
      exact absurd (Plan.refuses_scalar hs hr) ((salvage?_eq_some_iff hr).mp h).not_refuses
  obtain ⟨e, he, hcode⟩ := @ofRaw_refused entry fun ⟨q, hq⟩ =>
    ((ofRaw_eq_ok_iff hr).mp hq).1.not_refuses (Plan.refuses_scalar hs hr)
  rw [salvagedId_eq, hnone] at he
  exact ⟨e, he, hcode⟩

/-- A list of nothing but an id is refused under it. -/
theorem ofRaw_single {t : Raw} (hl : entry.IsList [t]) (hi : i.Spelt t) :
    ∃ e : ErrorObject, ofRaw entry = .error (i, e) := by
  obtain ⟨j, e, he, -, ⟨u, ht, hj⟩ | ⟨hno, -⟩⟩ := ofRaw_list_refused hl fun ⟨_, _, hq⟩ => by
    obtain ⟨u, hu, -⟩ := hq.method
    cases hu
  · cases ht
    exact ⟨e, hj.unique hi ▸ he⟩
  · exact absurd ⟨t, i, rfl, hi⟩ hno

/-- What is no object is a list or a scalar. -/
theorem list_or_scalar (hr : entry.IsText) (hno : ¬∃ fields, entry.IsObject fields) :
    (∃ items, entry.IsList items) ∨ entry.IsScalar := by
  rcases Raw.isText_cases hr with hl | ho | hs
  · exact .inl hl
  · exact absurd ho hno
  · exact .inr hs

theorem ofRaw_nonobject_iff (hr : entry.IsText) (hno : ¬∃ fields, entry.IsObject fields) :
    ofRaw entry = .ok q ↔
      ∃ items, entry.IsList items ∧ items.length ≤ 4 ∧ AskedBy (placed items) q := by
  refine ⟨fun h => ?_, fun ⟨items, hl, h⟩ => (ofRaw_list_iff hl).mpr h⟩
  rcases list_or_scalar hr hno with ⟨items, hl⟩ | hs
  · exact ⟨items, hl, (ofRaw_list_iff hl).mp h⟩
  · obtain ⟨e, he, -⟩ := ofRaw_scalar hs
    cases h.symm.trans he

theorem ofRaw_nonobject_refused (hr : entry.IsText) (hno : ¬∃ fields, entry.IsObject fields)
    {e : ErrorObject} (h : ofRaw entry = .error (i, e)) :
    e.code = -32600 ∧ (i = .null ∨ ∃ t, entry.IsList [t] ∧ i.Spelt t) := by
  rcases list_or_scalar hr hno with ⟨items, hl⟩ | hs
  · obtain ⟨j, e', he, hcode, hid⟩ := ofRaw_list_refused hl fun ⟨q, hq⟩ => by
      cases h.symm.trans ((ofRaw_list_iff hl).mpr hq)
    cases h.symm.trans he
    refine ⟨hcode, ?_⟩
    rcases hid with ⟨t, rfl, hi⟩ | ⟨-, hi⟩
    · exact .inr ⟨t, hl, hi⟩
    · exact .inl hi
  · obtain ⟨e', he, hcode⟩ := ofRaw_scalar hs
    cases h.symm.trans he
    exact ⟨hcode, .inl rfl⟩

/-- **Which entries that are no objects are refused under null.** All are but lists that ask for a
request by the places of their elements, which are read as that request, and lists of nothing but
an id other than null, which are refused under it. -/
theorem ofRaw_nonobject (hr : entry.IsText) (hno : ¬∃ fields, entry.IsObject fields) :
    ((∃ e : ErrorObject, ofRaw entry = .error (.null, e) ∧ e.code = -32600) ↔
      ∀ items, entry.IsList items → (¬∃ q, items.length ≤ 4 ∧ AskedBy (placed items) q) ∧
        ∀ t i, items = [t] → Id.Spelt t i → i = .null) ∧
    (∀ q, ofRaw entry = .ok q ↔
      ∃ items, entry.IsList items ∧ items.length ≤ 4 ∧ AskedBy (placed items) q) ∧
    ∀ i e, ofRaw entry = .error (i, e) →
      e.code = -32600 ∧ (i = .null ∨ ∃ t, entry.IsList [t] ∧ i.Spelt t) := by
  refine ⟨⟨fun ⟨e, he, _⟩ items hl => ⟨fun ⟨q, hq⟩ => ?_, fun t i hitems hi => ?_⟩, fun h => ?_⟩,
    fun _ => ofRaw_nonobject_iff hr hno, fun _ _ => ofRaw_nonobject_refused hr hno⟩
  · cases he.symm.trans ((ofRaw_list_iff hl).mpr hq)
  · obtain ⟨e', he'⟩ := ofRaw_single (hitems ▸ hl) hi
    cases he.symm.trans he'
    rfl
  · cases he : ofRaw entry with
    | ok q =>
      obtain ⟨items, hl, hq⟩ := (ofRaw_nonobject_iff hr hno).mp he
      exact absurd ⟨q, hq⟩ (h items hl).1
    | error refusal =>
      obtain ⟨i, e⟩ := refusal
      obtain ⟨hcode, rfl | ⟨t, hl, hi⟩⟩ := ofRaw_nonobject_refused hr hno he
      · exact ⟨e, rfl, hcode⟩
      · exact ⟨e, by rw [(h [t] hl).2 t i rfl hi], hcode⟩

/-- A list is no object. -/
theorem not_isObject (hl : entry.IsList items) : ¬∃ fields, entry.IsObject fields := by
  rintro ⟨fields, ho⟩
  obtain ⟨v, hv⟩ := hl.bracket
  obtain ⟨w, hw⟩ := ho.brace
  cases hv.symm.trans hw

/-- A list of a number is refused under that number. -/
theorem ofRaw_nonobject_five :
    (Raw.list [⟨['5']⟩]).IsText ∧ (¬∃ fields, (Raw.list [⟨['5']⟩]).IsObject fields) ∧
      ∃ e : ErrorObject, ofRaw (.list [⟨['5']⟩]) = .error (.ofNat 5, e) ∧ e.code = -32600 := by
  have hfive : Raw.IsWhole ⟨['5']⟩ 5 := rfl
  have hl := Raw.isList_list (List.forall_mem_singleton.mpr hfive.isText)
  obtain ⟨-, -, hrefused⟩ := ofRaw_nonobject hl.isText (not_isObject hl)
  obtain ⟨e, he⟩ := ofRaw_single hl (Id.spelt_ofNat (by decide) hfive)
  exact ⟨hl.isText, not_isObject hl, e, he, (hrefused _ _ he).1⟩

/-- **A list is taken as a request**: of the version, an id and a method, it is read as the call of
that method under that id, though it is no object. -/
theorem list_taken :
    let entry := Raw.list [⟨writeString "2.0"⟩, ⟨['1']⟩, ⟨writeString "net_listening"⟩]
    entry.IsText ∧ (¬∃ fields, entry.IsObject fields) ∧
      ofRaw entry = .ok ⟨"2.0", some (.ofNat 1), "net_listening", none⟩ ∧
      ¬∃ e : ErrorObject, ofRaw entry = .error (.null, e) ∧ e.code = -32600 := by
  intro entry
  have hone : Raw.IsWhole ⟨['1']⟩ 1 := rfl
  have hl : entry.IsList [⟨writeString "2.0"⟩, ⟨['1']⟩, ⟨writeString "net_listening"⟩] := by
    refine Raw.isList_list ?_
    simp only [List.forall_mem_cons]
    exact ⟨(Raw.isString_written _).isText, hone.isText, (Raw.isString_written _).isText,
      fun _ h => by cases h⟩
  have htaken : ofRaw entry = .ok ⟨"2.0", some (.ofNat 1), "net_listening", none⟩ :=
    (ofRaw_list_iff hl).mpr ⟨by decide, rfl, ⟨_, rfl, Raw.isString_written _⟩,
      ⟨_, rfl, Raw.isString_written _⟩,
      .inr ⟨_, _, rfl, Id.spelt_ofNat (by decide) hone, rfl⟩, .inl ⟨rfl, rfl⟩⟩
  refine ⟨hl.isText, not_isObject hl, htaken, ?_⟩
  rintro ⟨e, he, -⟩
  cases htaken.symm.trans he

end Request
end Switchboard
