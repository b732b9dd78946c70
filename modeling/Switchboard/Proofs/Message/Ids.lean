import Switchboard.Proofs.Json.Meaning
import Switchboard.Proofs.Message.Entries

/-! Ids as they are spelt, and as they are written again.

An id is decoded, and written anew in the answer (`Id.Echoes`). It is null, a string or a number, so
it comes to mean something else only if it is a number that decoding does not keep
(`Id.echoes_of_denotes`). An entry is answered under the id of its request, or, when it is no
request, under the one that can be found in it (`Request.addressee?`). -/
namespace Switchboard
open Json

/-- If the text is that of a number, decoding keeps it. -/
def Json.Raw.Keeps (t : Raw) : Prop := ∀ n : Numeral, t.chars = n.chars → n.Kept

/-! ### Ids -/

namespace Id
variable {i i' : Id} {t t' : Raw} {outer : Nat}

/-- The id was read from the text: it is written as what it means, and it means what the text does
exactly when that is kept. -/
structure Echoes (i : Id) (t : Raw) : Prop where
  written : Means ⟨i.write⟩ i.value.meaning
  meant : ∃ m, Means t m
  kept : ∀ m, Means t m → (i.value.meaning = m ↔ t.Keeps)

/-- An id is denoted by a text that holds no other, as no wrappers are opened for it. -/
theorem isScalar_of_denotes (h : Denotes false outer t i.value) : t.IsScalar := by
  have hlist (items : List Value) : i.value ≠ .array items := by cases i <;> simp [value]
  have hobject (members : List (String × Value)) : i.value ≠ .object members := by
    cases i <;> simp [value]
  generalize i.value = x at h hlist hobject
  cases h with
  | scalar hr hb hl ho hs => exact ⟨_, _, hr, hb, hl, ho, hs⟩
  | list => exact absurd rfl (hlist _)
  | object => exact absurd rfl (hobject _)
  | wrapped hu => cases hu

theorem echoes_of_denotes (h : Denotes false outer t i.value) : i.Echoes t where
  written := i.value.write_means
  meant := h.exists_means
  kept _ hm :=
    have hscalar := isScalar_of_denotes h
    (h.scalar_meaning_iff hscalar hm).trans (faithful_scalar hscalar)

/-- Ids that are kept are equal exactly when their texts mean the same. -/
theorem Echoes.eq_iff (h : i.Echoes t) (h' : i'.Echoes t') (hk : t.Keeps) (hk' : t'.Keeps)
    {m m' : Meaning} (hm : Means t m) (hm' : Means t' m') :
    i.value.meaning = i'.value.meaning ↔ m = m' := by
  rw [(h.kept m hm).mpr hk, (h'.kept m' hm').mpr hk']

end Id

namespace Json.Raw
variable {r : Raw}

theorem IsString.keeps {s : String} (h : r.IsString s) : r.Keeps := by
  obtain ⟨ps, hr, -⟩ := h
  intro n hn
  rcases Numeral.front_of hn hr with hc | hc <;> cases hc

theorem IsWhole.keeps {i : Int} (h : r.IsWhole i) (hi : InWords i) : r.Keeps := fun n hn =>
  n.kept_whole hi (hn.symm.trans h)

end Json.Raw

/-! ### Ids of requests -/

namespace Request
variable {entry t : Raw} {q : Request} {i : Id}

/-- A request has the id that its text has. -/
theorem id_of_has (h : (Layout.reader Char.utf8Size).Takes entry q)
    (ht : Layout.Has entry "id" t) : ∃ i, q.id? = some i ∧ Denotes false 1 t i.value := by
  obtain ⟨d, i, hf, hget, hi⟩ := idSlot.has covered.settled members_nodup h ht
  exact ⟨i, (finish_eq_some.mp hf).2.1.symm.trans hget, (Id.reader_takes_iff ht.isText).mp hi⟩

/-! ### Ids that are found where there is no request -/

/-- The id that is found in a text. -/
def salvage? (s : List Char) : Option Id :=
  match (Salvage.reader Char.utf8Size).document Char.utf8Size s with
  | .ok i? => i?
  | .error _ => none

theorem salvagedId_eq (s : List Char) : salvagedId s = (salvage? s).getD .null := by
  unfold salvagedId salvage?
  split
  · rename_i h
    rw [h]
    rfl
  · rename_i h
    split
    · rename_i i? hi
      cases i? with
      | none => rfl
      | some i => exact absurd hi (h i)
    · rfl

/-- An id is found in a text when it is taken from it. -/
theorem salvage?_eq_some_iff (hr : entry.IsText) :
    salvage? entry.chars = some i ↔ (Salvage.reader Char.utf8Size).Takes entry (some i) := by
  have hiff := (Plan.reader_settled salvage_covered.settled).document_eq_ok_iff hr (x := some i)
    blank_nil blank_nil Char.utf8Size
  rw [List.nil_append, List.append_nil] at hiff
  rw [← hiff]
  unfold salvage?
  cases (Salvage.reader Char.utf8Size).document Char.utf8Size entry.chars with
  | ok i? => exact Except.ok.injEq .. ▸ Iff.rfl
  | error => exact ⟨fun h => (by cases h), fun h => (by cases h)⟩

/-- The id that is found in a text is the one that the text has. -/
theorem salvage_of_has (hr : entry.IsText) (h : salvage? entry.chars = some i) :
    (∃ t, Salvage.Has entry "id" t) ∧
      ∀ t, Salvage.Has entry "id" t → Denotes false 1 t i.value := by
  have htakes := (salvage?_eq_some_iff hr).mp h
  have hnodup : Salvage.members.Nodup := List.nodup_singleton _
  constructor
  · by_contra hno
    obtain ⟨d, hf, hget⟩ := salvageSlot.lacks salvage_covered.settled hnodup hr htakes
      fun t ht => hno ⟨t, ht⟩
    cases hf
    cases hget
  · intro t ht
    obtain ⟨d, j, hf, hget, hj⟩ := salvageSlot.has salvage_covered.settled hnodup htakes ht
    cases hf
    cases hget
    exact (Id.reader_takes_iff ht.isText).mp hj

/-! ### Ids of entries -/

/-- The id that an entry is answered under, none when it is not to be answered. -/
def addressee? (entry : Raw) : Option Id :=
  match ofRaw entry with
  | .error (i, _) => some i
  | .ok q => q.id?

theorem addressee?_request (h : ofRaw entry = .ok q) : addressee? entry = q.id? := by
  rw [addressee?, h]

theorem addressee?_refused {e : ErrorObject} (h : ofRaw entry = .error (i, e)) :
    addressee? entry = some i := by
  rw [addressee?, h]

/-- The text that an entry has for its id, and the id that is read from it: that of a request, or
one that is found where there is no request. -/
inductive Names (entry t : Raw) (i : Id) : Prop
  | request {q : Request} (hq : ofRaw entry = .ok q) (ht : Layout.Has entry "id" t)
      (hi : q.id? = some i)
  | salvaged {j : Id} {e : ErrorObject} (hq : ofRaw entry = .error (j, e))
      (ht : Salvage.Has entry "id" t) (hi : salvage? entry.chars = some i)

theorem Names.addressee? (h : Names entry t i) : addressee? entry = some i := by
  cases h with
  | request hq ht hi => rw [addressee?_request hq, hi]
  | salvaged hq ht hi =>
    rw [addressee?_refused hq, ofRaw_eq_error hq, salvagedId_eq, hi, Option.getD_some]

theorem Names.echoes (h : Names entry t i) (hr : entry.IsText) : i.Echoes t := by
  cases h with
  | request hq ht hi =>
    obtain ⟨j, hj, hdenotes⟩ := id_of_has (takes_of_ofRaw hr hq) ht
    cases hi.symm.trans hj
    exact Id.echoes_of_denotes hdenotes
  | salvaged hq ht hi => exact Id.echoes_of_denotes ((salvage_of_has hr hi).2 t ht)

end Request
end Switchboard
