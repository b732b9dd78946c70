import Switchboard.Proofs.Message.Request

/-! Where the line of a forwarded call can break.

A name is escaped and an id is spelt in digits, so neither holds a line feed. Arguments are
put in as they are spelt: the line holds a line feed exactly when one of them does. -/
namespace Switchboard.Request
open Json

theorem digitChar_ne_feed : ∀ n < 16, '\n' ≠ Nat.digitChar n := by decide

theorem feed_not_mem_escaped (c : Char) : '\n' ∉ escaped c := by
  unfold escaped
  split
  case h_8 _ _ _ _ hn _ _ =>
    split
    · rename_i hc
      have h1 := digitChar_ne_feed (c.toNat / 16) (by omega)
      have h2 := digitChar_ne_feed (c.toNat % 16) (by omega)
      simp [h1, h2]
    · exact fun h => hn (List.mem_singleton.mp h).symm
  all_goals decide

theorem feed_not_mem_writeString (s : String) : '\n' ∉ writeString s := by
  have hs : '\n' ∉ s.toList.flatMap escaped := by
    rw [List.mem_flatMap]
    rintro ⟨c, _, hc⟩
    exact feed_not_mem_escaped c hc
  simp [writeString, hs]

theorem feed_mem_afterCommas (parts : List (List Char)) :
    '\n' ∈ afterCommas parts ↔ ∃ p ∈ parts, '\n' ∈ p := by
  simp [afterCommas]

theorem feed_mem_writeList (parts : List (List Char)) :
    '\n' ∈ writeList parts ↔ ∃ p ∈ parts, '\n' ∈ p := by
  cases parts with
  | nil => simp [writeList]
  | cons p parts =>
    rw [writeList_cons]
    simp [feed_mem_afterCommas]

theorem feed_mem_writeObject (parts : List (List Char)) :
    '\n' ∈ writeObject parts ↔ ∃ p ∈ parts, '\n' ∈ p := by
  cases parts with
  | nil => simp [writeObject]
  | cons p parts =>
    rw [writeObject_cons]
    simp [feed_mem_afterCommas]

theorem feed_mem_writeMember (name : String) (value : List Char) :
    '\n' ∈ writeMember name value ↔ '\n' ∈ value := by
  simp [writeMember, feed_not_mem_writeString]

theorem feed_not_mem_id {n : Nat} (hn : n < UInt64.size) : '\n' ∉ (Id.ofNat n).write := by
  intro h
  rw [show Id.ofNat n = .number (Number.ofNat n) from rfl, Id.number_write, Number.text_ofNat hn] at h
  cases isDigit_of_mem_toDigits h

/-- **A line holds a line feed exactly when an argument does.** -/
theorem feed_mem_call {id : Nat} (hid : id < UInt64.size) (method : String) (items : List Raw) :
    '\n' ∈ (call id method items).write ↔ ∃ a ∈ items, '\n' ∈ a.chars := by
  rw [write_call, feed_mem_writeObject, Raw.spelt, callMembers]
  have hlist : '\n' ∈ (Raw.list items).chars ↔ ∃ a ∈ items, '\n' ∈ a.chars := by
    rw [Raw.list, feed_mem_writeList]
    constructor
    · rintro ⟨_, hp, h⟩
      obtain ⟨a, ha, rfl⟩ := List.mem_map.mp hp
      exact ⟨a, ha, h⟩
    · rintro ⟨a, ha, h⟩
      exact ⟨a.chars, List.mem_map_of_mem ha, h⟩
  simp [feed_mem_writeMember, feed_not_mem_writeString, feed_not_mem_id hid, hlist]

end Switchboard.Request
