import Switchboard.Proofs.Json.Slots
import Switchboard.Proofs.Json.Wholes

/-! Texts that were written.

What is written is laid out without blanks, and every name and string in it means what it was
written for. So an object that was written is the object of the texts that went into it
(`Raw.isObject_written`), whatever those are. -/
namespace Switchboard.Json

/-! ### Strings and names -/

/-- The pieces that the string is written with. -/
noncomputable def written (s : String) : List Piece := (writeString_spell s).choose

theorem writeString_written (s : String) : writeString s = '"' :: spell (written s) :=
  (writeString_spell s).choose_spec.1

theorem meaning?_written (s : String) : meaning? (written s) = some s.toList :=
  (writeString_spell s).choose_spec.2

theorem Raw.isString_written (s : String) : Raw.IsString ⟨writeString s⟩ s :=
  ⟨written s, writeString_written s, meaning?_written s⟩

theorem Raw.IsString.isText {r : Raw} {s : String} (h : r.IsString s) : r.IsText := by
  obtain ⟨ps, hr, -⟩ := h
  have hs : skimString Char.utf8Size (spell ps) = .ok [] := by
    simpa using @skimString_spell Char.utf8Size ps []
  exact Raw.IsScalar.isText ⟨'"', spell ps, hr, by decide, by decide, by decide, hs⟩

/-- A member as it is written. -/
noncomputable def Field.written (name : String) (r : Raw) : Field :=
  ⟨[], Json.written name, [], .bare r, blank_nil, blank_nil⟩

theorem Field.written_chars (name : String) (r : Raw) :
    (written name r).chars = writeMember name r.chars := by
  rw [writeMember, writeString_written, ← Padded.bare_chars r]
  simp [written, Field.chars]

theorem Field.written_named (name : String) (r : Raw) : (written name r).Named name :=
  meaning?_written name

/-- The members as they are written. -/
noncomputable def Field.all (members : List (String × Raw)) : List Field :=
  members.map fun m => .written m.1 m.2

theorem Field.written_mem {members : List (String × Raw)} {name : String} {r : Raw}
    (h : (name, r) ∈ members) : written name r ∈ all members :=
  List.mem_map.mpr ⟨(name, r), h, rfl⟩

/-! ### Numbers -/

/-- Every numeral is a text. -/
theorem Numeral.isText (n : Numeral) {r : Raw} (h : r.chars = n.chars) : r.IsText :=
  (n.isScalar h).isText

theorem Raw.IsWhole.isText {r : Raw} {i : Int} (h : r.IsWhole i) : r.IsText :=
  Numeral.isText _ h.numeral

/-! ### Lists and objects -/

namespace Raw
variable {members : List (String × Raw)}

/-- The members' texts as they stand in an object. -/
def spelt (members : List (String × Raw)) : List (List Char) :=
  members.map fun m => writeMember m.1 m.2.chars

theorem isObject_written (h : ∀ m ∈ members, m.2.IsText) :
    IsObject ⟨writeObject (spelt members)⟩ (Field.all members) := by
  have hchars : spelt members = (Field.all members).map Field.chars := by
    rw [spelt, Field.all, List.map_map]
    exact List.map_congr_left fun m _ => (Field.written_chars m.1 m.2).symm
  rcases members with _ | ⟨m, members⟩
  · exact .empty blank_nil
  · rw [hchars]
    refine .members (List.cons_ne_nil _ _) fun f hf => ?_
    obtain ⟨k, hk, rfl⟩ := List.mem_map.mp hf
    exact h k hk

end Raw

/-- Members that are written under names of their own. -/
theorem apart_written {members : List (String × Raw)} (h : (members.map Prod.fst).Nodup) :
    Apart (Field.all members) := by
  refine List.pairwise_map.mpr (List.Pairwise.imp ?_ (List.pairwise_map.mp h))
  intro m k hne name hm hk
  exact hne ((hm.unique (Field.written_named ..)).symm.trans (hk.unique (Field.written_named ..)))

end Switchboard.Json
