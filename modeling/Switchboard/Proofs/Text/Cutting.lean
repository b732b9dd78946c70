/-! Lines cut at line feeds.

What is cut is bytes, and what was written is characters: in UTF-8 the byte of a line feed
stands for nothing but a line feed (`feed_mem_utf8`). A sequence of lines, each with its
line feed, is cut into these lines exactly when none of them holds one (`splitOn_lines_iff`). -/
namespace Switchboard.Text

/-- The bytes of a text. -/
def utf8 (s : List Char) : List UInt8 := s.flatMap String.utf8EncodeChar

theorem utf8_append (s t : List Char) : utf8 (s ++ t) = utf8 s ++ utf8 t := List.flatMap_append

/-- A byte of a character that takes several is none of a character that takes one. -/
theorem ne_of_high {n : Nat} (h : 0x80 ≤ n % 256) : (10 : UInt8) ≠ UInt8.ofNat n := by
  intro he
  have := congrArg UInt8.toNat he
  rw [UInt8.toNat_ofNat'] at this
  have : (10 : UInt8).toNat = 10 := rfl
  omega

theorem feed_mem_encodeChar (c : Char) : 10 ∈ String.utf8EncodeChar c ↔ c = '\n' := by
  constructor
  · intro h
    simp only [String.utf8EncodeChar] at h
    split at h
    · rename_i hc
      have hv := congrArg UInt8.toNat (List.mem_singleton.mp h)
      rw [UInt8.toNat_ofNat', Nat.mod_eq_of_lt (by omega)] at hv
      exact Char.ext (UInt32.toNat_inj.mp hv.symm)
    · exfalso
      revert h
      split
      · simp only [List.mem_cons, List.not_mem_nil, or_false]
        rintro (h | h) <;> exact ne_of_high (by omega) h
      · split
        · simp only [List.mem_cons, List.not_mem_nil, or_false]
          rintro (h | h | h) <;> exact ne_of_high (by omega) h
        · simp only [List.mem_cons, List.not_mem_nil, or_false]
          rintro (h | h | h | h) <;> exact ne_of_high (by omega) h
  · rintro rfl
    decide

theorem feed_mem_utf8 (s : List Char) : 10 ∈ utf8 s ↔ '\n' ∈ s := by
  simp [utf8, feed_mem_encodeChar]

/-! ### Cutting -/

variable {α : Type} [DecidableEq α] {x : α}

/-- Every line is cut on its own. -/
theorem splitOn_lines (lines : List (List α)) :
    (lines.flatMap (· ++ [x])).splitOn x = lines.flatMap (·.splitOn x) ++ [[]] := by
  induction lines with
  | nil => rfl
  | cons l lines ih =>
    rw [List.flatMap_cons, List.append_assoc, List.singleton_append, List.splitOn_append_cons_self,
      ih, List.flatMap_cons, List.append_assoc]

/-- What holds a separator comes apart. -/
theorem splitOn_length (l : List α) (h : x ∈ l) : 2 ≤ (l.splitOn x).length := by
  obtain ⟨a, b, rfl⟩ := List.append_of_mem h
  rw [List.splitOn_append_cons_self, List.length_append]
  have ha := List.length_pos_iff.mpr (List.splitOn_ne_nil x a)
  have hb := List.length_pos_iff.mpr (List.splitOn_ne_nil x b)
  omega

theorem length_le_flatMap_splitOn (lines : List (List α)) :
    lines.length ≤ (lines.flatMap (·.splitOn x)).length := by
  induction lines with
  | nil => exact Nat.le_refl _
  | cons l lines ih =>
    have := List.length_pos_iff.mpr (List.splitOn_ne_nil x l)
    rw [List.flatMap_cons, List.length_append, List.length_cons]
    omega

theorem flatMap_splitOn_iff (lines : List (List α)) :
    lines.flatMap (·.splitOn x) = lines ↔ ∀ l ∈ lines, x ∉ l := by
  induction lines with
  | nil => simp
  | cons l lines ih =>
    rw [List.flatMap_cons, List.forall_mem_cons]
    constructor
    · intro h
      have hx : x ∉ l := by
        intro hx
        have h1 := splitOn_length l hx
        have h2 := length_le_flatMap_splitOn (x := x) lines
        have h3 := congrArg List.length h
        rw [List.length_append, List.length_cons] at h3
        omega
      rw [List.splitOn_eq_singleton hx, List.singleton_append] at h
      exact ⟨hx, ih.mp (List.cons.inj h).2⟩
    · rintro ⟨hx, hrest⟩
      rw [List.splitOn_eq_singleton hx, ih.mpr hrest, List.singleton_append]

/-- **Lines are cut into themselves exactly when none holds a separator.** -/
theorem splitOn_lines_iff (lines : List (List α)) :
    (lines.flatMap (· ++ [x])).splitOn x = lines ++ [[]] ↔ ∀ l ∈ lines, x ∉ l := by
  rw [splitOn_lines, List.append_left_inj, flatMap_splitOn_iff]

end Switchboard.Text
