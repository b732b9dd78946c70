import Switchboard.Proofs.Json.Written

/-! Scalars, and what they denote.

A scalar is null, a truth value, a numeral or a string (`Raw.IsScalar.sort`), and each of these
denotes what it is spelt as: null and the truth values by their only spelling, a string what its
pieces mean, and a numeral the number that it is read as. -/
namespace Switchboard.Json

variable {r : Raw} {unwraps : Bool} {depth : Nat} {x : Value}

/-! ### Null -/

theorem Raw.isText_null : Raw.null.IsText :=
  IsScalar.isText ⟨'n', ['u', 'l', 'l'], rfl, by decide, by decide, by decide, rfl⟩

/-- Only null begins like null. -/
theorem Raw.IsText.eq_null (h : r.IsText) {v : List Char} (hr : r.chars = 'n' :: v) :
    r = Raw.null := by
  rcases isText_cases h with ⟨_, hl⟩ | ⟨_, ho⟩ | ⟨c, w, hc, -, -, -, hs⟩
  · obtain ⟨w, hw⟩ := hl.bracket
    cases hr.symm.trans hw
  · obtain ⟨w, hw⟩ := ho.brace
    cases hr.symm.trans hw
  · cases hr.symm.trans hc
    have hword : literal ['u', 'l', 'l'] v = .ok [] := hs
    rw [show r = ⟨r.chars⟩ from rfl, hr, literal_eq hword]
    rfl

theorem denotes_null (depth : Nat) : Denotes unwraps depth Raw.null .null :=
  .scalar (c := 'n') (v := ['u', 'l', 'l']) rfl (by decide) (by decide) (by decide) rfl rfl

/-! ### The others -/

theorem denotes_bool (depth : Nat) (b : Bool) :
    Denotes unwraps depth ⟨(Value.bool b).write⟩ (.bool b) := by
  cases b with
  | true =>
    exact .scalar (c := 't') (v := ['r', 'u', 'e']) rfl (by decide) (by decide) (by decide) rfl
      rfl
  | false =>
    exact .scalar (c := 'f') (v := ['a', 'l', 's', 'e']) rfl (by decide) (by decide) (by decide)
      rfl rfl

theorem denotes_string {s : String} (h : r.IsString s) : Denotes unwraps depth r (.string s) := by
  obtain ⟨ps, hr, hm⟩ := h
  have hskim := @skimString_spell Char.utf8Size ps []
  have hread := @readText_spell Char.utf8Size _ _ hm []
  rw [List.append_nil] at hskim hread
  refine .scalar hr (by decide) (by decide) (by decide) hskim ?_
  show (readText Char.utf8Size (spell ps)).map _ = _
  rw [hread, String.ofList_toList]
  rfl

/-- The ways in which a scalar may be spelt. -/
inductive Raw.Sort (r : Raw) : Prop
  | null (h : r = Raw.null)
  | bool (b : Bool) (h : r = ⟨(Value.bool b).write⟩)
  | numeral (n : Numeral) (h : r.chars = n.chars)
  | quoted (ps : List Piece) (h : r.chars = '"' :: spell ps)

theorem Raw.IsScalar.sort (h : r.IsScalar) : r.Sort := by
  obtain ⟨c, v, hr, -, -, -, hs⟩ := h
  have word {w : List Char} (hw : literal w v = .ok []) : r = ⟨c :: w⟩ := by
    rw [show r = ⟨r.chars⟩ from rfl, hr, literal_eq hw, List.append_nil]
  unfold skimScalar at hs
  split at hs
  · exact .null (word hs)
  · exact .bool true (word hs)
  · exact .bool false (word hs)
  · obtain ⟨n, hn, hv⟩ := skimNumber_numerals hs true
    rw [List.append_nil] at hv
    exact .numeral n (by rw [Numeral.chars, hn, if_pos rfl, hr, hv])
  · obtain ⟨ps, hps⟩ := skimString_pieces hs
    exact .quoted ps (by rw [hr, hps, List.append_nil])
  · split at hs
    · obtain ⟨n, hn, hv⟩ := skimNumber_numerals hs false
      rw [List.append_nil] at hv
      exact .numeral n (by rw [Numeral.chars, hn, hr, hv]; rfl)
    · cases hs

/-- A quoted text that denotes something is that of a string. -/
theorem Denotes.of_quoted (h : Denotes unwraps depth r x) {ps : List Piece}
    (hr : r.chars = '"' :: spell ps) : ∃ s, x = .string s ∧ r.IsString s := by
  cases hm : meaning? ps with
  | some cs =>
    have hs : r.IsString (String.ofList cs) := ⟨ps, hr, by rw [hm, String.toList_ofList]⟩
    exact ⟨_, h.unique (denotes_string hs), hs⟩
  | none =>
    exfalso
    cases h with
    | scalar hd _ _ _ _ hx =>
      cases hr.symm.trans hd
      have hno := @readText_meaningless Char.utf8Size _ hm []
      rw [List.append_nil] at hno
      unfold readScalar at hx
      cases hq : readText Char.utf8Size (spell ps) with
      | error e => simp [hq, Except.map] at hx
      | ok y => exact hno y hq
    | list _ hl =>
      obtain ⟨w, hw⟩ := hl.bracket
      cases hr.symm.trans hw
    | object _ ho | wrapped _ _ ho =>
      obtain ⟨w, hw⟩ := ho.brace
      cases hr.symm.trans hw

end Switchboard.Json
