import Switchboard.Proofs.Json.Extent
import Switchboard.Proofs.Json.Reading
import Switchboard.Proofs.Json.Writing

/-! Texts that are kept as they are spelt.

A kept text is a fixed point of reading: it is one value without blanks around it
(`Raw.IsText`). Whatever the readers keep is such a text (`Raw.isText_of_skimText`,
`Raw.elements_isText`), and such a text is kept again, character by character, wherever
it is put (`skimText_append`). -/
namespace Switchboard.Json

/-- The text is one value, without blanks around it. -/
def Raw.IsText (r : Raw) : Prop := Raw.parse r.chars = .ok r

variable {width : Char → Nat}

/-! ### What is kept -/

/-- What is kept of a text is a value's own text between blanks and the rest. -/
theorem skimText_cases {s t r : List Char} (h : skimText width s = .ok (t, r)) :
    skipBlank s = t ++ r ∧ (∃ c v, t = c :: v ∧ isBlank c = false) ∧
      ∀ u, Stops u → skim width (t ++ u) = .ok u := by
  simp only [skimText] at h
  split at h
  · rename_i x hx
    simp only [Except.ok.injEq, Prod.mk.injEq] at h
    obtain ⟨ht, rfl⟩ := h
    have hlen := skim_length_lt hx
    obtain ⟨w, hw, hf⟩ := skim_takes hx
    have hwt : w = t := by
      rw [← ht, hw]
      simp
    subst hwt
    refine ⟨hw, ?_, hf⟩
    cases w with
    | nil =>
      rw [hw] at hlen
      exact absurd hlen (Nat.lt_irrefl _)
    | cons c v => exact ⟨c, v, rfl, skipBlank_cons_not_blank hw⟩
  · cases h

/-- A value's own text is kept as it is, whatever blanks stand before it and whatever
follows. -/
theorem skimText_append {b t : List Char} (hb : ∀ c ∈ b, isBlank c = true)
    (ht : ∃ c v, t = c :: v ∧ isBlank c = false)
    (hf : ∀ u, Stops u → skim width (t ++ u) = .ok u) {u : List Char} (hu : Stops u) :
    skimText width (b ++ (t ++ u)) = .ok (t, u) := by
  obtain ⟨c, v, rfl, hc⟩ := ht
  simp only [skimText, List.cons_append, skipBlank_append hb hc]
  rw [← List.cons_append, hf u hu]
  simp only [List.length_append, Nat.add_sub_cancel, List.take_left]

theorem skimText_fix {s t r : List Char} (h : skimText width s = .ok (t, r)) :
    skimText width t = .ok (t, []) := by
  obtain ⟨_, ht, hf⟩ := skimText_cases h
  have := skimText_append (b := []) (fun _ h => by cases h) ht hf (Heads.nil _)
  simpa using this

namespace Raw

/-- A document is one value's text and blanks. -/
theorem parse_eq_ok_iff {s : List Char} {r : Raw} :
    Raw.parse s = .ok r ↔ ∃ b, skimText Char.utf8Size s = .ok (r.chars, b) ∧ skipBlank b = [] := by
  rw [Raw.parse, Reader.document_eq_ok_iff]
  simp only [Reader.raw_run]

theorem isText_iff {r : Raw} : r.IsText ↔ skimText Char.utf8Size r.chars = .ok (r.chars, []) := by
  unfold IsText
  rw [parse_eq_ok_iff]
  constructor
  · rintro ⟨b, hs, _⟩
    obtain ⟨hchars, _, _⟩ := skimText_cases hs
    have hlen := skipBlank_length_le r.chars
    rw [hchars, List.length_append] at hlen
    rw [hs, List.eq_nil_of_length_eq_zero (l := b) (by omega)]
  · intro hs
    exact ⟨[], hs, rfl⟩

/-- What is kept is a text of its own. -/
theorem isText_of_skimText {s t r : List Char}
    (h : skimText Char.utf8Size s = .ok (t, r)) : IsText ⟨t⟩ :=
  isText_iff.mpr (skimText_fix h)

variable {r : Raw}

theorem IsText.skim_append (h : r.IsText) {u : List Char} (hu : Stops u) :
    skim Char.utf8Size (r.chars ++ u) = .ok u :=
  (skimText_cases (isText_iff.mp h)).2.2 u hu

theorem IsText.skimText_append (h : r.IsText) {u : List Char} (hu : Stops u) :
    skimText Char.utf8Size (r.chars ++ u) = .ok (r.chars, u) := by
  obtain ⟨_, hc, hf⟩ := skimText_cases (isText_iff.mp h)
  exact Json.skimText_append (b := []) (fun _ h => by cases h) hc hf hu

theorem IsText.skipBlank_append (h : r.IsText) (u : List Char) :
    skipBlank (r.chars ++ u) = r.chars ++ u := by
  obtain ⟨_, ⟨c, v, hr, hc⟩, _⟩ := skimText_cases (isText_iff.mp h)
  rw [hr, List.cons_append, skipBlank_cons hc]

end Raw

/-! ### Lists cut into their elements -/

theorem splitMore_isText {done items : List (List Char)} {s r : List Char}
    (h : splitMore Char.utf8Size done s = .ok (items, r)) (hd : ∀ t ∈ done, Raw.IsText ⟨t⟩) :
    ∀ t ∈ items, Raw.IsText ⟨t⟩ := by
  fun_induction splitMore Char.utf8Size done s with
  | case2 done s r' hs =>
    cases h
    exact fun t ht => hd t (List.mem_reverse.mp ht)
  | case5 done s v hs t rest ht _ _ ih =>
    refine ih h fun u hu => ?_
    rcases List.mem_cons.mp hu with rfl | hu
    · exact Raw.isText_of_skimText ht
    · exact hd u hu
  | _ => cases h

theorem splitList_isText {items : List (List Char)} {s r : List Char}
    (h : splitList Char.utf8Size s = .ok (items, r)) : ∀ t ∈ items, Raw.IsText ⟨t⟩ := by
  unfold splitList at h
  split at h
  · cases h
  · cases h
    exact fun t ht => by cases ht
  · split at h
    · rename_i t rest ht
      refine splitMore_isText h fun u hu => ?_
      rw [List.mem_singleton.mp hu]
      exact Raw.isText_of_skimText ht
    · cases h

/-- Every element of a list that is cut is one value's own text. -/
theorem Raw.elements_isText {r : Raw} {items : List Raw} (h : r.elements = .ok items) :
    ∀ a ∈ items, a.IsText := by
  unfold Raw.elements at h
  split at h
  · split at h
    · cases h
    · rename_i texts rest ht
      split at h
      · cases h
        intro a ha
        obtain ⟨t, htexts, rfl⟩ := List.mem_map.mp ha
        exact splitList_isText ht t htexts
      · cases h
  · cases h

/-! ### Cutting a list, one element at a time -/

theorem splitMore_end {done : List (List Char)} {s r : List Char} (hs : skipBlank s = ']' :: r) :
    splitMore width done s = .ok (done.reverse, r) := by
  rw [splitMore]
  grind

theorem splitMore_next {done : List (List Char)} {s v t rest : List Char} {c : Char}
    (hs : skipBlank s = ',' :: v) (hv : skipBlank v = c :: t) (hc : c ≠ ']')
    {item : List Char} (hi : skimText width v = .ok (item, rest)) :
    splitMore width done s = splitMore width (item :: done) rest := by
  rw [splitMore]
  grind

/-- A value's own text does not begin with a closing bracket. -/
theorem Raw.IsText.head {a : Raw} (h : a.IsText) :
    ∃ c v, a.chars = c :: v ∧ isBlank c = false ∧ c ≠ ']' := by
  obtain ⟨_, ⟨c, v, hr, hc⟩, hf⟩ := skimText_cases (Raw.isText_iff.mp h)
  refine ⟨c, v, hr, hc, ?_⟩
  rintro rfl
  have := hf [] (Heads.nil _)
  rw [hr, List.append_nil, skim] at this
  rcases skimValue_cases this with ⟨_, _, hs, _⟩ | ⟨_, _, _, hs, _⟩ | ⟨_, _, hs, _⟩ |
    ⟨_, _, _, _, hs, _⟩ | ⟨_, _, _, hs, _, _, hk, _⟩
  all_goals
    rw [skipBlank_cons hc] at hs
    cases hs
  cases hk

theorem splitList_cons {s v t rest : List Char} {c : Char} (hs : skipBlank s = c :: v)
    (hc : c ≠ ']') (hi : skimText width (c :: v) = .ok (t, rest)) :
    splitList width s = splitMore width [t] rest := by
  unfold splitList
  split
  · rename_i h
    rw [hs] at h
    cases h
  · rename_i h
    rw [hs] at h
    cases h
    exact absurd rfl hc
  · rw [hs, hi]

end Switchboard.Json
