import Mathlib.Data.List.DropRight
import Mathlib.Data.List.Infix
import Switchboard.Text.Blank
import Switchboard.Text.Numeral

/-! What texts begin and end with.

Trimming takes the white space off both ends and nothing else (`exists_around`), and a text that
has none at its ends stays as it is (`Tight.trimmed_eq`). So white space put around a text makes no
difference to what is left of it (`trimmed_around`). A text that is cut at the first of a character
has none of these before the cut (`cut_of_dropWhile`). -/
namespace Switchboard.Text
variable {s b b' : List Char}

/-! ### White space -/

/-- Nothing but white space. -/
def Spaces (s : List Char) : Prop := ∀ c ∈ s, isSpace c = true

/-- No white space at either end. -/
structure Tight (s : List Char) : Prop where
  front : ∀ c ∈ s.head?, isSpace c = false
  back : ∀ c ∈ s.getLast?, isSpace c = false

theorem tight_of_spaceless {s : List Char} (h : s.any isSpace = false) : Tight s where
  front c hc := Bool.eq_false_iff.mpr (List.any_eq_false.mp h c (List.mem_of_head? hc))
  back c hc := Bool.eq_false_iff.mpr (List.any_eq_false.mp h c (List.mem_of_getLast? hc))

theorem trimmed_eq (s : List Char) : trimmed s = (s.dropWhile isSpace).rdropWhile isSpace := rfl

theorem trimmed_tight (s : List Char) : Tight (trimmed s) where
  front c hc := by
    obtain ⟨rest, hrest⟩ := List.rdropWhile_prefix isSpace (s.dropWhile isSpace)
    have hfront := List.head?_dropWhile_not isSpace s
    rw [← trimmed_eq] at hrest
    rw [← hrest, List.head?_append, Option.mem_def.mp hc] at hfront
    simpa using hfront
  back c hc := by
    obtain ⟨hne, rfl⟩ := List.mem_getLast?_eq_getLast hc
    exact Bool.eq_false_iff.mpr (List.rdropWhile_last_not isSpace _ hne)

theorem Tight.trimmed_eq (h : Tight s) : trimmed s = s := by
  have hfront : s.dropWhile isSpace = s := by
    cases s with
    | nil => rfl
    | cons c rest => exact List.dropWhile_cons_of_neg (by simp [h.front c rfl])
  rw [Text.trimmed_eq, hfront, List.rdropWhile_eq_self_iff]
  intro hne
  simp [h.back _ (List.getLast?_eq_some_getLast hne)]

/-- **Only white space is taken off.** -/
theorem exists_around (s : List Char) :
    ∃ b b', Spaces b ∧ Spaces b' ∧ s = b ++ (trimmed s ++ b') := by
  refine ⟨s.takeWhile isSpace, (s.dropWhile isSpace).rtakeWhile isSpace,
    fun c hc => List.mem_takeWhile_imp hc, fun c hc => List.mem_rtakeWhile_imp hc, ?_⟩
  rw [trimmed_eq, List.rdropWhile_append_rtakeWhile, List.takeWhile_append_dropWhile]

/-- **White space put around a text makes no difference.** -/
theorem trimmed_around (hb : Spaces b) (hb' : Spaces b') : trimmed (b ++ (s ++ b')) = trimmed s := by
  have hback (t : List Char) : (t ++ b').rdropWhile isSpace = t.rdropWhile isSpace := by
    rw [List.rdropWhile, List.reverse_append,
      List.dropWhile_append_of_pos fun c hc => hb' c (List.mem_reverse.mp hc), List.rdropWhile]
  rw [trimmed_eq, trimmed_eq, List.dropWhile_append_of_pos hb, List.dropWhile_append]
  split
  · rename_i hempty
    rw [List.isEmpty_iff.mp hempty, List.dropWhile_eq_nil_iff.mpr hb']
  · exact hback _

theorem trimmed_eq_nil_iff : trimmed s = [] ↔ Spaces s := by
  constructor
  · intro h
    obtain ⟨b, b', hb, hb', hs⟩ := exists_around s
    rw [h, List.nil_append] at hs
    exact fun c hc => (List.mem_append.mp (hs ▸ hc)).elim (hb c) (hb' c)
  · intro h
    have hempty := @trimmed_around [] s [] h fun c hc => by cases hc
    rwa [List.append_nil, List.append_nil] at hempty

/-- What a tight text ends with is tight behind something tight. -/
theorem Tight.behind {start rest : List Char} (h : Tight s) (hrest : rest <:+ s) (hne : rest ≠ [])
    (hstart : Tight start) (hstart_ne : start ≠ []) : Tight (start ++ rest) where
  front c hc := by
    rw [List.head?_append_of_ne_nil _ hstart_ne] at hc
    exact hstart.front c hc
  back c hc := by
    obtain ⟨before, rfl⟩ := hrest
    rw [List.getLast?_append_of_ne_nil _ hne] at hc
    exact h.back c (by rwa [List.getLast?_append_of_ne_nil _ hne])

/-! ### Texts cut at a character -/

section Cut
variable {x c : Char} {before after : List Char}

/-- What stands before the first `x` has none, and the rest stands behind it. -/
theorem cut_of_dropWhile (h : s.dropWhile (· ≠ x) = c :: after) :
    s = s.takeWhile (· ≠ x) ++ x :: after ∧ x ∉ s.takeWhile (· ≠ x) := by
  have hsplit := List.takeWhile_append_dropWhile (p := (· ≠ x)) (l := s)
  have hhead := List.head?_dropWhile_not (· ≠ x) s
  rw [h] at hsplit hhead
  have hc : c = x := by simpa using hhead
  refine ⟨hc ▸ hsplit.symm, fun hx => ?_⟩
  have := List.all_eq_true.mp (List.all_takeWhile (p := (· ≠ x)) (l := s)) _ hx
  simp at this

theorem keep_of_not_mem (h : x ∉ before) : ∀ c ∈ before, decide (c ≠ x) = true :=
  fun _ hc => decide_eq_true fun he => h (he ▸ hc)

theorem takeWhile_cut (h : x ∉ before) :
    (before ++ x :: after).takeWhile (· ≠ x) = before := by
  rw [List.takeWhile_append_of_pos (keep_of_not_mem h)]
  simp

theorem dropWhile_cut (h : x ∉ before) :
    (before ++ x :: after).dropWhile (· ≠ x) = x :: after := by
  rw [List.dropWhile_append_of_pos (keep_of_not_mem h)]
  simp

end Cut

/-! ### Texts within texts -/

variable {start part rest : List Char}

theorem after?_eq_some_iff : after? start s = some rest ↔ s = start ++ rest := by
  induction start generalizing s with
  | nil => simp [after?, eq_comm]
  | cons p start ih =>
    cases s with
    | nil => simp [after?]
    | cons c s =>
      by_cases h : p = c
      · simp [after?, h, ih]
      · simp [after?, h, Ne.symm h]

theorem after?_isSome_iff : (after? start s).isSome ↔ start <+: s := by
  rw [Option.isSome_iff_exists]
  constructor
  · rintro ⟨rest, h⟩
    exact ⟨rest, (after?_eq_some_iff.mp h).symm⟩
  · rintro ⟨rest, h⟩
    exact ⟨rest, after?_eq_some_iff.mpr h.symm⟩

theorem around?_isSome_iff : (around? part s).isSome ↔ part <:+: s := by
  induction s with
  | nil => cases part <;> simp [around?]
  | cons c s ih =>
    rw [List.infix_cons_iff, ← ih, ← after?_isSome_iff, around?]
    cases after? part (c :: s) <;> simp

end Switchboard.Text
