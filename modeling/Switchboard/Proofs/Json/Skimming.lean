import Switchboard.Json.Skim

/-! What skimming depends on.

Where a value ends is settled by the value alone: `skim` stops behind the same
characters whatever follows them, as long as what follows cannot go on with a number
(`skim_takes`). So a value's own text can be put into any other place where a value may
stand, and is passed over there just as it was where it came from. -/
namespace Switchboard.Json

variable {width : Char → Nat}

/-! ### What may follow a value -/

/-- The first character, if there is one, is one of these. -/
def Heads (p : Char → Bool) (s : List Char) : Prop := ∀ c ∈ s.head?, p c = true

theorem Heads.nil (p : Char → Bool) : Heads p [] := fun c hc => by cases hc

theorem Heads.cons_iff {p : Char → Bool} {c : Char} {s : List Char} :
    Heads p (c :: s) ↔ p c = true := by
  simp [Heads]

/-- What is put behind a text does not show at its front, unless the text is empty. -/
theorem Heads.append {p : Char → Bool} {t r u : List Char} (h : Heads p (t ++ r))
    (hu : Heads p u) : Heads p (t ++ u) := by
  cases t with
  | nil => exact hu
  | cons c t => exact Heads.cons_iff.mpr (Heads.cons_iff.mp h)

/-- No number goes on with it. -/
def stopsNumber (c : Char) : Bool := !isDigit c && c != '.' && c != 'e' && c != 'E'

/-- A number that ends before the text does not go on in it. -/
abbrev Stops (s : List Char) : Prop := Heads stopsNumber s

theorem Stops.not_digit {s : List Char} (h : Stops s) : Heads (fun c => !isDigit c) s := by
  intro c hc
  have := h c hc
  simp only [stopsNumber, Bool.and_eq_true] at this
  exact this.1.1.1

theorem Stops.ne {c d : Char} {s : List Char} (h : Stops (c :: s)) (hd : stopsNumber d = false) :
    c ≠ d := by
  rintro rfl
  rw [Heads.cons_iff.mp h] at hd
  cases hd

theorem stops_of_blank {c : Char} (h : isBlank c = true) : stopsNumber c = true := by
  simp only [isBlank, Bool.or_eq_true, beq_iff_eq] at h
  rcases h with ((rfl | rfl) | rfl) | rfl <;> decide

/-! ### Reading that does not look ahead -/

/-- `f` takes a text off the front of `s` and leaves `r`, and would take the same text
off whatever followed it. -/
def Exact (f : List Char → Except Halt (List Char)) (s r : List Char) : Prop :=
  ∃ t, s = t ++ r ∧ ∀ u, f (t ++ u) = .ok u

/-- The same, where the text may end in a number. -/
def Takes (f : List Char → Except Halt (List Char)) (s r : List Char) : Prop :=
  ∃ t, s = t ++ r ∧ ∀ u, Stops u → f (t ++ u) = .ok u

theorem Exact.takes {f : List Char → Except Halt (List Char)} {s r : List Char}
    (h : Exact f s r) : Takes f s r := by
  obtain ⟨t, hs, hf⟩ := h
  exact ⟨t, hs, fun u _ => hf u⟩

/-! ### Blanks and digits -/

theorem dropWhile_append_of_all {p : Char → Bool} {t u : List Char} (ht : ∀ c ∈ t, p c = true)
    (hu : Heads (fun c => !p c) u) : (t ++ u).dropWhile p = u := by
  induction t with
  | nil =>
    cases u with
    | nil => rfl
    | cons c u =>
      have hc := Heads.cons_iff.mp hu
      simp only [Bool.not_eq_true'] at hc
      simp [hc]
  | cons c t ih =>
    have hc := ht c (List.mem_cons_self ..)
    simp only [List.cons_append, List.dropWhile_cons, hc, if_true]
    exact ih fun d hd => ht d (List.mem_cons_of_mem c hd)

theorem heads_dropWhile (p : Char → Bool) (s : List Char) :
    Heads (fun c => !p c) (s.dropWhile p) := by
  intro c hc
  have := List.head?_dropWhile_not p s
  rw [Option.mem_def.mp hc] at this
  simpa using this

/-- The blanks before a text's first other character. -/
theorem skipBlank_split (s : List Char) :
    ∃ b, s = b ++ skipBlank s ∧ ∀ c ∈ b, isBlank c = true :=
  ⟨s.takeWhile isBlank, (List.takeWhile_append_dropWhile ..).symm,
    List.all_eq_true.mp List.all_takeWhile⟩

theorem skipBlank_cons_not_blank {s r : List Char} {c : Char} (h : skipBlank s = c :: r) :
    isBlank c = false := by
  have := heads_dropWhile isBlank s
  rw [show s.dropWhile isBlank = c :: r from h] at this
  simpa using Heads.cons_iff.mp this

theorem skipBlank_append {b : List Char} (hb : ∀ c ∈ b, isBlank c = true) {c : Char}
    (hc : isBlank c = false) (u : List Char) : skipBlank (b ++ c :: u) = c :: u :=
  dropWhile_append_of_all hb (Heads.cons_iff.mpr (by rw [hc]; rfl))

/-- The blanks before the first other character stay blanks before it. -/
theorem skipBlank_cons_split {s r : List Char} {c : Char} (h : skipBlank s = c :: r) :
    ∃ b, s = b ++ c :: r ∧ (∀ d ∈ b, isBlank d = true) ∧ ∀ u, skipBlank (b ++ c :: u) = c :: u := by
  obtain ⟨b, hs, hb⟩ := skipBlank_split s
  rw [h] at hs
  exact ⟨b, hs, hb, skipBlank_append hb (skipBlank_cons_not_blank h)⟩

theorem skipBlank_cons {c : Char} (hc : isBlank c = false) (u : List Char) :
    skipBlank (c :: u) = c :: u :=
  skipBlank_append (b := []) (fun _ h => by cases h) hc u

/-- Blanks and what stops a number stop a number. -/
theorem stops_append {b : List Char} (hb : ∀ c ∈ b, isBlank c = true) {c : Char}
    (hc : stopsNumber c = true) (u : List Char) : Stops (b ++ c :: u) := by
  cases b with
  | nil => exact Heads.cons_iff.mpr hc
  | cons d b => exact Heads.cons_iff.mpr (stops_of_blank (hb d (List.mem_cons_self ..)))

theorem skipDigits_split (s : List Char) :
    ∃ t, s = t ++ skipDigits s ∧ ∀ c ∈ t, isDigit c = true :=
  ⟨s.takeWhile isDigit, (List.takeWhile_append_dropWhile ..).symm,
    List.all_eq_true.mp List.all_takeWhile⟩

theorem skipDigits_append {t u : List Char} (ht : ∀ c ∈ t, isDigit c = true)
    (hu : Heads (fun c => !isDigit c) u) : skipDigits (t ++ u) = u :=
  dropWhile_append_of_all ht hu

/-! ### Words -/

theorem literal_eq {word s r : List Char} (h : literal word s = .ok r) : s = word ++ r := by
  induction word generalizing s with
  | nil => simp only [literal, Except.ok.injEq] at h; exact h
  | cons w word ih =>
    cases s with
    | nil => simp [literal] at h
    | cons c s =>
      simp only [literal] at h
      split at h
      · rename_i hc
        rw [beq_iff_eq.mp hc, List.cons_append, ← ih h]
      · cases h

theorem literal_exact {word s r : List Char} (h : literal word s = .ok r) :
    Exact (literal word) s r := by
  refine ⟨word, literal_eq h, fun u => ?_⟩
  clear h
  induction word with
  | nil => rfl
  | cons w word ih => simpa [literal] using ih

/-- A character that stands for itself. -/
theorem skimString_plain {c : Char} (hq : c ≠ '"') (hb : c ≠ '\\') (hc : ¬c.toNat < 0x20)
    (s : List Char) : skimString width (c :: s) = skimString width s := by
  rw [skimString.eq_def]
  split
  case h_7 heq =>
    obtain ⟨rfl, rfl⟩ := List.cons.inj heq
    rw [if_neg hc]
  all_goals simp_all

theorem skimString_exact {s r : List Char} (h : skimString width s = .ok r) :
    Exact (skimString width) s r := by
  fun_induction skimString width s with
  | case2 r' =>
    cases h
    exact ⟨['"'], rfl, fun u => by simp [skimString]⟩
  | case4 a b c d r' n hn ih =>
    obtain ⟨t, rfl, ht⟩ := ih h
    refine ⟨'\\' :: 'u' :: a :: b :: c :: d :: t, rfl, fun u => ?_⟩
    simp only [List.cons_append, skimString, hn]
    exact ht u
  | case7 e r' _ _ c hc ih =>
    obtain ⟨t, rfl, ht⟩ := ih h
    have he : e ≠ 'u' := by rintro rfl; simp [unescape] at hc
    refine ⟨'\\' :: e :: t, rfl, fun u => ?_⟩
    rw [List.cons_append, List.cons_append, skimString]
    all_goals simp_all
  | case10 c r' hq hend _ _ hesc hc ih =>
    obtain ⟨t, rfl, ht⟩ := ih h
    have hb : c ≠ '\\' := by
      intro hb
      cases hr : t ++ r with
      | nil => exact hend hb hr
      | cons e v => exact hesc e v hb hr
    refine ⟨c :: t, rfl, fun u => ?_⟩
    rw [List.cons_append, skimString_plain hq hb hc]
    exact ht u
  | _ => cases h

/-! ### Numbers -/

/-- A sign of an exponent, or none. -/
def IsSign (s : List Char) : Prop := s = [] ∨ s = ['+'] ∨ s = ['-']

theorem skimExponent_signed {sign : List Char} (hs : IsSign sign) {c : Char}
    (hc : isDigit c = true) (v : List Char) :
    skimExponent (sign ++ c :: v) = .ok (skipDigits v) := by
  rcases hs with rfl | rfl | rfl
  · have h1 : c ≠ '+' := by rintro rfl; cases hc
    have h2 : c ≠ '-' := by rintro rfl; cases hc
    simp [skimExponent, h1, h2, hc]
  · simp [skimExponent, hc]
  · simp [skimExponent, hc]

theorem skimExponent_cases {s r : List Char} (h : skimExponent s = .ok r) :
    ∃ sign c v, IsSign sign ∧ isDigit c = true ∧ s = sign ++ c :: v ∧ r = skipDigits v := by
  have digits (sign : List Char) (c : Char) (v : List Char) (hs : IsSign sign)
      (hv : s = sign ++ c :: v)
      (hr : (if isDigit c then Except.ok (skipDigits v)
        else .error (Halt.looking .invalidNumber (c :: v))) = .ok r) :
      ∃ sign c v, IsSign sign ∧ isDigit c = true ∧ s = sign ++ c :: v ∧ r = skipDigits v := by
    by_cases hc : isDigit c = true
    · simp only [hc, if_true, Except.ok.injEq] at hr
      exact ⟨sign, c, v, hs, hc, hv, hr.symm⟩
    · simp only [hc] at hr
      cases hr
  unfold skimExponent at h
  split at h
  · rename_i u
    cases u with
    | nil => cases h
    | cons c v => exact digits ['+'] c v (.inr (.inl rfl)) rfl h
  · rename_i u
    cases u with
    | nil => cases h
    | cons c v => exact digits ['-'] c v (.inr (.inr rfl)) rfl h
  · cases s with
    | nil => cases h
    | cons c v => exact digits [] c v (.inl rfl) rfl h

theorem skimExponent_takes {s r : List Char} (h : skimExponent s = .ok r) :
    Takes skimExponent s r := by
  obtain ⟨sign, c, v, hs, hc, rfl, rfl⟩ := skimExponent_cases h
  obtain ⟨t, hv, ht⟩ := skipDigits_split v
  refine ⟨sign ++ c :: t, by rw [List.append_assoc, List.cons_append, ← hv], fun u hu => ?_⟩
  rw [List.append_assoc, List.cons_append, skimExponent_signed hs hc,
    skipDigits_append ht hu.not_digit]

theorem skimPower_takes {s r : List Char} (h : skimPower s = .ok r) : Takes skimPower s r := by
  unfold skimPower at h
  split at h
  · obtain ⟨t, rfl, ht⟩ := skimExponent_takes h
    exact ⟨'e' :: t, rfl, ht⟩
  · obtain ⟨t, rfl, ht⟩ := skimExponent_takes h
    exact ⟨'E' :: t, rfl, ht⟩
  · cases h
    refine ⟨[], rfl, fun u hu => ?_⟩
    cases u with
    | nil => rfl
    | cons c u =>
      have h1 := hu.ne (d := 'e') (by decide)
      have h2 := hu.ne (d := 'E') (by decide)
      simp [skimPower, h1, h2]

/-- Digits before a text that is taken off do not look ahead either. -/
theorem Takes.after_digits {f : List Char → Except Halt (List Char)} {s r : List Char}
    (h : Takes f (skipDigits s) r) : Takes (fun s => f (skipDigits s)) s r := by
  obtain ⟨d, hs, hd⟩ := skipDigits_split s
  obtain ⟨t, ht, hf⟩ := h
  have hhead : Heads (fun c => !isDigit c) (t ++ r) := ht ▸ heads_dropWhile isDigit s
  refine ⟨d ++ t, by rw [List.append_assoc, ← ht, ← hs], fun u hu => ?_⟩
  show f (skipDigits (d ++ t ++ u)) = .ok u
  rw [List.append_assoc, skipDigits_append hd (hhead.append hu.not_digit)]
  exact hf u hu

theorem skimFraction_takes {s r : List Char} (h : skimFraction s = .ok r) :
    Takes skimFraction s r := by
  unfold skimFraction at h
  split at h
  · rename_i c v
    split at h
    · rename_i hc
      obtain ⟨t, rfl, ht⟩ := (skimPower_takes h).after_digits
      refine ⟨c :: t, rfl, fun u hu => ?_⟩
      simp only [List.cons_append, skimFraction, hc, if_true]
      exact ht u hu
    · cases h
  · cases h

theorem skimTail_of_no_point {s : List Char} (h : Heads (· != '.') s) :
    skimTail s = skimPower s := by
  unfold skimTail
  split
  · cases Heads.cons_iff.mp h
  · rfl

theorem Stops.not_point {s : List Char} (h : Stops s) : Heads (· != '.') s := by
  cases s with
  | nil => exact Heads.nil _
  | cons c s => exact Heads.cons_iff.mpr (bne_iff_ne.mpr (h.ne (by decide)))

theorem skimTail_takes {s r : List Char} (h : skimTail s = .ok r) : Takes skimTail s r := by
  unfold skimTail at h
  split at h
  · obtain ⟨t, rfl, ht⟩ := skimFraction_takes h
    exact ⟨'.' :: t, rfl, ht⟩
  · rename_i hdot
    obtain ⟨t, rfl, ht⟩ := skimPower_takes h
    have hhead : Heads (· != '.') (t ++ r) := by
      cases hs : t ++ r with
      | nil => exact Heads.nil _
      | cons c v => exact Heads.cons_iff.mpr (bne_iff_ne.mpr fun hc => hdot v (by rw [hs, hc]))
    refine ⟨t, rfl, fun u hu => ?_⟩
    rw [skimTail_of_no_point (hhead.append hu.not_point)]
    exact ht u hu

/-- A zero, where no other digit may follow. -/
theorem skimNumber_zero {s : List Char} (h : Heads (fun c => !isDigit c) s) :
    skimNumber ('0' :: s) = skimTail s := by
  cases s with
  | nil => rfl
  | cons c s =>
    have hc : isDigit c = false := by simpa using Heads.cons_iff.mp h
    simp [skimNumber, hc]

theorem skimNumber_digit {c : Char} (hc : isDigit c = true) (h0 : c ≠ '0') (s : List Char) :
    skimNumber (c :: s) = skimTail (skipDigits s) := by
  simp [skimNumber, hc]

theorem skimNumber_takes {s r : List Char} (h : skimNumber s = .ok r) :
    Takes skimNumber s r := by
  have zero : ∀ v, s = '0' :: v → Heads (fun c => !isDigit c) v → skimTail v = .ok r →
      Takes skimNumber s r := by
    rintro v rfl hhead hv
    obtain ⟨t, rfl, ht⟩ := skimTail_takes hv
    refine ⟨'0' :: t, rfl, fun u hu => ?_⟩
    rw [List.cons_append, skimNumber_zero (hhead.append hu.not_digit)]
    exact ht u hu
  unfold skimNumber at h
  split at h
  · split at h
    · rename_i d v
      split at h
      · cases h
      · rename_i hd
        exact zero _ rfl (Heads.cons_iff.mpr (by simpa using hd)) h
    · exact zero _ rfl (Heads.nil _) h
  · rename_i c v hc0
    split at h
    · rename_i hc
      have h0 : c ≠ '0' := fun h0 => hc0 h0
      obtain ⟨t, rfl, ht⟩ := (skimTail_takes h).after_digits
      refine ⟨c :: t, rfl, fun u hu => ?_⟩
      rw [List.cons_append, skimNumber_digit hc h0]
      exact ht u hu
    · cases h
  · cases h

/-! ### Scalars and keys -/

theorem skimScalar_takes {c : Char} {s r : List Char} (h : skimScalar width c s = .ok r) :
    Takes (skimScalar width c) s r := by
  by_cases hn : c = 'n'
  · subst hn; exact (literal_exact h).takes
  by_cases ht : c = 't'
  · subst ht; exact (literal_exact h).takes
  by_cases hf : c = 'f'
  · subst hf; exact (literal_exact h).takes
  by_cases hm : c = '-'
  · subst hm; exact skimNumber_takes h
  by_cases hq : c = '"'
  · subst hq; exact (skimString_exact h).takes
  have number : ∀ u, skimScalar width c u =
      if isDigit c then skimNumber (c :: u) else .error (.looking .expectedValue (c :: u)) := by
    intro u
    simp [skimScalar]
  rw [number] at h
  split at h
  · rename_i hc
    obtain ⟨t, hs, hk⟩ := skimNumber_takes h
    cases t with
    | nil =>
      have := skimNumber_length_lt h
      rw [hs] at this
      simp at this
    | cons d t =>
      obtain ⟨rfl, rfl⟩ := List.cons.inj hs
      refine ⟨t, rfl, fun u hu => ?_⟩
      rw [number, if_pos hc]
      exact hk u hu
  · cases h

theorem skimKey_cases {s r : List Char} (h : skimKey width s = .ok r) :
    ∃ q k, skipBlank s = '"' :: q ∧ skimString width q = .ok k ∧ skipBlank k = ':' :: r := by
  unfold skimKey at h
  split at h
  · cases h
  · rename_i q hq
    split at h
    · cases h
    · rename_i k hk
      split at h
      · cases h
      · rename_i v hv
        cases h
        exact ⟨q, k, hq, hk, hv⟩
      · cases h
  · cases h

theorem skimKey_exact {s r : List Char} (h : skimKey width s = .ok r) :
    Exact (skimKey width) s r := by
  obtain ⟨q, k, hq, hk, hr⟩ := skimKey_cases h
  obtain ⟨b, rfl, _, hb⟩ := skipBlank_cons_split hq
  obtain ⟨t, rfl, ht⟩ := skimString_exact hk
  obtain ⟨e, rfl, _, he⟩ := skipBlank_cons_split hr
  refine ⟨b ++ '"' :: (t ++ (e ++ [':'])), by simp, fun u => ?_⟩
  have h1 : b ++ '"' :: (t ++ (e ++ [':'])) ++ u = b ++ '"' :: (t ++ (e ++ ':' :: u)) := by simp
  rw [h1, skimKey, hb]
  simp only [ht, he]

end Switchboard.Json
