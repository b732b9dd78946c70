import Switchboard.Proofs.Json.Skimming

/-! Where a value ends.

`skimValue` and `skimAfter` go through a value with the lists and objects still open on
a stack. Each of their steps is an equation of its own here, and each successful run is
one of these steps and a run (`skimValue_cases`, `skimAfter_cases`). From them:
`skim_takes`, a value's text is passed over alike wherever it stands. -/
namespace Switchboard.Json

variable {width : Char → Nat}

/-! ### One step -/

theorem skimValue_emptyList {stack : List Frame} {s r t : List Char}
    (hs : skipBlank s = '[' :: r) (hr : skipBlank r = ']' :: t) :
    skimValue width stack s = skimAfter width stack t := by
  rw [skimValue]
  grind

theorem skimValue_list {stack : List Frame} {s r t : List Char} {c : Char}
    (hs : skipBlank s = '[' :: r) (hr : skipBlank r = c :: t) (hc : c ≠ ']') :
    skimValue width stack s = skimValue width (.list :: stack) (c :: t) := by
  rw [skimValue]
  grind

theorem skimValue_emptyObject {stack : List Frame} {s r t : List Char}
    (hs : skipBlank s = '\x7b' :: r) (hr : skipBlank r = '\x7d' :: t) :
    skimValue width stack s = skimAfter width stack t := by
  rw [skimValue]
  grind

theorem skimValue_object {stack : List Frame} {s r t v : List Char} {c : Char}
    (hs : skipBlank s = '\x7b' :: r) (hr : skipBlank r = c :: t) (hc : c ≠ '\x7d')
    (hk : skimKey width (c :: t) = .ok v) :
    skimValue width stack s = skimValue width (.object :: stack) v := by
  rw [skimValue]
  grind

theorem skimValue_scalar {stack : List Frame} {s r t : List Char} {c : Char}
    (hs : skipBlank s = c :: r) (hl : c ≠ '[') (ho : c ≠ '\x7b')
    (hc : skimScalar width c r = .ok t) :
    skimValue width stack s = skimAfter width stack t := by
  rw [skimValue]
  grind

theorem skimAfter_nil (s : List Char) : skimAfter width [] s = .ok s := by
  rw [skimAfter]

theorem skimAfter_nextElement {stack : List Frame} {s r : List Char} (hs : skipBlank s = ',' :: r) :
    skimAfter width (.list :: stack) s = skimValue width (.list :: stack) r := by
  rw [skimAfter]
  grind

theorem skimAfter_endList {stack : List Frame} {s r : List Char} (hs : skipBlank s = ']' :: r) :
    skimAfter width (.list :: stack) s = skimAfter width stack r := by
  rw [skimAfter]
  grind

theorem skimAfter_nextMember {stack : List Frame} {s r v : List Char} (hs : skipBlank s = ',' :: r)
    (hk : skimKey width r = .ok v) :
    skimAfter width (.object :: stack) s = skimValue width (.object :: stack) v := by
  rw [skimAfter]
  grind

theorem skimAfter_endObject {stack : List Frame} {s r : List Char}
    (hs : skipBlank s = '\x7d' :: r) :
    skimAfter width (.object :: stack) s = skimAfter width stack r := by
  rw [skimAfter]
  grind

/-- The steps with which a value can begin. -/
theorem skimValue_cases {stack : List Frame} {s r : List Char}
    (h : skimValue width stack s = .ok r) :
    (∃ v t, skipBlank s = '[' :: v ∧ skipBlank v = ']' :: t ∧ skimAfter width stack t = .ok r) ∨
    (∃ v c t, skipBlank s = '[' :: v ∧ skipBlank v = c :: t ∧ c ≠ ']' ∧
      skimValue width (.list :: stack) (c :: t) = .ok r) ∨
    (∃ v t, skipBlank s = '\x7b' :: v ∧ skipBlank v = '\x7d' :: t ∧
      skimAfter width stack t = .ok r) ∨
    (∃ v c t k, skipBlank s = '\x7b' :: v ∧ skipBlank v = c :: t ∧ c ≠ '\x7d' ∧
      skimKey width (c :: t) = .ok k ∧ skimValue width (.object :: stack) k = .ok r) ∨
    (∃ c v t, skipBlank s = c :: v ∧ c ≠ '[' ∧ c ≠ '\x7b' ∧ skimScalar width c v = .ok t ∧
      skimAfter width stack t = .ok r) := by
  rw [skimValue] at h
  split at h
  · cases h
  · rename_i v hs
    split at h
    · cases h
    · rename_i t ht
      exact .inl ⟨v, t, hs, ht, h⟩
    · rename_i hne hend
      cases hv : skipBlank v with
      | nil => exact absurd hv hne
      | cons c t =>
        rw [hv] at h
        exact .inr (.inl ⟨v, c, t, hs, hv, fun hc => hend t (by rw [hv, hc]), h⟩)
  · rename_i v hs
    split at h
    · cases h
    · rename_i t ht
      exact .inr (.inr (.inl ⟨v, t, hs, ht, h⟩))
    · rename_i hne hend
      split at h
      · cases h
      · rename_i k hk
        cases hv : skipBlank v with
        | nil => exact absurd hv hne
        | cons c t =>
          rw [hv] at hk
          exact .inr (.inr (.inr (.inl ⟨v, c, t, k, hs, hv, fun hc => hend t (by rw [hv, hc]),
            hk, h⟩)))
  · rename_i c v hl ho hs
    split at h
    · cases h
    · rename_i t ht
      exact .inr (.inr (.inr (.inr ⟨c, v, t, hs, hl, ho, ht, h⟩)))

/-- The steps that can follow a value. -/
theorem skimAfter_cases {stack : List Frame} {s r : List Char}
    (h : skimAfter width stack s = .ok r) :
    (stack = [] ∧ s = r) ∨
    (∃ rest v, stack = .list :: rest ∧ skipBlank s = ',' :: v ∧
      skimValue width (.list :: rest) v = .ok r) ∨
    (∃ rest v, stack = .list :: rest ∧ skipBlank s = ']' :: v ∧ skimAfter width rest v = .ok r) ∨
    (∃ rest v k, stack = .object :: rest ∧ skipBlank s = ',' :: v ∧ skimKey width v = .ok k ∧
      skimValue width (.object :: rest) k = .ok r) ∨
    (∃ rest v, stack = .object :: rest ∧ skipBlank s = '\x7d' :: v ∧
      skimAfter width rest v = .ok r) := by
  rw [skimAfter.eq_def] at h
  split at h
  · cases h
    exact .inl ⟨rfl, rfl⟩
  · rename_i rest
    split at h
    · cases h
    · rename_i v hs
      exact .inr (.inl ⟨rest, v, rfl, hs, h⟩)
    · rename_i v hs
      exact .inr (.inr (.inl ⟨rest, v, rfl, hs, h⟩))
    · cases h
  · rename_i rest
    split at h
    · cases h
    · rename_i v hs
      split at h
      · cases h
      · rename_i k hk
        exact .inr (.inr (.inr (.inl ⟨rest, v, k, rfl, hs, hk, h⟩)))
    · rename_i v hs
      exact .inr (.inr (.inr (.inr ⟨rest, v, rfl, hs, h⟩)))
    · cases h

/-! ### A value's own text -/

/-- `skimAfter` takes a text off the front that does not begin with more of a number. -/
def Closes (width : Char → Nat) (stack : List Frame) (s r : List Char) : Prop :=
  ∃ t, s = t ++ r ∧ (∀ u, Stops u → Stops (t ++ u)) ∧
    ∀ u, Stops u → skimAfter width stack (t ++ u) = .ok u

theorem Closes.nil (r : List Char) : Closes width [] r r :=
  ⟨[], rfl, fun _ hu => hu, fun u _ => skimAfter_nil u⟩

/-- A closing character or a comma, and then a text that is taken off. -/
theorem Closes.of_step {stack : List Frame} {s v r : List Char} {c : Char}
    {f : List Char → Except Halt (List Char)} (hs : skipBlank s = c :: v)
    (hc : stopsNumber c = true) (hv : Takes f v r)
    (hf : ∀ {x u}, skipBlank x = c :: u → ∀ {w}, f u = .ok w → skimAfter width stack x = .ok w) :
    Closes width stack s r := by
  obtain ⟨b, rfl, hblank, hb⟩ := skipBlank_cons_split hs
  obtain ⟨t, rfl, ht⟩ := hv
  refine ⟨b ++ c :: t, by simp, fun u _ => ?_, fun u hu => ?_⟩
  · rw [List.append_assoc]
    exact stops_append hblank hc _
  · rw [List.append_assoc, List.cons_append]
    exact hf (hb _) (ht u hu)

theorem Closes.takes {stack : List Frame} {s r : List Char} (h : Closes width stack s r) :
    Takes (skimAfter width stack) s r := by
  obtain ⟨t, hs, _, ht⟩ := h
  exact ⟨t, hs, ht⟩

/-- A text that is not empty begins alike whatever is put behind it. -/
theorem append_cons_of_length {c : Char} {s t r : List Char} (h : c :: s = t ++ r)
    (hr : r.length < (c :: s).length) : ∃ w, t = c :: w ∧ s = w ++ r := by
  cases t with
  | nil =>
    rw [h] at hr
    exact absurd hr (Nat.lt_irrefl _)
  | cons d w =>
    obtain ⟨rfl, rfl⟩ := List.cons.inj h
    exact ⟨w, rfl, rfl⟩

theorem Takes.emptyList {stack : List Frame} {s v t r : List Char} (hs : skipBlank s = '[' :: v)
    (hv : skipBlank v = ']' :: t) (h : Takes (skimAfter width stack) t r) :
    Takes (skimValue width stack) s r := by
  obtain ⟨b, rfl, _, hb⟩ := skipBlank_cons_split hs
  obtain ⟨e, rfl, _, he⟩ := skipBlank_cons_split hv
  obtain ⟨w, rfl, hw⟩ := h
  refine ⟨b ++ '[' :: (e ++ ']' :: w), by simp, fun u hu => ?_⟩
  simp only [List.append_assoc, List.cons_append]
  rw [skimValue_emptyList (hb _) (he _), hw u hu]

theorem Takes.list {stack : List Frame} {s v t r : List Char} {c : Char}
    (hs : skipBlank s = '[' :: v) (hv : skipBlank v = c :: t) (hc : c ≠ ']')
    (hr : r.length < (c :: t).length) (h : Takes (skimValue width (.list :: stack)) (c :: t) r) :
    Takes (skimValue width stack) s r := by
  obtain ⟨b, rfl, _, hb⟩ := skipBlank_cons_split hs
  obtain ⟨e, rfl, _, he⟩ := skipBlank_cons_split hv
  obtain ⟨w, hw, hf⟩ := h
  obtain ⟨x, rfl, rfl⟩ := append_cons_of_length hw hr
  refine ⟨b ++ '[' :: (e ++ c :: x), by simp, fun u hu => ?_⟩
  simp only [List.append_assoc, List.cons_append]
  rw [skimValue_list (hb _) (he _) hc]
  exact hf u hu

theorem Takes.emptyObject {stack : List Frame} {s v t r : List Char}
    (hs : skipBlank s = '\x7b' :: v) (hv : skipBlank v = '\x7d' :: t)
    (h : Takes (skimAfter width stack) t r) : Takes (skimValue width stack) s r := by
  obtain ⟨b, rfl, _, hb⟩ := skipBlank_cons_split hs
  obtain ⟨e, rfl, _, he⟩ := skipBlank_cons_split hv
  obtain ⟨w, rfl, hw⟩ := h
  refine ⟨b ++ '\x7b' :: (e ++ '\x7d' :: w), by simp, fun u hu => ?_⟩
  simp only [List.append_assoc, List.cons_append]
  rw [skimValue_emptyObject (hb _) (he _), hw u hu]

theorem Takes.object {stack : List Frame} {s v t k r : List Char} {c : Char}
    (hs : skipBlank s = '\x7b' :: v) (hv : skipBlank v = c :: t) (hc : c ≠ '\x7d')
    (hk : skimKey width (c :: t) = .ok k) (h : Takes (skimValue width (.object :: stack)) k r) :
    Takes (skimValue width stack) s r := by
  obtain ⟨b, rfl, _, hb⟩ := skipBlank_cons_split hs
  obtain ⟨e, rfl, _, he⟩ := skipBlank_cons_split hv
  have hlen := skimKey_length_lt hk
  obtain ⟨y, hy, hkey⟩ := skimKey_exact hk
  obtain ⟨x, rfl, rfl⟩ := append_cons_of_length hy hlen
  obtain ⟨w, rfl, hw⟩ := h
  refine ⟨b ++ '\x7b' :: (e ++ c :: (x ++ w)), by simp, fun u hu => ?_⟩
  simp only [List.append_assoc, List.cons_append]
  rw [skimValue_object (hb _) (he _) hc (by simpa using hkey (w ++ u)), hw u hu]

/-- A member's key and value, after the comma before it. -/
def skimMember (width : Char → Nat) (stack : List Frame) (s : List Char) :
    Except Halt (List Char) :=
  match skimKey width s with
  | .error h => .error h
  | .ok k => skimValue width (.object :: stack) k

theorem skimMember_cases {stack : List Frame} {s r : List Char}
    (h : skimMember width stack s = .ok r) :
    ∃ k, skimKey width s = .ok k ∧ skimValue width (.object :: stack) k = .ok r := by
  unfold skimMember at h
  split at h
  · cases h
  · rename_i k hk
    exact ⟨k, hk, h⟩

theorem Takes.member {stack : List Frame} {s k r : List Char} (hk : skimKey width s = .ok k)
    (h : Takes (skimValue width (.object :: stack)) k r) : Takes (skimMember width stack) s r := by
  obtain ⟨y, rfl, hkey⟩ := skimKey_exact hk
  obtain ⟨w, rfl, hw⟩ := h
  refine ⟨y ++ w, by simp, fun u hu => ?_⟩
  rw [List.append_assoc, skimMember, hkey (w ++ u)]
  exact hw u hu

theorem Takes.scalar {stack : List Frame} {s v t r : List Char} {c : Char}
    (hs : skipBlank s = c :: v) (hl : c ≠ '[') (ho : c ≠ '\x7b')
    (hc : skimScalar width c v = .ok t) (h : Closes width stack t r) :
    Takes (skimValue width stack) s r := by
  obtain ⟨b, rfl, _, hb⟩ := skipBlank_cons_split hs
  obtain ⟨x, rfl, hx⟩ := skimScalar_takes hc
  obtain ⟨w, rfl, hstops, hw⟩ := h
  refine ⟨b ++ c :: (x ++ w), by simp, fun u hu => ?_⟩
  simp only [List.append_assoc, List.cons_append]
  rw [skimValue_scalar (hb _) hl ho (hx (w ++ u) (hstops u hu)), hw u hu]

/-- What follows a value does not look ahead, shown together with values for texts of at
most `n` characters. -/
theorem skim_takes_upTo (width : Char → Nat) (n : Nat) :
    (∀ stack s r, s.length ≤ n → skimValue width stack s = .ok r →
      Takes (skimValue width stack) s r) ∧
    (∀ stack s r, s.length ≤ n → skimAfter width stack s = .ok r → Closes width stack s r) := by
  induction n using Nat.strongRecOn with
  | ind n ih =>
    have value : ∀ stack s r, s.length < n → skimValue width stack s = .ok r →
        Takes (skimValue width stack) s r := fun stack s r hn =>
      (ih s.length hn).1 stack s r (Nat.le_refl _)
    have after : ∀ stack s r, s.length < n → skimAfter width stack s = .ok r →
        Closes width stack s r := fun stack s r hn =>
      (ih s.length hn).2 stack s r (Nat.le_refl _)
    refine ⟨fun stack s r hn h => ?_, fun stack s r hn h => ?_⟩
    · have h1 := skipBlank_length_le s
      rcases skimValue_cases h with ⟨v, t, hs, hv, ht⟩ | ⟨v, c, t, hs, hv, hc, ht⟩ |
        ⟨v, t, hs, hv, ht⟩ | ⟨v, c, t, k, hs, hv, hc, hk, ht⟩ | ⟨c, v, t, hs, hl, ho, hc, ht⟩
      all_goals rw [hs, List.length_cons] at h1
      · have h2 := skipBlank_length_le v
        rw [hv, List.length_cons] at h2
        exact .emptyList hs hv (after _ _ _ (by omega) ht).takes
      · have h2 := skipBlank_length_le v
        rw [hv] at h2
        exact .list hs hv hc (skim_lengths width _ |>.1 _ _ _ (Nat.le_refl _) ht)
          (value _ _ _ (by omega) ht)
      · have h2 := skipBlank_length_le v
        rw [hv, List.length_cons] at h2
        exact .emptyObject hs hv (after _ _ _ (by omega) ht).takes
      · have h2 := skipBlank_length_le v
        have h3 := skimKey_length_lt hk
        rw [hv] at h2
        exact .object hs hv hc hk (value _ _ _ (by omega) ht)
      · have h2 := skimScalar_length_le hc
        exact .scalar hs hl ho hc (after _ _ _ (by omega) ht)
    · have h1 := skipBlank_length_le s
      rcases skimAfter_cases h with ⟨rfl, rfl⟩ | ⟨rest, v, rfl, hs, ht⟩ | ⟨rest, v, rfl, hs, ht⟩ |
        ⟨rest, v, k, rfl, hs, hk, ht⟩ | ⟨rest, v, rfl, hs, ht⟩
      · exact .nil s
      all_goals rw [hs, List.length_cons] at h1
      · exact .of_step hs (by decide) (value _ _ _ (by omega) ht) fun hx _ hw => by
          rw [skimAfter_nextElement hx]
          exact hw
      · exact .of_step hs (by decide) (after _ _ _ (by omega) ht).takes fun hx _ hw => by
          rw [skimAfter_endList hx]
          exact hw
      · have h2 := skimKey_length_lt hk
        exact .of_step hs (by decide) (.member hk (value _ _ _ (by omega) ht)) fun hx w hw => by
          obtain ⟨k, hk, hkw⟩ := skimMember_cases hw
          rw [skimAfter_nextMember hx hk, hkw]
      · exact .of_step hs (by decide) (after _ _ _ (by omega) ht).takes fun hx _ hw => by
          rw [skimAfter_endObject hx]
          exact hw

/-- **Where a value ends does not depend on what follows it.** -/
theorem skim_takes {s r : List Char} (h : skim width s = .ok r) : Takes (skim width) s r :=
  (skim_takes_upTo width s.length).1 _ _ _ (Nat.le_refl _) h

/-! ### Values inside others -/

/-- What is open around a value is not looked at until the value is over, shown together
with what follows a value for texts of at most `n` characters. -/
theorem skim_inside_upTo (width : Char → Nat) (outer : List Frame) (n : Nat) :
    (∀ stack s r, s.length ≤ n → skimValue width stack s = .ok r →
      skimValue width (stack ++ outer) s = skimAfter width outer r) ∧
    (∀ stack s r, s.length ≤ n → skimAfter width stack s = .ok r →
      skimAfter width (stack ++ outer) s = skimAfter width outer r) := by
  induction n using Nat.strongRecOn with
  | ind n ih =>
    have value : ∀ stack s r, s.length < n → skimValue width stack s = .ok r →
        skimValue width (stack ++ outer) s = skimAfter width outer r := fun stack s r hn =>
      (ih s.length hn).1 stack s r (Nat.le_refl _)
    have after : ∀ stack s r, s.length < n → skimAfter width stack s = .ok r →
        skimAfter width (stack ++ outer) s = skimAfter width outer r := fun stack s r hn =>
      (ih s.length hn).2 stack s r (Nat.le_refl _)
    refine ⟨fun stack s r hn h => ?_, fun stack s r hn h => ?_⟩
    · have h1 := skipBlank_length_le s
      rcases skimValue_cases h with ⟨v, t, hs, hv, ht⟩ | ⟨v, c, t, hs, hv, hc, ht⟩ |
        ⟨v, t, hs, hv, ht⟩ | ⟨v, c, t, k, hs, hv, hc, hk, ht⟩ | ⟨c, v, t, hs, hl, ho, hc, ht⟩
      all_goals rw [hs, List.length_cons] at h1
      · have h2 := skipBlank_length_le v
        rw [hv, List.length_cons] at h2
        rw [skimValue_emptyList hs hv]
        exact after _ _ _ (by omega) ht
      · have h2 := skipBlank_length_le v
        rw [hv] at h2
        rw [skimValue_list hs hv hc]
        exact value _ _ _ (by omega) ht
      · have h2 := skipBlank_length_le v
        rw [hv, List.length_cons] at h2
        rw [skimValue_emptyObject hs hv]
        exact after _ _ _ (by omega) ht
      · have h2 := skipBlank_length_le v
        have h3 := skimKey_length_lt hk
        rw [hv] at h2
        rw [skimValue_object hs hv hc hk]
        exact value _ _ _ (by omega) ht
      · have h2 := skimScalar_length_le hc
        rw [skimValue_scalar hs hl ho hc]
        exact after _ _ _ (by omega) ht
    · have h1 := skipBlank_length_le s
      rcases skimAfter_cases h with ⟨rfl, rfl⟩ | ⟨rest, v, rfl, hs, ht⟩ | ⟨rest, v, rfl, hs, ht⟩ |
        ⟨rest, v, k, rfl, hs, hk, ht⟩ | ⟨rest, v, rfl, hs, ht⟩
      · rfl
      all_goals rw [hs, List.length_cons] at h1
      all_goals rw [List.cons_append]
      · rw [skimAfter_nextElement hs]
        exact value _ _ _ (by omega) ht
      · rw [skimAfter_endList hs]
        exact after _ _ _ (by omega) ht
      · have h2 := skimKey_length_lt hk
        rw [skimAfter_nextMember hs hk]
        exact value _ _ _ (by omega) ht
      · rw [skimAfter_endObject hs]
        exact after _ _ _ (by omega) ht

/-- A value inside open lists and objects is passed over as it is on its own. -/
theorem skimValue_inside {outer : List Frame} {s r : List Char} (h : skim width s = .ok r) :
    skimValue width outer s = skimAfter width outer r :=
  (skim_inside_upTo width outer s.length).1 [] s r (Nat.le_refl _) h

end Switchboard.Json
