import Switchboard.Proofs.Json.Wholes

/-! Reading is stricter than skimming.

Whatever a reader takes from the front of a text, skimming takes as well, and both stop at the
same place (`decode_skims`, `Plan.read_skims`, `Reader.Skims`). So a document that was read is
one value's text between blanks (`Reader.Skims.document`). -/
namespace Switchboard.Json

variable {width : Char → Nat}

/-! ### Strings -/

theorem readString_skims {done s cs r : List Char} (h : readString width done s = .ok (cs, r)) :
    skimString width s = .ok r := by
  fun_induction readString width done s <;> simp_all [skimString]

theorem readText_skims {s r : List Char} {t : String} (h : readText width s = .ok (t, r)) :
    skimString width s = .ok r := by
  unfold readText at h
  split at h
  · rename_i hr
    cases h
    exact readString_skims hr
  · cases h

theorem readString?_skims {wanted : Wanted} {s r : List Char} {t : String}
    (h : readString? width wanted s = .ok (t, r)) :
    ∃ v, skipBlank s = '"' :: v ∧ skimString width v = .ok r := by
  unfold readString? at h
  split at h
  · exact ⟨_, ‹_›, readText_skims h⟩
  · cases h

theorem skimKey_of_text {s t r : List Char} {name : String}
    (hn : readText width s = .ok (name, t)) (hc : skipBlank t = ':' :: r) :
    skimKey width ('"' :: s) = .ok r := by
  simp only [skimKey, skipBlank_cons (show isBlank '"' = false by decide), readText_skims hn, hc]

theorem readName_skims {s r : List Char} {name : String} (h : readName width s = .ok (name, r)) :
    skimKey width ('"' :: s) = .ok r := by
  unfold readName at h
  split at h
  · cases h
  · rename_i t hn
    split at h <;> cases h
    exact skimKey_of_text hn ‹_›

/-! ### Numbers -/

theorem skipDigits_digit {c : Char} (hc : isDigit c = true) (s : List Char) :
    skipDigits (c :: s) = skipDigits s := List.dropWhile_cons_of_pos hc

theorem takeExponent_skips {n e : Nat} {s r : List Char} (h : takeExponent n s = .ok (e, r)) :
    r = skipDigits s := by
  fun_induction takeExponent n s with
  | case1 n c t hc _ ih => rw [ih h, skipDigits_digit hc]
  | case2 => cases h
  | case3 n c t hc =>
    cases h
    exact (List.dropWhile_cons_of_neg hc).symm
  | case4 =>
    cases h
    rfl

theorem takeExponent_error_skips {n : Nat} {s r : List Char} (h : takeExponent n s = .error r) :
    skipDigits r = skipDigits s := by
  fun_induction takeExponent n s with
  | case1 n c t hc _ ih => rw [ih h, skipDigits_digit hc]
  | case2 n c t hc =>
    cases h
    rw [skipDigits_digit hc]
  | _ => cases h

section Numbers
variable {negative : Bool} {digits : Nat} {e : Int} {s r : List Char} {n : Number}

/-- An exponent that was read has digits behind its sign. -/
theorem readExponent_sign (h : readExponent negative digits e s = .ok (n, r)) :
    ∃ sign c v, IsSign sign ∧ isDigit c = true ∧ s = sign ++ c :: v := by
  have digit {sign u : List Char} (hs : IsSign sign) (hu : s = sign ++ u)
      (hno : ∀ c v, u = c :: v → isDigit c = false → readExponent negative digits e s ≠ .ok (n, r))
      (hnil : u = [] → readExponent negative digits e s ≠ .ok (n, r)) :
      ∃ sign c v, IsSign sign ∧ isDigit c = true ∧ s = sign ++ c :: v := by
    rcases u with _ | ⟨c, v⟩
    · exact absurd h (hnil rfl)
    · by_cases hc : isDigit c = true
      · exact ⟨sign, c, v, hs, hc, hu⟩
      · exact absurd h (hno c v rfl (Bool.eq_false_iff.mpr hc))
  rcases s with _ | ⟨c, s⟩
  · cases h
  by_cases hp : c = '+'
  · subst hp
    refine digit (.inr (.inl rfl)) rfl ?_ ?_
    · rintro d v rfl hd
      simp [readExponent, hd]
    · rintro rfl
      simp [readExponent]
  by_cases hm : c = '-'
  · subst hm
    refine digit (.inr (.inr rfl)) rfl ?_ ?_
    · rintro d v rfl hd
      simp [readExponent, hd]
    · rintro rfl
      simp [readExponent]
  · refine digit (.inl rfl) rfl ?_ fun hnil => by cases hnil
    rintro d v hdv hd
    cases hdv
    simp [readExponent, hp, hm, hd]

theorem readExponent_skims (h : readExponent negative digits e s = .ok (n, r)) :
    skimExponent s = .ok r := by
  obtain ⟨sign, c, v, hs, hc, rfl⟩ := readExponent_sign h
  rw [readExponent_signed hs hc] at h
  rw [skimExponent_signed hs hc]
  split at h
  · rename_i ht
    rw [realNumber_rest h, takeExponent_skips ht]
  · rename_i ht
    split at h
    · cases h
    · cases h
      rw [takeExponent_error_skips ht]

theorem readPower_skims (h : readPower negative digits e s = .ok (n, r)) :
    skimPower s = .ok r := by
  unfold readPower at h
  split at h
  · exact readExponent_skims h
  · exact readExponent_skims h
  · rename_i h1 h2
    rw [realNumber_rest h, skimPower]
    · exact h1
    · exact h2

/-- Digits and what is behind them. -/
theorem digits_split (s : List Char) :
    ∃ ds w, s = ds ++ w ∧ (∀ c ∈ ds, isDigit c = true) ∧ Heads (fun c => !isDigit c) w := by
  obtain ⟨ds, hs, hd⟩ := skipDigits_split s
  exact ⟨ds, skipDigits s, hs, hd, heads_dropWhile isDigit s⟩

theorem readFraction_skims (h : readFraction negative digits e s = .ok (n, r)) :
    skimFraction s = .ok r := by
  obtain ⟨ds, w, rfl, hd, hw⟩ := digits_split s
  rcases ds with _ | ⟨c, ds⟩
  · rcases w with _ | ⟨c, w⟩
    · cases h
    · have hc : isDigit c = false := by simpa using Heads.cons_iff.mp hw
      simp [readFraction, takeDigits, hc] at h
  · obtain ⟨taken, rest, -, hread⟩ := readFraction_digits hd (List.cons_ne_nil c ds) negative digits e
    rw [hread w hw] at h
    rw [List.cons_append, skimFraction, if_pos (hd c (List.mem_cons_self ..)),
      skipDigits_append (fun d hd' => hd d (List.mem_cons_of_mem c hd')) hw]
    exact readPower_skims h

theorem readNumber_tail_skims (h : readNumber.tail negative digits s = .ok (n, r)) :
    skimTail s = .ok r := by
  unfold readNumber.tail at h
  split at h
  · exact readFraction_skims h
  · exact readExponent_skims h
  · exact readExponent_skims h
  · rename_i h1 h2 h3
    cases h
    rw [skimTail, skimPower]
    all_goals assumption

theorem readLong_skims (h : readLong negative digits e s = .ok (n, r)) : skimTail s = .ok r := by
  unfold readLong at h
  split at h
  · exact readFraction_skims h
  · rw [skimTail]
    · exact readPower_skims h
    · assumption

/-- **A number that is read is skimmed, up to the same place.** -/
theorem readNumber_skims (h : readNumber negative s = .ok (n, r)) : skimNumber s = .ok r := by
  rcases s with _ | ⟨c, v⟩
  · cases h
  obtain ⟨ds, w, rfl, hd, hw⟩ := digits_split v
  by_cases h0 : c = '0'
  · subst h0
    rcases ds with _ | ⟨d, ds⟩
    · rw [List.nil_append, readNumber_nought hw] at h
      exact (skimNumber_zero hw).trans (readNumber_tail_skims h)
    · simp [readNumber, hd d (List.mem_cons_self ..)] at h
  · by_cases hc : isDigit c = true
    · obtain ⟨taken, rest, hcut, htake⟩ := exists_cut hd (digitOf c)
      have hrest : ∀ d ∈ rest, isDigit d = true :=
        fun d hd' => hd d (hcut.parts ▸ List.mem_append_right taken hd')
      rw [readNumber_long h0 hc hrest hw (htake 1 w hw)] at h
      rw [skimNumber_digit hc h0, skipDigits_append hd hw]
      split at h
      · exact readNumber_tail_skims h
      · exact readLong_skims h
    · simp [readNumber, hc] at h

end Numbers

/-! ### Values -/

section Values
variable {outer : Nat} {s r : List Char} {x : Value}

theorem readScalar_skims {c : Char} (h : readScalar width c s = .ok (x, r)) :
    skimScalar width c s = .ok r := by
  have hword {word : List Char} {v : Value} (hw : (literal word s).map (v, ·) = .ok (x, r)) :
      literal word s = .ok r := by
    cases hl : literal word s <;> rw [hl] at hw <;> cases hw
    rfl
  unfold readScalar at h
  split at h
  · exact hword h
  · exact hword h
  · exact hword h
  · obtain ⟨n, -, hn⟩ := map_number_eq_ok h
    exact readNumber_skims hn
  · cases ht : readText width s <;> rw [ht] at h <;> cases h
    exact readText_skims ht
  · split at h
    · rename_i hc
      obtain ⟨n, -, hn⟩ := map_number_eq_ok h
      exact (skimScalar_digits hc s).trans (readNumber_skims hn)
    · cases h

/-- What is open, without what was built of it. -/
def Building.frame : Building → Frame
  | .list _ => .list
  | .object .. => .object

variable {stack : List Building} {v : Value}

theorem skimKey_congr {s s' : List Char} (h : skipBlank s' = skipBlank s) :
    skimKey width s' = skimKey width s := by
  simp only [skimKey, h]

/-- Decoding and skimming take the same steps, shown for texts of at most `n` characters. -/
theorem decode_skims_upTo (width : Char → Nat) (unwraps : Bool) (outer n : Nat) :
    (∀ stack s x r, s.length ≤ n → decodeValue width unwraps outer stack s = .ok (x, r) →
      skimValue width (stack.map Building.frame) s = .ok r) ∧
    (∀ v stack s x r, s.length ≤ n → decodeAfter width unwraps outer v stack s = .ok (x, r) →
      skimAfter width (stack.map Building.frame) s = .ok r) := by
  induction n using Nat.strongRecOn with
  | ind n ih =>
    have value : ∀ stack s x r, s.length < n →
        decodeValue width unwraps outer stack s = .ok (x, r) →
          skimValue width (stack.map Building.frame) s = .ok r := fun stack s x r hn =>
      (ih s.length hn).1 stack s x r (Nat.le_refl _)
    have after : ∀ v stack s x r, s.length < n →
        decodeAfter width unwraps outer v stack s = .ok (x, r) →
          skimAfter width (stack.map Building.frame) s = .ok r := fun v stack s x r hn =>
      (ih s.length hn).2 v stack s x r (Nat.le_refl _)
    refine ⟨fun stack s x r hn h => ?_, fun v stack s x r hn h => ?_⟩
    · have h1 := skipBlank_length_le s
      rcases decodeValue_cases h with ⟨u, t, hs, hu, ht⟩ | ⟨u, c, t, hs, hu, hc, ht⟩ |
        ⟨u, t, hs, hu, ht⟩ | ⟨u, t, name, k, hs, hu, hk, -, ht⟩ |
        ⟨u, t, k, text, w, y, z, hs, hu, -, hk, hw, -, hz, ht⟩ |
        ⟨c, u, y, t, hs, hl, ho, hc, ht⟩
      all_goals rw [hs, List.length_cons] at h1
      · have h2 := skipBlank_length_le u
        rw [hu, List.length_cons] at h2
        rw [skimValue_emptyList hs hu]
        exact after _ _ _ _ _ (by omega) ht
      · have h2 := skipBlank_length_le u
        rw [hu] at h2
        rw [skimValue_list hs hu hc]
        exact value _ _ _ _ (by omega) ht
      · have h2 := skipBlank_length_le u
        rw [hu, List.length_cons] at h2
        rw [skimValue_emptyObject hs hu]
        exact after _ _ _ _ _ (by omega) ht
      · have h2 := skipBlank_length_le u
        have h3 := readName_length_lt hk
        rw [hu, List.length_cons] at h2
        rw [skimValue_object hs hu (by decide) (readName_skims hk)]
        exact value _ _ _ _ (by omega) ht
      · have h2 := skipBlank_length_le u
        have h3 := readName_length_lt hk
        have h4 := readString?_length_lt hw
        have h5 := closeObject_length_lt hz
        rw [hu, List.length_cons] at h2
        obtain ⟨v, hv, hstring⟩ := readString?_skims hw
        rw [skimValue_object hs hu (by decide) (readName_skims hk),
          skimValue_scalar hv (by decide) (by decide) hstring,
          skimAfter_endObject (closeObject_eq_ok hz)]
        exact after _ _ _ _ _ (by omega) ht
      · have h2 := readScalar_length_le hc
        rw [skimValue_scalar hs hl ho (readScalar_skims hc)]
        exact after _ _ _ _ _ (by omega) ht
    · have h1 := skipBlank_length_le s
      rcases decodeAfter_cases h with ⟨rfl, rfl⟩ | ⟨done, rest, u, rfl, hs, ht⟩ |
        ⟨done, rest, u, rfl, hs, ht⟩ | ⟨done, name, rest, u, rfl, hs, ht⟩ |
        ⟨done, name, rest, u, t, next, k, rfl, hs, hu, hk, ht⟩
      · exact skimAfter_nil s
      all_goals
        rw [hs, List.length_cons] at h1
        rw [List.map_cons, Building.frame]
      · rw [skimAfter_endList hs]
        exact after _ _ _ _ _ (by omega) ht
      · have h2 := skipBlank_length_le u
        rw [skimAfter_nextElement hs]
        exact skimValue_congr (skipBlank_skipBlank u).symm (value _ _ _ _ (by omega) ht)
      · rw [skimAfter_endObject hs]
        exact after _ _ _ _ _ (by omega) ht
      · have h2 := skipBlank_length_le u
        have h3 := readName_length_lt hk
        rw [hu, List.length_cons] at h2
        have hkey := readName_skims hk
        rw [← hu, skimKey_congr (skipBlank_skipBlank u)] at hkey
        rw [skimAfter_nextMember hs hkey]
        exact value _ _ _ _ (by omega) ht

/-- **A value that is decoded is skimmed, up to the same place.** -/
theorem decode_skims {unwraps : Bool} (h : decode width unwraps outer s = .ok (x, r)) :
    skim width s = .ok r :=
  (decode_skims_upTo width unwraps outer s.length).1 [] s x r (Nat.le_refl _) h

end Values

/-! ### Readers -/

namespace Reader
variable {α β : Type}

/-- Whatever the reader takes is skimmed, up to the same place. -/
def Skims (p : Reader α) : Prop :=
  ∀ ⦃s : List Char⦄ ⦃a : α⦄ ⦃r : List Char⦄, p.run s = .ok (a, r) →
    skim Char.utf8Size s = .ok r

variable {p : Reader α}

theorem Skims.map (h : p.Skims) (f : α → β) : (p.map f).Skims := by
  intro s b r hb
  obtain ⟨a, ha, -⟩ := map_run.mp hb
  exact h ha

theorem skim_scalar {s u r : List Char} {c : Char} (hs : skipBlank s = c :: u) (hl : c ≠ '[')
    (ho : c ≠ '\x7b') (h : skimScalar width c u = .ok r) : skim width s = .ok r := by
  rw [skim, skimValue_scalar hs hl ho h, skimAfter_nil]

theorem string_skims : (string Char.utf8Size).Skims := by
  intro s a r h
  obtain ⟨v, hs, hv⟩ := readString?_skims (ofHalting_run.mp h)
  exact skim_scalar hs (by decide) (by decide) hv

theorem word_skims : (word Char.utf8Size).Skims := by
  intro s a r h
  have h := ofHalting_run.mp h
  unfold readWord at h
  split at h
  · rename_i u hs
    split at h
    · rename_i n t ht
      cases wordOf_rest h
      exact skim_scalar hs (by decide) (by decide) (readNumber_skims ht)
    · cases h
  · rename_i c u _ hs
    split at h
    · rename_i hc
      split at h
      · rename_i n t ht
        cases wordOf_rest h
        refine skim_scalar hs ?_ ?_ ((skimScalar_digits hc u).trans (readNumber_skims ht))
        all_goals
          rintro rfl
          exact absurd hc (by decide)
      · cases h
    · cases h
  · cases h

theorem raw_skims : (raw Char.utf8Size).Skims := by
  intro s a r h
  have h := raw_run.mp h
  simp only [skimText] at h
  split at h
  · rename_i hr
    rw [← (Prod.mk.inj (Except.ok.inj h)).2]
    exact skim_congr (skipBlank_skipBlank s).symm hr
  · cases h

theorem value_skims (outer : Nat) : (value Char.utf8Size outer).Skims := fun _ _ _ h =>
  decode_skims (ofHalting_run.mp h)

theorem id_skims (outer : Nat) : (Id.reader Char.utf8Size outer).Skims := by
  intro s i r h
  simp only [Id.reader] at h
  split at h
  · cases h
  · rename_i hd
    split at h
    · cases h
      exact decode_skims hd
    · cases h

theorem Skims.orNull (h : p.Skims) : p.orNull.Skims := by
  intro s a r ha
  simp only [Reader.orNull] at ha
  split at ha
  · rename_i u hs
    split at ha
    · rename_i hl
      cases ha
      exact skim_scalar hs (by decide) (by decide) hl
    · cases ha
  · split at ha
    · rename_i hr
      cases ha
      exact skim_congr (skipBlank_skipBlank s).symm (h hr)
    · cases ha

/-- **A document that was read is one value's text between blanks.** -/
theorem Skims.document (h : p.Skims) {s : List Char} {a : α}
    (ha : p.document Char.utf8Size s = .ok a) :
    ∃ (b : List Char) (t : Raw) (b' : List Char), Blank b ∧ t.IsText ∧ Blank b' ∧
      s = b ++ (t.chars ++ b') := by
  obtain ⟨r, hr, hend⟩ := document_eq_ok_iff.mp ha
  obtain ⟨b, t, hb, ht, hs⟩ := isText_of_skim (h hr)
  obtain ⟨b', hr', hb'⟩ := skipBlank_split r
  rw [hend, List.append_nil] at hr'
  exact ⟨b, t, r, hb, ht, hr' ▸ hb', hs⟩

end Reader

/-! ### Wrappers -/

theorem unwrap_eq_ok {text : String} {x : Value} :
    unwrap text = .ok x ↔
      (Reader.value Char.utf8Size 0).document Char.utf8Size text.toList = .ok x := by
  simp only [unwrap, Reader.document, Reader.value, Reader.ofHalting]
  cases decode Char.utf8Size true 0 text.toList with
  | error h => simp [wholly]
  | ok p =>
    simp only [wholly]
    split <;> simp_all

/-- **A wrapper stands for the value that its text denotes by itself.** -/
theorem unwrap_eq_ok_iff {text : String} {x : Value} :
    unwrap text = .ok x ↔ ∃ (b : List Char) (t : Raw) (b' : List Char), Blank b ∧ t.IsText ∧
      Blank b' ∧ text.toList = b ++ (t.chars ++ b') ∧ Denotes true 0 t x := by
  rw [unwrap_eq_ok]
  constructor
  · intro h
    obtain ⟨b, t, b', hb, ht, hb', htext⟩ := (Reader.value_skims 0).document h
    rw [htext, (Reader.value_settled 0).document_eq_ok_iff ht hb hb', Reader.value_takes_iff ht] at h
    exact ⟨b, t, b', hb, ht, hb', htext, h⟩
  · rintro ⟨b, t, b', hb, ht, hb', htext, h⟩
    rw [htext, (Reader.value_settled 0).document_eq_ok_iff ht hb hb', Reader.value_takes_iff ht]
    exact h

/-! ### Structures -/

namespace Plan
variable {δ α : Type} {P : Plan δ α}

theorem readMember_skims (hP : ∀ m ∈ P.members, m.value.Skims) {d d' : δ} {name : String}
    {s r : List Char} (h : P.readMember Char.utf8Size d name s = .ok (d', r)) :
    ∃ t, colon s = .ok t ∧ skim Char.utf8Size t = .ok r := by
  unfold readMember at h
  split at h
  · split at h
    · cases h
    · rename_i t ht
      split at h
      · cases h
      · rename_i hr
        cases h
        exact ⟨t, ht, hr⟩
  · rename_i m hm
    split at h
    · cases h
    · split at h
      · cases h
      · rename_i t ht
        split at h
        · cases h
        · rename_i hr
          cases h
          exact ⟨t, ht, hP m (List.mem_of_find?_eq_some hm) hr⟩

theorem skimKey_of_colon {s t r : List Char} {name : String}
    (hn : readText width s = .ok (name, t)) (hc : colon t = .ok r) :
    skimKey width ('"' :: s) = .ok r := by
  unfold colon at hc
  split at hc <;> cases hc
  exact skimKey_of_text hn ‹_›

/-- The members of an object that were read are skimmed, up to the closing brace. -/
theorem readMembers_skims (hP : ∀ m ∈ P.members, m.value.Skims) {d d' : δ} {s r : List Char}
    (h : P.readMembers Char.utf8Size d s = .ok (d', r)) :
    ∃ k t, skimKey Char.utf8Size ('"' :: s) = .ok k ∧ r = '\x7d' :: t ∧
      skimValue Char.utf8Size [.object] k = .ok t := by
  fun_induction P.readMembers Char.utf8Size d s with
  | case4 d s name t hn d₁ u hm v hu =>
    cases h
    obtain ⟨k, hk, hv⟩ := readMember_skims hP hm
    refine ⟨k, v, skimKey_of_colon hn hk, rfl, ?_⟩
    rw [skimValue_inside hv, skimAfter_endObject hu, skimAfter_nil]
  | case7 d s name t hn d₁ u hm v hu w hw ih =>
    obtain ⟨k, hk, hv⟩ := readMember_skims hP hm
    obtain ⟨k', t', hk', hr, ht'⟩ := ih h
    refine ⟨k, t', skimKey_of_colon hn hk, hr, ?_⟩
    rw [← hw, skimKey_congr (skipBlank_skipBlank v)] at hk'
    rw [skimValue_inside hv, skimAfter_nextMember hu hk', ht']
  | _ => cases h

theorem closeList_eq_ok {s r : List Char} (h : closeList s = .ok r) : skipBlank s = ']' :: r := by
  unfold closeList at h
  split at h
  · rename_i hs
    cases h
    exact hs
  · cases h
  · split at h <;> cases h
  · cases h

/-- The elements of a list after one that was read are skimmed, up to the end of the list. -/
theorem readFields_skims {ms : List (Member δ)} (hms : ∀ m ∈ ms, m.value.Skims) {d d' : δ}
    {s r t : List Char} (h : readFields ms false d s = .ok (d', r)) (hr : closeList r = .ok t) :
    skimAfter Char.utf8Size [.list] s = .ok t := by
  induction ms generalizing d s with
  | nil =>
    cases h
    rw [skimAfter_endList (closeList_eq_ok hr), skimAfter_nil]
  | cons m ms ih =>
    rw [readFields] at h
    split at h
    · cases h
    · rename_i u hu
      cases h
      cases (skipBlank_cons (show isBlank ']' = false by decide) u).symm.trans (closeList_eq_ok hr)
      rw [skimAfter_endList hu, skimAfter_nil]
    · simp only [Bool.false_eq_true, if_false] at h
      split at h
      · rename_i u hu
        split at h
        · cases h
        · cases h
        · split at h
          · cases h
          · rename_i note w hw
            have hrest := ih (fun k hk => hms k (List.mem_cons_of_mem m hk)) h
            have hskim := skim_congr (skipBlank_skipBlank u).symm (hms m (List.mem_cons_self ..) hw)
            rw [skimAfter_nextElement hu, skimValue_inside hskim, hrest]
      · cases h

theorem readList_skims (hP : ∀ m ∈ P.members, m.value.Skims) {a : α} {s v r t : List Char}
    (hs : skipBlank s = '[' :: v) (h : P.readList v = .ok (a, r)) (hr : closeList r = .ok t) :
    skim Char.utf8Size s = .ok t := by
  unfold readList at h
  split at h
  · cases h
  · rename_i d w hw
    split at h
    · cases h
      revert hP hw
      cases P.members with
      | nil =>
        intro _ hw
        cases hw
        rw [skim, skimValue_emptyList hs (closeList_eq_ok hr), skimAfter_nil]
      | cons m ms =>
        intro hP hw
        rw [readFields] at hw
        split at hw
        · cases hw
        · rename_i u hu
          cases hw
          cases (skipBlank_cons (show isBlank ']' = false by decide) u).symm.trans
            (closeList_eq_ok hr)
          rw [skim, skimValue_emptyList hs hu, skimAfter_nil]
        · rename_i hne hend
          simp only [if_true] at hw
          split at hw
          · cases hw
          · rename_i note y hy
            have hskim := hP m (List.mem_cons_self ..) hy
            have hrest := readFields_skims (fun k hk => hP k (List.mem_cons_of_mem m hk)) hw hr
            cases hv : skipBlank v with
            | nil => exact absurd hv hne
            | cons c z =>
              rw [hv] at hskim
              rw [skim, skimValue_list hs hv fun hc => hend z (by rw [hv, hc]),
                skimValue_inside hskim, hrest]
    · cases h

theorem readObject_skims (hP : ∀ m ∈ P.members, m.value.Skims) {a : α} {s v r t : List Char}
    (hs : skipBlank s = '\x7b' :: v) (h : P.readObject Char.utf8Size v = .ok (a, r))
    (hr : closeObject r = .ok t) : skim Char.utf8Size s = .ok t := by
  have hbrace (u : List Char) : skipBlank ('\x7d' :: u) = '\x7d' :: u :=
    skipBlank_cons (by decide) u
  unfold readObject at h
  simp only at h
  split at h
  · cases h
  · rename_i d w hw
    split at h
    · cases h
      split at hw
      · cases hw
      · rename_i u hu
        cases hw
        cases (hbrace u).symm.trans (closeObject_eq_ok hr)
        rw [skim, skimValue_emptyObject hs hu, skimAfter_nil]
      · rename_i u hu
        obtain ⟨k, y, hk, rfl, hy⟩ := readMembers_skims hP hw
        cases (hbrace y).symm.trans (closeObject_eq_ok hr)
        rw [skim, skimValue_object hs hu (by decide) hk, hy]
      · cases hw
    · cases h

/-- **A structure that is read is skimmed, up to the same place.** -/
theorem reader_skims (hP : ∀ m ∈ P.members, m.value.Skims) : (P.reader Char.utf8Size).Skims := by
  intro s a r h
  have h := Reader.ofHalting_run.mp h
  have closed {inner : Except Stop (α × List Char)} {settle : Cause → List Char → Halt}
      {close : List Char → Except Halt (List Char)}
      (h : bracketed inner settle close = .ok (a, r)) :
      ∃ t, inner = .ok (a, t) ∧ close t = .ok r := by
    unfold bracketed at h
    split at h
    · cases h
    · cases h
    · split at h
      · rename_i hc
        cases h
        exact ⟨_, rfl, hc⟩
      · cases h
  unfold read at h
  split at h
  · rename_i v hs
    obtain ⟨t, hread, hclose⟩ := closed h
    exact readList_skims hP hs hread hclose
  · rename_i v hs
    obtain ⟨t, hread, hclose⟩ := closed h
    exact readObject_skims hP hs hread hclose
  · cases h

end Plan

end Switchboard.Json
