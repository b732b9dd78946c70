import Mathlib.Data.List.Induction
import Switchboard.Proofs.Json.Readers

/-! Whole numbers.

A number is read as a whole one exactly when it is spelt with nothing but the digits of a number
that is kept exactly (`readNumber_whole`), so a word of 64 bits is taken from its digits and
from nothing else (`Reader.word_takes_iff`). -/
namespace Switchboard.Json

/-! ### Digits -/

theorem toDigits_append_digit {m d : Nat} (hm : m ≠ 0) (hd : d < 10) :
    Nat.toDigits 10 (10 * m + d) = Nat.toDigits 10 m ++ [Nat.digitChar d] := by
  rw [Nat.toDigits_eq_if (by decide), if_neg (by omega), show (10 * m + d) / 10 = m by omega,
    show (10 * m + d) % 10 = d by omega]

/-- Digits without a nought in front are those of the number that they spell. -/
theorem toDigits_ofDigitChars {ds : List Char} (hd : ∀ c ∈ ds, isDigit c = true) (hne : ds ≠ [])
    (hl : ds.head? = some '0' → ds = ['0']) : Nat.toDigits 10 (Nat.ofDigitChars 10 ds 0) = ds := by
  induction ds using List.reverseRecOn with
  | nil => exact absurd rfl hne
  | append_singleton ds d ih =>
    obtain ⟨hlt, hchar⟩ := digit_cases (hd d (by simp))
    have hvalue : Nat.ofDigitChars 10 (ds ++ [d]) 0 =
        10 * Nat.ofDigitChars 10 ds 0 + digitOf d := by
      rw [Nat.ofDigitChars_append, Nat.ofDigitChars_cons, Nat.ofDigitChars_nil]
      rfl
    rw [hvalue]
    by_cases hds : ds = []
    · subst hds
      rw [Nat.ofDigitChars_nil, Nat.mul_zero, Nat.zero_add, Nat.toDigits_of_lt_base hlt, hchar]
      rfl
    · have hhead : ds.head? ≠ some '0' := fun h0 => by
        have := hl (by rw [List.head?_append, h0]; rfl)
        have hlen := congrArg List.length this
        have := List.length_pos_iff.mpr hds
        simp only [List.length_append, List.length_singleton] at hlen
        omega
      have hih := ih (fun c hc => hd c (List.mem_append_left _ hc)) hds fun h0 => absurd h0 hhead
      have hm : Nat.ofDigitChars 10 ds 0 ≠ 0 := fun h0 => by
        rw [h0] at hih
        exact hhead (by rw [← hih]; rfl)
      rw [toDigits_append_digit hm hlt, hih, hchar]

/-- The digits of a whole number, behind a minus when it is negative. -/
theorem toList_toString (i : Int) :
    (toString i).toList =
      if i < 0 then '-' :: Nat.toDigits 10 i.natAbs else Nat.toDigits 10 i.natAbs := by
  cases i with
  | ofNat n =>
    have hn : ¬Int.ofNat n < 0 := Int.not_lt.mpr (Int.natCast_nonneg n)
    rw [if_neg hn]
    exact Nat.toList_repr
  | negSucc n =>
    rw [if_pos (Int.negSucc_lt_zero n)]
    show ("-" ++ Nat.repr (n + 1)).toList = _
    rw [String.toList_append, Nat.toList_repr]
    rfl

/-- The numeral of a whole number. -/
def Numeral.ofNat (negative : Bool) (n : Nat) : Numeral where
  negative := negative
  whole := Nat.toDigits 10 n
  fraction := []
  power? := none
  isWhole _ hc := isDigit_of_mem_toDigits hc
  whole_ne := Nat.toDigits_ne_nil
  leading h := by
    by_cases h0 : n = 0
    · rw [h0]
      rfl
    · obtain ⟨c, ds, hds, hc⟩ := toDigits_cons h0
      rw [hds] at h
      exact absurd (Option.some.inj h) hc
  isFraction _ hc := by cases hc

theorem Numeral.ofNat_unsigned (negative : Bool) (n : Nat) :
    (Numeral.ofNat negative n).unsigned = Nat.toDigits 10 n := List.append_nil _

/-! ### What is read as a whole number -/

/-- Where a number has a point or a power, it is read as no whole one. -/
def Fractional (f : List Char → Except Halt (Number × List Char)) : Prop :=
  ∀ s i h r, f s ≠ .ok (.whole i h, r)

theorem realNumber_fractional (negative : Bool) (digits : Nat) (e : Int) :
    Fractional (realNumber negative digits e) := by
  intro s i h r
  unfold realNumber
  split <;> simp

theorem readExponent_fractional (negative : Bool) (digits : Nat) (e : Int) :
    Fractional (readExponent negative digits e) := by
  intro s i h r hr
  unfold readExponent at hr
  split at hr
  rename_i down unsigned _
  cases unsigned with
  | nil => cases hr
  | cons c t =>
    simp only at hr
    split at hr
    · split at hr
      · exact realNumber_fractional _ _ _ _ _ _ _ hr
      · split at hr <;> cases hr
    · cases hr

theorem readPower_fractional (negative : Bool) (digits : Nat) (e : Int) :
    Fractional (readPower negative digits e) := by
  intro s i h r hr
  unfold readPower at hr
  split at hr
  · exact readExponent_fractional _ _ _ _ _ _ _ hr
  · exact readExponent_fractional _ _ _ _ _ _ _ hr
  · exact realNumber_fractional _ _ _ _ _ _ _ hr

theorem wholeNumber_eq {negative : Bool} {m : Nat} {i : Int} {h : InWords i}
    (hw : wholeNumber negative m = .whole i h) :
    i.natAbs = m ∧ (negative = true ↔ i < 0) := by
  cases negative with
  | false =>
    simp only [wholeNumber, Bool.false_and, Bool.false_eq_true, if_false] at hw
    split at hw
    · have hi : (m : Int) = i := Number.whole.inj hw
      exact ⟨by omega, by simp; omega⟩
    · cases hw
  | true =>
    by_cases hzero : m = 0
    · subst hzero
      cases hw
    · have hne : (m == 0) = false := by simpa using hzero
      simp only [wholeNumber, hne, Bool.and_false, Bool.false_eq_true, if_false, if_true] at hw
      split at hw
      · have hi : -(m : Int) = i := Number.whole.inj hw
        exact ⟨by omega, by simp; omega⟩
      · cases hw

/-- **Read as a whole number, a numeral is nothing but that number's digits.** -/
theorem readNumber_whole {n : Numeral} {negative : Bool} {i : Int} {h : InWords i}
    {r : List Char} (hr : readNumber negative n.unsigned = .ok (.whole i h, r)) :
    n.unsigned = Nat.toDigits 10 i.natAbs ∧ (negative = true ↔ i < 0) := by
  rw [← List.append_nil n.unsigned] at hr
  rcases readNumber_cases n negative with ⟨hf, hp, -, hread⟩ | ⟨_, _, _, _, -, -, hread⟩
  · have hwhole := (hread [] (Heads.nil stopsNumber)).symm.trans hr
    obtain ⟨hi, hsign⟩ := wholeNumber_eq (congrArg Prod.fst (Except.ok.inj hwhole))
    refine ⟨?_, hsign⟩
    rw [hi, toDigits_ofDigitChars n.isWhole n.whole_ne n.leading, Numeral.unsigned, Numeral.tail,
      if_pos hf, hp]
    exact List.append_nil _
  · have hpower := (hread [] (Heads.nil stopsNumber)).symm.trans hr
    exact absurd hpower (readPower_fractional _ _ _ _ _ _ _)

/-- The digits of a number that is kept exactly are read as that number. -/
theorem readNumber_ofInt {i : Int} (h : InWords i) {u : List Char} (hu : Stops u) :
    readNumber (decide (i < 0)) (Nat.toDigits 10 i.natAbs ++ u) = .ok (.whole i h, u) := by
  have hn : i.natAbs < UInt64.size := by
    have := h.1
    have := h.2
    rw [UInt64.size]
    omega
  rw [readNumber_digits hn hu, wholeNumber]
  by_cases hneg : i < 0
  · have hzero : (i.natAbs == 0) = false := by simpa using by omega
    have hi : -(i.natAbs : Int) = i := by omega
    simp only [hneg, decide_true, hzero, Bool.and_false, Bool.false_eq_true, if_false, if_true, hi,
      dif_pos h]
  · have hi : (i.natAbs : Int) = i := by omega
    simp only [hneg, decide_false, Bool.false_and, Bool.false_eq_true, if_false, hi, dif_pos h]

/-! ### Texts of numbers -/

variable {r : Raw} {unwraps : Bool} {depth : Nat} {i : Int}

/-- The text spells the whole number. -/
def Raw.IsWhole (r : Raw) (i : Int) : Prop := r.chars = (toString i).toList

/-- The whole numbers that fit a signed word of 64 bits. -/
def Fits64 (i : Int) : Prop := -9223372036854775808 ≤ i ∧ i < 9223372036854775808

theorem Fits64.inWords (h : Fits64 i) : InWords i := ⟨h.1, Int.lt_trans h.2 (by decide)⟩

/-- What a number's spelling begins with. -/
theorem Numeral.front (n : Numeral) :
    ∃ c v, n.chars = c :: v ∧ (n.negative = true ∧ c = '-' ∧ v = n.unsigned ∨
      n.negative = false ∧ isDigit c = true ∧ c :: v = n.unsigned) := by
  obtain ⟨c, ds, hds⟩ := List.exists_cons_of_ne_nil n.whole_ne
  cases hn : n.negative with
  | true => exact ⟨'-', n.unsigned, by rw [Numeral.chars, hn]; rfl, .inl ⟨rfl, rfl, rfl⟩⟩
  | false =>
    have hu : n.unsigned = c :: (ds ++ n.tail) := by rw [Numeral.unsigned, hds]; rfl
    exact ⟨c, ds ++ n.tail, by rw [Numeral.chars, hn]; exact hu,
      .inr ⟨rfl, n.isWhole c (hds ▸ List.mem_cons_self ..), hu.symm⟩⟩

theorem skimScalar_digits {width : Char → Nat} {c : Char} (hc : isDigit c = true) (s : List Char) :
    skimScalar width c s = skimNumber (c :: s) := by
  unfold skimScalar
  split
  case h_6 => rw [if_pos hc]
  all_goals cases hc

theorem map_number_eq_ok {x : Except Halt (Number × List Char)} {y : Value} {s : List Char}
    (h : (x.map fun (n, r) => (Value.number n, r)) = .ok (y, s)) :
    ∃ n, y = .number n ∧ x = .ok (n, s) := by
  cases x with
  | error e => cases h
  | ok p =>
    cases h
    exact ⟨p.1, rfl, rfl⟩

/-- A number's text is a scalar's. -/
theorem Numeral.isScalar (n : Numeral) (hr : r.chars = n.chars) : r.IsScalar := by
  have hskim := skimNumber_numeral n (Heads.nil stopsNumber)
  rw [List.append_nil] at hskim
  obtain ⟨c, v, hchars, ⟨-, rfl, rfl⟩ | ⟨-, hc, hu⟩⟩ := n.front
  · exact ⟨'-', n.unsigned, hr.trans hchars, by decide, by decide, by decide, hskim⟩
  · rw [← hu] at hskim
    refine ⟨c, v, hr.trans hchars, not_blank_of_digit hc, ?_, ?_,
      (skimScalar_digits hc v).trans hskim⟩
    · rintro rfl
      cases hc
    · rintro rfl
      cases hc

theorem readScalar_numeral {width : Char → Nat} {n : Numeral} {c : Char} {v : List Char}
    (h : n.chars = c :: v) :
    readScalar width c v =
      (readNumber n.negative n.unsigned).map fun (n, r) => (Value.number n, r) := by
  obtain ⟨d, w, hchars, hcase⟩ := n.front
  cases h.symm.trans hchars
  rcases hcase with ⟨hneg, rfl, rfl⟩ | ⟨hneg, hc, hu⟩
  · rw [hneg, readScalar_minus]
  · rw [hneg, ← hu, readScalar_digits hc]

/-- What a number's text denotes is the number that it is read as. -/
theorem Denotes.of_numeral {x : Value} (h : Denotes unwraps depth r x) {n : Numeral}
    (hr : r.chars = n.chars) :
    ∃ z, x = .number z ∧ readNumber n.negative n.unsigned = .ok (z, []) := by
  obtain ⟨c, v, hc, -, hl, ho, -⟩ := n.isScalar hr
  cases h with
  | scalar hd _ _ _ _ hx =>
    rw [readScalar_numeral (hr.symm.trans hd)] at hx
    exact map_number_eq_ok hx
  | list _ hl' =>
    obtain ⟨w, hw⟩ := hl'.bracket
    exact absurd (List.cons.inj (hc.symm.trans hw)).1 hl
  | object _ ho' | wrapped _ _ ho' =>
    obtain ⟨w, hw⟩ := ho'.brace
    exact absurd (List.cons.inj (hc.symm.trans hw)).1 ho

theorem denotes_numeral {n : Numeral} (hr : r.chars = n.chars) {x : Number} :
    Denotes unwraps depth r (.number x) ↔ readNumber n.negative n.unsigned = .ok (x, []) := by
  constructor
  · intro h
    obtain ⟨z, hz, hread⟩ := h.of_numeral hr
    cases hz
    exact hread
  · intro hread
    obtain ⟨c, v, hc, hb, hl, ho, hs⟩ := n.isScalar hr
    refine .scalar hc hb hl ho hs ?_
    rw [readScalar_numeral (hr.symm.trans hc), hread]
    rfl

/-- A text that begins with a digit or a minus is a number's. -/
theorem Raw.IsText.numeral (h : r.IsText) {c : Char} {v : List Char} (hr : r.chars = c :: v)
    (hc : c = '-' ∨ isDigit c = true) :
    ∃ n : Numeral, r.chars = n.chars ∧ (n.negative = true ↔ c = '-') := by
  rcases isText_cases h with ⟨_, hl⟩ | ⟨_, ho⟩ | ⟨d, w, hd, -, -, -, hs⟩
  · obtain ⟨w, hw⟩ := hl.bracket
    cases hr.symm.trans hw
    rcases hc with hc | hc <;> cases hc
  · obtain ⟨w, hw⟩ := ho.brace
    cases hr.symm.trans hw
    rcases hc with hc | hc <;> cases hc
  · cases hr.symm.trans hd
    rcases hc with rfl | hc
    · obtain ⟨n, hn, hv⟩ := skimNumber_numerals (r := []) (show skimNumber v = _ from hs) true
      exact ⟨n, by rw [Numeral.chars, hn, if_pos rfl, hr, hv, List.append_nil], by simp [hn]⟩
    · rw [skimScalar_digits hc] at hs
      obtain ⟨n, hn, hv⟩ := skimNumber_numerals hs false
      refine ⟨n, by rw [Numeral.chars, hn, hr, hv, List.append_nil]; rfl, ?_⟩
      rw [hn]
      refine ⟨fun hf => (by cases hf), ?_⟩
      rintro rfl
      cases hc

theorem Numeral.chars_of_whole {n : Numeral} (hu : n.unsigned = Nat.toDigits 10 i.natAbs)
    (hs : n.negative = true ↔ i < 0) : n.chars = (toString i).toList := by
  rw [toList_toString, Numeral.chars, hu]
  by_cases hi : i < 0
  · rw [if_pos hi, if_pos (hs.mpr hi)]
  · rw [if_neg hi, if_neg (mt hs.mp hi)]

theorem Raw.IsWhole.numeral (h : r.IsWhole i) :
    r.chars = (Numeral.ofNat (decide (i < 0)) i.natAbs).chars := by
  refine h.trans (Numeral.chars_of_whole (Numeral.ofNat_unsigned _ _) ?_).symm
  simp [Numeral.ofNat]

theorem Raw.IsWhole.denotes (h : r.IsWhole i) (hi : InWords i) :
    Denotes unwraps depth r (.number (.whole i hi)) := by
  refine (denotes_numeral h.numeral).mpr ?_
  have := readNumber_ofInt hi (Heads.nil stopsNumber)
  rw [List.append_nil] at this
  rw [Numeral.ofNat_unsigned]
  exact this

namespace Reader

theorem readWord_numeral (n : Numeral) {b u : List Char} (hb : Blank b) :
    readWord Char.utf8Size (b ++ (n.chars ++ u)) =
      match readNumber n.negative (n.unsigned ++ u) with
      | .ok (x, t) => wordOf x t
      | .error halt => .error halt := by
  obtain ⟨c, v, hchars, ⟨hneg, rfl, rfl⟩ | ⟨hneg, hc, hu⟩⟩ := n.front
  · rw [hchars, List.cons_append, readWord, skipBlank_append hb (by decide), hneg]
    rfl
  · rw [hchars, List.cons_append, readWord, skipBlank_append hb (not_blank_of_digit hc), hneg,
      ← hu, List.cons_append]
    split
    · rename_i heq
      cases heq
      cases hc
    · rename_i heq
      cases heq
      exact (if_pos hc).trans rfl
    · rename_i heq
      cases heq

theorem wordOf_eq_ok {n : Number} {s t : List Char} :
    wordOf n s = .ok (i, t) ↔ (∃ h, n = .whole i h) ∧ i < 9223372036854775808 ∧ t = s := by
  cases n with
  | real x => simp [wordOf, Number.signed?]
  | whole v hv =>
    by_cases hlt : v < 9223372036854775808
    · simp only [wordOf, Number.signed?, if_pos hlt, Except.ok.injEq, Prod.mk.injEq,
        Number.whole.injEq]
      constructor
      · rintro ⟨rfl, rfl⟩
        exact ⟨⟨hv, rfl⟩, hlt, rfl⟩
      · rintro ⟨⟨_, rfl⟩, -, rfl⟩
        exact ⟨rfl, rfl⟩
    · simp only [wordOf, Number.signed?, if_neg hlt]
      constructor
      · intro h
        cases h
      · rintro ⟨⟨_, hv⟩, hi, -⟩
        cases hv
        exact absurd hi hlt

theorem word_takes (h : r.IsWhole i) (hi : Fits64 i) : (word Char.utf8Size).Takes r i := by
  intro b u hb hu
  refine ofHalting_run.mpr ?_
  rw [h.numeral, readWord_numeral _ hb, Numeral.ofNat_unsigned]
  show (match readNumber (decide (i < 0)) _ with | .ok (x, t) => wordOf x t | .error e => .error e) = _
  rw [readNumber_ofInt hi.inWords hu]
  exact wordOf_eq_ok.mpr ⟨⟨hi.inWords, rfl⟩, hi.2, rfl⟩

theorem word_settles (h : r.IsText) :
    (∃ i, r.IsWhole i ∧ Fits64 i) ∨ (word Char.utf8Size).Refuses r := by
  obtain ⟨c, v, hr, -, hfront⟩ := h.front
  by_cases hc : c = '-' ∨ isDigit c = true
  · obtain ⟨n, hn, -⟩ := h.numeral hr hc
    have hrun {b u : List Char} (hb : Blank b) {y : Int × List Char}
        (hy : (word Char.utf8Size).run (b ++ (r.chars ++ u)) = .ok y) :
        ∃ x t, readNumber n.negative (n.unsigned ++ u) = .ok (x, t) ∧ wordOf x t = .ok y := by
      have hy := ofHalting_run.mp hy
      rw [hn, readWord_numeral n hb] at hy
      split at hy
      · exact ⟨_, _, by assumption, hy⟩
      · cases hy
    rcases readNumber_settles n n.negative with ⟨x, hx⟩ | hno
    · cases hw : wordOf x [] with
      | error e =>
        refine .inr fun b u hb hu y hy => ?_
        obtain ⟨x', t, hx', hy⟩ := hrun hb hy
        cases (hx u hu).symm.trans hx'
        obtain ⟨j, t'⟩ := y
        obtain ⟨hj, hlt, -⟩ := wordOf_eq_ok.mp hy
        cases hw.symm.trans (wordOf_eq_ok.mpr ⟨hj, hlt, rfl⟩)
      | ok y =>
        obtain ⟨⟨hi, rfl⟩, hlt, -⟩ := wordOf_eq_ok.mp hw
        have hx := hx [] (Heads.nil _)
        rw [List.append_nil] at hx
        obtain ⟨hu, hs⟩ := readNumber_whole hx
        exact .inl ⟨y.1, hn.trans (Numeral.chars_of_whole hu hs), hi.1, hlt⟩
    · refine .inr fun b u hb hu y hy => ?_
      obtain ⟨x, t, hx, -⟩ := hrun hb hy
      exact hno u hu _ hx
  · refine .inr fun b u hb _ y hy => ?_
    have hy := ofHalting_run.mp hy
    rw [readWord, hfront b u hb] at hy
    split at hy
    · rename_i heq
      exact hc (.inl (List.cons.inj heq).1)
    · rename_i heq
      cases heq
      rw [if_neg fun hd => hc (.inr hd)] at hy
      cases hy
    · rename_i heq
      cases heq

theorem word_settled : (word Char.utf8Size).Settled := fun _ h =>
  (word_settles h).imp_left fun ⟨i, hw, hi⟩ => ⟨i, word_takes hw hi⟩

/-- **A word of 64 bits is taken from its digits and from nothing else.** -/
theorem word_takes_iff (h : r.IsText) :
    (word Char.utf8Size).Takes r i ↔ r.IsWhole i ∧ Fits64 i := by
  constructor
  · intro hi
    rcases word_settles h with ⟨j, hw, hj⟩ | hno
    · cases (word_takes hw hj).unique hi
      exact ⟨hw, hj⟩
    · exact absurd hno hi.not_refuses
  · exact fun ⟨hw, hi⟩ => word_takes hw hi

end Reader

end Switchboard.Json
