import Switchboard.Proofs.Decimal.Rounding
import Switchboard.Proofs.Json.Wholes

/-! Which numbers are read.

A numeral is read up to the range of binary64. Its first digits, as many as fit a word, stand for
all of them with an error of one part in `2 ^ 60`, and are scaled by a rounded power of ten with
about one part in `2 ^ 52`. So a numeral is read if its value is less than `2 ^ 1024` by one part in
`2 ^ 50`, and refused if it is greater by as much (`Numeral.read_of_le`, `Numeral.le_of_read`);
in between it depends on the rounding. -/
namespace Switchboard.Json
open Decimal Binary64

/-! ### Scaling by powers of ten -/

theorem word_lt_bound : (2 : ℚ) ^ 65 < bound := by
  have hle : (2 : ℚ) ^ 65 ≤ topUnit := pow_le_pow_right₀ one_le_two (by decide : 65 ≤ 971)
  rw [bound]
  linarith [topUnit_pos]

theorem natPow_cast (b n : Nat) : ((Nat.pow b n : Nat) : ℚ) = (b : ℚ) ^ (n : Int) :=
  (Nat.cast_pow b n).trans (zpow_natCast _ n).symm

theorem topUnit_eq : ((Nat.pow 2 971 : Nat) : ℚ) = topUnit := by
  simp only [natPow_cast, topUnit, Nat.cast_ofNat]

theorem tenPow_lt_bound {k : Nat} (hk : k ≤ 308) : ((Nat.pow 10 k : Nat) : ℚ) < bound := by
  have hnat : Nat.pow 10 k ≤ 3 * 2 ^ 51 * Nat.pow 2 971 :=
    (Nat.pow_le_pow_right (by decide) hk).trans (by decide +kernel)
  have hle := Nat.cast_le (α := ℚ).mpr hnat
  rw [Nat.cast_mul, topUnit_eq] at hle
  push_cast at hle
  rw [bound]
  linarith [topUnit_pos]

theorem edge_le_tenPow {k : Nat} (hk : 308 < k) : 2 * edge ≤ 10 ^ k := by
  have hnat : 2 ^ 54 * Nat.pow 2 971 ≤ Nat.pow 10 k :=
    le_trans (by decide +kernel) (Nat.pow_le_pow_right (by decide) (show 309 ≤ k from hk))
  have hle := Nat.cast_le (α := ℚ).mpr hnat
  rw [Nat.cast_mul, topUnit_eq, natPow_cast, zpow_natCast] at hle
  push_cast at hle
  rw [edge]
  linarith

theorem tenPow_close {k : Nat} (hk : k ≤ 308) :
    |(tenPow k).size - 10 ^ k| ≤ 10 ^ k / 2 ^ 53 := by
  have hclose := ofNat_close (tenPow_lt_bound hk)
  rwa [show ((Nat.pow 10 k : Nat) : ℚ) = 10 ^ k from Nat.cast_pow 10 k] at hclose

theorem four_le_tenPow {k : Nat} (hpos : 0 < k) (hk : k ≤ 308) : 4 ≤ (tenPow k).size := by
  have hclose := (abs_le.mp (tenPow_close hk)).1
  have hten : (10 : ℚ) ^ 1 ≤ 10 ^ k := pow_le_pow_right₀ (by norm_num) hpos
  norm_num at hclose hten
  linarith

theorem dividedBy_tenPow {x : Binary64} {k : Nat} (hx : x.size ≤ 2 ^ 65) (hpos : 0 < k)
    (hk : k ≤ 308) : ∃ y, x.dividedBy (tenPow k) = some y ∧ y.size ≤ 2 ^ 65 := by
  have hfour := four_le_tenPow hpos hk
  have hquotient : x.size / (tenPow k).size ≤ 2 ^ 65 / 4 :=
    div_le_div₀ (by norm_num) hx (by norm_num) hfour
  have hless : (2 : ℚ) ^ 65 / 4 < bound := by linarith [word_lt_bound]
  obtain ⟨y, hy, hle⟩ := dividedBy_of_lt (by linarith) (hquotient.trans_lt hless)
  exact ⟨y, hy, by norm_num at hquotient ⊢; linarith⟩

/-- Numbers that are not much beyond a word do not overflow when they are made less. -/
theorem scaleTen_of_neg {x : Binary64} {e : Int} (he : e < 0) (hx : x.size ≤ 2 ^ 65) :
    ∃ y, scaleTen x e = some y := by
  induction hn : e.natAbs using Nat.strong_induction_on generalizing x e with
  | h n ih =>
    rw [scaleTen, if_neg (by omega)]
    by_cases hstep : -308 ≤ e
    · rw [if_pos hstep]
      obtain ⟨y, hy, -⟩ := @dividedBy_tenPow x (-e).toNat hx (by omega) (by omega)
      exact ⟨y, hy⟩
    · rw [if_neg hstep]
      cases hzero : x.isZero with
      | true => exact ⟨x, rfl⟩
      | false =>
        obtain ⟨y, hy, hle⟩ := dividedBy_tenPow hx (by decide : 0 < 308) (by decide)
        simp only [Bool.false_eq_true, if_false, hy]
        exact ih _ (by omega) (by omega) hle rfl

variable {d : Nat} {e : Int}

theorem word_close (hd : d < 2 ^ 64) : |(ofNat d).size - d| ≤ d / 2 ^ 53 := by
  have hle : (d : ℚ) ≤ 2 ^ 64 := by exact_mod_cast hd.le
  exact ofNat_close (by linarith [word_lt_bound])

theorem word_size_le (hd : d < 2 ^ 64) : (ofNat d).size ≤ 2 ^ 65 := by
  have hle : (d : ℚ) ≤ 2 ^ 64 := by exact_mod_cast hd.le
  have hclose := (abs_le.mp (word_close hd)).2
  linarith

theorem scaleTen_nonneg {x : Binary64} {k : Nat} (hk : k ≤ 308) :
    scaleTen x k = x.times (tenPow k) := by
  rw [scaleTen, if_pos (Int.natCast_nonneg k), if_pos (by exact_mod_cast hk), Int.toNat_natCast]

/-- Without a power that is kept, only nought does not overflow. -/
theorem scaleTen_beyond {x : Binary64} {k : Nat} (hk : 308 < k) :
    scaleTen x k = if x.isZero then some x else none := by
  rw [scaleTen, if_pos (Int.natCast_nonneg k), if_neg (by omega)]

/-- The two factors have nearly the product that they stand for. -/
theorem times_close (hd : d < 2 ^ 64) {k : Nat} (hk : k ≤ 308) :
    (d : ℚ) * 10 ^ k * (1 - 1 / 2 ^ 52) ≤ (ofNat d).size * (tenPow k).size ∧
      (ofNat d).size * (tenPow k).size ≤ d * 10 ^ k * (1 + 3 / 2 ^ 53) := by
  have hd0 : (0 : ℚ) ≤ d := Nat.cast_nonneg d
  have hk0 : (0 : ℚ) ≤ 10 ^ k := by positivity
  have hv0 : (0 : ℚ) ≤ d * 10 ^ k := mul_nonneg hd0 hk0
  obtain ⟨hx, hx'⟩ := abs_le.mp (word_close hd)
  obtain ⟨ht, ht'⟩ := abs_le.mp (tenPow_close hk)
  constructor
  · have hmul : d * (1 - 1 / 2 ^ 53) * (10 ^ k * (1 - 1 / 2 ^ 53)) ≤
        (ofNat d).size * (tenPow k).size :=
      mul_le_mul (by linarith) (by linarith) (mul_nonneg hk0 (by norm_num)) (size_nonneg _)
    refine le_trans ?_ hmul
    calc (d : ℚ) * 10 ^ k * (1 - 1 / 2 ^ 52)
        ≤ d * 10 ^ k * ((1 - 1 / 2 ^ 53) * (1 - 1 / 2 ^ 53)) :=
          mul_le_mul_of_nonneg_left (by norm_num) hv0
      _ = d * (1 - 1 / 2 ^ 53) * (10 ^ k * (1 - 1 / 2 ^ 53)) := by ring
  · have hmul : (ofNat d).size * (tenPow k).size ≤
        d * (1 + 1 / 2 ^ 53) * (10 ^ k * (1 + 1 / 2 ^ 53)) :=
      mul_le_mul (by linarith) (by linarith) (size_nonneg _) (mul_nonneg hd0 (by norm_num))
    refine hmul.trans ?_
    calc (d : ℚ) * (1 + 1 / 2 ^ 53) * (10 ^ k * (1 + 1 / 2 ^ 53))
        = d * 10 ^ k * ((1 + 1 / 2 ^ 53) * (1 + 1 / 2 ^ 53)) := by ring
      _ ≤ (d : ℚ) * 10 ^ k * (1 + 3 / 2 ^ 53) := mul_le_mul_of_nonneg_left (by norm_num) hv0

theorem edge_pos : 0 < edge := mul_pos (by norm_num) topUnit_pos

theorem ofNat_not_isZero (hd : d < 2 ^ 64) (hpos : 0 < d) : (ofNat d).isZero = false := by
  have hclose := (abs_le.mp (word_close hd)).1
  have hone : (1 : ℚ) ≤ d := by exact_mod_cast hpos
  have hsize : 0 < (ofNat d).size := by linarith
  refine Bool.eq_false_iff.mpr fun h => hsize.ne' ?_
  rw [size, beq_iff_eq.mp h, Nat.cast_zero, zero_mul]

/-- What is less than the end of the range, and not too close to it, does not overflow. -/
theorem scaleTen_of_le (hd : d < 2 ^ 64) (h : (d : ℚ) * 10 ^ e ≤ (1 - 1 / 2 ^ 51) * edge) :
    ∃ x, scaleTen (ofNat d) e = some x := by
  rcases lt_or_ge e 0 with he | he
  · exact scaleTen_of_neg he (word_size_le hd)
  obtain ⟨k, rfl⟩ := Int.eq_ofNat_of_zero_le he
  rw [zpow_natCast] at h
  rcases le_or_gt k 308 with hk | hk
  · rw [scaleTen_nonneg hk]
    refine times_of_lt ((times_close hd hk).2.trans_lt ?_)
    rw [edge] at h
    rw [bound]
    linarith [topUnit_pos]
  · rcases Nat.eq_zero_or_pos d with rfl | hpos
    · exact ⟨_, (scaleTen_beyond hk).trans (if_pos rfl)⟩
    · have hone : (1 : ℚ) ≤ d := by exact_mod_cast hpos
      have hle : (10 : ℚ) ^ k ≤ d * 10 ^ k := le_mul_of_one_le_left (by positivity) hone
      linarith [edge_le_tenPow hk, edge_pos]

/-- What is greater than the end of the range, and not too close to it, overflows. -/
theorem le_of_scaleTen (hd : d < 2 ^ 64) {x : Binary64} (h : scaleTen (ofNat d) e = some x) :
    (d : ℚ) * 10 ^ e ≤ (1 + 1 / 2 ^ 51) * edge := by
  rcases lt_or_ge e 0 with he | he
  · have hword : (d : ℚ) ≤ 2 ^ 64 := by exact_mod_cast hd.le
    have hten : (10 : ℚ) ^ e ≤ 1 := zpow_le_one_of_nonpos₀ (by norm_num) he.le
    have hle : (d : ℚ) * 10 ^ e ≤ d := mul_le_of_le_one_right (Nat.cast_nonneg d) hten
    have hless := word_lt_bound
    rw [bound] at hless
    rw [edge]
    linarith [topUnit_pos]
  obtain ⟨k, rfl⟩ := Int.eq_ofNat_of_zero_le he
  rw [zpow_natCast]
  rcases le_or_gt k 308 with hk | hk
  · rw [scaleTen_nonneg hk] at h
    have hle := (times_close hd hk).1.trans (le_of_times h)
    rw [bound] at hle
    rw [edge]
    linarith [topUnit_pos]
  · rw [scaleTen_beyond hk] at h
    rcases Nat.eq_zero_or_pos d with rfl | hpos
    · rw [Nat.cast_zero, zero_mul]
      linarith [edge_pos]
    · rw [ofNat_not_isZero hd hpos] at h
      cases h

/-! ### Digits that do not fit -/

theorem ofDigitChars_bounds {ds : List Char} (hd : ∀ c ∈ ds, isDigit c = true) (m : Nat) :
    m * 10 ^ ds.length ≤ Nat.ofDigitChars 10 ds m ∧
      Nat.ofDigitChars 10 ds m < (m + 1) * 10 ^ ds.length := by
  induction ds generalizing m with
  | nil => exact ⟨by simp, by simp⟩
  | cons c ds ih =>
    have hlt := (digit_cases (hd c (List.mem_cons_self ..))).1
    obtain ⟨hlow, hhigh⟩ := ih (fun d hd' => hd d (List.mem_cons_of_mem c hd')) (m * 10 + digitOf c)
    rw [ofDigitChars_digit, List.length_cons, Nat.pow_succ']
    constructor
    · refine le_trans ?_ hlow
      rw [← Nat.mul_assoc]
      exact Nat.mul_le_mul_right _ (by omega)
    · refine hhigh.trans_le ?_
      rw [← Nat.mul_assoc]
      exact Nat.mul_le_mul_right _ (by omega)

/-- The numbers differ by one part in `2 ^ 60` at most. -/
def Near (a b : ℚ) : Prop := |a - b| ≤ b / 2 ^ 60

theorem near_self {a : ℚ} (ha : 0 ≤ a) : Near a a := by
  rw [Near, sub_self, abs_zero]
  positivity

/-- Two numbers with the same first digits are near to each other. -/
theorem near_of_cell {a b c u : ℚ} (hc : 2 ^ 60 ≤ c) (hu : 0 < u) (ha : c * u ≤ a ∧ a < (c + 1) * u)
    (hb : c * u ≤ b ∧ b < (c + 1) * u) : Near a b := by
  have hunit : 2 ^ 60 * u ≤ c * u := mul_le_mul_of_nonneg_right hc hu.le
  have hle : u ≤ b / 2 ^ 60 := by
    rw [le_div_iff₀ (by norm_num)]
    linarith
  exact abs_le.mpr ⟨by linarith, by linarith⟩

/-- Digits that have been left out do not count for much. -/
theorem Cut.cell {m : Nat} {ds taken rest : List Char} (h : Cut m ds taken rest)
    (hd : ∀ c ∈ ds, isDigit c = true) :
    Nat.ofDigitChars 10 taken m * 10 ^ rest.length ≤ Nat.ofDigitChars 10 ds m ∧
      Nat.ofDigitChars 10 ds m < (Nat.ofDigitChars 10 taken m + 1) * 10 ^ rest.length := by
  have hrest := ofDigitChars_bounds
    (fun c hc => hd c (h.parts ▸ List.mem_append_right taken hc)) (Nat.ofDigitChars 10 taken m)
  rwa [← Nat.ofDigitChars_append, ← h.parts] at hrest

theorem Cut.large {m : Nat} {ds taken rest : List Char} (h : Cut m ds taken rest)
    (hrest : rest ≠ []) : (2 : ℚ) ^ 60 ≤ Nat.ofDigitChars 10 taken m := by
  have hfull := h.full hrest
  exact_mod_cast (by omega : 2 ^ 60 ≤ Nat.ofDigitChars 10 taken m)

/-- The number without its sign and its power. -/
def Numeral.mantissa (n : Numeral) : ℚ :=
  (Nat.ofDigitChars 10 (n.whole ++ n.fraction) 0 : ℚ) / 10 ^ n.fraction.length

variable {n : Numeral} {taken rest taken' rest' : List Char}

/-- The digits that fit, scaled by the number of those behind the point and of those before it that
do not fit, are near to the number. -/
theorem Numeral.mantissa_near (hcut : Cut 0 n.whole taken rest)
    (hcut' : Cut (Nat.ofDigitChars 10 taken 0) n.fraction taken' rest') :
    Near (Nat.ofDigitChars 10 taken' (Nat.ofDigitChars 10 taken 0) *
      10 ^ ((rest.length : Int) - (taken'.length : Int))) n.mantissa := by
  have hdigits : ∀ c ∈ taken', isDigit c = true :=
    fun c hc => n.isFraction c (hcut'.parts ▸ List.mem_append_left rest' hc)
  have hfew := ofDigitChars_bounds hdigits (Nat.ofDigitChars 10 taken 0)
  have hwhole := hcut.cell n.isWhole
  have hlarge := hcut.large
  have hten (k : Nat) : (0 : ℚ) < 10 ^ k := by positivity
  rw [mantissa, Nat.ofDigitChars_append, zpow_sub₀ (by norm_num), zpow_natCast, zpow_natCast,
    ← mul_div_assoc]
  generalize Nat.ofDigitChars 10 taken 0 = m at hcut' hfew hwhole hlarge ⊢
  by_cases hrest : rest = []
  · -- the digits that fit go on behind the point
    have hsame : Nat.ofDigitChars 10 n.whole 0 = m := by
      simp only [hrest, List.length_nil, Nat.pow_zero, Nat.mul_one] at hwhole
      omega
    have hcell := hcut'.cell n.isFraction
    have hlength : (10 : ℚ) ^ n.fraction.length = 10 ^ rest'.length * 10 ^ taken'.length := by
      rw [hcut'.parts, List.length_append, pow_add, mul_comm]
    rw [hsame, hrest, List.length_nil, pow_zero, mul_one]
    by_cases hrest' : rest' = []
    · have hfraction : n.fraction = taken' := by
        rw [hcut'.parts, hrest', List.append_nil]
      rw [hfraction]
      exact near_self (by positivity)
    · refine near_of_cell (hcut'.large hrest') (inv_pos.mpr (hten taken'.length)) ⟨?_, ?_⟩ ⟨?_, ?_⟩
      · exact (div_eq_mul_inv _ _).ge
      · rw [div_eq_mul_inv]
        exact mul_lt_mul_of_pos_right (lt_add_one _) (inv_pos.mpr (hten _))
      · rw [← div_eq_mul_inv, hlength, ← div_div, div_le_div_iff_of_pos_right (hten _),
          le_div_iff₀ (hten _)]
        exact_mod_cast hcell.1
      · rw [← div_eq_mul_inv, hlength, ← div_div, div_lt_div_iff_of_pos_right (hten _),
          div_lt_iff₀ (hten _)]
        exact_mod_cast hcell.2
  · -- both numbers begin with the digits that fit before the point
    have hall := ofDigitChars_bounds n.isFraction (Nat.ofDigitChars 10 n.whole 0)
    generalize Nat.ofDigitChars 10 n.whole 0 = w at hwhole hall ⊢
    refine near_of_cell (hlarge hrest) (hten rest.length) ⟨?_, ?_⟩ ⟨?_, ?_⟩
    · rw [le_div_iff₀ (hten _), mul_right_comm]
      exact_mod_cast Nat.mul_le_mul_right (10 ^ rest.length) hfew.1
    · rw [div_lt_iff₀ (hten _), mul_right_comm]
      exact_mod_cast Nat.mul_lt_mul_of_pos_right hfew.2 (Nat.pow_pos (by decide))
    · rw [le_div_iff₀ (hten _)]
      exact_mod_cast (Nat.mul_le_mul_right (10 ^ n.fraction.length) hwhole.1).trans hall.1
    · rw [div_lt_iff₀ (hten _)]
      exact_mod_cast hall.2.trans_le (Nat.mul_le_mul_right (10 ^ n.fraction.length) hwhole.2)

/-! ### Numerals -/

theorem Near.scaled {a b : ℚ} (h : Near a b) (k : Int) : Near (a * 10 ^ k) (b * 10 ^ k) := by
  have hten : (0 : ℚ) < 10 ^ k := by positivity
  rw [Near, ← sub_mul, abs_mul, abs_of_pos hten]
  exact (mul_le_mul_of_nonneg_right h hten.le).trans_eq (by ring)

theorem Near.le {a b : ℚ} (h : Near a b) : a ≤ (1 + 1 / 2 ^ 60) * b ∧ (1 - 1 / 2 ^ 60) * b ≤ a := by
  obtain ⟨hlow, hhigh⟩ := abs_le.mp h
  exact ⟨by linarith, by linarith⟩

theorem realNumber_of_le (hd : d < 2 ^ 64) {v : ℚ} (hnear : Near (d * 10 ^ e) v)
    (h : v ≤ (1 - 1 / 2 ^ 50) * edge) (negative : Bool) (u : List Char) :
    ∃ x, realNumber negative d e u = .ok (x, u) := by
  obtain ⟨x, hx⟩ := scaleTen_of_le hd (by linarith [hnear.le.1, edge_pos] :
    (d : ℚ) * 10 ^ e ≤ (1 - 1 / 2 ^ 51) * edge)
  exact ⟨_, by rw [realNumber, hx]⟩

theorem le_of_realNumber (hd : d < 2 ^ 64) {v : ℚ} (hnear : Near (d * 10 ^ e) v)
    {negative : Bool} {u r : List Char} {x : Number} (h : realNumber negative d e u = .ok (x, r)) :
    v ≤ (1 + 1 / 2 ^ 50) * edge := by
  unfold realNumber at h
  split at h
  · rename_i y hy
    linarith [hnear.le.2, le_of_scaleTen hd hy, edge_pos]
  · cases h

namespace Numeral

/-- The power of ten. -/
def exponent (n : Numeral) : Int := (n.power?.map Power.value).getD 0

theorem abs_value (n : Numeral) : |n.value| = n.mantissa * 10 ^ n.exponent := by
  have hsign : |if n.negative then (-1 : ℚ) else 1| = 1 := by
    split
    · rw [abs_neg, abs_one]
    · exact abs_one
  have hdigits : (0 : ℚ) ≤ Nat.ofDigitChars 10 (n.whole ++ n.fraction) 0 := Nat.cast_nonneg _
  have hten (k : Int) : (0 : ℚ) ≤ 10 ^ k := by positivity
  rw [value, abs_mul, abs_mul, hsign, one_mul, abs_of_nonneg hdigits, abs_of_nonneg (hten _),
    mantissa, exponent, zpow_sub₀ (by norm_num), zpow_natCast]
  ring

theorem length_le (n : Numeral) : n.whole.length + n.fraction.length ≤ n.chars.length := by
  have hsign : n.unsigned.length ≤ n.chars.length := by
    rw [chars]
    split
    · exact Nat.le_succ _
    · exact Nat.le_refl _
  refine le_trans ?_ hsign
  rw [unsigned, tail, List.length_append]
  split
  · rename_i hf
    rw [hf]
    simp
  · simp only [List.length_append, List.length_cons]
    omega

/-- The numeral is read as the digits, scaled by their power of ten. -/
structure Scaled (n : Numeral) (negative : Bool) (d : Nat) (e : Int) : Prop where
  word : d < 2 ^ 64
  near : Near (d * 10 ^ e) n.mantissa
  low : -(n.chars.length : Int) ≤ e
  high : e ≤ n.chars.length
  read : readNumber negative n.unsigned =
    readPower negative d e ((n.power?.map Power.chars).getD [])

theorem Scaled.value_near {negative : Bool} (h : n.Scaled negative d e) :
    Near (d * 10 ^ (e + n.exponent)) |n.value| := by
  have hnear := h.near.scaled n.exponent
  rwa [mul_assoc, ← zpow_add₀ (by norm_num), ← abs_value] at hnear

/-- A numeral is read as the number that it is, which fits a word, or as digits that are scaled. -/
theorem whole_or_scaled (n : Numeral) (negative : Bool) :
    (|n.value| ≤ 2 ^ 64 ∧ ∃ x, readNumber negative n.unsigned = .ok (x, [])) ∨
      ∃ d e, n.Scaled negative d e := by
  have hlength := n.length_le
  rcases readNumber_cases n negative with ⟨hf, hp, hcut, hread⟩ |
    ⟨taken, rest, taken', rest', hcut, hcut', hread⟩
  · have hread := hread [] (Heads.nil stopsNumber)
    rw [List.append_nil] at hread
    refine .inl ⟨?_, _, hread⟩
    have hword : (Nat.ofDigitChars 10 n.whole 0 : ℚ) ≤ 2 ^ 64 := by
      exact_mod_cast (hcut.fits (by decide)).le
    rw [abs_value, mantissa, exponent, hf, hp, List.append_nil]
    simpa using hword
  · have hread := hread [] (Heads.nil stopsNumber)
    rw [List.append_nil, List.append_nil] at hread
    have hwhole := congrArg List.length hcut.parts
    have hfraction := congrArg List.length hcut'.parts
    rw [List.length_append] at hwhole hfraction
    exact .inr ⟨_, _, hcut'.fits (hcut.fits (by decide)), mantissa_near hcut hcut', by omega,
      by omega, hread⟩

/-- How a scaled numeral ends: with a number, as nought beyond the least power, or not at all beyond
the greatest. -/
theorem Scaled.cases {negative : Bool} (h : n.Scaled negative d e) :
    readNumber negative n.unsigned = realNumber negative d (e + n.exponent) [] ∨
    (∃ x, readNumber negative n.unsigned = .ok (x, [])) ∧
      (d = 0 ∨ n.exponent ≤ -2147483648) ∨
    (∀ x, readNumber negative n.unsigned ≠ .ok x) ∧ d ≠ 0 ∧ 2147483648 ≤ n.exponent := by
  rw [h.read, exponent]
  cases hp : n.power? with
  | none =>
    rw [Option.map_none, Option.getD_none, Option.map_none, Option.getD_none, Int.add_zero]
    exact .inl (readPower_none (Heads.nil stopsNumber))
  | some p =>
    rw [Option.map_some, Option.getD_some, Option.map_some, Option.getD_some,
      ← List.append_nil p.chars, readPower_chars]
    rcases Nat.lt_or_ge p.size 2147483648 with hfits | hbig
    · exact .inl (readExponent_fits p hfits (Heads.nil stopsNumber))
    · obtain ⟨hzero, hnone⟩ := @readExponent_beyond p negative d e hbig
      rw [Power.value_eq]
      by_cases hd : d = 0
      · exact .inr (.inl ⟨⟨_, hzero (.inl hd) [] (Heads.nil stopsNumber)⟩, .inl hd⟩)
      · by_cases hsign : p.sign = ['-']
        · rw [if_pos hsign]
          exact .inr (.inl ⟨⟨_, hzero (.inr hsign) [] (Heads.nil stopsNumber)⟩, .inr (by omega)⟩)
        · rw [if_neg hsign]
          exact .inr (.inr ⟨hnone hd hsign [], hd, by omega⟩)

/-- **A number within the range of binary64 is read**, unless it is within one part in `2 ^ 50` of
the end of the range. -/
theorem read_of_le (hlen : n.chars.length ≤ 2000000000) (h : |n.value| ≤ (1 - 1 / 2 ^ 50) * edge)
    (negative : Bool) : ∃ x, readNumber negative n.unsigned = .ok (x, []) := by
  rcases n.whole_or_scaled negative with ⟨-, hread⟩ | ⟨d, e, hscaled⟩
  · exact hread
  have hnear := hscaled.value_near
  rcases hscaled.cases with hreal | ⟨hread, -⟩ | ⟨-, hd, hbig⟩
  · rw [hreal]
    exact realNumber_of_le hscaled.word hnear h negative []
  · exact hread
  · -- so great a power is beyond the range, whatever the digits are
    have hone : (1 : ℚ) ≤ d := by exact_mod_cast Nat.pos_of_ne_zero hd
    have hten : (10 : ℚ) ^ ((309 : Nat) : Int) ≤ 10 ^ (e + n.exponent) :=
      zpow_le_zpow_right₀ (by norm_num) (by have := hscaled.low; omega)
    rw [zpow_natCast] at hten
    have hle : 2 * edge ≤ d * 10 ^ (e + n.exponent) :=
      ((edge_le_tenPow (by decide)).trans hten).trans (le_mul_of_one_le_left (by positivity) hone)
    linarith [hnear.le.1, edge_pos]

/-- **A number beyond the range of binary64 is not read**, unless it is within one part in `2 ^ 50`
of the end of the range. -/
theorem le_of_read (hlen : n.chars.length ≤ 2000000000) {negative : Bool} {x : Number}
    {r : List Char} (h : readNumber negative n.unsigned = .ok (x, r)) :
    |n.value| ≤ (1 + 1 / 2 ^ 50) * edge := by
  have hless : (2 : ℚ) ^ 65 ≤ edge := by
    have := word_lt_bound
    rw [bound] at this
    rw [edge]
    linarith [topUnit_pos]
  rcases n.whole_or_scaled negative with ⟨hvalue, -⟩ | ⟨d, e, hscaled⟩
  · linarith [edge_pos]
  have hnear := hscaled.value_near
  rcases hscaled.cases with hreal | ⟨-, hsmall⟩ | ⟨hnone, -⟩
  · rw [hreal] at h
    exact le_of_realNumber hscaled.word hnear h
  · -- nought, or so small a power that the number is less than its digits
    have hle : (d : ℚ) * 10 ^ (e + n.exponent) ≤ 2 ^ 64 := by
      rcases hsmall with rfl | hpower
      · rw [Nat.cast_zero, zero_mul]
        norm_num
      · have hword : (d : ℚ) ≤ 2 ^ 64 := by exact_mod_cast hscaled.word.le
        have hten : (10 : ℚ) ^ (e + n.exponent) ≤ 1 :=
          zpow_le_one_of_nonpos₀ (by norm_num) (by have := hscaled.high; omega)
        exact (mul_le_of_le_one_right (Nat.cast_nonneg d) hten).trans hword
    linarith [hnear.le.2, edge_pos]
  · exact absurd h (hnone _)

end Numeral
end Switchboard.Json
