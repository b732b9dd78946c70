import Mathlib.Algebra.Order.Field.Power
import Mathlib.Algebra.Order.Field.Rat
import Mathlib.Tactic.FieldSimp
import Mathlib.Tactic.Linarith
import Mathlib.Tactic.NormNum
import Mathlib.Tactic.Positivity
import Mathlib.Tactic.Ring
import Switchboard.Decimal.Binary64

/-! Rounding to binary64, and when it overflows.

The number that a quotient is rounded to is at most half a unit in the last place away from it
(`Binary64.round_close`), and there is one whenever the quotient is below `2 ^ 1024 - 2 ^ 970`, and
none when it is above (`Binary64.round_of_lt`, `Binary64.le_of_round`). -/
namespace Switchboard.Decimal

theorem two_zpow_pos (e : Int) : 0 < (2 : ℚ) ^ e := zpow_pos (by norm_num) e

theorem twoPow_eq (e : Int) : ((twoPow e).1 : ℚ) = 2 ^ e * (twoPow e).2 := by
  have hsum : (e.toNat : Int) = e + (-e).toNat := by omega
  have hpow := zpow_add₀ (two_ne_zero (α := ℚ)) e (-e).toNat
  rw [← hsum, zpow_natCast, zpow_natCast] at hpow
  simpa [twoPow] using hpow

theorem twoPow_snd_pos (e : Int) : 0 < (twoPow e).2 := Nat.pow_pos (by decide)

/-- The nearest natural number is at most one half away. -/
theorem nearest_close (num : Nat) {den : Nat} (hden : 0 < den) :
    |(nearest num den : ℚ) * den - num| ≤ den / 2 := by
  have hsplit := Nat.div_add_mod num den
  have hmod := Nat.mod_lt num hden
  have hnat : 2 * num ≤ 2 * (nearest num den * den) + den ∧
      2 * (nearest num den * den) ≤ 2 * num + den := by
    unfold nearest
    dsimp only
    generalize num / den = q at hsplit ⊢
    generalize num % den = r at hsplit hmod ⊢
    rw [Nat.mul_comm] at hsplit
    split
    · rename_i h
      simp only [Bool.or_eq_true, Bool.and_eq_true, decide_eq_true_eq, beq_iff_eq] at h
      rw [Nat.add_mul]
      omega
    · rename_i h
      simp only [Bool.or_eq_true, decide_eq_true_eq, not_or] at h
      omega
  have hlow : (2 : ℚ) * num ≤ 2 * (nearest num den * den) + den := by exact_mod_cast hnat.1
  have hhigh : (2 : ℚ) * (nearest num den * den) ≤ 2 * num + den := by exact_mod_cast hnat.2
  exact abs_le.mpr ⟨by linarith, by linarith⟩

namespace Binary64

/-- The number without its sign. -/
def size (x : Binary64) : ℚ := x.mantissa * 2 ^ x.exponent

/-- The unit in the last place of the greatest numbers. -/
def topUnit : ℚ := 2 ^ (971 : Int)

/-- The end of the range, `2 ^ 1024`. -/
def edge : ℚ := 2 ^ 53 * topUnit

/-- What is beyond this, half a unit before the end of the range, is rounded to no number. -/
def bound : ℚ := (2 ^ 53 - 1 / 2) * topUnit

theorem log2_spec {n : Nat} (hn : 0 < n) :
    (2 : ℚ) ^ (n.log2 : Int) ≤ n ∧ (n : ℚ) < 2 ^ ((n.log2 : Int) + 1) := by
  have hlow := Nat.log2_self_le hn.ne'
  have hhigh := Nat.lt_log2_self (n := n)
  rw [zpow_natCast, zpow_add_one₀ two_ne_zero, zpow_natCast, ← pow_succ]
  exact ⟨by exact_mod_cast hlow, by exact_mod_cast hhigh⟩

/-- The power of two of a quotient. -/
theorem floorLog_spec {num den : Nat} (hnum : 0 < num) (hden : 0 < den) :
    (2 : ℚ) ^ floorLog num den * den ≤ num ∧ (num : ℚ) < 2 ^ (floorLog num den + 1) * den := by
  obtain ⟨hn, hn'⟩ := log2_spec hnum
  obtain ⟨hd, hd'⟩ := log2_spec hden
  have hadd (i j : Int) : (2 : ℚ) ^ (i + j) = 2 ^ i * 2 ^ j := zpow_add₀ two_ne_zero i j
  have hcompare (e : Int) :
      den * (twoPow e).1 ≤ num * (twoPow e).2 ↔ (2 : ℚ) ^ e * den ≤ num := by
    have hpos : (0 : ℚ) < (twoPow e).2 := by exact_mod_cast twoPow_snd_pos e
    rw [← Nat.cast_le (α := ℚ), Nat.cast_mul, Nat.cast_mul, twoPow_eq,
      show (den : ℚ) * (2 ^ e * (twoPow e).2) = 2 ^ e * den * (twoPow e).2 by ring,
      mul_le_mul_iff_left₀ hpos]
  unfold floorLog
  dsimp only
  generalize he : (num.log2 : Int) - (den.log2 : Int) = e
  -- a quotient of numbers of these lengths is less than a factor of two away from `2 ^ e`
  have hbelow : (2 : ℚ) ^ (e - 1) * den ≤ num := by
    refine le_trans ?_ hn
    rw [show (num.log2 : Int) = e - 1 + (den.log2 + 1) by omega, hadd (e - 1)]
    exact mul_le_mul_of_nonneg_left hd'.le (two_zpow_pos _).le
  have habove : (num : ℚ) < 2 ^ (e + 1) * den := by
    refine lt_of_lt_of_le hn' ?_
    rw [show (num.log2 : Int) + 1 = e + 1 + den.log2 by omega, hadd (e + 1)]
    exact mul_le_mul_of_nonneg_left hd (two_zpow_pos _).le
  split
  · rename_i h
    exact ⟨(hcompare e).mp h, habove⟩
  · rename_i h
    refine ⟨hbelow, ?_⟩
    rw [sub_add_cancel]
    exact not_le.mp (mt (hcompare e).mpr h)

/-- The exponent of a quotient's last place. -/
def place (num den : Nat) : Int := max (floorLog num den - 52) (-1074)

/-- The units in the last place that a quotient is rounded to. -/
def units (num den : Nat) : Nat :=
  nearest (num * (twoPow (place num den)).2) (den * (twoPow (place num den)).1)

theorem units_close (num : Nat) {den : Nat} (hden : 0 < den) :
    |(units num den : ℚ) * 2 ^ place num den - num / den| ≤ 2 ^ place num den / 2 := by
  unfold units
  generalize place num den = q
  have hb : (0 : ℚ) < (twoPow q).2 := by exact_mod_cast twoPow_snd_pos q
  have hd : (0 : ℚ) < den := by exact_mod_cast hden
  have hunit : 0 < den * (twoPow q).1 := by
    have hpos : (0 : ℚ) < (twoPow q).1 := by
      rw [twoPow_eq]
      exact mul_pos (two_zpow_pos q) hb
    exact Nat.mul_pos hden (by exact_mod_cast hpos)
  have hclose := nearest_close (num * (twoPow q).2) hunit
  generalize nearest _ _ = m at hclose ⊢
  rw [Nat.cast_mul, Nat.cast_mul, twoPow_eq] at hclose
  have hscaled : (m : ℚ) * 2 ^ q - num / den =
      (m * (den * (2 ^ q * (twoPow q).2)) - num * (twoPow q).2) / (den * (twoPow q).2) := by
    field_simp
  rw [hscaled, abs_div, abs_of_pos (mul_pos hd hb), div_le_iff₀ (mul_pos hd hb)]
  exact hclose.trans_eq (by ring)

/-- The quotient is less than all units of its place. -/
theorem lt_place {num den : Nat} (hnum : 0 < num) (hden : 0 < den) :
    (num : ℚ) / den < 2 ^ 53 * 2 ^ place num den := by
  have hd : (0 : ℚ) < den := by exact_mod_cast hden
  rw [div_lt_iff₀ hd]
  refine (floorLog_spec hnum hden).2.trans_le (mul_le_mul_of_nonneg_right ?_ hd.le)
  rw [← zpow_natCast, ← zpow_add₀ two_ne_zero]
  exact zpow_le_zpow_right₀ one_le_two (by unfold place; push_cast; omega)

theorem units_le {num den : Nat} (hnum : 0 < num) (hden : 0 < den) : units num den ≤ 2 ^ 53 := by
  have hclose := (abs_le.mp (units_close num hden)).2
  have hunit := two_zpow_pos (place num den)
  have hlt : (units num den : ℚ) * 2 ^ place num den < (2 ^ 53 + 1) * 2 ^ place num den := by
    linarith [lt_place hnum hden]
  exact Nat.lt_succ_iff.mp (by exact_mod_cast lt_of_mul_lt_mul_right hlt hunit.le)

/-- Rounding, with a mantissa of all units carried into the next place. -/
theorem round_eq (negative : Bool) {num : Nat} (hnum : 0 < num) (den : Nat) :
    round negative num den =
      if units num den = 2 ^ 53 then
        if 971 < place num den + 1 then none else some ⟨negative, 2 ^ 52, place num den + 1⟩
      else if 971 < place num den then none
      else some ⟨negative, units num den, place num den⟩ := by
  have hne : (num == 0) = false := by simpa using hnum.ne'
  have hfull : (units num den == Nat.pow 2 53) = decide (units num den = 2 ^ 53) := rfl
  rw [round, hne, if_neg Bool.false_ne_true]
  dsimp only
  rw [← place, ← units, hfull]
  by_cases h : units num den = 2 ^ 53
  · simp only [h, decide_true, if_true]
    rfl
  · simp only [h, decide_false, Bool.false_eq_true, if_false]

/-- **The number rounded to is at most half a unit away.** -/
theorem round_close {negative : Bool} {num den : Nat} {x : Binary64} (hnum : 0 < num)
    (hden : 0 < den) (h : round negative num den = some x) :
    |x.size - num / den| ≤ 2 ^ place num den / 2 := by
  have hclose := units_close num hden
  rw [round_eq negative hnum] at h
  split at h
  · rename_i hunits
    split at h
    · cases h
    · cases h
      have hsize : (((2 ^ 52 : Nat)) : ℚ) * 2 ^ (place num den + 1) =
          units num den * 2 ^ place num den := by
        rw [hunits, zpow_add_one₀ two_ne_zero]
        push_cast
        ring
      rw [size, hsize]
      exact hclose
  · split at h
    · cases h
    · cases h
      exact hclose

theorem topUnit_pos : 0 < topUnit := two_zpow_pos 971

theorem edge_eq : edge = 2 ^ 1024 := (pow_add 2 53 971).symm

/-- A quotient that is not beneath the least place has all its digits. -/
theorem le_place {num den : Nat} (hnum : 0 < num) (hden : 0 < den) (h : -1074 < place num den) :
    2 ^ 52 * 2 ^ place num den ≤ (num : ℚ) / den := by
  have hd : (0 : ℚ) < den := by exact_mod_cast hden
  rw [le_div_iff₀ hd]
  refine le_trans (mul_le_mul_of_nonneg_right (le_of_eq ?_) hd.le) (floorLog_spec hnum hden).1
  rw [← zpow_natCast, ← zpow_add₀ two_ne_zero]
  unfold place at h ⊢
  exact congrArg _ (by push_cast; omega)

/-- Quotients below the bound are rounded to a number. -/
theorem round_of_lt (negative : Bool) {num den : Nat} (hden : 0 < den)
    (h : (num : ℚ) / den < bound) : ∃ x, round negative num den = some x := by
  rcases Nat.eq_zero_or_pos num with rfl | hnum
  · exact ⟨_, rfl⟩
  rw [bound] at h
  rw [round_eq negative hnum]
  by_cases hunits : units num den = 2 ^ 53
  · have hclose := (abs_le.mp (units_close num hden)).2
    rw [hunits] at hclose
    push_cast at hclose
    have hplace : place num den < 971 := by
      by_contra hq
      have htop : topUnit ≤ 2 ^ place num den := zpow_le_zpow_right₀ one_le_two (not_lt.mp hq)
      linarith
    rw [if_pos hunits, if_neg (by omega)]
    exact ⟨_, rfl⟩
  · have hplace : place num den ≤ 971 := by
      by_contra hq
      have hle := le_place hnum hden (by omega)
      have htwo : topUnit * 2 ≤ 2 ^ place num den := by
        rw [topUnit, ← zpow_add_one₀ two_ne_zero]
        exact zpow_le_zpow_right₀ one_le_two (by omega)
      linarith [topUnit_pos]
    rw [if_neg hunits, if_neg (by omega)]
    exact ⟨_, rfl⟩

/-- Only what is not beyond the bound is rounded to a number. -/
theorem le_of_round {negative : Bool} {num den : Nat} {x : Binary64} (hden : 0 < den)
    (h : round negative num den = some x) : (num : ℚ) / den ≤ bound := by
  rw [bound]
  rcases Nat.eq_zero_or_pos num with rfl | hnum
  · rw [Nat.cast_zero, zero_div]
    exact mul_nonneg (by norm_num) topUnit_pos.le
  rw [round_eq negative hnum] at h
  have hpos := two_zpow_pos (place num den)
  by_cases hunits : units num den = 2 ^ 53
  · rw [if_pos hunits] at h
    split at h
    · cases h
    · rename_i hplace
      have htwo : (2 : ℚ) ^ place num den * 2 ≤ topUnit := by
        rw [topUnit, ← zpow_add_one₀ two_ne_zero]
        exact zpow_le_zpow_right₀ one_le_two (not_lt.mp hplace)
      linarith [lt_place hnum hden]
  · rw [if_neg hunits] at h
    split at h
    · cases h
    · rename_i hplace
      have hclose := (abs_le.mp (units_close num hden)).1
      have hle : (units num den : ℚ) ≤ 2 ^ 53 - 1 := by
        have := units_le hnum hden
        have hlt : units num den + 1 ≤ 2 ^ 53 := by omega
        have : (units num den : ℚ) + 1 ≤ 2 ^ 53 := by exact_mod_cast hlt
        linarith
      have htop : (2 : ℚ) ^ place num den ≤ topUnit :=
        zpow_le_zpow_right₀ one_le_two (not_lt.mp hplace)
      have hmul := mul_le_mul_of_nonneg_right hle hpos.le
      linarith

/-! ### Natural numbers, products and quotients -/

theorem size_nonneg (x : Binary64) : 0 ≤ x.size :=
  mul_nonneg (Nat.cast_nonneg _) (two_zpow_pos _).le

theorem floorLog_nonneg {n : Nat} (hn : 0 < n) : 0 ≤ floorLog n 1 := by
  have hlt := (floorLog_spec hn Nat.one_pos).2
  have hone : (1 : ℚ) ≤ n := by exact_mod_cast hn
  rw [Nat.cast_one, mul_one] at hlt
  have := (one_lt_zpow_iff_right₀ one_lt_two).mp (hone.trans_lt hlt)
  omega

/-- A natural number is rounded to one that is closer than its 53rd digit. -/
theorem ofNat_close {n : Nat} (h : (n : ℚ) < bound) : |(ofNat n).size - n| ≤ n / 2 ^ 53 := by
  rcases Nat.eq_zero_or_pos n with rfl | hn
  · have hzero : (ofNat 0).size = 0 := zero_mul _
    rw [hzero, Nat.cast_zero, sub_zero, abs_zero, zero_div]
  have hlt : (n : ℚ) / (1 : Nat) < bound := by rwa [Nat.cast_one, div_one]
  obtain ⟨x, hx⟩ := round_of_lt false Nat.one_pos hlt
  have hclose := round_close hn Nat.one_pos hx
  rw [Nat.cast_one, div_one] at hclose
  rw [ofNat, hx, Option.getD_some]
  refine hclose.trans ?_
  have hlog := (floorLog_spec hn Nat.one_pos).1
  have hplace : place n 1 + 52 = floorLog n 1 := by
    have := floorLog_nonneg hn
    unfold place
    omega
  rw [Nat.cast_one, mul_one, ← hplace, zpow_add₀ two_ne_zero] at hlog
  norm_num at hlog ⊢
  linarith

/-- What is rounded to is not more than twice as great, beneath one. -/
theorem size_le_of_round {negative : Bool} {num den : Nat} {x : Binary64} (hden : 0 < den)
    (h : round negative num den = some x) : x.size ≤ 2 * ((num : ℚ) / den) + 1 := by
  have hd : (0 : ℚ) < den := by exact_mod_cast hden
  rcases Nat.eq_zero_or_pos num with rfl | hnum
  · cases h
    rw [size, zero, Nat.cast_zero, zero_mul, zero_div]
    norm_num
  have hclose := (abs_le.mp (round_close hnum hden h)).2
  have hnonneg : (0 : ℚ) ≤ num / den := by positivity
  have hunit : (2 : ℚ) ^ place num den ≤ num / den + 1 := by
    have hlog := (floorLog_spec hnum hden).1
    rw [← le_div_iff₀ hd] at hlog
    rcases le_or_gt (floorLog num den - 52) (-1074) with hle | hlt
    · have : (2 : ℚ) ^ place num den ≤ 1 := by
        rw [place, max_eq_right hle]
        exact zpow_le_one_of_nonpos₀ one_le_two (by decide)
      linarith
    · have : (2 : ℚ) ^ place num den ≤ 2 ^ floorLog num den := by
        rw [place, max_eq_left hlt.le]
        exact zpow_le_zpow_right₀ one_le_two (by omega)
      linarith
  linarith

/-! The same of a quotient times a power of two. -/

section Scaled
variable {negative : Bool} {num den : Nat} {e : Int} {x : Binary64}

theorem scaled_eq (num den : Nat) (e : Int) :
    ((num * (twoPow e).1 : Nat) : ℚ) / (den * (twoPow e).2 : Nat) = num / den * 2 ^ e := by
  have hb : ((twoPow e).2 : ℚ) ≠ 0 := by exact_mod_cast (twoPow_snd_pos e).ne'
  rw [Nat.cast_mul, Nat.cast_mul, twoPow_eq]
  field_simp

theorem roundScaled_of_lt (negative : Bool) (hden : 0 < den)
    (h : (num : ℚ) / den * 2 ^ e < bound) : ∃ x, roundScaled negative num den e = some x :=
  round_of_lt negative (Nat.mul_pos hden (twoPow_snd_pos e)) ((scaled_eq num den e).trans_lt h)

theorem le_of_roundScaled (hden : 0 < den) (h : roundScaled negative num den e = some x) :
    (num : ℚ) / den * 2 ^ e ≤ bound :=
  (scaled_eq num den e).symm.trans_le (le_of_round (Nat.mul_pos hden (twoPow_snd_pos e)) h)

theorem size_le_of_roundScaled (hden : 0 < den) (h : roundScaled negative num den e = some x) :
    x.size ≤ 2 * ((num : ℚ) / den * 2 ^ e) + 1 :=
  scaled_eq num den e ▸ size_le_of_round (Nat.mul_pos hden (twoPow_snd_pos e)) h

end Scaled

theorem times_eq (x y : Binary64) :
    (x.mantissa * y.mantissa : Nat) / (1 : Nat) * 2 ^ (x.exponent + y.exponent) =
      x.size * y.size := by
  rw [size, size, Nat.cast_one, div_one, Nat.cast_mul, zpow_add₀ two_ne_zero]
  ring

theorem times_of_lt {x y : Binary64} (h : x.size * y.size < bound) : ∃ z, x.times y = some z :=
  roundScaled_of_lt x.negative Nat.one_pos ((times_eq x y).trans_lt h)

theorem le_of_times {x y z : Binary64} (h : x.times y = some z) : x.size * y.size ≤ bound :=
  (times_eq x y).symm.trans_le (le_of_roundScaled Nat.one_pos h)

theorem dividedBy_eq (x y : Binary64) :
    x.mantissa / y.mantissa * 2 ^ (x.exponent - y.exponent) = x.size / y.size := by
  rw [size, size, zpow_sub₀ two_ne_zero]
  exact div_mul_div_comm _ _ _ _

theorem dividedBy_of_lt {x y : Binary64} (hy : 0 < y.size) (h : x.size / y.size < bound) :
    ∃ z, x.dividedBy y = some z ∧ z.size ≤ 2 * (x.size / y.size) + 1 := by
  have hmantissa : 0 < y.mantissa := by
    refine Nat.pos_of_ne_zero fun h0 => hy.ne' ?_
    rw [size, h0, Nat.cast_zero, zero_mul]
  obtain ⟨z, hz⟩ := roundScaled_of_lt x.negative hmantissa ((dividedBy_eq x y).trans_lt h)
  exact ⟨z, hz, (size_le_of_roundScaled hmantissa hz).trans_eq (by rw [dividedBy_eq])⟩

end Binary64
end Switchboard.Decimal
