import Mathlib.Algebra.Order.Field.Rat
import Mathlib.Tactic.Ring
import Switchboard.Proofs.Json.Written

/-! Numbers, as they are written.

Whatever the digits and the exponent of a decimal are, they are laid out as a numeral of just that
value (`plain_numeral`, `scientific_numeral`), so the text of every number is a numeral
(`Number.text_numeral`). A numeral's characters can be taken apart in one way only
(`Numeral.value_unique`), so a text spells one number. -/
namespace Switchboard.Json
open Decimal

/-! ### Numerals are spelt in one way -/

section Unique

/-- Digits end where something else begins. -/
theorem digits_unique {ds ds' u u' : List Char} (hd : ∀ c ∈ ds, isDigit c = true)
    (hd' : ∀ c ∈ ds', isDigit c = true) (hu : Heads (fun c => !isDigit c) u)
    (hu' : Heads (fun c => !isDigit c) u') (h : ds ++ u = ds' ++ u') : ds = ds' ∧ u = u' := by
  have hrest : u = u' := by rw [← skipDigits_append hd hu, h, skipDigits_append hd' hu']
  subst hrest
  exact ⟨List.append_cancel_right h, rfl⟩

/-- A sign ends where the digits begin. -/
theorem sign_unique {sign sign' ds ds' : List Char} (hs : IsSign sign) (hs' : IsSign sign')
    (hd : ∀ c ∈ ds, isDigit c = true) (hd' : ∀ c ∈ ds', isDigit c = true) (hne : ds ≠ [])
    (hne' : ds' ≠ []) (h : sign ++ ds = sign' ++ ds') : sign = sign' ∧ ds = ds' := by
  obtain ⟨c, v, rfl⟩ := List.exists_cons_of_ne_nil hne
  obtain ⟨c', v', rfl⟩ := List.exists_cons_of_ne_nil hne'
  have hc := hd c (List.mem_cons_self ..)
  have hc' := hd' c' (List.mem_cons_self ..)
  rcases hs with rfl | rfl | rfl <;> rcases hs' with rfl | rfl | rfl <;> cases h
  all_goals first | exact ⟨rfl, rfl⟩ | cases hc | cases hc'

theorem power_unique {p? p'? : Option Power}
    (h : (p?.map Power.chars).getD [] = (p'?.map Power.chars).getD []) :
    p?.map Power.value = p'?.map Power.value := by
  cases p? with
  | none =>
    cases p'? with
    | none => rfl
    | some p' => cases h
  | some p =>
    cases p'? with
    | none => cases h
    | some p' =>
      have hparts : p.sign ++ p.digits = p'.sign ++ p'.digits := (List.cons.inj h).2
      obtain ⟨hs, hd⟩ := sign_unique p.isSign p'.isSign p.isDigits p'.isDigits p.digits_ne
        p'.digits_ne hparts
      simp only [Option.map_some, Power.value, hs, hd]

theorem Numeral.tail_unique {n n' : Numeral} (h : n.tail = n'.tail) :
    n.fraction = n'.fraction ∧ n.power?.map Power.value = n'.power?.map Power.value := by
  have hpower (m : Numeral) : ((m.power?.map Power.chars).getD []).head? ≠ some '.' := by
    cases m.power? with
    | none => exact fun hn => by cases hn
    | some p =>
      intro hp
      have hdot : p.letter = '.' := Option.some.inj hp
      rcases p.letter_mem with hl | hl <;> cases hdot.symm.trans hl
  have hends (m : Numeral) := heads_power m.power? (Heads.nil stopsNumber)
  simp only [List.append_nil] at hends
  unfold tail at h
  by_cases hf : n.fraction = []
  · by_cases hf' : n'.fraction = []
    · rw [if_pos hf, if_pos hf'] at h
      exact ⟨hf.trans hf'.symm, power_unique h⟩
    · rw [if_pos hf, if_neg hf', List.nil_append] at h
      exact absurd (congrArg List.head? h) (hpower n)
  · by_cases hf' : n'.fraction = []
    · rw [if_neg hf, if_pos hf', List.nil_append] at h
      exact absurd (congrArg List.head? h).symm (hpower n')
    · rw [if_neg hf, if_neg hf'] at h
      obtain ⟨hfs, hp⟩ := digits_unique n.isFraction n'.isFraction (hends n) (hends n')
        (List.cons.inj h).2
      exact ⟨hfs, power_unique hp⟩

/-- **A text spells one number.** -/
theorem Numeral.value_unique {n n' : Numeral} (h : n.chars = n'.chars) : n.value = n'.value := by
  have hsame : n.negative = n'.negative ∧ n.unsigned = n'.unsigned := by
    obtain ⟨c, v, hc, hn⟩ := n.front
    obtain ⟨c', v', hc', hn'⟩ := n'.front
    cases hc.symm.trans (h.trans hc')
    rcases hn with ⟨h1, rfl, rfl⟩ | ⟨h1, hd, h2⟩ <;> rcases hn' with ⟨h1', he, h2'⟩ | ⟨h1', hd', h2'⟩
    · exact ⟨h1.trans h1'.symm, h2'⟩
    · cases hd'
    · cases he
      cases hd
    · exact ⟨h1.trans h1'.symm, h2.symm.trans h2'⟩
  have hends (m : Numeral) := m.heads_tail (Heads.nil stopsNumber)
  simp only [List.append_nil] at hends
  obtain ⟨hw, ht⟩ := digits_unique n.isWhole n'.isWhole (hends n) (hends n') hsame.2
  obtain ⟨hf, hp⟩ := Numeral.tail_unique ht
  rw [Numeral.value, Numeral.value, hsame.1, hw, hf, hp]

end Unique

end Switchboard.Json

namespace Switchboard.Decimal

/-! ### Decimals -/

/-- The decimal's number. -/
def Scaled.value (d : Scaled) : ℚ := d.digits * (10 : ℚ) ^ d.exponent

theorem twoPow_pos (e : Int) : 0 < (twoPow e).1 := Nat.pow_pos (by decide)

/-- What the search hits has a digit other than nought. -/
theorem onGrid_digits_ne {m n : Nat} {q : Int} {d : Scaled} (hm : m ≠ 0)
    (h : onGrid m q n = some d) : d.digits ≠ 0 := by
  have hunit : 0 < Nat.pow 10 (-(magnitude m q - (n : Int) + 1)).toNat * (twoPow (q - 2)).1 :=
    Nat.mul_pos (Nat.pow_pos (by decide)) (twoPow_pos _)
  have hslack : 0 < 4 * m - (if m == Nat.pow 2 52 && q != -1074 then 1 else 2) := by
    split <;> omega
  have hlow := Nat.mul_pos hslack hunit
  unfold onGrid at h
  dsimp only at h
  generalize (4 * m - (if m == Nat.pow 2 52 && q != -1074 then 1 else 2)) * _ = low at h hlow
  generalize (4 * m + 2) * _ = high at h
  generalize 4 * m * _ / _ = below at h
  generalize Nat.pow 10 (magnitude m q - (n : Int) + 1).toNat * _ = grid at h
  -- the interval begins above nought
  have inside {c : Nat} (hc : low ≤ c * grid) : c ≠ 0 := by
    rintro rfl
    omega
  have above (k : Int) : (if below + 1 == Nat.pow 10 n then
      (⟨Nat.pow 10 (n - 1), k + 1⟩ : Scaled) else ⟨below + 1, k⟩).digits ≠ 0 := by
    split
    · exact Nat.pos_iff_ne_zero.mp (Nat.pow_pos (by decide))
    · exact Nat.succ_ne_zero _
  split at h <;> split at h
  · rename_i hin
    cases h
    simp only [Bool.and_eq_true, decide_eq_true_eq] at hin
    exact inside hin.1.1
  · split at h <;> cases h
    exact above _
  · rename_i hin
    cases h
    simp only [Bool.and_eq_true, decide_eq_true_eq] at hin
    exact inside (Nat.le_of_lt hin.1.1)
  · split at h <;> cases h
    exact above _

theorem firstHit_digits_ne {m n left : Nat} {q : Int} (hm : m ≠ 0) :
    (firstHit m q n left).digits ≠ 0 := by
  induction left generalizing n with
  | zero => exact hm
  | succ left ih =>
    rw [firstHit]
    split
    · rename_i h
      exact onGrid_digits_ne hm h
    · exact ih

theorem shortest_digits_ne {x : Binary64} (h : x.isZero = false) : (shortest x).digits ≠ 0 := by
  rw [shortest, if_neg (by rw [h]; decide)]
  exact firstHit_digits_ne (by simpa [Binary64.isZero] using h)

end Switchboard.Decimal

namespace Switchboard.Json
open Decimal

/-! ### Decimals laid out -/

/-- Digits of a number, the first of them no nought. -/
structure Leads (ds : List Char) (d : Nat) : Prop where
  digits : ∀ c ∈ ds, isDigit c = true
  ne : ds ≠ []
  head : ds.head? ≠ some '0'
  value : Nat.ofDigitChars 10 ds 0 = d

theorem leads_toDigits {d : Nat} (hd : d ≠ 0) : Leads (Nat.toDigits 10 d) d where
  digits _ hc := isDigit_of_mem_toDigits hc
  ne := Nat.toDigits_ne_nil
  head := by
    obtain ⟨c, v, hds, hc⟩ := toDigits_cons hd
    rw [hds]
    exact fun h => hc (Option.some.inj h)
  value := Nat.ofDigitChars_toDigits (by decide) (by decide)

theorem isDigit_zeros {n : Nat} : ∀ c ∈ zeros n, isDigit c = true := by
  intro c hc
  rw [List.eq_of_mem_replicate hc]
  decide

theorem isDigit_nought : ∀ c ∈ ['0'], isDigit c = true := List.forall_mem_singleton.mpr rfl

theorem length_zeros (n : Nat) : (zeros n).length = n := List.length_replicate

theorem value_zeros (n m : Nat) : Nat.ofDigitChars 10 (zeros n) m = 10 ^ n * m :=
  Nat.ofDigitChars_replicate_zero

variable {ds : List Char} {d : Nat} {e : Int}

/-- The text spells the number behind its sign. -/
def Lays (body : List Char) (q : ℚ) : Prop :=
  ∀ negative, ∃ n : Numeral, n.negative = negative ∧ n.unsigned = body ∧
    n.value = (if negative then -1 else 1) * q

/-- A numeral with the digits of a number, and noughts behind them. -/
theorem Numeral.value_of_digits {n : Numeral} {k : Nat}
    (hd : Nat.ofDigitChars 10 (n.whole ++ n.fraction) 0 = d * 10 ^ k)
    (he : (n.power?.map Power.value).getD 0 - n.fraction.length + k = e) :
    n.value = (if n.negative then -1 else 1) * (d * (10 : ℚ) ^ e) := by
  have hpow : (10 : ℚ) ^ e =
      (10 : ℚ) ^ ((n.power?.map Power.value).getD 0 - (n.fraction.length : Int)) * 10 ^ k := by
    rw [← he]
    exact (zpow_add₀ (by decide) _ _).trans (congrArg _ (zpow_natCast _ _))
  rw [Numeral.value, hd, hpow]
  push_cast
  ring

theorem Leads.head_append (h : Leads ds d) (u : List Char) : (ds ++ u).head? ≠ some '0' := by
  obtain ⟨c, v, rfl⟩ := List.exists_cons_of_ne_nil h.ne
  exact h.head

namespace Leads

/-- With noughts up to the point, and one behind it. -/
theorem lays_noughts (h : Leads ds d) (k : Nat) :
    Lays (ds ++ zeros k ++ ['.', '0']) (d * (10 : ℚ) ^ (k : Int)) := by
  intro negative
  have hdigits : ∀ c ∈ ds ++ zeros k, isDigit c = true := fun c hc =>
    (List.mem_append.mp hc).elim (h.digits c) (isDigit_zeros c)
  refine ⟨⟨negative, ds ++ zeros k, ['0'], none, hdigits, List.append_ne_nil_of_left_ne_nil h.ne _,
    fun h0 => absurd h0 (h.head_append _), isDigit_nought⟩, rfl, ?_,
    Numeral.value_of_digits (k := k + 1) ?_ ?_⟩
  · simp [Numeral.unsigned, Numeral.tail]
  · rw [Nat.ofDigitChars_append, Nat.ofDigitChars_append, h.value, value_zeros]
    show 10 * (10 ^ k * d) + 0 = d * 10 ^ (k + 1)
    ring
  · simp

/-- With a point among them. -/
theorem lays_point (h : Leads ds d) {k : Nat} (hk : k + 1 < ds.length) :
    Lays (ds.take (k + 1) ++ '.' :: ds.drop (k + 1))
      (d * (10 : ℚ) ^ ((k : Int) + 1 - ds.length)) := by
  intro negative
  have htake : ds.take (k + 1) ≠ [] := by
    simpa [List.take_eq_nil_iff] using h.ne
  have hdrop : ds.drop (k + 1) ≠ [] := by
    simpa [List.drop_eq_nil_iff] using hk
  have hhead : (ds.take (k + 1)).head? ≠ some '0' := by
    rw [List.head?_take, if_neg (Nat.succ_ne_zero k)]
    exact h.head
  refine ⟨⟨negative, ds.take (k + 1), ds.drop (k + 1), none,
    fun c hc => h.digits c (List.mem_of_mem_take hc), htake, fun h0 => absurd h0 hhead,
    fun c hc => h.digits c (List.mem_of_mem_drop hc)⟩, rfl, ?_,
    Numeral.value_of_digits (k := 0) ?_ ?_⟩
  · simp [Numeral.unsigned, Numeral.tail, hdrop]
  · rw [List.take_append_drop, h.value]
    ring
  · simp only [Option.map_none, Option.getD_none, List.length_drop]
    omega

/-- Behind a point, with noughts between. -/
theorem lays_behind (h : Leads ds d) (k : Nat) :
    Lays ('0' :: '.' :: (zeros k ++ ds)) (d * (10 : ℚ) ^ (-(k : Int) - ds.length)) := by
  intro negative
  have hdigits : ∀ c ∈ zeros k ++ ds, isDigit c = true := fun c hc =>
    (List.mem_append.mp hc).elim (isDigit_zeros c) (h.digits c)
  have hne : zeros k ++ ds ≠ [] := List.append_ne_nil_of_right_ne_nil _ h.ne
  refine ⟨⟨negative, ['0'], zeros k ++ ds, none, isDigit_nought, List.cons_ne_nil _ _,
    fun _ => rfl, hdigits⟩, rfl, ?_, Numeral.value_of_digits (k := 0) ?_ ?_⟩
  · simp [Numeral.unsigned, Numeral.tail, hne]
  · rw [Nat.ofDigitChars_append, Nat.ofDigitChars_append, value_zeros]
    show Nat.ofDigitChars 10 ds (10 ^ k * 0) = _
    rw [Nat.mul_zero, h.value]
    ring
  · simp only [Option.map_none, Option.getD_none, List.length_append, length_zeros]
    omega

end Leads

/-- The power of ten with this exponent. -/
def Power.ofInt (i : Int) : Power where
  letter := 'e'
  sign := if i < 0 then ['-'] else ['+']
  digits := Nat.toDigits 10 i.natAbs
  letter_mem := .inl rfl
  isSign := by
    split
    · exact .inr (.inr rfl)
    · exact .inr (.inl rfl)
  isDigits _ hc := isDigit_of_mem_toDigits hc
  digits_ne := Nat.toDigits_ne_nil

theorem Power.value_ofInt (i : Int) : (ofInt i).value = i := by
  have hdigits : Nat.ofDigitChars 10 (ofInt i).digits 0 = i.natAbs :=
    Nat.ofDigitChars_toDigits (by decide) (by decide)
  have hsign : (ofInt i).sign = ['-'] ↔ i < 0 := by
    by_cases hi : i < 0 <;> simp [ofInt, hi]
  simp only [value, hdigits, hsign]
  split <;> omega

/-- With one digit before the point, and the power of ten behind the rest. -/
theorem Leads.lays_scientific (h : Leads ds d) (i : Int) :
    Lays (scientific ds i) (d * (10 : ℚ) ^ (i + 1 - ds.length)) := by
  intro negative
  obtain ⟨c, v, rfl⟩ := List.exists_cons_of_ne_nil h.ne
  refine ⟨⟨negative, [c], v, some (.ofInt i),
    fun b hb => h.digits b (List.mem_singleton.mp hb ▸ List.mem_cons_self ..), by simp,
    fun h0 => absurd h0 h.head, fun b hb => h.digits b (List.mem_cons_of_mem c hb)⟩, rfl, ?_,
    Numeral.value_of_digits (k := 0) ?_ ?_⟩
  · cases v <;> by_cases hi : i < 0 <;>
      simp [Numeral.unsigned, Numeral.tail, Power.chars, Power.ofInt, scientific, hi]
  · rw [List.singleton_append, h.value]
    ring
  · simp only [Option.map_some, Option.getD_some, Power.value_ofInt, List.length_cons]
    omega

/-- Plain digits, wherever the point comes to stand. -/
theorem Leads.lays_plain (h : Leads ds d) (e : Int) :
    Lays (plain ds e (e + ds.length - 1)) (d * (10 : ℚ) ^ e) := by
  unfold plain
  split
  · have := h.lays_noughts e.toNat
    rwa [Int.toNat_of_nonneg (by assumption)] at this
  · split
    · have := @Leads.lays_point _ _ h (e + ds.length - 1).toNat (by omega)
      rwa [show ((e + ds.length - 1).toNat : Int) + 1 - ds.length = e by omega] at this
    · have := h.lays_behind (-(e + ds.length - 1) - 1).toNat
      rwa [show -((-(e + ds.length - 1) - 1).toNat : Int) - ds.length = e by omega] at this

/-- However a decimal is laid out, it is the text of its number. -/
theorem Leads.lays_body (h : Leads ds d) (e : Int) (style : Style) :
    Lays (if style.plainFrom ≤ e + ds.length - 1 && e + ds.length - 1 < style.plainBelow then
      plain ds e (e + ds.length - 1) else scientific ds (e + ds.length - 1))
      (d * (10 : ℚ) ^ e) := by
  split
  · exact h.lays_plain e
  · have := h.lays_scientific (e + ds.length - 1)
    rwa [show e + ds.length - 1 + 1 - (ds.length : Int) = e by omega] at this

theorem lays_nought : Lays ['0', '.', '0'] 0 := fun negative =>
  ⟨⟨negative, ['0'], ['0'], none, isDigit_nought, List.cons_ne_nil _ _, fun _ => rfl, isDigit_nought⟩,
    rfl, rfl, by
    rw [Numeral.value, show Nat.ofDigitChars 10 (['0'] ++ ['0']) 0 = 0 by decide]
    simp⟩

/-- What a binary64 is written as, behind its sign, is the text of its shortest decimal. -/
theorem lays_render (style : Style) (x : Binary64) :
    ∃ body, (style.render x).toList = (if x.negative then ['-'] else []) ++ body ∧
      Lays body (shortest x).value := by
  cases hz : x.isZero with
  | true =>
    refine ⟨['0', '.', '0'], ?_, ?_⟩
    · simp [Style.render, hz]
    · have : (shortest x).value = 0 := by simp [shortest, hz, Scaled.value]
      rw [this]
      exact lays_nought
  | false =>
    have := (leads_toDigits (shortest_digits_ne hz)).lays_body (shortest x).exponent style
    refine ⟨_, ?_, this⟩
    simp [Style.render, hz]

/-! ### Texts of numbers -/

/-- The number that the text of the number spells. -/
def Number.spelt : Number → ℚ
  | .whole v _ => v
  | .real x => (if x.negative then -1 else 1) * (shortest x).value

theorem Numeral.value_ofInt (i : Int) : (Numeral.ofNat (decide (i < 0)) i.natAbs).value = i := by
  have hdigits : Nat.ofDigitChars 10 (Nat.toDigits 10 i.natAbs ++ []) 0 = i.natAbs := by
    rw [List.append_nil, Nat.ofDigitChars_toDigits (by decide) (by decide)]
  have hsign : (if i < 0 then -(i.natAbs : ℚ) else i.natAbs) = i := by
    split
    · have : -(i.natAbs : Int) = i := by omega
      rw [← Int.cast_natCast, ← Int.cast_neg, this]
    · have : (i.natAbs : Int) = i := by omega
      rw [← Int.cast_natCast, this]
  simpa [value, ofNat, hdigits] using hsign

/-- **The text of a number is a numeral.** -/
theorem Number.text_numeral (x : Number) :
    ∃ n : Numeral, x.text.toList = n.chars ∧ n.value = x.spelt := by
  cases x with
  | whole v hv => exact ⟨_, Raw.IsWhole.numeral (r := ⟨_⟩) rfl, Numeral.value_ofInt v⟩
  | real x =>
    obtain ⟨body, htext, hbody⟩ := lays_render numberStyle x
    obtain ⟨n, hn, hu, hv⟩ := hbody x.negative
    refine ⟨n, ?_, hv⟩
    rw [Numeral.chars, hn, hu, text, htext]
    split <;> rfl

/-- The number is decoded as one that is written with the very value. -/
def Numeral.Kept (n : Numeral) : Prop :=
  ∀ x, readNumber n.negative n.unsigned = .ok (x, []) → x.spelt = n.value

/-- The digits of a number that is kept exactly are kept. -/
theorem Numeral.kept_whole {n : Numeral} {i : Int} (hi : InWords i)
    (h : n.chars = (toString i).toList) : n.Kept := by
  intro x hx
  have hw : Raw.IsWhole ⟨n.chars⟩ i := h
  have hd : Denotes false 0 ⟨n.chars⟩ (.number (.whole i hi)) := hw.denotes hi
  cases hd.unique ((denotes_numeral rfl).mpr hx)
  exact (Numeral.value_ofInt i).symm.trans (Numeral.value_unique hw.numeral).symm

end Switchboard.Json
