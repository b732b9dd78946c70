import Mathlib.Data.Rat.Defs
import Mathlib.Algebra.Order.Ring.Rat
import Switchboard.Proofs.Json.Words

/-! Numbers, as they may be spelt.

A numeral has digits, and perhaps a sign, a fraction and a power of ten. Skimming takes every
numeral (`skimNumber_numeral`, `skimNumber_numerals`). One is read as a whole number or as digits
to a power of ten (`readNumber_cases`), whatever follows it (`readNumber_settles`), and
`Numeral.value` is the exact number that it spells. -/
namespace Switchboard.Json

/-- A power of ten at the end of a number. -/
structure Power where
  letter : Char
  sign : List Char
  digits : List Char
  letter_mem : letter = 'e' ∨ letter = 'E'
  isSign : IsSign sign
  isDigits : ∀ c ∈ digits, isDigit c = true
  digits_ne : digits ≠ []

/-- A number as it is spelt, after its sign: no digit follows a leading nought. -/
structure Numeral where
  negative : Bool
  whole : List Char
  fraction : List Char
  power? : Option Power
  isWhole : ∀ c ∈ whole, isDigit c = true
  whole_ne : whole ≠ []
  leading : whole.head? = some '0' → whole = ['0']
  isFraction : ∀ c ∈ fraction, isDigit c = true

def Power.chars (p : Power) : List Char := p.letter :: (p.sign ++ p.digits)

namespace Numeral

/-- What follows the digits before the point. -/
def tail (n : Numeral) : List Char :=
  (if n.fraction = [] then [] else '.' :: n.fraction) ++ (n.power?.map Power.chars).getD []

/-- The spelling after the sign. -/
def unsigned (n : Numeral) : List Char := n.whole ++ n.tail

def chars (n : Numeral) : List Char := if n.negative then '-' :: n.unsigned else n.unsigned

end Numeral

variable {α : Type} {width : Char → Nat}

/-! ### Reading that does not depend on what follows -/

/-- Whatever stops a number behind the text, the text is read alike, or never. -/
def Settles (f : List Char → Except Halt (α × List Char)) (t : List Char) : Prop :=
  (∃ a, ∀ u, Stops u → f (t ++ u) = .ok (a, u)) ∨ ∀ u, Stops u → ∀ x, f (t ++ u) ≠ .ok x

/-- Of the digits, `taken` go into the number that begins with `n`, and the rest does not fit. -/
structure Cut (n : Nat) (ds taken rest : List Char) : Prop where
  parts : ds = taken ++ rest
  fits : n < 18446744073709551616 → Nat.ofDigitChars 10 taken n < 18446744073709551616
  full : rest ≠ [] → 18446744073709551616 ≤ Nat.ofDigitChars 10 taken n * 10 + 9

theorem ofDigitChars_digit (c : Char) (ds : List Char) (n : Nat) :
    Nat.ofDigitChars 10 (c :: ds) n = Nat.ofDigitChars 10 ds (n * 10 + digitOf c) := by
  rw [Nat.ofDigitChars_cons, Nat.mul_comm]
  rfl

/-- As many digits are taken, whatever follows them. -/
theorem exists_cut {ds : List Char} (hd : ∀ c ∈ ds, isDigit c = true) (n : Nat) :
    ∃ taken rest, Cut n ds taken rest ∧ ∀ count w, Heads (fun c => !isDigit c) w →
      takeDigits n count (ds ++ w) =
        (Nat.ofDigitChars 10 taken n, count + taken.length, rest ++ w) := by
  induction ds generalizing n with
  | nil =>
    refine ⟨[], [], ⟨rfl, id, fun h => absurd rfl h⟩, fun count w hw => ?_⟩
    cases w with
    | nil => rfl
    | cons c w =>
      have hc : isDigit c = false := by simpa using Heads.cons_iff.mp hw
      simp [takeDigits, hc]
  | cons d ds ih =>
    have hdigit := hd d (List.mem_cons_self ..)
    by_cases hfits : n * 10 + digitOf d < 18446744073709551616
    · obtain ⟨taken, rest, hcut, htake⟩ :=
        ih (fun c hc => hd c (List.mem_cons_of_mem d hc)) (n * 10 + digitOf d)
      rw [← ofDigitChars_digit] at htake
      refine ⟨d :: taken, rest, ⟨congrArg (d :: ·) hcut.parts, ?_, ?_⟩, fun count w hw => ?_⟩
      · exact fun _ => ofDigitChars_digit d taken n ▸ hcut.fits hfits
      · exact ofDigitChars_digit d taken n ▸ hcut.full
      · simp only [List.cons_append, takeDigits, hdigit, Bool.true_and, decide_eq_true hfits,
          if_true, htake (count + 1) w hw, List.length_cons]
        rw [Nat.add_assoc, Nat.add_comm 1]
    · have hlt := (digit_cases hdigit).1
      refine ⟨[], d :: ds, ⟨rfl, id, fun _ => ?_⟩, fun count w _ => ?_⟩
      · show 18446744073709551616 ≤ n * 10 + 9
        omega
      · simp only [List.cons_append, takeDigits, decide_eq_false hfits, Bool.and_false,
          Bool.false_eq_true, if_false]
        rfl

/-- The digits of an exponent are read as the number that they spell, if that is below `2 ^ 31`. -/
theorem takeExponent_fits {ds : List Char} (hd : ∀ c ∈ ds, isDigit c = true) {n : Nat}
    (hn : Nat.ofDigitChars 10 ds n < 2147483648) {w : List Char}
    (hw : Heads (fun c => !isDigit c) w) :
    takeExponent n (ds ++ w) = .ok (Nat.ofDigitChars 10 ds n, w) := by
  induction ds generalizing n with
  | nil =>
    cases w with
    | nil => rfl
    | cons c w =>
      have hc : isDigit c = false := by simpa using Heads.cons_iff.mp hw
      simp [takeExponent, hc]
  | cons d ds ih =>
    rw [ofDigitChars_digit] at hn ⊢
    have hfits := (ofDigitChars_mono ds (Nat.le_refl (n * 10 + digitOf d))).trans_lt hn
    simp only [List.cons_append, takeExponent, hd d (List.mem_cons_self ..), if_true,
      if_pos hfits]
    exact ih (fun c hc => hd c (List.mem_cons_of_mem d hc)) hn

theorem takeExponent_beyond {ds : List Char} (hd : ∀ c ∈ ds, isDigit c = true) {n : Nat}
    (hn : n < 2147483648) (hbig : 2147483648 ≤ Nat.ofDigitChars 10 ds n) :
    ∃ rest, (∀ c ∈ rest, isDigit c = true) ∧
      ∀ w, takeExponent n (ds ++ w) = .error (rest ++ w) := by
  induction ds generalizing n with
  | nil => exact absurd hn (Nat.not_lt.mpr hbig)
  | cons d ds ih =>
    rw [ofDigitChars_digit] at hbig
    have hdigit := hd d (List.mem_cons_self ..)
    have hrest : ∀ c ∈ ds, isDigit c = true := fun c hc => hd c (List.mem_cons_of_mem d hc)
    by_cases hfits : n * 10 + digitOf d < 2147483648
    · simp only [List.cons_append, takeExponent, hdigit, if_true, if_pos hfits]
      exact ih hrest hfits hbig
    · refine ⟨ds, hrest, fun w => ?_⟩
      simp only [List.cons_append, takeExponent, hdigit, if_true, if_neg hfits]

/-! ### The end of a number -/

theorem realNumber_settles (negative : Bool) (digits : Nat) (e : Int) :
    Settles (realNumber negative digits e) [] := by
  cases hx : scaleTen (Decimal.Binary64.ofNat digits) e with
  | none =>
    refine .inr fun u _ x => ?_
    simp [realNumber, hx]
  | some x =>
    refine .inl ⟨.real { x with negative := negative }, fun u _ => ?_⟩
    simp [realNumber, hx]

theorem readExponent_signed {sign : List Char} (hs : IsSign sign) {negative : Bool} {digits : Nat}
    {e : Int} {c : Char} (hc : isDigit c = true) (v : List Char) :
    readExponent negative digits e (sign ++ c :: v) =
      match takeExponent (digitOf c) v with
      | .ok (k, rest) =>
        realNumber negative digits (if sign = ['-'] then e - (k : Int) else e + (k : Int)) rest
      | .error rest =>
        if digits ≠ 0 ∧ sign ≠ ['-'] then .error (.before .numberOutOfRange rest)
        else .ok (.real (Decimal.Binary64.zero negative), skipDigits rest) := by
  rcases hs with rfl | rfl | rfl
  · have h1 : c ≠ '+' := by rintro rfl; cases hc
    have h2 : c ≠ '-' := by rintro rfl; cases hc
    cases ht : takeExponent (digitOf c) v <;> simp [readExponent, h1, h2, hc, ht]
  · cases ht : takeExponent (digitOf c) v <;> simp [readExponent, hc, ht]
  · cases ht : takeExponent (digitOf c) v <;> simp [readExponent, hc, ht]

def Power.size (p : Power) : Nat := Nat.ofDigitChars 10 p.digits 0

def Power.value (p : Power) : Int :=
  if p.sign = ['-'] then -(Nat.ofDigitChars 10 p.digits 0 : Int) else Nat.ofDigitChars 10 p.digits 0

theorem Power.value_eq (p : Power) :
    p.value = if p.sign = ['-'] then -(p.size : Int) else p.size := rfl

/-- How a number ends that has a power behind its digits, or none. -/
theorem readPower_none {negative : Bool} {digits : Nat} {e : Int} {u : List Char} (hu : Stops u) :
    readPower negative digits e u = realNumber negative digits e u := by
  cases u with
  | nil => rfl
  | cons c u =>
    have h1 := hu.ne (d := 'e') (by decide)
    have h2 := hu.ne (d := 'E') (by decide)
    simp [readPower, h1, h2]

section Power
variable (p : Power) {negative : Bool} {digits : Nat} {e : Int} {u : List Char}

theorem readPower_chars (u : List Char) :
    readPower negative digits e (p.chars ++ u) =
      readExponent negative digits e (p.sign ++ p.digits ++ u) := by
  rcases p.letter_mem with h | h <;> simp [Power.chars, h, readPower]

theorem readExponent_fits (h : p.size < 2147483648) (hu : Stops u) :
    readExponent negative digits e (p.sign ++ p.digits ++ u) =
      realNumber negative digits (e + p.value) u := by
  obtain ⟨c, ds, hds⟩ := List.exists_cons_of_ne_nil p.digits_ne
  have hall := p.isDigits
  rw [hds] at hall
  have hsize : p.size = Nat.ofDigitChars 10 ds (digitOf c) := by
    rw [Power.size, hds, ofDigitChars_digit, Nat.zero_mul, Nat.zero_add]
  rw [hsize] at h
  rw [hds, List.append_assoc, List.cons_append,
    readExponent_signed p.isSign (hall c (List.mem_cons_self ..)),
    takeExponent_fits (fun d hd => hall d (List.mem_cons_of_mem c hd)) h hu.not_digit,
    Power.value_eq, hsize]
  by_cases hsign : p.sign = ['-']
  · simp only [if_pos hsign, Int.sub_eq_add_neg]
  · simp only [if_neg hsign]

/-- A power that does not fit makes what is not nought too great, or so small that it is nought. -/
theorem readExponent_beyond (h : 2147483648 ≤ p.size) :
    (digits = 0 ∨ p.sign = ['-'] → ∀ u, Stops u →
      readExponent negative digits e (p.sign ++ p.digits ++ u) =
        .ok (.real (Decimal.Binary64.zero negative), u)) ∧
    (digits ≠ 0 → p.sign ≠ ['-'] → ∀ u x,
      readExponent negative digits e (p.sign ++ p.digits ++ u) ≠ .ok x) := by
  obtain ⟨c, ds, hds⟩ := List.exists_cons_of_ne_nil p.digits_ne
  have hall := p.isDigits
  rw [hds] at hall
  have hc := hall c (List.mem_cons_self ..)
  have hlt := (digit_cases hc).1
  rw [Power.size, hds, ofDigitChars_digit, Nat.zero_mul, Nat.zero_add] at h
  obtain ⟨rest, hrest, htake⟩ :=
    takeExponent_beyond (fun d hd => hall d (List.mem_cons_of_mem c hd)) (by omega) h
  have hread (u : List Char) : readExponent negative digits e (p.sign ++ p.digits ++ u) =
      if digits ≠ 0 ∧ p.sign ≠ ['-'] then .error (.before .numberOutOfRange (rest ++ u))
      else .ok (.real (Decimal.Binary64.zero negative), skipDigits (rest ++ u)) := by
    rw [hds, List.append_assoc, List.cons_append, readExponent_signed p.isSign hc, htake]
  constructor
  · intro hzero u hu
    rw [hread, if_neg fun ⟨hne, hsign⟩ => hzero.elim hne hsign,
      skipDigits_append hrest hu.not_digit]
  · intro hne hsign u x
    rw [hread, if_pos ⟨hne, hsign⟩]
    exact fun h => by cases h

end Power

theorem readPower_settles (p? : Option Power) (negative : Bool) (digits : Nat) (e : Int) :
    Settles (readPower negative digits e) ((p?.map Power.chars).getD []) := by
  -- what is behind the digits is a number to the power, unless that does not fit
  have of_real {t : List Char} {k : Int} (hread : ∀ u, Stops u →
      readPower negative digits e (t ++ u) = realNumber negative digits k u) :
      Settles (readPower negative digits e) t := by
    rcases realNumber_settles negative digits k with ⟨n, hn⟩ | hnone
    · exact .inl ⟨n, fun u hu => (hread u hu).trans (hn u hu)⟩
    · exact .inr fun u hu x => (hread u hu).symm ▸ hnone u hu x
  cases p? with
  | none => exact of_real fun u hu => readPower_none hu
  | some p =>
    rcases Nat.lt_or_ge p.size 2147483648 with hfits | hbig
    · exact of_real fun u hu => (readPower_chars p u).trans (readExponent_fits p hfits hu)
    · obtain ⟨hzero, hnone⟩ := @readExponent_beyond p negative digits e hbig
      by_cases h : digits = 0 ∨ p.sign = ['-']
      · exact .inl ⟨_, fun u hu => (readPower_chars p u).trans (hzero h u hu)⟩
      · obtain ⟨hne, hsign⟩ := not_or.mp h
        exact .inr fun u _ x => (readPower_chars p u).symm ▸ hnone hne hsign u x

theorem heads_power (p? : Option Power) {u : List Char} (hu : Stops u) :
    Heads (fun c => !isDigit c) ((p?.map Power.chars).getD [] ++ u) := by
  cases p? with
  | none => exact hu.not_digit
  | some p =>
    refine Heads.cons_iff.mpr ?_
    rcases p.letter_mem with h | h <;> rw [h] <;> decide

/-! ### The whole number -/

theorem Numeral.heads_tail (n : Numeral) {u : List Char} (hu : Stops u) :
    Heads (fun c => !isDigit c) (n.tail ++ u) := by
  unfold tail
  by_cases hf : n.fraction = []
  · rw [if_pos hf]
    exact heads_power n.power? hu
  · rw [if_neg hf]
    exact Heads.cons_iff.mpr (by decide)

/-- A fraction, with what may follow its digits. -/
theorem readFraction_digits {fs : List Char} (hd : ∀ c ∈ fs, isDigit c = true) (hne : fs ≠ [])
    (negative : Bool) (digits : Nat) (e : Int) :
    ∃ taken rest, Cut digits fs taken rest ∧ ∀ w, Heads (fun c => !isDigit c) w →
      readFraction negative digits e (fs ++ w) =
        readPower negative (Nat.ofDigitChars 10 taken digits) (e - (taken.length : Int)) w := by
  obtain ⟨taken, rest, hcut, htake⟩ := exists_cut hd digits
  refine ⟨taken, rest, hcut, fun w hw => ?_⟩
  simp only [readFraction, htake 0 w hw, Nat.zero_add]
  cases rest with
  | cons c rest =>
    have hrest : ∀ d ∈ c :: rest, isDigit d = true :=
      fun d hd' => hd d (hcut.parts ▸ List.mem_append_right taken hd')
    have hskip := skipDigits_append hrest hw
    simp only [List.cons_append] at hskip ⊢
    simp only [hrest c (List.mem_cons_self ..), if_true, hskip]
  | nil =>
    have hpos : taken.length ≠ 0 := by
      rw [hcut.parts, List.append_nil] at hne
      exact List.length_eq_zero_iff.not.mpr hne
    cases w with
    | nil => simp [hpos, readPower]
    | cons c w =>
      have hc : isDigit c = false := by simpa using Heads.cons_iff.mp hw
      simp [hc, hpos]

/-- What follows digits that do not fit 64 bits. -/
def readLong (negative : Bool) (digits : Nat) (e : Int) :
    List Char → Except Halt (Number × List Char)
  | '.' :: r => readFraction negative digits e r
  | s => readPower negative digits e s

theorem readLong_power (p? : Option Power) (negative : Bool) (digits : Nat) (e : Int)
    {u : List Char} (hu : Stops u) :
    readLong negative digits e ((p?.map Power.chars).getD [] ++ u) =
      readPower negative digits e ((p?.map Power.chars).getD [] ++ u) := by
  cases p? with
  | none =>
    cases u with
    | nil => rfl
    | cons c u =>
      have hdot := hu.ne (d := '.') (by decide)
      simp [readLong, hdot]
  | some p => rcases p.letter_mem with h | h <;> simp [Power.chars, h, readLong]

/-- What may follow digits that fit 64 bits is read as a power. -/
theorem readNumber_tail_chars (p : Power) (negative : Bool) (digits : Nat) (u : List Char) :
    readNumber.tail negative digits (p.chars ++ u) =
      readPower negative digits 0 (p.chars ++ u) := by
  rcases p.letter_mem with h | h <;> simp [Power.chars, h, readPower, readNumber.tail]

theorem readNumber_nought {negative : Bool} {w : List Char} (hw : Heads (fun c => !isDigit c) w) :
    readNumber negative ('0' :: w) = readNumber.tail negative 0 w := by
  cases w with
  | nil => rfl
  | cons c w =>
    have hc : isDigit c = false := by simpa using Heads.cons_iff.mp hw
    rw [readNumber]
    simp only [hc, Bool.false_eq_true, if_false]

/-- A number with digits of which `rest` did not fit 64 bits. -/
theorem readNumber_long {negative : Bool} {c : Char} (h0 : c ≠ '0') (hc : isDigit c = true)
    {s rest w : List Char} {m k : Nat} (hrest : ∀ c ∈ rest, isDigit c = true)
    (hw : Heads (fun c => !isDigit c) w) (ht : takeDigits (digitOf c) 1 s = (m, k, rest ++ w)) :
    readNumber negative (c :: s) =
      if rest = [] then readNumber.tail negative m w
      else readLong negative m rest.length w := by
  rw [readNumber]
  case x_1 => exact h0
  simp only [hc, if_true, ht]
  cases rest with
  | nil =>
    cases w with
    | nil => rfl
    | cons d w =>
      have hd : isDigit d = false := by simpa using Heads.cons_iff.mp hw
      simp [hd]
  | cons d rest =>
    have hskip := skipDigits_append hrest hw
    simp only [List.cons_append] at hskip ⊢
    have hlen : ((((d :: (rest ++ w)).length - w.length : Nat)) : Int) =
        ((d :: rest).length : Nat) := by
      simp only [List.length_cons, List.length_append]
      omega
    simp only [hrest d (List.mem_cons_self ..), if_true, hskip, hlen, reduceCtorEq, if_false]
    rfl

/-- The digits before the point, and how what follows them is read. -/
theorem readNumber_whole_digits (n : Numeral) (negative : Bool) :
    ∃ taken rest, Cut 0 n.whole taken rest ∧ ∀ w, Heads (fun c => !isDigit c) w →
      readNumber negative (n.whole ++ w) =
        if rest = [] then readNumber.tail negative (Nat.ofDigitChars 10 taken 0) w
        else readLong negative (Nat.ofDigitChars 10 taken 0) rest.length w := by
  obtain ⟨c, ds, hwhole⟩ := List.exists_cons_of_ne_nil n.whole_ne
  by_cases h0 : c = '0'
  · have hzero : n.whole = ['0'] := n.leading (by rw [hwhole, h0]; rfl)
    rw [hzero]
    exact ⟨['0'], [], ⟨rfl, fun _ => by decide, fun h => absurd rfl h⟩,
      fun w hw => (readNumber_nought hw).trans (if_pos rfl).symm⟩
  · have hall := n.isWhole
    rw [hwhole] at hall ⊢
    obtain ⟨taken, rest, hcut, htake⟩ :=
      exists_cut (fun d hd => hall d (List.mem_cons_of_mem c hd)) (digitOf c)
    have hdigit := digit_cases (hall c (List.mem_cons_self ..))
    have hvalue : Nat.ofDigitChars 10 (c :: taken) 0 = Nat.ofDigitChars 10 taken (digitOf c) := by
      rw [ofDigitChars_digit, Nat.zero_mul, Nat.zero_add]
    refine ⟨c :: taken, rest, ⟨congrArg (c :: ·) hcut.parts, fun _ => ?_, ?_⟩, fun w hw => ?_⟩
    · exact hvalue ▸ hcut.fits (by omega)
    · exact hvalue ▸ hcut.full
    · rw [hvalue]
      refine readNumber_long h0 (hall c (List.mem_cons_self ..)) (fun d hd => ?_) hw (htake 1 w hw)
      exact hall d (List.mem_cons_of_mem c (hcut.parts ▸ List.mem_append_right taken hd))

section Cases
variable {n : Numeral} {negative : Bool} {m : Nat}

/-- Behind a point there are digits, as far as they fit, and perhaps a power. -/
theorem readNumber_point {f : List Char → Except Halt (Number × List Char)} {e : Int}
    (hf : n.fraction ≠ [])
    (hread : ∀ w, Heads (fun c => !isDigit c) w → readNumber negative (n.whole ++ w) = f w)
    (hpoint : ∀ r, f ('.' :: r) = readFraction negative m e r) :
    ∃ taken rest, Cut m n.fraction taken rest ∧ ∀ u, Stops u →
      readNumber negative (n.unsigned ++ u) =
        readPower negative (Nat.ofDigitChars 10 taken m) (e - (taken.length : Int))
          ((n.power?.map Power.chars).getD [] ++ u) := by
  obtain ⟨taken, rest, hcut, hfraction⟩ := readFraction_digits n.isFraction hf negative m e
  refine ⟨taken, rest, hcut, fun u hu => ?_⟩
  rw [Numeral.unsigned, List.append_assoc, hread _ (n.heads_tail hu), Numeral.tail, if_neg hf,
    List.append_assoc, List.cons_append, hpoint, hfraction _ (heads_power n.power? hu)]

/-- Digits before the point that all fit. -/
theorem readNumber_short
    (hread : ∀ w, Heads (fun c => !isDigit c) w →
      readNumber negative (n.whole ++ w) = readNumber.tail negative m w) :
    (n.fraction = [] ∧ n.power? = none ∧ ∀ u, Stops u →
      readNumber negative (n.unsigned ++ u) = .ok (wholeNumber negative m, u)) ∨
    ∃ taken rest, Cut m n.fraction taken rest ∧ ∀ u, Stops u →
      readNumber negative (n.unsigned ++ u) =
        readPower negative (Nat.ofDigitChars 10 taken m) (0 - (taken.length : Int))
          ((n.power?.map Power.chars).getD [] ++ u) := by
  by_cases hf : n.fraction = []
  · have htail (u : List Char) (hu : Stops u) : readNumber negative (n.unsigned ++ u) =
        readNumber.tail negative m ((n.power?.map Power.chars).getD [] ++ u) := by
      rw [Numeral.unsigned, List.append_assoc, hread _ (n.heads_tail hu), Numeral.tail, if_pos hf,
        List.nil_append]
    cases hp : n.power? with
    | none =>
      rw [hp] at htail
      exact .inl ⟨hf, rfl, fun u hu => (htail u hu).trans (readNumber_tail hu)⟩
    | some p =>
      rw [hp] at htail
      refine .inr ⟨[], [], ⟨hf, id, fun h => absurd rfl h⟩, fun u hu => ?_⟩
      exact (htail u hu).trans (readNumber_tail_chars p negative m u)
  · exact .inr (readNumber_point hf hread fun _ => rfl)

/-- Digits before the point of which some do not fit. -/
theorem readNumber_beyond {e : Int}
    (hread : ∀ w, Heads (fun c => !isDigit c) w →
      readNumber negative (n.whole ++ w) = readLong negative m e w) :
    ∃ taken rest, Cut m n.fraction taken rest ∧ ∀ u, Stops u →
      readNumber negative (n.unsigned ++ u) =
        readPower negative (Nat.ofDigitChars 10 taken m) (e - (taken.length : Int))
          ((n.power?.map Power.chars).getD [] ++ u) := by
  by_cases hf : n.fraction = []
  · refine ⟨[], [], ⟨hf, id, fun h => absurd rfl h⟩, fun u hu => ?_⟩
    rw [Numeral.unsigned, List.append_assoc, hread _ (n.heads_tail hu), Numeral.tail, if_pos hf,
      List.nil_append, readLong_power _ _ _ _ hu, List.length_nil, Int.natCast_zero, Int.sub_zero]
    rfl
  · exact readNumber_point hf hread fun _ => rfl

end Cases

/-- How a numeral is read: as the whole number that it is, or as digits that are scaled by a power
of ten. Those come from before the point and from behind it, as far as they fit. -/
theorem readNumber_cases (n : Numeral) (negative : Bool) :
    (n.fraction = [] ∧ n.power? = none ∧ Cut 0 n.whole n.whole [] ∧
      ∀ u, Stops u → readNumber negative (n.unsigned ++ u) =
        .ok (wholeNumber negative (Nat.ofDigitChars 10 n.whole 0), u)) ∨
    ∃ taken rest taken' rest', Cut 0 n.whole taken rest ∧
      Cut (Nat.ofDigitChars 10 taken 0) n.fraction taken' rest' ∧
      ∀ u, Stops u → readNumber negative (n.unsigned ++ u) =
        readPower negative (Nat.ofDigitChars 10 taken' (Nat.ofDigitChars 10 taken 0))
          ((rest.length : Int) - (taken'.length : Int))
          ((n.power?.map Power.chars).getD [] ++ u) := by
  obtain ⟨taken, rest, hcut, hread⟩ := readNumber_whole_digits n negative
  by_cases hrest : rest = []
  · subst hrest
    have hwhole : taken = n.whole := (hcut.parts.trans (List.append_nil taken)).symm
    subst hwhole
    rcases readNumber_short fun w hw => (hread w hw).trans (if_pos rfl)
      with ⟨hf, hp, h⟩ | ⟨taken', rest', hcut', h⟩
    · exact .inl ⟨hf, hp, hcut, h⟩
    · exact .inr ⟨n.whole, [], taken', rest', hcut, hcut', h⟩
  · obtain ⟨taken', rest', hcut', h⟩ :=
      readNumber_beyond fun w hw => (hread w hw).trans (if_neg hrest)
    exact .inr ⟨taken, rest, taken', rest', hcut, hcut', h⟩

/-- **A number is read alike whatever follows it, or never.** -/
theorem readNumber_settles (n : Numeral) (negative : Bool) :
    Settles (readNumber negative) n.unsigned := by
  rcases readNumber_cases n negative with
    ⟨-, -, -, hread⟩ | ⟨taken, rest, taken', rest', -, -, hread⟩
  · exact .inl ⟨_, hread⟩
  · rcases readPower_settles n.power? negative
      (Nat.ofDigitChars 10 taken' (Nat.ofDigitChars 10 taken 0))
      ((rest.length : Int) - (taken'.length : Int)) with ⟨x, hx⟩ | hnone
    · exact .inl ⟨x, fun u hu => (hread u hu).trans (hx u hu)⟩
    · exact .inr fun u hu x => (hread u hu).symm ▸ hnone u hu x

/-! ### Skimming -/

theorem skimPower_power (p? : Option Power) {u : List Char} (hu : Stops u) :
    skimPower ((p?.map Power.chars).getD [] ++ u) = .ok u := by
  cases p? with
  | none =>
    cases u with
    | nil => rfl
    | cons c u =>
      have h1 := hu.ne (d := 'e') (by decide)
      have h2 := hu.ne (d := 'E') (by decide)
      simp [skimPower, h1, h2]
  | some p =>
    obtain ⟨c, ds, hds⟩ := List.exists_cons_of_ne_nil p.digits_ne
    have hall := p.isDigits
    rw [hds] at hall
    have hrun : skimPower (p.chars ++ u) = skimExponent (p.sign ++ c :: (ds ++ u)) := by
      rcases p.letter_mem with h | h <;> simp [Power.chars, h, hds, skimPower]
    show skimPower (p.chars ++ u) = _
    rw [hrun, skimExponent_signed p.isSign (hall c (List.mem_cons_self ..)),
      skipDigits_append (fun d hd => hall d (List.mem_cons_of_mem c hd)) hu.not_digit]

theorem skimTail_tail (n : Numeral) {u : List Char} (hu : Stops u) :
    skimTail (n.tail ++ u) = .ok u := by
  unfold Numeral.tail
  by_cases hf : n.fraction = []
  · rw [if_pos hf, List.nil_append, skimTail_of_no_point, skimPower_power n.power? hu]
    cases n.power? with
    | none => exact hu.not_point
    | some p =>
      refine Heads.cons_iff.mpr ?_
      rcases p.letter_mem with h | h <;> rw [h] <;> decide
  · rw [if_neg hf]
    have hall := n.isFraction
    obtain ⟨c, fs, hfs⟩ := List.exists_cons_of_ne_nil hf
    rw [hfs] at hall ⊢
    simp only [List.cons_append, List.append_assoc, skimTail, skimFraction,
      hall c (List.mem_cons_self ..), if_true]
    rw [skipDigits_append (fun d hd => hall d (List.mem_cons_of_mem c hd)) (heads_power _ hu),
      skimPower_power n.power? hu]

/-- Every numeral is skimmed as a number. -/
theorem skimNumber_numeral (n : Numeral) {u : List Char} (hu : Stops u) :
    skimNumber (n.unsigned ++ u) = .ok u := by
  rw [Numeral.unsigned, List.append_assoc]
  have hall := n.isWhole
  obtain ⟨c, ds, hwhole⟩ := List.exists_cons_of_ne_nil n.whole_ne
  by_cases h0 : c = '0'
  · rw [n.leading (by rw [hwhole, h0]; rfl)]
    exact (skimNumber_zero (n.heads_tail hu)).trans (skimTail_tail n hu)
  · rw [hwhole] at hall ⊢
    rw [List.cons_append, skimNumber_digit (hall c (List.mem_cons_self ..)) h0,
      skipDigits_append (fun d hd => hall d (List.mem_cons_of_mem c hd)) (n.heads_tail hu),
      skimTail_tail n hu]

theorem skimPower_powers {s r : List Char} (h : skimPower s = .ok r) :
    ∃ p? : Option Power, s = (p?.map Power.chars).getD [] ++ r := by
  have hpower (letter : Char) (hl : letter = 'e' ∨ letter = 'E') {v : List Char}
      (hv : skimExponent v = .ok r) :
      ∃ p? : Option Power, letter :: v = (p?.map Power.chars).getD [] ++ r := by
    obtain ⟨sign, c, w, hs, hc, rfl, rfl⟩ := skimExponent_cases hv
    obtain ⟨t, hw, ht⟩ := skipDigits_split w
    refine ⟨some ⟨letter, sign, c :: t, hl, hs, ?_, List.cons_ne_nil c t⟩, ?_⟩
    · intro d hd
      rcases List.mem_cons.mp hd with rfl | hd
      · exact hc
      · exact ht d hd
    · simp only [Option.map_some, Option.getD_some, Power.chars, List.cons_append,
        List.append_assoc, ← hw]
  unfold skimPower at h
  split at h
  · exact hpower 'e' (.inl rfl) h
  · exact hpower 'E' (.inr rfl) h
  · cases h
    exact ⟨none, rfl⟩

/-- The rest of a number after its digits: a fraction, if any, and a power, if any. -/
theorem skimTail_parts {s r : List Char} (h : skimTail s = .ok r) :
    ∃ (fs : List Char) (p? : Option Power), (∀ c ∈ fs, isDigit c = true) ∧
      s = (if fs = [] then [] else '.' :: fs) ++ (p?.map Power.chars).getD [] ++ r := by
  unfold skimTail at h
  split at h
  · unfold skimFraction at h
    split at h
    · rename_i c v
      split at h
      · rename_i hc
        obtain ⟨p?, hp⟩ := skimPower_powers h
        obtain ⟨t, hv, ht⟩ := skipDigits_split v
        refine ⟨c :: t, p?, ?_, ?_⟩
        · intro d hd
          rcases List.mem_cons.mp hd with rfl | hd
          · exact hc
          · exact ht d hd
        · rw [if_neg (List.cons_ne_nil c t), List.append_assoc, ← hp]
          simp only [List.cons_append, ← hv]
      · cases h
    · cases h
  · obtain ⟨p?, hp⟩ := skimPower_powers h
    exact ⟨[], p?, fun _ hc => (by cases hc), hp⟩

/-- **What is skimmed as a number is a numeral.** -/
theorem skimNumber_numerals {s r : List Char} (h : skimNumber s = .ok r) (negative : Bool) :
    ∃ n : Numeral, n.negative = negative ∧ s = n.unsigned ++ r := by
  have hnumeral {ds v : List Char} (hd : ∀ c ∈ ds, isDigit c = true) (hne : ds ≠ [])
      (hl : ds.head? = some '0' → ds = ['0']) (hv : skimTail v = .ok r) (hs : s = ds ++ v) :
      ∃ n : Numeral, n.negative = negative ∧ s = n.unsigned ++ r := by
    obtain ⟨fs, p?, hfs, hv⟩ := skimTail_parts hv
    refine ⟨⟨negative, ds, fs, p?, hd, hne, hl, hfs⟩, rfl, ?_⟩
    rw [hs, hv, Numeral.unsigned, Numeral.tail, List.append_assoc ds]
  have hzero {v : List Char} (hv : skimTail v = .ok r) (hs : s = '0' :: v) :
      ∃ n : Numeral, n.negative = negative ∧ s = n.unsigned ++ r :=
    @hnumeral ['0'] _ (List.forall_mem_singleton.mpr rfl) (List.cons_ne_nil _ _) (fun _ => rfl) hv hs
  unfold skimNumber at h
  split at h
  · split at h
    · split at h
      · cases h
      · exact hzero h rfl
    · exact hzero (show skimTail [] = .ok r from h) rfl
  · rename_i c v hc0
    split at h
    · rename_i hc
      obtain ⟨t, hv, ht⟩ := skipDigits_split v
      refine @hnumeral (c :: t) _ ?_ (List.cons_ne_nil c t) ?_ h (by rw [List.cons_append, ← hv])
      · intro d hd
        rcases List.mem_cons.mp hd with rfl | hd
        · exact hc
        · exact ht d hd
      · intro h0
        exact absurd (Option.some.inj h0) fun h0 => hc0 h0
    · cases h
  · cases h

/-! ### What a numeral means -/

/-- The exact number. -/
def Numeral.value (n : Numeral) : ℚ :=
  (if n.negative then -1 else 1) * (Nat.ofDigitChars 10 (n.whole ++ n.fraction) 0 : ℚ) *
    (10 : ℚ) ^ ((n.power?.map Power.value).getD 0 - (n.fraction.length : Int))

end Switchboard.Json
