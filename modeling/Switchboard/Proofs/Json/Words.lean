import Switchboard.Proofs.Json.Reading
import Switchboard.Proofs.Json.Skimming

/-! Escapes and digits, one at a time.

Each of the steps in which a string is read is an equation of its own (`readString_letter`,
`readString_number`, `readString_plain`). The digits of a number that fits 64 bits are read as
that number, where no digit and nothing else that goes on with a number follows
(`readNumber_digits`). -/
namespace Switchboard.Json

variable {width : Char → Nat}

/-! ### Strings -/

theorem readString_letter {e c : Char} (hu : e ≠ 'u') (h : unescape e = some c)
    (done r : List Char) :
    readString width done ('\\' :: e :: r) = readString width (c :: done) r := by
  rw [readString.eq_def]
  grind

/-- An escape by number, of no half of a surrogate pair. -/
theorem readString_number {a b c d : Char} {n : Nat} (h : hexWord a b c d = some n)
    (hl : isLow n = false) (hh : isHigh n = false) (done r : List Char) :
    readString width done ('\\' :: 'u' :: a :: b :: c :: d :: r) =
      readString width (Char.ofNat n :: done) r := by
  rw [readString.eq_def]
  grind

theorem readString_plain {c : Char} (hq : c ≠ '"') (hb : c ≠ '\\') (hc : ¬c.toNat < 0x20)
    (done r : List Char) : readString width done (c :: r) = readString width (c :: done) r := by
  rw [readString.eq_def]
  grind

/-- What the number of a control character is spelt with. -/
theorem hexWord_control : ∀ n < 0x20,
    hexWord '0' '0' (Nat.digitChar (n / 16)) (Nat.digitChar (n % 16)) = some n := by
  decide

/-! ### Numbers -/

theorem not_blank_of_digit {c : Char} (h : isDigit c = true) : isBlank c = false := by
  cases hb : isBlank c with
  | false => rfl
  | true =>
    have := stops_of_blank hb
    simp [stopsNumber, h] at this

theorem isDigit_of_mem_toDigits {n : Nat} {c : Char} (h : c ∈ Nat.toDigits 10 n) :
    isDigit c = true := by
  have := Nat.isDigit_of_mem_toDigits (by decide) (by decide) h
  simpa [isDigit, Char.isDigit, Char.le_def] using this

theorem digit_cases {c : Char} (hc : isDigit c = true) :
    digitOf c < 10 ∧ Nat.digitChar (digitOf c) = c := by
  have hall : ∀ n < 10, digitOf (Char.ofNat (48 + n)) = n ∧
      Nat.digitChar n = Char.ofNat (48 + n) := by decide
  simp only [isDigit, Bool.and_eq_true, decide_eq_true_eq, Char.le_def, UInt32.le_iff_toNat_le] at hc
  have h1 : 48 ≤ c.toNat := hc.1
  have h2 : c.toNat ≤ 57 := hc.2
  obtain ⟨hn, hd⟩ := hall (c.toNat - 48) (by omega)
  rw [show 48 + (c.toNat - 48) = c.toNat by omega, Char.ofNat_toNat] at hn hd
  exact ⟨by omega, by rw [hn, hd]⟩

theorem ofDigitChars_mono (ds : List Char) {m n : Nat} (h : m ≤ n) :
    m ≤ Nat.ofDigitChars 10 ds n := by
  induction ds generalizing n with
  | nil => simpa using h
  | cons d ds ih =>
    rw [Nat.ofDigitChars_cons]
    exact ih (by omega)

theorem takeDigits_digits {ds : List Char} (hd : ∀ c ∈ ds, isDigit c = true) {n : Nat}
    (hn : Nat.ofDigitChars 10 ds n < UInt64.size) (count : Nat) {r : List Char}
    (hr : Heads (fun c => !isDigit c) r) :
    takeDigits n count (ds ++ r) = (Nat.ofDigitChars 10 ds n, count + ds.length, r) := by
  induction ds generalizing n count with
  | nil =>
    cases r with
    | nil => rfl
    | cons c r =>
      have hc : isDigit c = false := by simpa using Heads.cons_iff.mp hr
      simp [takeDigits, hc]
  | cons d ds ih =>
    rw [Nat.ofDigitChars_cons] at hn ⊢
    have hdigit := hd d (List.mem_cons_self ..)
    have hle := ofDigitChars_mono ds (Nat.le_refl (10 * n + (d.toNat - '0'.toNat)))
    have hstep : n * 10 + digitOf d = 10 * n + (d.toNat - '0'.toNat) := by
      rw [Nat.mul_comm, digitOf]
    rw [List.cons_append, takeDigits, hdigit, hstep, Bool.true_and, if_pos]
    · rw [ih (fun c hc => hd c (List.mem_cons_of_mem d hc)) hn]
      simp only [List.length_cons, Nat.add_assoc, Nat.add_comm 1]
    · have hlt := Nat.lt_of_le_of_lt hle hn
      exact decide_eq_true hlt

/-- Only nought is spelt with a nought in front. -/
theorem toDigits_cons {n : Nat} (hn : n ≠ 0) : ∃ c ds, Nat.toDigits 10 n = c :: ds ∧ c ≠ '0' := by
  induction n using Nat.strongRecOn with
  | ind n ih =>
    rw [Nat.toDigits_eq_if (by decide)]
    split
    · rename_i hlt
      refine ⟨_, [], rfl, ?_⟩
      rw [Ne, Nat.digitChar_eq_zero]
      exact hn
    · obtain ⟨c, ds, hds, hc⟩ := ih (n / 10) (by omega) (by omega)
      exact ⟨c, ds ++ _, by rw [hds]; rfl, hc⟩

theorem readNumber_tail {negative : Bool} {n : Nat} {r : List Char} (hr : Stops r) :
    readNumber.tail negative n r = .ok (wholeNumber negative n, r) := by
  cases r with
  | nil => rfl
  | cons c r =>
    have hp : c ≠ '.' := hr.ne (by decide)
    have he : c ≠ 'e' := hr.ne (by decide)
    have hE : c ≠ 'E' := hr.ne (by decide)
    rw [readNumber.tail]
    all_goals simp_all

theorem readNumber_zero {negative : Bool} {r : List Char} (hr : Stops r) :
    readNumber negative ('0' :: r) = .ok (wholeNumber negative 0, r) := by
  cases r with
  | nil => rfl
  | cons c r =>
    have hc : isDigit c = false := by simpa using Heads.cons_iff.mp hr.not_digit
    rw [readNumber]
    simp only [hc, Bool.false_eq_true, if_false]
    exact readNumber_tail hr

theorem readNumber_nonzero {negative : Bool} {c : Char} (hc : c ≠ '0') (hd : isDigit c = true)
    {s r : List Char} {n count : Nat} (ht : takeDigits (digitOf c) 1 s = (n, count, r))
    (hr : Stops r) : readNumber negative (c :: s) = .ok (wholeNumber negative n, r) := by
  rw [readNumber]
  case x_1 => exact hc
  simp only [hd, if_true, ht]
  cases r with
  | nil => rfl
  | cons d r =>
    have hd : isDigit d = false := by simpa using Heads.cons_iff.mp hr.not_digit
    simp only [hd, Bool.false_eq_true, if_false]
    exact readNumber_tail hr

theorem readNumber_digits {negative : Bool} {n : Nat} (hn : n < UInt64.size) {r : List Char}
    (hr : Stops r) :
    readNumber negative (Nat.toDigits 10 n ++ r) = .ok (wholeNumber negative n, r) := by
  by_cases h0 : n = 0
  · subst h0
    exact readNumber_zero hr
  · obtain ⟨c, ds, hds, hc⟩ := toDigits_cons h0
    have hall : ∀ d ∈ ds, isDigit d = true := fun d hd =>
      isDigit_of_mem_toDigits (hds ▸ List.mem_cons_of_mem c hd)
    have hdigit : isDigit c = true := isDigit_of_mem_toDigits (hds ▸ List.mem_cons_self ..)
    have hvalue : Nat.ofDigitChars 10 ds (digitOf c) = n := by
      have := Nat.ofDigitChars_ten_toDigits (n := n)
      rw [hds, Nat.ofDigitChars_cons] at this
      simpa [digitOf] using this
    have htake := takeDigits_digits hall (hvalue ▸ hn) 1 hr.not_digit
    rw [hvalue] at htake
    rw [hds]
    exact readNumber_nonzero hc hdigit htake hr

theorem inWords_of_lt {n : Nat} (hn : n < UInt64.size) : InWords (n : Int) := by
  rw [UInt64.size] at hn
  constructor <;> omega

theorem Number.ofNat_of_lt {n : Nat} (hn : n < UInt64.size) :
    Number.ofNat n = .whole n (inWords_of_lt hn) := dif_pos (inWords_of_lt hn)

theorem Number.natural?_ofNat {n : Nat} (hn : n < UInt64.size) :
    (Number.ofNat n).natural? = some n := by
  rw [ofNat_of_lt hn]
  rfl

theorem Number.text_ofNat {n : Nat} (hn : n < UInt64.size) :
    (Number.ofNat n).text.toList = Nat.toDigits 10 n := by
  rw [ofNat_of_lt hn]
  exact Nat.toList_repr

end Switchboard.Json
