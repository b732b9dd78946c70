import Switchboard.Json.Fault

/-! The words of a JSON text: blanks, literals, numbers and strings.

Each comes twice. Skimming checks the spelling and keeps nothing: any number
will do, and so will half a surrogate pair. Reading also takes the value, and
refuses a number beyond binary64 and half a surrogate pair. Every function is
given what follows the character that announced the word, and returns what
follows the word; a word never gives back more than it was given. -/
namespace Switchboard.Json
open Switchboard.Decimal

/-- The four characters that may stand between words. -/
def isBlank (c : Char) : Bool := c == ' ' || c == '\n' || c == '\t' || c == '\r'

def skipBlank (s : List Char) : List Char := s.dropWhile isBlank

def isDigit (c : Char) : Bool := '0' ≤ c && c ≤ '9'

def digitOf (c : Char) : Nat := c.toNat - '0'.toNat

def skipDigits (s : List Char) : List Char := s.dropWhile isDigit

theorem skipBlank_length_le (s : List Char) : (skipBlank s).length ≤ s.length :=
  (List.dropWhile_sublist _).length_le

theorem skipDigits_length_le (s : List Char) : (skipDigits s).length ≤ s.length :=
  (List.dropWhile_sublist _).length_le

/-! ### Literals -/

/-- The rest of a literal whose first letter has been seen. -/
def literal : List Char → List Char → Except Halt (List Char)
  | [], s => .ok s
  | _ :: _, [] => .error (.before .endInValue [])
  | w :: word, c :: s => if c == w then literal word s else .error (.looking .expectedIdent (c :: s))

theorem literal_length_le {word s r : List Char} (h : literal word s = .ok r) :
    r.length ≤ s.length := by
  induction word generalizing s with
  | nil => simp only [literal, Except.ok.injEq] at h; simp [h]
  | cons w word ih =>
    cases s with
    | nil => simp [literal] at h
    | cons c s =>
      simp only [literal] at h
      split at h
      · have := ih h; simp; omega
      · simp at h

/-! ### Numbers, skimmed -/

/-- An exponent, after its letter. -/
def skimExponent (s : List Char) : Except Halt (List Char) :=
  let unsigned := match s with
    | '+' :: r => r
    | '-' :: r => r
    | _ => s
  match unsigned with
  | c :: r => if isDigit c then .ok (skipDigits r) else .error (.looking .invalidNumber (c :: r))
  | [] => .error (.looking .invalidNumber [])

/-- What may follow the digits of a fraction. -/
def skimPower : List Char → Except Halt (List Char)
  | 'e' :: r => skimExponent r
  | 'E' :: r => skimExponent r
  | s => .ok s

/-- A fraction, after its point. -/
def skimFraction : List Char → Except Halt (List Char)
  | c :: r => if isDigit c then skimPower (skipDigits r) else .error (.looking .invalidNumber (c :: r))
  | [] => .error (.looking .invalidNumber [])

/-- What may follow the digits before the point. -/
def skimTail : List Char → Except Halt (List Char)
  | '.' :: r => skimFraction r
  | s => skimPower s

/-- A number, after its sign. -/
def skimNumber : List Char → Except Halt (List Char)
  | '0' :: r =>
    match r with
    | d :: _ => if isDigit d then .error (.looking .invalidNumber r) else skimTail r
    | [] => .ok []
  | c :: r => if isDigit c then skimTail (skipDigits r) else .error (.looking .invalidNumber (c :: r))
  | [] => .error (.looking .invalidNumber [])

theorem skimExponent_length_le {s r : List Char} (h : skimExponent s = .ok r) :
    r.length ≤ s.length := by
  unfold skimExponent at h
  have key : ∀ u : List Char, u.length ≤ s.length →
      (match u with
        | c :: r => if isDigit c then Except.ok (skipDigits r)
          else .error (Halt.looking .invalidNumber (c :: r))
        | [] => .error (Halt.looking .invalidNumber [])) = .ok r → r.length ≤ s.length := by
    intro u hu hr
    cases u with
    | nil => simp at hr
    | cons c u =>
      simp only at hr
      split at hr
      · have := skipDigits_length_le u
        simp only [Except.ok.injEq] at hr
        subst hr
        simp at hu; omega
      · simp at hr
  refine key _ ?_ h
  split <;> simp

theorem skimPower_length_le {s r : List Char} (h : skimPower s = .ok r) :
    r.length ≤ s.length := by
  unfold skimPower at h
  split at h
  · have := skimExponent_length_le h; simp; omega
  · have := skimExponent_length_le h; simp; omega
  · simp only [Except.ok.injEq] at h; simp [h]

theorem skimFraction_length_le {s r : List Char} (h : skimFraction s = .ok r) :
    r.length ≤ s.length := by
  unfold skimFraction at h
  split at h
  · split at h
    · rename_i c t _
      have := skimPower_length_le h
      have := skipDigits_length_le t
      simp; omega
    · simp at h
  · simp at h

theorem skimTail_length_le {s r : List Char} (h : skimTail s = .ok r) :
    r.length ≤ s.length := by
  unfold skimTail at h
  split at h
  · have := skimFraction_length_le h; simp; omega
  · exact skimPower_length_le h

theorem skimNumber_length_lt {s r : List Char} (h : skimNumber s = .ok r) :
    r.length < s.length := by
  unfold skimNumber at h
  split at h
  · split at h
    · split at h
      · simp at h
      · have := skimTail_length_le h; simp at *; omega
    · simp only [Except.ok.injEq] at h; simp [← h]
  · split at h
    · rename_i c t _ _
      have := skimTail_length_le h
      have := skipDigits_length_le t
      simp; omega
    · simp at h
  · simp at h

/-! ### Numbers, read -/

/-- Digits, taken as long as the number they spell fits 64 bits: the number, how
many went into it, and the rest. -/
def takeDigits (n count : Nat) : List Char → Nat × Nat × List Char
  | c :: r =>
    if isDigit c && n * 10 + digitOf c < 18446744073709551616 then takeDigits (n * 10 + digitOf c) (count + 1) r
    else (n, count, c :: r)
  | [] => (n, count, [])

/-- The number `x · 10 ^ e`, reached by one multiplication or division with a power
of ten that is itself rounded; exponents below `-308` are worked off in steps of
`308` first. Nothing when the result overflows. -/
def scaleTen (x : Binary64) (e : Int) : Option Binary64 :=
  if 0 ≤ e then
    if e ≤ 308 then x.times (Binary64.tenPow e.toNat) else if x.isZero then some x else none
  else if -308 ≤ e then x.dividedBy (Binary64.tenPow (-e).toNat)
  else if x.isZero then some x
  else match x.dividedBy (Binary64.tenPow 308) with
    | some y => scaleTen y (e + 308)
    | none => none
termination_by e.natAbs
decreasing_by omega

/-- The number with these digits and exponent, whose text ended before `rest`. -/
def realNumber (negative : Bool) (digits : Nat) (exponent : Int) (rest : List Char) :
    Except Halt (Number × List Char) :=
  match scaleTen (Binary64.ofNat digits) exponent with
  | some x => .ok (.real { x with negative := negative }, rest)
  | none => .error (.before .numberOutOfRange rest)

/-- The digits of an exponent below `2 ^ 31`: the exponent and the rest, or what
followed the digit that made it too great. -/
def takeExponent (n : Nat) : List Char → Except (List Char) (Nat × List Char)
  | c :: r =>
    if isDigit c then
      if n * 10 + digitOf c < 2147483648 then takeExponent (n * 10 + digitOf c) r else .error r
    else .ok (n, c :: r)
  | [] => .ok (n, [])

/-- An exponent, after its letter. -/
def readExponent (negative : Bool) (digits : Nat) (exponent : Int) (s : List Char) :
    Except Halt (Number × List Char) :=
  let (down, unsigned) := match s with
    | '+' :: r => (false, r)
    | '-' :: r => (true, r)
    | _ => (false, s)
  match unsigned with
  | [] => .error (.before .endInValue [])
  | c :: r =>
    if isDigit c then
      match takeExponent (digitOf c) r with
      | .ok (e, rest) =>
        realNumber negative digits (if down then exponent - (e : Int) else exponent + (e : Int)) rest
      | .error rest =>
        if digits != 0 && !down then .error (.before .numberOutOfRange rest)
        else .ok (.real (Binary64.zero negative), skipDigits rest)
    else .error (.looking .invalidNumber (c :: r))

/-- What may follow the digits of a number with a point. -/
def readPower (negative : Bool) (digits : Nat) (exponent : Int) :
    List Char → Except Halt (Number × List Char)
  | 'e' :: r => readExponent negative digits exponent r
  | 'E' :: r => readExponent negative digits exponent r
  | s => realNumber negative digits exponent s

/-- A fraction, after its point. Digits beyond 64 bits are passed over. -/
def readFraction (negative : Bool) (digits : Nat) (exponent : Int) (s : List Char) :
    Except Halt (Number × List Char) :=
  let (digits, taken, rest) := takeDigits digits 0 s
  match rest with
  | c :: _ =>
    if isDigit c then readPower negative digits (exponent - (taken : Int)) (skipDigits rest)
    else if taken == 0 then .error (.looking .invalidNumber rest)
    else readPower negative digits (exponent - (taken : Int)) rest
  | [] =>
    if taken == 0 then .error (.before .endInValue [])
    else realNumber negative digits (exponent - (taken : Int)) []

/-- A number spelt with digits alone. -/
def wholeNumber (negative : Bool) (n : Nat) : Number :=
  if negative && n == 0 then .real (Binary64.zero true)
  else
    let i : Int := if negative then -(n : Int) else (n : Int)
    if h : InWords i then .whole i h else .real { Binary64.ofNat n with negative := negative }

/-- A number, after its sign. -/
def readNumber (negative : Bool) : List Char → Except Halt (Number × List Char)
  | [] => .error (.before .endInValue [])
  | '0' :: r =>
    match r with
    | d :: _ =>
      if isDigit d then .error (.looking .invalidNumber r) else tail 0 r
    | [] => tail 0 []
  | c :: r =>
    if isDigit c then
      let (digits, _, rest) := takeDigits (digitOf c) 1 r
      match rest with
      | d :: _ =>
        if isDigit d then
          let after := skipDigits rest
          let extra : Int := ((rest.length - after.length : Nat) : Int)
          match after with
          | '.' :: r => readFraction negative digits extra r
          | s => readPower negative digits extra s
        else tail digits rest
      | [] => tail digits []
    else .error (.looking .invalidNumber (c :: r))
where
  /-- What may follow digits that fit 64 bits. -/
  tail (digits : Nat) : List Char → Except Halt (Number × List Char)
    | '.' :: r => readFraction negative digits 0 r
    | 'e' :: r => readExponent negative digits 0 r
    | 'E' :: r => readExponent negative digits 0 r
    | s => .ok (wholeNumber negative digits, s)

theorem takeDigits_length_le (n count : Nat) (s : List Char) :
    (takeDigits n count s).2.2.length ≤ s.length := by
  fun_induction takeDigits n count s <;> simp_all
  omega

theorem takeExponent_length_le {n e : Nat} {s r : List Char} (h : takeExponent n s = .ok (e, r)) :
    r.length ≤ s.length := by
  fun_induction takeExponent n s with
  | case1 n c t _ _ ih => have := ih h; simp; omega
  | case2 => simp at h
  | case3 n c t _ => simp only [Except.ok.injEq, Prod.mk.injEq] at h; simp [← h.2]
  | case4 n => simp only [Except.ok.injEq, Prod.mk.injEq] at h; simp [← h.2]

theorem takeExponent_error_length_le {n : Nat} {s r : List Char}
    (h : takeExponent n s = .error r) : r.length ≤ s.length := by
  fun_induction takeExponent n s <;> simp_all
  all_goals omega

theorem realNumber_rest {negative : Bool} {digits : Nat} {e : Int} {s r : List Char} {n : Number}
    (h : realNumber negative digits e s = .ok (n, r)) : r = s := by
  unfold realNumber at h
  split at h <;> simp_all

theorem readExponent_length_le {negative : Bool} {digits : Nat} {e : Int} {s r : List Char}
    {n : Number} (h : readExponent negative digits e s = .ok (n, r)) : r.length ≤ s.length := by
  have key : ∀ (down : Bool) (u : List Char), u.length ≤ s.length →
      (match u with
        | [] => Except.error (Halt.before .endInValue [])
        | c :: t =>
          if isDigit c then
            match takeExponent (digitOf c) t with
            | .ok (k, rest) =>
              realNumber negative digits (if down then e - (k : Int) else e + (k : Int)) rest
            | .error rest =>
              if digits != 0 && !down then .error (.before .numberOutOfRange rest)
              else .ok (.real (Binary64.zero negative), skipDigits rest)
          else .error (.looking .invalidNumber (c :: t))) = .ok (n, r) → r.length ≤ s.length := by
    intro down u hu hr
    cases u with
    | nil => simp at hr
    | cons c t =>
      simp only [List.length_cons] at hu
      simp only at hr
      split at hr
      · split at hr
        · rename_i k rest hk
          have h1 := takeExponent_length_le hk
          have h2 := realNumber_rest hr
          subst h2
          omega
        · rename_i rest hk
          have h1 := takeExponent_error_length_le hk
          have h2 := skipDigits_length_le rest
          split at hr
          · simp at hr
          · simp only [Except.ok.injEq, Prod.mk.injEq] at hr
            rw [← hr.2]
            omega
      · simp at hr
  unfold readExponent at h
  split at h
  exact key _ _ (by split at * <;> simp_all) h

theorem readPower_length_le {negative : Bool} {digits : Nat} {e : Int} {s r : List Char}
    {n : Number} (h : readPower negative digits e s = .ok (n, r)) : r.length ≤ s.length := by
  unfold readPower at h
  split at h
  · have := readExponent_length_le h; simp; omega
  · have := readExponent_length_le h; simp; omega
  · simp [realNumber_rest h]

theorem readFraction_length_le {negative : Bool} {digits : Nat} {e : Int} {s r : List Char}
    {n : Number} (h : readFraction negative digits e s = .ok (n, r)) : r.length ≤ s.length := by
  have h1 := takeDigits_length_le digits 0 s
  unfold readFraction at h
  generalize takeDigits digits 0 s = taken at h h1
  obtain ⟨m, k, rest⟩ := taken
  simp only at h h1
  have h2 := skipDigits_length_le rest
  split at h
  · split at h
    · have := readPower_length_le h; omega
    · split at h
      · simp at h
      · have := readPower_length_le h; omega
  · split at h
    · simp at h
    · have := realNumber_rest h; simp [this]

theorem readNumber_tail_length_le {negative : Bool} {digits : Nat} {s r : List Char} {n : Number}
    (h : readNumber.tail negative digits s = .ok (n, r)) : r.length ≤ s.length := by
  unfold readNumber.tail at h
  split at h
  · have := readFraction_length_le h; simp; omega
  · have := readExponent_length_le h; simp; omega
  · have := readExponent_length_le h; simp; omega
  · simp only [Except.ok.injEq, Prod.mk.injEq] at h; simp [h.2]

theorem readNumber_length_lt {negative : Bool} {s r : List Char} {n : Number}
    (h : readNumber negative s = .ok (n, r)) : r.length < s.length := by
  unfold readNumber at h
  split at h
  · simp at h
  · split at h
    · split at h
      · simp at h
      · have := readNumber_tail_length_le h; simp at *; omega
    · have := readNumber_tail_length_le h; simp at *; omega
  · rename_i c t _
    split at h
    · have h1 := takeDigits_length_le (digitOf c) 1 t
      generalize takeDigits (digitOf c) 1 t = taken at h h1
      obtain ⟨m, k, rest⟩ := taken
      simp only at h h1
      have h2 := skipDigits_length_le rest
      split at h
      · split at h
        · split at h
          · rename_i u hu
            have h3 := readFraction_length_le h
            simp only [hu, List.length_cons] at h2
            simp at *; omega
          · have h3 := readPower_length_le h
            simp at *; omega
        · have := readNumber_tail_length_le h; simp at *; omega
      · have := readNumber_tail_length_le h
        simp only [List.length_cons, List.length_nil] at *; omega
    · simp at h

/-! ### Strings -/

/-- The value of a hexadecimal digit. -/
def hexOf (c : Char) : Option Nat :=
  if isDigit c then some (digitOf c)
  else if 'a' ≤ c && c ≤ 'f' then some (c.toNat - 'a'.toNat + 10)
  else if 'A' ≤ c && c ≤ 'F' then some (c.toNat - 'A'.toNat + 10)
  else none

/-- Four hexadecimal digits. -/
def hexWord (a b c d : Char) : Option Nat :=
  match hexOf a, hexOf b, hexOf c, hexOf d with
  | some a, some b, some c, some d => some (((a * 16 + b) * 16 + c) * 16 + d)
  | _, _, _, _ => none

/-- The refusal of what follows `\u` when it is not four digits: fewer than four
bytes end the string, any other four are passed as a group. -/
def notHex (width : Char → Nat) (s : List Char) : Halt :=
  if s.foldl (fun n c => n + width c) 0 < 4 then .before .endInString [] else ⟨.invalidEscape, s, 4⟩

/-- The character a backslash and this letter stand for. -/
def unescape : Char → Option Char
  | '"' => some '"'
  | '\\' => some '\\'
  | '/' => some '/'
  | 'b' => some '\x08'
  | 'f' => some '\x0c'
  | 'n' => some '\n'
  | 'r' => some '\r'
  | 't' => some '\t'
  | _ => none

/-- The rest of a string, after its opening quote. -/
def skimString (width : Char → Nat) : List Char → Except Halt (List Char)
  | [] => .error (.before .endInString [])
  | '"' :: r => .ok r
  | ['\\'] => .error (.before .endInString [])
  | '\\' :: 'u' :: a :: b :: c :: d :: r =>
    match hexWord a b c d with
    | some _ => skimString width r
    | none => .error (notHex width (a :: b :: c :: d :: r))
  | '\\' :: 'u' :: r => .error (notHex width r)
  | '\\' :: e :: r =>
    match unescape e with
    | some _ => skimString width r
    | none => .error (.looking .invalidEscape (e :: r))
  | c :: r => if c.toNat < 0x20 then .error (.before .controlCharacter (c :: r)) else skimString width r

theorem skimString_length_lt {width : Char → Nat} {s r : List Char}
    (h : skimString width s = .ok r) : r.length < s.length := by
  fun_induction skimString width s with
  | case1 => simp at h
  | case2 r' => simp only [Except.ok.injEq] at h; simp [h]
  | case3 => simp at h
  | case4 a b c d r' _ _ ih => have := ih h; simp; omega
  | case5 => simp at h
  | case6 => simp at h
  | case7 e r' _ _ _ _ ih => have := ih h; simp; omega
  | case8 => simp at h
  | case9 => simp at h
  | case10 c r' _ _ _ _ _ _ ih => have := ih h; simp; omega

/-- The first half of a surrogate pair. -/
def isHigh (n : Nat) : Bool := 0xd800 ≤ n && n ≤ 0xdbff

/-- The second half of a surrogate pair. -/
def isLow (n : Nat) : Bool := 0xdc00 ≤ n && n ≤ 0xdfff

/-- The character a surrogate pair stands for. -/
def ofPair (high low : Nat) : Char :=
  Char.ofNat (0x10000 + (high - 0xd800) * 0x400 + (low - 0xdc00))

/-- The refusal of a first half that is not followed by a second one. -/
def unpaired (width : Char → Nat) : List Char → Halt
  | [] => .before .endInString []
  | ['\\'] => .before .endInString []
  | '\\' :: 'u' :: a :: b :: c :: d :: r =>
    match hexWord a b c d with
    | some _ => .before .loneSurrogate r
    | none => notHex width (a :: b :: c :: d :: r)
  | '\\' :: 'u' :: r => notHex width r
  | '\\' :: r => .looking .unfinishedSurrogate r
  | r => .looking .unfinishedSurrogate r

/-- The rest of a string, after its opening quote, with the characters before it in
reverse. -/
def readString (width : Char → Nat) (done : List Char) :
    List Char → Except Halt (List Char × List Char)
  | [] => .error (.before .endInString [])
  | '"' :: r => .ok (done.reverse, r)
  | ['\\'] => .error (.before .endInString [])
  | '\\' :: 'u' :: a :: b :: c :: d :: '\\' :: 'u' :: e :: f :: g :: h :: r =>
    match hexWord a b c d with
    | none => .error (notHex width (a :: b :: c :: d :: '\\' :: 'u' :: e :: f :: g :: h :: r))
    | some n =>
      if isLow n then .error (.before .loneSurrogate ('\\' :: 'u' :: e :: f :: g :: h :: r))
      else if isHigh n then
        match hexWord e f g h with
        | some m =>
          if isLow m then readString width (ofPair n m :: done) r
          else .error (.before .loneSurrogate r)
        | none => .error (notHex width (e :: f :: g :: h :: r))
      else readString width (Char.ofNat n :: done) ('\\' :: 'u' :: e :: f :: g :: h :: r)
  | '\\' :: 'u' :: a :: b :: c :: d :: r =>
    match hexWord a b c d with
    | none => .error (notHex width (a :: b :: c :: d :: r))
    | some n =>
      if isLow n then .error (.before .loneSurrogate r)
      else if isHigh n then .error (unpaired width r)
      else readString width (Char.ofNat n :: done) r
  | '\\' :: 'u' :: r => .error (notHex width r)
  | '\\' :: e :: r =>
    match unescape e with
    | some c => readString width (c :: done) r
    | none => .error (.looking .invalidEscape (e :: r))
  | c :: r =>
    if c.toNat < 0x20 then .error (.looking .controlCharacter (c :: r))
    else readString width (c :: done) r

end Switchboard.Json
