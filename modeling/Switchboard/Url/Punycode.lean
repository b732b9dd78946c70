/-! Host labels in ASCII.

A label with characters beyond ASCII is written as its ASCII characters, a dash and
digits of base 36 that say where the others go. The others are told in ascending
order, each as the distance from the one before; a bias that follows the distances
seen so far chooses how many digits each distance takes. -/
namespace Switchboard.Url

/-- The digits `a` to `z` and `0` to `9`. -/
def punycodeDigit (d : Nat) : Char :=
  if d < 26 then Char.ofNat ('a'.toNat + d) else Char.ofNat ('0'.toNat + (d - 26))

def punycodeValue? (c : Char) : Option Nat :=
  if 'a' ≤ c && c ≤ 'z' then some (c.toNat - 'a'.toNat)
  else if 'A' ≤ c && c ≤ 'Z' then some (c.toNat - 'A'.toNat)
  else if '0' ≤ c && c ≤ '9' then some (c.toNat - '0'.toNat + 26)
  else none

/-- What a digit at position `k` must stay below to be the last one. -/
def threshold (k bias : Nat) : Nat := min 26 (max 1 (k - bias))

theorem threshold_pos (k bias : Nat) : 0 < threshold k bias := by unfold threshold; omega

theorem threshold_le (k bias : Nat) : threshold k bias ≤ 26 := by unfold threshold; omega

def settleBias (delta k : Nat) : Nat :=
  if 455 < delta then settleBias (delta / 35) (k + 36) else k + 36 * delta / (delta + 38)
termination_by delta
decreasing_by omega

/-- The bias after a distance, `count` characters being placed. -/
def adapt (delta count : Nat) (first : Bool) : Nat :=
  let delta := if first then delta / 700 else delta / 2
  settleBias (delta + delta / count) 0

/-- A distance as digits. -/
def distance (bias k q : Nat) : List Char :=
  let t := threshold k bias
  if q < t then [punycodeDigit q]
  else punycodeDigit (t + (q - t) % (36 - t)) :: distance bias (k + 36) ((q - t) / (36 - t))
termination_by q
decreasing_by
  have h1 := threshold_pos k bias
  have h2 := threshold_le k bias
  have h3 : (q - threshold k bias) / (36 - threshold k bias) ≤ q - threshold k bias :=
    Nat.div_le_self _ _
  omega

/-- What is carried along while a label is written. -/
structure Writing where
  digits : List Char := []
  delta : Nat := 0
  bias : Nat := 72
  placed : Nat

/-- One character of the label, `m` being the one that is placed now. -/
def Writing.pass (basic m : Nat) (w : Writing) (c : Char) : Writing :=
  if c.toNat < m then { w with delta := w.delta + 1 }
  else if c.toNat = m then
    { digits := w.digits ++ distance w.bias 36 w.delta
      delta := 0
      bias := adapt w.delta (w.placed + 1) (w.placed = basic)
      placed := w.placed + 1 }
  else w

/-- The characters still to be placed, in ascending order, from `n` on. -/
def writeExtended (label : List Char) (basic : Nat) : List Nat → Nat → Writing → Writing
  | [], _, w => w
  | m :: rest, n, w =>
    let w := label.foldl (Writing.pass basic m) { w with delta := w.delta + (m - n) * (w.placed + 1) }
    writeExtended label basic rest (m + 1) { w with delta := w.delta + 1 }

def insertDistinct (n : Nat) : List Nat → List Nat
  | [] => [n]
  | m :: rest =>
    if n < m then n :: m :: rest else if n = m then m :: rest else m :: insertDistinct n rest

/-- The label in ASCII, without the mark in front. -/
def punycode (label : List Char) : List Char :=
  let basic := label.filter fun c => c.toNat < 128
  let extended := (label.filter fun c => 128 ≤ c.toNat).foldl (fun l c => insertDistinct c.toNat l) []
  let start := if basic.isEmpty then [] else basic ++ ['-']
  start ++ (writeExtended label basic.length extended 128 { placed := basic.length }).digits

/-- A distance read back, and the digits after it. -/
def readDistance (bias k weight sum : Nat) : List Char → Option (Nat × List Char)
  | [] => none
  | c :: rest =>
    match punycodeValue? c with
    | none => none
    | some d =>
      let t := threshold k bias
      if d < t then some (sum + d * weight, rest)
      else readDistance bias (k + 36) (weight * (36 - t)) (sum + d * weight) rest

theorem readDistance_length_lt {bias k weight sum n : Nat} {s r : List Char}
    (h : readDistance bias k weight sum s = some (n, r)) : r.length < s.length := by
  induction s generalizing k weight sum with
  | nil => simp [readDistance] at h
  | cons c rest ih =>
    rw [readDistance] at h
    split at h
    · simp at h
    · simp only at h
      split at h
      · simp only [Option.some.injEq, Prod.mk.injEq] at h
        simp [← h.2]
      · have := ih h
        simp only [List.length_cons]
        omega

/-- The characters the digits place into `out`, from `n` at index `i` on. -/
def readExtended (basic : Nat) (n i bias : Nat) (out : List Char) (digits : List Char) :
    Option (List Char) :=
  match digits with
  | [] => some out
  | c :: rest =>
    match _h : readDistance bias 36 1 0 (c :: rest) with
    | none => none
    | some (delta, rest) =>
      let count := out.length + 1
      let n := n + (i + delta) / count
      let i := (i + delta) % count
      if n < 0x110000 ∧ ¬ (0xd800 ≤ n ∧ n < 0xe000) then
        readExtended basic n (i + 1) (adapt delta count (out.length = basic))
          (out.take i ++ Char.ofNat n :: out.drop i) rest
      else none
termination_by digits.length
decreasing_by
  have := readDistance_length_lt _h
  simpa using this

/-- The label that the text stands for. -/
def readPunycode (s : List Char) : Option (List Char) :=
  let back := s.reverse
  let digits := (back.takeWhile (· ≠ '-')).reverse
  let basic := ((back.dropWhile (· ≠ '-')).drop 1).reverse
  readExtended basic.length 128 0 72 basic digits

end Switchboard.Url
