import Switchboard.Json.Decode
import Switchboard.Json.Raw

/-! Readers: one JSON value as something of the program's own.

A `Reader` turns the value at the front of a text into an `α` and says what is
left, which is never longer than what it was given. A refusal usually knows its
place (`Stop.placed`). One that is about the value as a whole does not: the
structure around it says where it was noticed (`Json.Plan`), and on a document of
its own it is reported without a position. -/
namespace Switchboard.Json

/-- Why and where a reader stopped. -/
inductive Stop where
  | placed (halt : Halt)
  | unplaced (cause : Cause) (rest : List Char)
  deriving DecidableEq, Repr

structure Reader (α : Type) where
  run : List Char → Except Stop (α × List Char)
  /-- A reader gives back no more than it was given. -/
  shrinks : ∀ {s : List Char} {a : α} {r : List Char}, run s = .ok (a, r) → r.length ≤ s.length

namespace Reader
variable {α β : Type}

/-- The reader whose refusals all know their place. -/
def ofHalting (run : List Char → Except Halt (α × List Char))
    (shrinks : ∀ {s a r}, run s = .ok (a, r) → r.length ≤ s.length) : Reader α where
  run s :=
    match run s with
    | .ok result => .ok result
    | .error halt => .error (.placed halt)
  shrinks {s a r} h := by
    split at h
    · rename_i result hr
      simp only [Except.ok.injEq] at h
      exact shrinks (h ▸ hr)
    · simp at h

def map (f : α → β) (p : Reader α) : Reader β where
  run s :=
    match p.run s with
    | .ok (a, r) => .ok (f a, r)
    | .error stop => .error stop
  shrinks {s b r} h := by
    split at h
    · rename_i a t hr
      simp only [Except.ok.injEq, Prod.mk.injEq] at h
      exact h.2 ▸ p.shrinks hr
    · simp at h

/-- The whole text as one value, with blanks around it. -/
def document (width : Char → Nat) (p : Reader α) (s : List Char) : Except Fault α :=
  match p.run s with
  | .error (.placed halt) => .error (halt.fault width s)
  | .error (.unplaced cause _) => .error ⟨cause, none⟩
  | .ok (a, r) =>
    match skipBlank r with
    | [] => .ok a
    | t => .error ((Halt.looking .trailingCharacters t).fault width s)

end Reader

/-! ### Single values -/

/-- A string. -/
def Reader.string (width : Char → Nat) : Reader String :=
  .ofHalting (readString? width .string) fun h => Nat.le_of_lt (readString?_length_lt h)

/-- A number as a signed word of 64 bits. -/
def wordOf (n : Number) (rest : List Char) : Except Halt (Int × List Char) :=
  match n.signed?, n with
  | some i, _ => .ok (i, rest)
  | none, .whole v fits => .error (.before (.wrongValue (.number (.whole v fits)) .integer64) rest)
  | none, .real x => .error (.before (.wrongType (.number (.real x)) .integer64) rest)

theorem wordOf_rest {n : Number} {s r : List Char} {i : Int} (h : wordOf n s = .ok (i, r)) :
    r = s := by
  unfold wordOf at h
  split at h <;> simp_all

def readWord (width : Char → Nat) (s : List Char) : Except Halt (Int × List Char) :=
  match skipBlank s with
  | '-' :: r =>
    match readNumber true r with
    | .ok (n, t) => wordOf n t
    | .error halt => .error halt
  | c :: r =>
    if isDigit c then
      match readNumber false (c :: r) with
      | .ok (n, t) => wordOf n t
      | .error halt => .error halt
    else .error (mistyped width .integer64 (c :: r))
  | [] => .error (mistyped width .integer64 [])

/-- A whole number that fits a signed word of 64 bits. -/
def Reader.word (width : Char → Nat) : Reader Int :=
  .ofHalting (readWord width) fun {s a r} h => by
    unfold readWord at h
    have h1 := skipBlank_length_le s
    split at h
    · rename_i t ht
      simp only [ht, List.length_cons] at h1
      split at h
      · rename_i n u hu
        have h2 := readNumber_length_lt hu
        rw [wordOf_rest h]
        omega
      · simp at h
    · rename_i c t _ ht
      simp only [ht, List.length_cons] at h1
      split at h
      · split at h
        · rename_i n u hu
          have h2 := readNumber_length_lt hu
          simp only [List.length_cons] at h2
          rw [wordOf_rest h]
          omega
        · simp at h
      · simp at h
    · simp at h

/-- Any value, kept as its text. -/
def Reader.raw (width : Char → Nat) : Reader Raw :=
  (Reader.ofHalting (skimText width) fun h => Nat.le_of_lt (skimText_length_lt h)).map Raw.mk

/-- A text as one value that is kept as it is spelt. -/
def Raw.parse (s : List Char) : Except Fault Raw :=
  (Reader.raw Char.utf8Size).document Char.utf8Size s

/-- The elements of the list that `raw` spells, or the refusal when it spells no list. -/
def Raw.elements (raw : Raw) : Except Fault (List Raw) :=
  match raw.chars with
  | '[' :: s =>
    match splitList Char.utf8Size s with
    | .error halt => .error (halt.fault Char.utf8Size raw.chars)
    | .ok (items, r) =>
      match skipBlank r with
      | [] => .ok (items.map Raw.mk)
      | t => .error ((Halt.looking .trailingCharacters t).fault Char.utf8Size raw.chars)
  | s => .error ((Halt.looking .expectedValue s).fault Char.utf8Size raw.chars)

/-- Any value, taken apart and out of its wrapper, inside `outer` open lists and objects. -/
def Reader.value (width : Char → Nat) (outer : Nat) : Reader Value :=
  .ofHalting (decode width true outer) fun h => Nat.le_of_lt (decode_length_lt h)

/-- A text as one value. -/
def Value.parse (s : List Char) : Except Fault Value :=
  (Reader.value Char.utf8Size 0).document Char.utf8Size s

/-! ### Null for nothing -/

/-- A value kept as its text, where `null` stands for none. -/
def Reader.rawOrNull (width : Char → Nat) : Reader (Option Raw) :=
  (Reader.raw width).map fun r => if r = .null then none else some r

end Switchboard.Json
