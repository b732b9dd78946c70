import Switchboard.Json.Record

/-! The id that ties an answer to its request: a number, a string or null. -/
namespace Switchboard
open Json

inductive Id where
  | number (value : Number)
  | string (value : String)
  | null
  deriving DecidableEq, Repr

namespace Id

/-- The id with a number of the relay's own. -/
def ofNat (n : Nat) : Id := .number (Number.ofNat n)

/-- The number of an id that is spelt as an unsigned word. -/
def natural? : Id → Option Nat
  | .number n => n.natural?
  | _ => none

def value : Id → Value
  | .number n => .number n
  | .string s => .string s
  | .null => .null

def write (i : Id) : List Char := i.value.write

def ofValue? : Value → Option Id
  | .number n => some (.number n)
  | .string s => some (.string s)
  | .null => some .null
  | _ => none

/-- An id, inside `outer` open lists and objects. A value of another kind is read to
its end and then refused. -/
def reader (width : Char → Nat) (outer : Nat) : Reader Id where
  run s :=
    match decode width false outer s with
    | .error halt => .error (.placed halt)
    | .ok (v, r) =>
      match ofValue? v with
      | some i => .ok (i, r)
      | none => .error (.unplaced .notAnId r)
  shrinks {s a r} h := by
    split at h
    · simp at h
    · rename_i v t ht
      have h1 := decode_length_lt ht
      split at h
      · simp only [Except.ok.injEq, Prod.mk.injEq] at h
        rw [← h.2]
        omega
      · simp at h

/-- A text as an id of its own. -/
def parse (s : List Char) : Except Fault Id := (reader Char.utf8Size 0).document Char.utf8Size s

end Id
end Switchboard
