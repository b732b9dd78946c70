/-! Where a sequence of bytes stops being UTF-8. -/
namespace Switchboard.Text

def isContinuation (b : UInt8) : Bool := 0x80 ≤ b && b ≤ 0xbf

/-- The bytes after the first character, when a well-formed one stands there: no longer
than it needs to be, no surrogate, and none beyond `U+10FFFF`. -/
def afterCharacter : List UInt8 → Option (List UInt8)
  | [] => none
  | a :: rest =>
    if a < 0x80 then some rest
    else
      match rest with
      | [] => none
      | b :: rest =>
        if 0xc2 ≤ a && a ≤ 0xdf then if isContinuation b then some rest else none
        else
          match rest with
          | [] => none
          | c :: rest =>
            if 0xe0 ≤ a && a ≤ 0xef then
              if (if a = 0xe0 then 0xa0 ≤ b && b ≤ 0xbf
                  else if a = 0xed then 0x80 ≤ b && b ≤ 0x9f
                  else isContinuation b) && isContinuation c then some rest else none
            else
              match rest with
              | [] => none
              | d :: rest =>
                if 0xf0 ≤ a && a ≤ 0xf4 &&
                    (if a = 0xf0 then 0x90 ≤ b && b ≤ 0xbf
                     else if a = 0xf4 then 0x80 ≤ b && b ≤ 0x8f
                     else isContinuation b) && isContinuation c && isContinuation d then some rest
                else none

theorem afterCharacter_length_lt {s r : List UInt8} (h : afterCharacter s = some r) :
    r.length < s.length := by
  rcases s with _ | ⟨a, _ | ⟨b, _ | ⟨c, _ | ⟨d, rest⟩⟩⟩⟩ <;> grind [afterCharacter]

/-- What is left from the first byte on that is part of no well-formed character. -/
def malformed (s : List UInt8) : List UInt8 :=
  match _h : afterCharacter s with
  | some r => malformed r
  | none => s
termination_by s.length
decreasing_by exact afterCharacter_length_lt _h

end Switchboard.Text
