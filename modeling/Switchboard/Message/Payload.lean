import Switchboard.Message.ErrorObject
import Switchboard.Text.Utf8

/-! The body of a request: one message, or a batch of them.

A body is skimmed as a whole and a batch is then cut into its entries, each exactly
as it is spelt. A body that is not UTF-8 is refused, but a mistake before its first
bad byte is reported instead: `faultOfBytes` skims it byte by byte to find out. -/
namespace Switchboard
open Json

inductive Payload where
  | single (entry : Raw)
  | batch (entries : List Raw)
  deriving DecidableEq, Repr

namespace Payload

/-- Every byte as a character of its own. -/
def widened (body : ByteArray) : List Char := body.toList.map fun b => Char.ofNat b.toNat

/-- Why a body that is not UTF-8 is refused. The first bad byte shows when the value
that holds it has been passed over, or behind the value. -/
def faultOfBytes (body : ByteArray) : Fault :=
  let width := fun _ : Char => 1
  let s := widened body
  let halt : Halt :=
    match skim width s with
    | .error halt => halt
    | .ok r =>
      let bad := Text.malformed (body.toList.take (s.length - r.length))
      if bad.isEmpty then .looking .trailingCharacters (skipBlank r)
      else .looking .invalidUtf8 (s.drop (s.length - r.length - bad.length))
  halt.fault width s

/-- The body as one value's text. -/
def skimBody (body : ByteArray) : Except Fault Raw :=
  match String.fromUTF8? body with
  | some text => Raw.parse text.toList
  | none => .error (faultOfBytes body)

def parse (body : ByteArray) : Except ErrorObject Payload :=
  match skimBody body with
  | .error fault => .error (.parseError fault.message)
  | .ok raw =>
    match raw.chars with
    | '[' :: _ =>
      match raw.elements with
      | .error fault => .error (.parseError fault.message)
      | .ok [] => .error (.invalidRequest "empty batch")
      | .ok entries => .ok (.batch entries)
    | _ => .ok (.single raw)

end Payload
end Switchboard
