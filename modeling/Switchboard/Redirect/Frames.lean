import Switchboard.Message.Response

/-! What an endpoint sends: frames, one a line.

A frame ends at a line feed; one carriage return before it does not belong to it.
Bytes left when the endpoint stops sending are a last frame, unless they are a lone
carriage return. A frame that is longer than allowed or is not UTF-8 spoils the
connection. -/
namespace Switchboard.Redirect

def lineFeed : UInt8 := 10

def carriageReturn : UInt8 := 13

/-- The line without one carriage return at its end. -/
def withoutReturn (line : List UInt8) : List UInt8 :=
  match line.reverse with
  | b :: rest => if b = carriageReturn then rest.reverse else line
  | [] => []

/-- What comes next in the bytes received. -/
inductive Incoming where
  | frame (line : List Char) (rest : List UInt8)
  /-- A frame that is too long or is not UTF-8. -/
  | spoiled
  /-- No whole frame yet. -/
  | more
  /-- No frame any more. -/
  | finished
  deriving DecidableEq, Repr

/-- The line as a frame. -/
def frameOf (line rest : List UInt8) : Incoming :=
  match String.fromUTF8? ⟨(withoutReturn line).toArray⟩ with
  | some text => .frame text.toList rest
  | none => .spoiled

/-- The next frame of at most `longest` bytes, all bytes having been received when
`ended`. -/
def incoming (longest : Nat) (ended : Bool) (bytes : List UInt8) : Incoming :=
  let line := bytes.takeWhile (· ≠ lineFeed)
  if longest < line.length then .spoiled
  else
    match bytes.dropWhile (· ≠ lineFeed) with
    | _ :: rest => frameOf line rest
    | [] =>
      if !ended then .more
      else if line = [] ∨ line = [carriageReturn] then .finished
      else frameOf line []

/-! ### What a frame means -/

inductive Delivery where
  | undecodable
  /-- No call can be meant. -/
  | unmatched (error? : Option ErrorObject)
  | answer (id : Nat) (outcome : Outcome)

def Delivery.ofFrame (line : List Char) : Delivery :=
  match Response.parse line with
  | .error _ => .undecodable
  | .ok r =>
    match r.id.natural? with
    | none => .unmatched r.error?
    | some n => .answer n r.outcome

end Switchboard.Redirect
