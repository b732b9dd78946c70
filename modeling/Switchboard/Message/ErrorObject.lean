import Switchboard.Json.Record

/-! The error object of an answer: a code, a message and possibly data.

The relay has an error object of its own for each way in which it refuses a call;
those of a handler or of an endpoint are passed on as they came. -/
namespace Switchboard
open Json

structure ErrorObject where
  code : Int
  message : String
  data? : Option Value := none
  deriving Repr, BEq

namespace ErrorObject

/-! ### The relay's own -/

def parseError (detail : String) : ErrorObject := ⟨-32700, "parse error: " ++ detail, none⟩

def invalidRequest (detail : String) : ErrorObject := ⟨-32600, "invalid request: " ++ detail, none⟩

def methodNotFound (method : String) : ErrorObject :=
  ⟨-32601, "the method " ++ method ++ " does not exist/is not available", none⟩

def invalidParams (detail : String) : ErrorObject := ⟨-32602, "invalid params: " ++ detail, none⟩

def internal : ErrorObject := ⟨-32603, "internal error", none⟩

def overloaded : ErrorObject := ⟨-32005, "server overloaded, try again later", none⟩

def cancelled : ErrorObject := ⟨-32800, "request cancelled", none⟩

def timedOut (timeoutMs : Nat) : ErrorObject :=
  ⟨-32801, "request timed out after " ++ toString timeoutMs ++ "ms", none⟩

/-- The error in one line. -/
def display (e : ErrorObject) : String := e.message ++ " (code " ++ toString e.code ++ ")"

/-! ### Spelling -/

def write (e : ErrorObject) : List Char :=
  writeObject <|
    [writeMember "code" (toString e.code).toList, writeMember "message" (writeString e.message)] ++
      e.data?.toList.map fun v => writeMember "data" v.write

/-- The members read so far. -/
structure Draft where
  code? : Option Int := none
  message? : Option String := none
  data? : Option (Option Value) := none

/-- An error object inside `outer` open lists and objects. -/
def plan (width : Char → Nat) (outer : Nat) : Plan Draft ErrorObject where
  name := "ErrorObject"
  members := [
    ⟨"code", false, fun d => d.code?.isSome,
      (Reader.word width).map fun code d => { d with code? := some code }⟩,
    ⟨"message", false, fun d => d.message?.isSome,
      (Reader.string width).map fun message d => { d with message? := some message }⟩,
    ⟨"data", true, fun d => d.data?.isSome,
      (Reader.value width (outer + 1)).orNull.map fun data d => { d with data? := some data }⟩]
  empty := {}
  finish d := do
    let code ← d.code?
    let message ← d.message?
    return ⟨code, message, d.data?.join⟩

def parse (s : List Char) : Except Fault ErrorObject :=
  ((plan Char.utf8Size 0).reader Char.utf8Size).document Char.utf8Size s

end ErrorObject
end Switchboard
