import Switchboard.Message.Request

/-! Responses, as the relay gives them and as endpoints give them.

A result is kept as its text. An endpoint may send both members or neither: an
error wins over a result, and neither counts as an internal error
(`Response.outcome`). -/
namespace Switchboard
open Json

/-- How a call ends: a result's text or an error object. -/
abbrev Outcome := Except ErrorObject Raw

structure Response where
  version : String
  id : Id
  result? : Option Raw
  error? : Option ErrorObject
  deriving Repr

namespace Response

def success (id : Id) (result : Raw) : Response := ⟨protocolVersion, id, some result, none⟩

def failure (id : Id) (error : ErrorObject) : Response := ⟨protocolVersion, id, none, some error⟩

def ofOutcome (id : Id) : Outcome → Response
  | .ok result => success id result
  | .error e => failure id e

def outcome (r : Response) : Outcome :=
  match r.error?, r.result? with
  | some e, _ => .error e
  | none, some result => .ok result
  | none, none => .error .internal

def write (r : Response) : List Char :=
  writeObject <|
    [writeMember "jsonrpc" (writeString r.version), writeMember "id" r.id.write] ++
      (r.result?.toList.map fun result => writeMember "result" result.chars) ++
      r.error?.toList.map fun e => writeMember "error" e.write

/-! ### Reading -/

/-- The members read so far. -/
structure Draft where
  version? : Option String := none
  id? : Option Id := none
  result? : Option Raw := none
  error? : Option (Option ErrorObject) := none

def plan (width : Char → Nat) : Plan Draft Response where
  name := "JsonRpcResponse"
  members := [
    ⟨"jsonrpc", false, fun d => d.version?.isSome,
      (Reader.string width).map fun version d => { d with version? := some version }⟩,
    ⟨"id", false, fun d => d.id?.isSome,
      (Id.reader width 1).map fun i d => { d with id? := some i }⟩,
    ⟨"result", true, fun d => d.result?.isSome,
      (Reader.raw width).map fun result d => { d with result? := some result }⟩,
    ⟨"error", true, fun d => d.error?.isSome,
      (((ErrorObject.plan width 1).reader width).orNull).map fun e d => { d with error? := some e }⟩]
  empty := {}
  finish d := do
    let version ← d.version?
    let id ← d.id?
    return ⟨version, id, d.result?, d.error?.join⟩

def parse (s : List Char) : Except Fault Response :=
  ((plan Char.utf8Size).reader Char.utf8Size).document Char.utf8Size s

end Response
end Switchboard
