import Switchboard.Message.ErrorObject
import Switchboard.Message.Id

/-! Requests, as callers send them and as the relay sends them on.

A request without an id is a notification and is not answered; one whose id is
null is answered. Arguments are passed on exactly as they are spelt, so the params
are kept as text (`Request.params?`) and cut into arguments only when the call is
made (`Request.arguments`). -/
namespace Switchboard
open Json

/-- The protocol version every message carries. -/
def protocolVersion : String := "2.0"

structure Request where
  version : String
  id? : Option Id
  method : String
  params? : Option Raw
  deriving DecidableEq, Repr

namespace Request

/-- The request the relay makes under an id of its own. -/
def call (id : Nat) (method : String) (arguments : List Raw) : Request :=
  ⟨protocolVersion, some (.ofNat id), method, some (Raw.list arguments)⟩

def isNotification (r : Request) : Bool := r.id?.isNone

def write (r : Request) : List Char :=
  writeObject <|
    [writeMember "jsonrpc" (writeString r.version)] ++
      (r.id?.toList.map fun i => writeMember "id" i.write) ++
      [writeMember "method" (writeString r.method)] ++
      r.params?.toList.map fun p => writeMember "params" p.chars

/-! ### Reading -/

/-- The members read so far. -/
structure Draft where
  version? : Option String := none
  id? : Option Id := none
  method? : Option String := none
  params? : Option (Option Raw) := none

def plan (width : Char → Nat) : Plan Draft Request where
  name := "JsonRpcRequest"
  members := [
    ⟨"jsonrpc", false, fun d => d.version?.isSome,
      (Reader.string width).map fun version d => { d with version? := some version }⟩,
    ⟨"id", true, fun d => d.id?.isSome,
      (Id.reader width 1).map fun i d => { d with id? := some i }⟩,
    ⟨"method", false, fun d => d.method?.isSome,
      (Reader.string width).map fun method d => { d with method? := some method }⟩,
    ⟨"params", true, fun d => d.params?.isSome,
      (Reader.rawOrNull width).map fun params d => { d with params? := some params }⟩]
  empty := {}
  finish d := do
    let version ← d.version?
    let method ← d.method?
    return ⟨version, d.id?, method, d.params?.join⟩

def parse (s : List Char) : Except Fault Request :=
  ((plan Char.utf8Size).reader Char.utf8Size).document Char.utf8Size s

/-- The structure of which only the id is of interest. -/
def idPlan (width : Char → Nat) : Plan (Option Id) (Option Id) where
  name := "IdOnly"
  members := [⟨"id", true, Option.isSome, (Id.reader width 1).map fun i _ => some i⟩]
  empty := none
  finish := some

/-- The id to answer under when the rest is no request: null when there is none. -/
def salvagedId (s : List Char) : Id :=
  match ((idPlan Char.utf8Size).reader Char.utf8Size).document Char.utf8Size s with
  | .ok (some i) => i
  | _ => .null

/-- A caller's request, or the error and the id to answer it under. -/
def ofRaw (raw : Raw) : Except (Id × ErrorObject) Request :=
  match parse raw.chars with
  | .error fault => .error (salvagedId raw.chars, .invalidRequest fault.message)
  | .ok r =>
    if r.version = protocolVersion then .ok r
    else
      .error (salvagedId raw.chars,
        .invalidRequest ("unsupported jsonrpc version " ++ Text.quoted r.version))

/-! ### Arguments -/

/-- The arguments in order, each exactly as it is spelt. Null params are no arguments;
arguments by name are refused. -/
def arguments (r : Request) : Except ErrorObject (List Raw) :=
  match r.params? with
  | none => .ok []
  | some params =>
    match params.chars with
    | '[' :: _ =>
      match params.elements with
      | .ok items => .ok items
      | .error fault => .error (.invalidParams fault.message)
    | '\x7b' :: _ => .error (.invalidParams "named parameters are not supported")
    | _ =>
      if params = .null then .ok [] else .error (.invalidParams "params must be an array")

end Request
end Switchboard
