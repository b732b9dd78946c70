import Switchboard.Net.Address
import Switchboard.Options.LogFormat

/-! Command lines.

A flag takes one value, after an equals sign or as the next argument; an argument
that starts with a dash is never a value of the latter kind. A flag may be given
once. What the command line leaves open is taken from the environment, and its
values are checked alike. A flag without a value waits for one until the next
flag, or the end, settles the matter. -/
namespace Switchboard.Options

/-- Why a command line is not run. -/
inductive Refusal where
  | unknownArgument
  | missingValue
  | badValue
  | unwantedValue
  | repeatedFlag
  | missingFlag
  | help
  | version
  deriving DecidableEq, Repr

/-- Whether this is a complaint, and not the answer to a question. -/
def Refusal.isComplaint : Refusal → Bool
  | .help => false
  | .version => false
  | _ => true

/-- What a flag's value must be. -/
inductive Kind where
  | text
  /-- A path, which is not empty. -/
  | path
  /-- A number of at most `bits` bits; a small one may be spelt as minus zero. -/
  | number (bits : Nat)
  | format
  | address
  deriving DecidableEq, Repr

inductive Setting where
  | text (value : String)
  | number (value : Nat)
  | format (value : LogFormat)
  | address (value : Net.SocketAddress)
  deriving DecidableEq, Repr

def numberOf? (bits : Nat) (s : List Char) : Option Nat :=
  if bits < 64 then
    (Text.signed? s).bind fun i => if 0 ≤ i ∧ i < (Nat.pow 2 bits : Nat) then some i.toNat else none
  else (Text.unsigned? s).filter (· < Nat.pow 2 bits)

def Kind.read (k : Kind) (value : String) : Except Refusal Setting :=
  match k with
  | .text => .ok (.text value)
  | .path => if value.isEmpty then .error .missingValue else .ok (.text value)
  | .number bits =>
    match numberOf? bits value.toList with
    | some n => .ok (.number n)
    | none => .error .badValue
  | .format =>
    match LogFormat.parse value with
    | .ok f => .ok (.format f)
    | .error _ => .error .badValue
  | .address =>
    match Net.SocketAddress.parse value.toList with
    | some a => .ok (.address a)
    | none => .error .badValue

structure Flag where
  name : String
  kind : Kind
  /-- The environment variable that stands in for the flag. -/
  standIn? : Option String := none
  required : Bool := false
  /-- The flag that must be given with this one. -/
  companion? : Option String := none

/-- What has been read: the settings, and the flag that waits with its value so far. -/
structure Reading where
  settings : List (String × Setting) := []
  waiting? : Option (Flag × Option String) := none

def Reading.has (r : Reading) (name : String) : Bool := r.settings.any fun s => s.1 == name

/-- The flag's value, unless the flag was given before. -/
def Reading.put (r : Reading) (f : Flag) (value : String) : Except Refusal Reading :=
  if r.has f.name then .error .repeatedFlag
  else
    match f.kind.read value with
    | .error e => .error e
    | .ok s => .ok { r with settings := r.settings ++ [(f.name, s)] }

/-- The reading with nothing left waiting. -/
def Reading.settle (r : Reading) : Except Refusal Reading :=
  match r.waiting? with
  | none => .ok r
  | some (_, none) => .error .missingValue
  | some (f, some value) => Reading.put { r with waiting? := none } f value

/-- The answer to a question, once nothing is left waiting. -/
def Reading.ask (r : Reading) (answer : Refusal) : Except Refusal Reading :=
  match r.settle with
  | .error e => .error e
  | .ok _ => .error answer

/-- An argument that starts with two dashes, after these. -/
def Reading.long (flags : List Flag) (r : Reading) (body : List Char) : Except Refusal Reading :=
  let name := String.ofList (body.takeWhile (· ≠ '='))
  let value? := match body.dropWhile (· ≠ '=') with
    | [] => none
    | _ :: value => some (String.ofList value)
  if name = "help" || name = "version" then
    match value? with
    | some _ => .error .unwantedValue
    | none => r.ask (if name = "help" then .help else .version)
  else
    match flags.find? fun f => f.name == name with
    | none => .error .unknownArgument
    | some f =>
      match r.settle with
      | .error e => .error e
      | .ok r =>
        match value? with
        | some value => r.put f value
        | none => .ok { r with waiting? := some (f, none) }

/-- One argument other than the two dashes alone. -/
def Reading.step (flags : List Flag) (r : Reading) (argument : String) : Except Refusal Reading :=
  match argument.toList with
  | '-' :: '-' :: body => r.long flags body
  | '-' :: 'h' :: _ => r.ask .help
  | '-' :: 'V' :: _ => r.ask .version
  | '-' :: _ :: _ => .error .unknownArgument
  | _ =>
    match r.waiting? with
    | some (f, none) => .ok { r with waiting? := some (f, some argument) }
    | _ => .error .unknownArgument

/-- All arguments. After two dashes alone nothing more may come. -/
def Reading.run (flags : List Flag) (r : Reading) : List String → Except Refusal Reading
  | [] => r.settle
  | "--" :: rest => if rest.isEmpty then r.settle else .error .unknownArgument
  | argument :: rest =>
    match r.step flags argument with
    | .error e => .error e
    | .ok r => r.run flags rest

/-- The settings the environment adds. -/
def Reading.fill (environment : List (String × String)) (r : Reading) :
    List Flag → Except Refusal Reading
  | [] => .ok r
  | f :: rest =>
    match f.standIn?.bind fun v => environment.find? fun e => e.1 == v with
    | none => r.fill environment rest
    | some (_, value) =>
      if r.has f.name then r.fill environment rest
      else
        match r.put f value with
        | .error e => .error e
        | .ok r => r.fill environment rest

/-- Whether a flag is missing, or the one that goes with it. -/
def Reading.lacks (r : Reading) (f : Flag) : Bool :=
  if r.has f.name then
    match f.companion? with
    | some other => !r.has other
    | none => false
  else f.required

structure Settings where
  values : List (String × Setting)

/-- The settings that a command line and an environment make. -/
def parse (flags : List Flag) (arguments : List String) (environment : List (String × String)) :
    Except Refusal Settings :=
  match Reading.run flags {} arguments with
  | .error e => .error e
  | .ok r =>
    match r.fill environment flags with
    | .error e => .error e
    | .ok r => if flags.any r.lacks then .error .missingFlag else .ok ⟨r.settings⟩

namespace Settings

def find? (s : Settings) (name : String) : Option Setting :=
  (s.values.find? fun v => v.1 == name).map Prod.snd

def text? (s : Settings) (name : String) : Option String :=
  match s.find? name with
  | some (.text v) => some v
  | _ => none

def number (s : Settings) (name : String) (default : Nat) : Nat :=
  match s.find? name with
  | some (.number n) => n
  | _ => default

def format (s : Settings) (name : String) : LogFormat :=
  match s.find? name with
  | some (.format f) => f
  | _ => .text

def address? (s : Settings) (name : String) : Option Net.SocketAddress :=
  match s.find? name with
  | some (.address a) => some a
  | _ => none

end Settings
end Switchboard.Options
