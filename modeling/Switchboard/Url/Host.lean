import Switchboard.Net.Address
import Switchboard.Url.Percent
import Switchboard.Url.Punycode

/-! The host of a URL: a domain, an address, or in a scheme that is not special any text.

A domain whose last part is a number must be an address of four bytes, in any of its
spellings: octal and hexadecimal, and with the last part standing for several bytes. -/
namespace Switchboard.Url

/-- Why a text is no URL. -/
inductive UrlError where
  | relative
  | emptyHost
  | badPort
  | badIpv4
  | badIpv6
  | badDomain
  | badHostCharacter
  deriving DecidableEq, Repr

def UrlError.message : UrlError → String
  | .relative => "relative URL without a base"
  | .emptyHost => "empty host"
  | .badPort => "invalid port number"
  | .badIpv4 => "invalid IPv4 address"
  | .badIpv6 => "invalid IPv6 address"
  | .badDomain => "invalid international domain name"
  | .badHostCharacter => "invalid domain character"

/-! ### Addresses of four bytes -/

/-- The number a part spells, which may be too large. -/
def ipv4Part? (s : List Char) : Option Nat :=
  let hexadecimal (rest : List Char) := if rest.isEmpty then some 0 else Text.numeral? 16 rest
  match s with
  | '0' :: 'x' :: rest => hexadecimal rest
  | '0' :: 'X' :: rest => hexadecimal rest
  | '0' :: c :: rest => Text.numeral? 8 (c :: rest)
  | s => Text.numeral? 10 s

/-- The parts of a domain, without an empty last one. -/
def domainParts (s : List Char) : List (List Char) :=
  let all := Text.parts '.' s
  match all.reverse with
  | [] :: rest => rest.reverse
  | _ => all

def endsInNumber (s : List Char) : Bool :=
  match (domainParts s).getLast? with
  | none => false
  | some last =>
    (!last.isEmpty && last.all fun c => '0' ≤ c && c ≤ '9') || (ipv4Part? last).isSome

/-- The address that the parts make: the last one fills the bytes the others leave. -/
def ipv4Address (s : List Char) : Except UrlError Nat :=
  let all := (domainParts s).map ipv4Part?
  match all.mapM id with
  | none => .error .badIpv4
  | some numbers =>
    let bytes := numbers.dropLast
    let last := numbers.getLastD 0
    if 4 < numbers.length || Nat.pow 256 (4 - bytes.length) ≤ last || bytes.any (255 < ·) then
      .error .badIpv4
    else
      .ok (bytes.zipIdx.foldl (fun n (b, i) => n + b * Nat.pow 256 (3 - i)) last)

/-! ### Domains -/

/-- The characters no domain may hold. -/
def isForbidden (c : Char) : Bool :=
  c.toNat ≤ 0x20 || c.toNat = 0x7f || ['%', '#', '/', ':', '<', '>', '?', '@', '[', '\\', ']', '^',
    '|'].contains c

/-- The form in which a character of a domain is compared: small, and narrow. -/
def folded (c : Char) : List Char :=
  let n := c.toNat
  if n < 0x80 then [Text.lower c]
  else if n = 0xa0 || n = 0x3000 then [' ']
  else if n = 0xad || n = 0x200b || n = 0x2060 || n = 0xfeff then []
  else if n = 0x3002 || n = 0xff0e || n = 0xff61 then ['.']
  else if 0xff01 ≤ n && n ≤ 0xff5e then [Text.lower (Char.ofNat (n - 0xfee0))]
  else if (0xc0 ≤ n && n ≤ 0xde && n ≠ 0xd7) || (0x391 ≤ n && n ≤ 0x3a9) || (0x410 ≤ n && n ≤ 0x42f)
    then [Char.ofNat (n + 32)]
  else if 0x400 ≤ n && n ≤ 0x40f then [Char.ofNat (n + 80)]
  else [c]

def isAscii (s : List Char) : Bool := s.all fun c => c.toNat < 128

/-- Whether the label may not be part of a domain. -/
def isBadLabel (s : List Char) : Bool :=
  s.any isForbidden || s.any (fun c => c.toNat = 0xfffd) ||
    match s with
    | c :: _ => 0x300 ≤ c.toNat && c.toNat ≤ 0x36f
    | [] => false

/-- One label in ASCII. -/
def asciiLabel (s : List Char) : Option (List Char) :=
  if isBadLabel s then none
  else if isAscii s then
    match Text.after? ['x', 'n', '-', '-'] s with
    | none => some s
    | some body =>
      match readPunycode body with
      | some label => if isAscii label || isBadLabel label then none else some s
      | none => none
  else some (['x', 'n', '-', '-'] ++ punycode s)

/-- The domain in ASCII. -/
def asciiDomain (bytes : List UInt8) : Except UrlError (List Char) :=
  match String.fromUTF8? ⟨bytes.toArray⟩ with
  | none => .error .badDomain
  | some text =>
    match ((Text.parts '.' (text.toList.flatMap folded)).map asciiLabel).mapM id with
    | none => .error .badDomain
    | some labels => .ok (List.intercalate ['.'] labels)

/-! ### Hosts -/

def ipv6Host (s : List Char) : Except UrlError (List Char) :=
  match s.reverse with
  | ']' :: inside =>
    match Net.ipv6? inside.reverse with
    | some groups => .ok (('[' :: (Net.compressed groups).toList) ++ [']'])
    | none => .error .badIpv6
  | _ => .error .badIpv6

/-- The host of a special scheme, as it is written. -/
def parseHost (s : List Char) : Except UrlError (List Char) :=
  match s with
  | '[' :: rest => ipv6Host rest
  | s =>
    match asciiDomain (decodeBytes s) with
    | .error e => .error e
    | .ok domain =>
      if domain.isEmpty then .error .emptyHost
      else if endsInNumber domain then
        match ipv4Address domain with
        | .ok n => .ok (Net.ipv4Text n).toList
        | .error e => .error e
      else .ok domain

/-- The host of another scheme, as it is written. -/
def parseOpaqueHost (s : List Char) : Except UrlError (List Char) :=
  match s with
  | '[' :: rest => ipv6Host rest
  | s =>
    if s.any fun c => ['\x00', '\t', '\n', '\r', ' ', '#', '/', ':', '<', '>', '?', '@', '[', '\\',
        ']', '^', '|'].contains c then .error .badHostCharacter
    else .ok (encode [] s)

end Switchboard.Url
