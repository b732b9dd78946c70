import Switchboard.Url.Host

/-! URLs, as the probe is given them.

A URL is read without a base, so it must name its scheme. In the special schemes any
number of slashes or backslashes leads to the host, and there must be one (except in
`file`); the path is never empty, and its dots are resolved. In other schemes two
slashes lead to a host that may be empty, and without them the rest is a path of the
scheme's own. -/
namespace Switchboard

structure Url where
  scheme : String
  /-- User, password and an at sign, or nothing. -/
  user : List Char := []
  /-- The host as it is written, or none. -/
  host? : Option (List Char) := none
  /-- The port, when it is not the scheme's own. -/
  port? : Option Nat := none
  path : List Char := []
  query? : Option (List Char) := none
  fragment? : Option (List Char) := none
  deriving DecidableEq, Repr

namespace Url

/-- The port a special scheme uses when none is given; `file` uses none. -/
def specialSchemes : List (String × Option Nat) :=
  [("http", some 80), ("https", some 443), ("ws", some 80), ("wss", some 443), ("ftp", some 21),
    ("file", none)]

def isSpecial (scheme : String) : Bool := specialSchemes.any fun s => s.1 == scheme

def defaultPort? (scheme : String) : Option Nat :=
  (specialSchemes.find? fun s => s.1 == scheme).bind Prod.snd

/-! ### Text -/

/-- The path and the query, as a request names them. -/
def target (u : Url) : List Char :=
  u.path ++ (match u.query? with
    | some q => '?' :: q
    | none => [])

/-- The URL in full, but for user and password. -/
def display (u : Url) : String :=
  let host := match u.host? with
    | some h => "//" ++ String.ofList h ++
      (match u.port? with
        | some p => ":" ++ toString p
        | none => "")
    | none => ""
  let fragment := match u.fragment? with
    | some f => "#" ++ String.ofList f
    | none => ""
  u.scheme ++ ":" ++ host ++ String.ofList u.target ++ fragment

/-! ### Reading -/

def isLetter (c : Char) : Bool := ('a' ≤ c && c ≤ 'z') || ('A' ≤ c && c ≤ 'Z')

def isSchemeCharacter (c : Char) : Bool :=
  isLetter c || ('0' ≤ c && c ≤ '9') || c == '+' || c == '-' || c == '.'

/-- The scheme, in small letters, and what follows its colon. -/
def scheme? (s : List Char) : Option (String × List Char) :=
  match s with
  | [] => none
  | c :: _ =>
    if isLetter c then
      match s.dropWhile isSchemeCharacter with
      | ':' :: rest => some (String.ofList ((s.takeWhile isSchemeCharacter).map Text.lower), rest)
      | _ => none
    else none

/-- Without blanks and controls at the ends, and without tabs and line ends. -/
def cleaned (s : List Char) : List Char :=
  let isEdge (c : Char) : Bool := c.toNat ≤ 0x20
  (((s.dropWhile isEdge).reverse.dropWhile isEdge).reverse).filter
    fun c => c ≠ '\t' && c ≠ '\n' && c ≠ '\r'

/-- Whether the character ends the authority. -/
def endsAuthority (special : Bool) (c : Char) : Bool :=
  c == '/' || c == '?' || c == '#' || (special && c == '\\')

/-- User and password as they are written, from what stands before the at sign. -/
def writtenUser (s : List Char) : List Char :=
  let name := encode inUser (s.takeWhile (· ≠ ':'))
  let password := encode inUser ((s.dropWhile (· ≠ ':')).drop 1)
  let both := if password.isEmpty then name else name ++ ':' :: password
  if both.isEmpty then [] else both ++ ['@']

/-- User and password, and the host and port after the last at sign. -/
def splitUser (authority : List Char) : Option (List Char) × List Char :=
  let back := authority.reverse
  match back.dropWhile (· ≠ '@') with
  | [] => (none, authority)
  | _ :: user => (some user.reverse, (back.takeWhile (· ≠ '@')).reverse)

/-- The host up to a colon outside brackets, and the rest. -/
def splitHost (bracketed : Bool) : List Char → List Char × List Char
  | [] => ([], [])
  | ':' :: s =>
    if bracketed then
      let (host, rest) := splitHost bracketed s
      (':' :: host, rest)
    else ([], ':' :: s)
  | c :: s =>
    let (host, rest) := splitHost (if c = '[' then true else if c = ']' then false else bracketed) s
    (c :: host, rest)

/-- The port after the host's colon, none when it is left out or the scheme's own. -/
def parsePort (scheme : String) (s : List Char) : Except UrlError (Option Nat) :=
  if s.isEmpty then .ok none
  else
    match Text.numeral? 10 s with
    | none => .error .badPort
    | some p =>
      if 65536 ≤ p then .error .badPort
      else .ok (if defaultPort? scheme = some p then none else some p)

/-- The segments of a path, the dots resolved. -/
def resolve (done : List (List Char)) : List (List Char) → List (List Char)
  | [] => done.reverse
  | segment :: rest =>
    let plain := String.ofList (segment.map Text.lower)
    if plain = ".." || plain = ".%2e" || plain = "%2e." || plain = "%2e%2e" then
      resolve (if rest.isEmpty then [] :: done.drop 1 else done.drop 1) rest
    else if plain = "." || plain = "%2e" then
      resolve (if rest.isEmpty then [] :: done else done) rest
    else resolve (encode inPath segment :: done) rest

/-- A path that starts with a slash. -/
def writtenPath (special : Bool) (s : List Char) : List Char :=
  let s := if special then s.map fun c => if c = '\\' then '/' else c else s
  let inner := match s with
    | '/' :: rest => rest
    | rest => rest
  (resolve [] (Text.parts '/' inner)).flatMap fun segment => '/' :: segment

/-- The parts before a question mark or number sign, between them and after. -/
def splitTail (s : List Char) : List Char × Option (List Char) × Option (List Char) :=
  let main := s.takeWhile (· ≠ '#')
  let fragment := match s.dropWhile (· ≠ '#') with
    | [] => none
    | _ :: f => some (encode inFragment f)
  let query := match main.dropWhile (· ≠ '?') with
    | [] => none
    | _ :: q => some q
  (main.takeWhile (· ≠ '?'), query, fragment)

/-- The URL with path, query and fragment from what follows the authority. -/
def withTail (u : Url) (opaquePath : Bool) (s : List Char) : Url :=
  let special := isSpecial u.scheme
  let (path, query, fragment) := splitTail s
  { u with
    path :=
      if opaquePath then encode [] path
      else if path.isEmpty && !special then []
      else writtenPath special path
    query? := query.map (encode (if special then '\'' :: inQuery else inQuery))
    fragment? := fragment }

/-- Authority and everything after it. -/
def ofAuthority (scheme : String) (s : List Char) : Except UrlError Url :=
  let special := isSpecial scheme
  let authority := s.takeWhile fun c => !endsAuthority special c
  let rest := s.dropWhile fun c => !endsAuthority special c
  let (user?, address) := splitUser authority
  let (host, port) := splitHost false address
  let user := writtenUser (user?.getD [])
  if user?.isSome && address.isEmpty then .error .emptyHost
  else if host.isEmpty && (special || !port.isEmpty || !user.isEmpty) then .error .emptyHost
  else
    match if special then parseHost host else parseOpaqueHost host with
    | .error e => .error e
    | .ok host =>
      match parsePort scheme (port.drop 1) with
      | .error e => .error e
      | .ok port? =>
        .ok (withTail { scheme := scheme, user := user, host? := some host, port? := port? } false rest)

/-- A URL of a local file. -/
def ofFile (s : List Char) : Except UrlError Url :=
  let isSlash (c : Char) : Bool := c == '/' || c == '\\'
  match s with
  | a :: b :: rest =>
    if isSlash a && isSlash b then
      let host := rest.takeWhile fun c => !endsAuthority true c
      let rest := rest.dropWhile fun c => !endsAuthority true c
      if host.isEmpty then .ok (withTail { scheme := "file", host? := some [] } false rest)
      else
        match parseHost host with
        | .error e => .error e
        | .ok host =>
          let host := if host = "localhost".toList then [] else host
          .ok (withTail { scheme := "file", host? := some host } false rest)
    else .ok (withTail { scheme := "file", host? := some [] } false s)
  | s => .ok (withTail { scheme := "file", host? := some [] } false s)

def parse (text : String) : Except UrlError Url :=
  match scheme? (cleaned text.toList) with
  | none => .error .relative
  | some (scheme, rest) =>
    if scheme = "file" then ofFile rest
    else if isSpecial scheme then
      ofAuthority scheme (rest.dropWhile fun c => c == '/' || c == '\\')
    else
      match rest with
      | '/' :: '/' :: rest => ofAuthority scheme rest
      | '/' :: _ => .ok (withTail { scheme := scheme } false rest)
      | rest => .ok (withTail { scheme := scheme } true rest)

/-- Whether requests can be sent there. -/
def isHttp (u : Url) : Bool := u.scheme == "http" || u.scheme == "https"

end Url
end Switchboard
