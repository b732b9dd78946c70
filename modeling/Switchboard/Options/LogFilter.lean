/-! Log filters: which lines are written.

A filter is a list of directives between commas. A directive is a level, a target,
or a target, an equals sign and a level; in brackets it may name a span and fields. -/
namespace Switchboard.LogFilter

def levelMessage : String :=
  "error parsing level filter: expected one of \"off\", \"error\", \"warn\", \"info\", \"debug\", \"trace\", or a number 0-5"

def directiveMessage : String := "invalid filter directive"

def isLevel (s : List Char) : Bool :=
  let plain := String.ofList (s.map Char.toLower)
  ["", "off", "error", "warn", "info", "debug", "trace"].contains plain ||
    (match s with
    | '+' :: rest => isNumber rest
    | rest => isNumber rest)
where
  isNumber (s : List Char) : Bool :=
    match s.dropWhile (· = '0') with
    | [] => !s.isEmpty
    | [c] => '1' ≤ c && c ≤ '5'
    | _ => false

/-- The part of a directive that is being read. -/
inductive Part where
  | start
  | target
  | level (done : List Char)
  | span
  | field (empty : Bool)
  | fields
  | closed
  deriving DecidableEq, Repr

/-- Whether a target or a level may begin with the character. -/
def mayStart (c : Char) : Bool :=
  c.isAlphanum || c == '-' || c == ':' || c == '_' || 0x80 ≤ c.toNat

def step (p : Part) (c : Char) : Except String Part :=
  match p, c with
  | .start, '[' => .ok .span
  | .start, c => if mayStart c then .ok .target else .error directiveMessage
  | .target, '=' => .ok (.level [])
  | .target, '[' => .ok .span
  | .target, _ => .ok .target
  | .level done, c => .ok (.level (c :: done))
  | .span, ']' => .ok .closed
  | .span, '\x7b' => .ok (.field true)
  | .span, _ => .ok .span
  | .field empty, '\x7d' => if empty then .error directiveMessage else .ok .fields
  | .field _, _ => .ok (.field false)
  | .fields, ']' => .ok .closed
  | .fields, _ => .error directiveMessage
  | .closed, '=' => .ok (.level [])
  | .closed, _ => .error directiveMessage

def finish : Part → Except String Unit
  | .target => .ok ()
  | .closed => .ok ()
  | .level done => if isLevel done.reverse then .ok () else .error levelMessage
  | _ => .error directiveMessage

def directive (s : List Char) : Except String Unit := do
  finish (← s.foldlM step .start)

/-- The complaint about a filter, if there is one. -/
def complaint? (filter : String) : Option String :=
  let isBlank (c : Char) : Bool := c == ' ' || c == '\t' || c == '\n' || c == '\r'
  let trimmed (s : List Char) := ((s.dropWhile isBlank).reverse.dropWhile isBlank).reverse
  if (trimmed filter.toList).isEmpty then none
  else
    let directives := (filter.splitOn ",").filter fun d => !d.isEmpty
    match directives.mapM fun d => directive (trimmed d.toList) with
    | .ok _ => none
    | .error e => some e

end Switchboard.LogFilter
