import Switchboard.Json.Skim
import Switchboard.Json.Value

/-! JSON kept as it was spelt.

What is only passed on (arguments, results, the entries of a batch) is never
decoded: it stays the text it came as, so that `1.10` does not become `1.1`. -/
namespace Switchboard.Json

/-- One JSON value's own text, without the blanks around it. -/
structure Raw where
  chars : List Char
  deriving DecidableEq, Repr

namespace Raw

def text (r : Raw) : String := String.ofList r.chars

def ofString (s : String) : Raw := ⟨s.toList⟩

/-- The text of the value `null`. -/
def null : Raw := ofString "null"

/-- The value's own text, written compactly. -/
def ofValue (v : Value) : Raw := ⟨v.write⟩

/-- The list of the given values, without blanks between them. -/
def list (items : List Raw) : Raw := ⟨writeList (items.map Raw.chars)⟩

end Raw
end Switchboard.Json
