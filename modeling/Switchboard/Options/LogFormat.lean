import Switchboard.Text.Numeral
import Switchboard.Text.Quoted

/-! How log lines are written. -/
namespace Switchboard

inductive LogFormat where
  | text
  | json
  deriving DecidableEq, Repr

namespace LogFormat

/-- The format of that name, in capitals or not, or the complaint. -/
def parse (name : String) : Except String LogFormat :=
  match Text.lowered name with
  | "text" => .ok .text
  | "json" => .ok .json
  | other => .error ("unknown log format " ++ Text.quoted other ++ ", expected text or json")

end LogFormat
end Switchboard
