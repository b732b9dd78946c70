/-! Counters, and the labels under which things are counted. -/
namespace Switchboard

/-- A counter's name with its labels in order. -/
structure MetricKey where
  name : String
  labels : List (String × String)
  deriving DecidableEq, Repr

def MetricKey.text (k : MetricKey) : String :=
  k.name ++ "\x7b" ++ ",".intercalate (k.labels.map fun l => l.1 ++ "=" ++ l.2) ++ "\x7d"

/-- How often each key was counted. -/
abbrev Metrics := List (MetricKey × Nat)

namespace Metrics

def count (key : MetricKey) : Metrics → Metrics
  | [] => [(key, 1)]
  | (k, n) :: rest => if k = key then (k, n + 1) :: rest else (k, n) :: count key rest

/-- The dial of a redirection that has ended. -/
def dialKey (name : String) (succeeded : Bool) : MetricKey :=
  ⟨"relay_redirect_dials_total",
    [("namespace", name), ("outcome", if succeeded then "ok" else "error")]⟩

def callKey (name outcome : String) : MetricKey :=
  ⟨"relay_rpc_calls_total", [("namespace", name), ("outcome", outcome)]⟩

def durationKey (name : String) : MetricKey :=
  ⟨"relay_rpc_call_duration_seconds", [("namespace", name)]⟩

end Metrics
end Switchboard
