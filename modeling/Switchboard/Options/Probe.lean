import Switchboard.Options.Flags
import Switchboard.Probe.Poll

/-! The command line of the readiness probe. -/
namespace Switchboard.Options

/-- Everything the probe's command line decides. -/
structure Probe where
  url : String
  method : String
  intervalMs : Nat
  deadlineMs : Nat
  logFormat : LogFormat

namespace Probe

def flags : List Flag := [
  ⟨"url", .text, some "PROBE_URL", true, none⟩,
  ⟨"method", .text, none, false, none⟩,
  ⟨"interval-ms", .number 64, none, false, none⟩,
  ⟨"deadline-ms", .number 64, none, false, none⟩,
  ⟨"log-format", .format, none, false, none⟩]

def ofSettings (s : Settings) : Probe where
  url := (s.text? "url").getD ""
  method := (s.text? "method").getD "web3_clientVersion"
  intervalMs := s.number "interval-ms" 1000
  deadlineMs := s.number "deadline-ms" 60000
  logFormat := s.format "log-format"

def parse (arguments : List String) (environment : List (String × String)) :
    Except Refusal Probe :=
  match Options.parse flags arguments environment with
  | .error e => .error e
  | .ok s => .ok (ofSettings s)

/-- The complaint about options that no probe can be made with. -/
def complaint? (o : Probe) : Option String :=
  match Url.parse o.url with
  | .error e => some ("invalid --url: " ++ e.message)
  | .ok u =>
    if !u.isHttp then some ("unsupported --url scheme " ++ Text.quoted u.scheme)
    else if o.intervalMs = 0 then some "--interval-ms must be greater than zero"
    else none

end Probe
end Switchboard.Options
