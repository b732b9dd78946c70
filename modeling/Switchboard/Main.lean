import Switchboard.Bench.Controls
import Switchboard.Node.Build
import Switchboard.Node.Launch

/-! The command line.

`probe` and its flags check what the probe would be asked to do. Everything else is the
command line of the relay, which then answers the bodies it is given, one on each line
of its standard input. It has no network: calls under a redirected namespace are
answered as those whose endpoint cannot be reached. -/
namespace Switchboard.Program
open Bench Options

/-- The variables that stand in for flags, and the log filter's. -/
def standIns : List String :=
  Launch.filterVariable :: (Relay.flags ++ Probe.flags).filterMap Flag.standIn?

def environment : IO (List (String × String)) := do
  let values ← standIns.mapM fun name => do
    return (← IO.getEnv name).map fun value => (name, value)
  return values.filterMap id

/-- What a file that is named holds. -/
def fileAt (path : String) : IO (String × Except String Pem) := do
  try
    return (path, .ok (.ofText (← IO.FS.readFile path)))
  catch _ =>
    return (path, .error Network.noSuchFile)

/-- The files that a configuration names. -/
def files (config : NetworkConfig) : IO (List (String × Except String Pem)) :=
  match config.tls? with
  | none => return []
  | some t => [t.certificate, t.key].mapM fileAt

/-- The answer to a body, if there is one, once its calls have had all their time. -/
def answer (w : World) (body : String) : Option String × World :=
  let request : Http.Request := ⟨"POST", "/", [], body.toUTF8.toList⟩
  let w := (w.start "" (.arriving request)).settle.advance w.config.requestTimeoutMs
  let (findings, w) := w.report
  (findings.findSome? fun f =>
    match f.2 with
    | .responded r => if r.body.isEmpty then none else some (String.ofList r.body)
    | _ => none, w)

/-- Answers one body after the other, until the input ends. -/
def answerLines (start : World) (input output : IO.FS.Stream) : IO Unit := do
  let mut w := start
  repeat
    let line ← input.getLine
    if line.isEmpty then break
    let (text?, next) := answer w line
    w := next
    match text? with
    | some text => output.putStrLn text
    | none => pure ()
    output.flush

def runRelay (arguments : List String) : IO UInt32 := do
  let environment ← environment
  let named ← match Relay.parse arguments environment with
    | .ok o => files o.network
    | .error _ => pure []
  let file? (path : String) : Except String Pem :=
    ((named.find? fun f => f.1 == path).map Prod.snd).getD (.error Network.noSuchFile)
  let (serves, code) := Launch.relay file? arguments environment
  match serves, Relay.parse arguments environment with
  | true, .ok o =>
    match Switchboard.Relay.ofConfig o.server [] with
    | .ok relay => answerLines { relay, config := o.network } (← IO.getStdin) (← IO.getStdout)
    | .error e => (← IO.getStderr).putStrLn e.message
  | _, _ => pure ()
  return UInt32.ofNat code

def runProbe (arguments : List String) : IO UInt32 := do
  let (code, complaint?) := Launch.probe arguments (← environment)
  match complaint? with
  | some complaint => (← IO.getStderr).putStrLn complaint
  | none => pure ()
  return UInt32.ofNat code

end Switchboard.Program

def main (arguments : List String) : IO UInt32 :=
  match arguments with
  | "probe" :: rest => Switchboard.Program.runProbe rest
  | _ => Switchboard.Program.runRelay arguments
