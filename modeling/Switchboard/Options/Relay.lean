import Switchboard.Node.Config
import Switchboard.Options.Flags

/-! The command line of the relay. -/
namespace Switchboard.Options

/-- Everything the relay's command line decides. -/
structure Relay where
  server : ServerConfig
  network : NetworkConfig
  logFormat : LogFormat
  metricsAddress? : Option Net.SocketAddress

namespace Relay

def flags : List Flag := [
  ⟨"http.addr", .text, some "RELAY_HTTP_ADDR", false, none⟩,
  ⟨"http.port", .number 16, some "RELAY_HTTP_PORT", false, none⟩,
  ⟨"classic-redirect", .text, some "RELAY_CLASSIC_REDIRECT", false, none⟩,
  ⟨"classic-redirect-timeout-ms", .number 64, some "RELAY_CLASSIC_REDIRECT_TIMEOUT_MS", false, none⟩,
  ⟨"classic-redirect-namespace", .text, some "RELAY_CLASSIC_REDIRECT_NAMESPACE", false, none⟩,
  ⟨"call-timeout-ms", .number 64, some "RELAY_CALL_TIMEOUT_MS", false, none⟩,
  ⟨"max-concurrent-calls", .number 32, some "RELAY_MAX_CONCURRENT_CALLS", false, none⟩,
  ⟨"drain-timeout-ms", .number 64, some "RELAY_DRAIN_TIMEOUT_MS", false, none⟩,
  ⟨"log-format", .format, some "RELAY_LOG_FORMAT", false, none⟩,
  ⟨"metrics-addr", .address, some "RELAY_METRICS_ADDR", false, none⟩,
  ⟨"tls-cert", .path, some "RELAY_TLS_CERT", false, some "tls-key"⟩,
  ⟨"tls-key", .path, some "RELAY_TLS_KEY", false, some "tls-cert"⟩,
  ⟨"node-id", .text, some "RELAY_NODE_ID", false, none⟩]

def ofSettings (s : Settings) : Relay where
  server := {
    nodeId := (s.text? "node-id").getD "classic-relay"
    callTimeoutMs := s.number "call-timeout-ms" 30000
    maxConcurrentCalls := s.number "max-concurrent-calls" 1000
    redirects := [⟨(s.text? "classic-redirect-namespace").getD Redirect.defaultNamespace,
      (s.text? "classic-redirect").getD "",
      s.number "classic-redirect-timeout-ms" Redirect.defaultConnectTimeoutMs⟩] }
  network := {
    host := (s.text? "http.addr").getD "127.0.0.1"
    port := s.number "http.port" 8547
    tls? := do return ⟨← s.text? "tls-cert", ← s.text? "tls-key"⟩
    drainTimeoutMs := s.number "drain-timeout-ms" 10000 }
  logFormat := s.format "log-format"
  metricsAddress? := s.address? "metrics-addr"

def parse (arguments : List String) (environment : List (String × String)) :
    Except Refusal Relay :=
  match Options.parse flags arguments environment with
  | .error e => .error e
  | .ok s => .ok (ofSettings s)

end Relay
end Switchboard.Options
