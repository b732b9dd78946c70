import Switchboard.Redirect.Target

/-! How a node is set up. -/
namespace Switchboard

/-- How calls are run and forwarded. -/
structure ServerConfig where
  nodeId : String := ""
  callTimeoutMs : Nat := 30000
  maxConcurrentCalls : Nat := 1000
  redirects : List Redirect.Target := []
  /-- The longest frame an endpoint may send. -/
  maxFrameBytes : Nat := 128 * 1024 * 1024
  deriving DecidableEq, Repr

/-- A certificate chain and its key. -/
structure TlsConfig where
  certificate : String
  key : String
  deriving DecidableEq, Repr

/-- How the node is reached. -/
structure NetworkConfig where
  host : String := "127.0.0.1"
  port : Nat := 0
  tls? : Option TlsConfig := none
  corsOrigins : List String := ["*"]
  requestTimeoutMs : Nat := 60000
  maxBodyBytes : Nat := 5 * 1024 * 1024
  /-- How long calls may go on after shutdown has begun. -/
  drainTimeoutMs : Nat := 10000
  deriving DecidableEq, Repr

namespace NetworkConfig

def listenAddress (c : NetworkConfig) : String := c.host ++ ":" ++ toString c.port

def scheme (c : NetworkConfig) : String := if c.tls?.isSome then "https" else "http"

end NetworkConfig
end Switchboard
