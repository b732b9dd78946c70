import Switchboard.Bench.Clock
import Switchboard.Bench.Controls
import Switchboard.Bench.Handler
import Switchboard.Bench.Layer
import Switchboard.Bench.Network
import Switchboard.Bench.Progress
import Switchboard.Bench.Recorder
import Switchboard.Bench.Task
import Switchboard.Bench.Wire
import Switchboard.Bench.World
import Switchboard.Call.Classify
import Switchboard.Call.Error
import Switchboard.Call.Exchange
import Switchboard.Call.Forwarding
import Switchboard.Call.Pipeline
import Switchboard.Call.Token
import Switchboard.Decimal.Binary64
import Switchboard.Decimal.Shortest
import Switchboard.Health.Controller
import Switchboard.Http.Envelope
import Switchboard.Http.Message
import Switchboard.Http.Resource
import Switchboard.Http.Status
import Switchboard.Http.Target
import Switchboard.Http.Visit
import Switchboard.Json.Decode
import Switchboard.Json.Fault
import Switchboard.Json.Lexeme
import Switchboard.Json.Number
import Switchboard.Json.Raw
import Switchboard.Json.Reader
import Switchboard.Json.Record
import Switchboard.Json.Skim
import Switchboard.Json.Value
import Switchboard.Main
import Switchboard.Message.ErrorObject
import Switchboard.Message.Id
import Switchboard.Message.Payload
import Switchboard.Message.Request
import Switchboard.Message.Response
import Switchboard.Method
import Switchboard.Metrics
import Switchboard.Net.Address
import Switchboard.Node.Build
import Switchboard.Node.Config
import Switchboard.Node.Launch
import Switchboard.Node.Life
import Switchboard.Node.Services
import Switchboard.Node.Tls
import Switchboard.Options.Flags
import Switchboard.Options.LogFilter
import Switchboard.Options.LogFormat
import Switchboard.Options.Probe
import Switchboard.Options.Relay
import Switchboard.Probe.Call
import Switchboard.Probe.Poll
import Switchboard.Probe.Script
import Switchboard.Redirect.Connection
import Switchboard.Redirect.Dial
import Switchboard.Redirect.Endpoint
import Switchboard.Redirect.Error
import Switchboard.Redirect.Frames
import Switchboard.Redirect.Hub
import Switchboard.Redirect.Manager
import Switchboard.Redirect.Target
import Switchboard.Service.Handler
import Switchboard.Service.Registry
import Switchboard.Service.Router
import Switchboard.Text.Blank
import Switchboard.Text.Numeral
import Switchboard.Text.Quoted
import Switchboard.Text.Unprintable
import Switchboard.Text.Utf8
import Switchboard.Url.Host
import Switchboard.Url.Parse
import Switchboard.Url.Percent
import Switchboard.Url.Punycode
import Switchboard.Warning
import Switchboard.Proofs.Json.Extent
import Switchboard.Proofs.Call.Batch
import Switchboard.Proofs.Call.Classifying
import Switchboard.Proofs.Call.Discretion
import Switchboard.Proofs.Call.Echo
import Switchboard.Proofs.Call.Errors
import Switchboard.Proofs.Call.HangingUp
import Switchboard.Proofs.Call.Labels
import Switchboard.Proofs.Call.Permits
import Switchboard.Proofs.Call.Relaying
import Switchboard.Proofs.Call.Transparency
import Switchboard.Proofs.Connection.Answering
import Switchboard.Proofs.Connection.Awaiting
import Switchboard.Proofs.Connection.Calls
import Switchboard.Proofs.Connection.Closing
import Switchboard.Proofs.Connection.Correlation
import Switchboard.Proofs.Connection.Lines
import Switchboard.Proofs.Connection.Order
import Switchboard.Proofs.Connection.Stalling
import Switchboard.Proofs.Http.Correlating
import Switchboard.Proofs.Hub.Changes
import Switchboard.Proofs.Hub.Dialing
import Switchboard.Proofs.Hub.Finality
import Switchboard.Proofs.Hub.Sharing
import Switchboard.Proofs.Node.Draining
import Switchboard.Proofs.Node.Phases
import Switchboard.Proofs.Probe.Polling
import Switchboard.Proofs.Service.Lifecycle
import Switchboard.Proofs.Service.Modules
import Switchboard.Proofs.Message.Listing
import Switchboard.Proofs.Message.RoundTrip
import Switchboard.Proofs.Redirect.Endpoints
import Switchboard.Proofs.Redirect.Patience
import Switchboard.Proofs.Redirect.Targets
