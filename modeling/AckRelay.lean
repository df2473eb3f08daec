import AckRelay.Log.PartitionMap.Lookup
import AckRelay.Log.Record
import AckRelay.Text.Blank
import AckRelay.Text.Decimal
import AckRelay.Text.Utf8
import AckRelay.Text.Base64
import AckRelay.Text.Quoted
import AckRelay.Json.Render
import AckRelay.Json.Skim
import AckRelay.Host.Command
import AckRelay.Host.Notification
import AckRelay.Host.FrameWriter
import AckRelay.Host.Intake
import AckRelay.Host.Channel
import AckRelay.Broker.Scripted
import AckRelay.Relay.FlowControl
import AckRelay.Relay.CatchUp
import AckRelay.Relay.CommitBatch
import AckRelay.Relay.Metrics
import AckRelay.Relay.Loop
import AckRelay.Config.Settings
import AckRelay.Config.SocketAddress
import AckRelay.Broker.Consumer
import AckRelay.Broker.OfflineClient
import AckRelay.Broker.ScriptedClient
import AckRelay.Broker.ClientProperty.Agreement
import AckRelay.Session.Run
import AckRelay.Main
import AckRelay.Proofs.Relay.Life
import AckRelay.Proofs.PartitionMap
import AckRelay.Proofs.FlowControl.Steps
import AckRelay.Proofs.FlowControl.Reconcile
import AckRelay.Proofs.Broker.Scripted
import AckRelay.Proofs.CommitBatch
import AckRelay.Proofs.CommitBatch.Timing
import AckRelay.Proofs.Relay.Operations
import AckRelay.Proofs.Relay.Commands
import AckRelay.Proofs.Relay.Polls
import AckRelay.Proofs.Relay.Rebalance
import AckRelay.Proofs.Relay.Step
import AckRelay.Proofs.Relay.Settlement
import AckRelay.Proofs.Relay.Ownership
import AckRelay.Proofs.Relay.Pauses
import AckRelay.Proofs.Relay.Backlog
import AckRelay.Proofs.Relay.Acknowledgement
import AckRelay.Proofs.Broker.Moves
import AckRelay.Proofs.Relay.Positions
import AckRelay.Proofs.Relay.Progress
import AckRelay.Proofs.CatchUp
import AckRelay.Proofs.Relay.Powers
import AckRelay.Proofs.Relay.CatchUp
import AckRelay.Proofs.Relay.Assignment
import AckRelay.Proofs.Relay.Stream
import AckRelay.Proofs.Relay.Ending
import AckRelay.Proofs.Host.Command
import AckRelay.Proofs.Host.Frame
import AckRelay.Proofs.Host.FrameWriter
import AckRelay.Proofs.Alike
import AckRelay.Proofs.Broker.Telling
import AckRelay.Proofs.Config.Environment
import AckRelay.Proofs.FlowControl.History
import AckRelay.Proofs.FlowControl.Hysteresis
import AckRelay.Proofs.FlowControl.Queues
import AckRelay.Proofs.FlowControl.Alternation
import AckRelay.Proofs.FlowControl.Drain
import AckRelay.Proofs.Broker.Consumer
import AckRelay.Proofs.Relay.Frame
import AckRelay.Proofs.Broker.Journal
import AckRelay.Proofs.Broker.Gathering
import AckRelay.Proofs.Broker.Completion
import AckRelay.Proofs.Relay.Audit
import AckRelay.Proofs.Relay.Release
import AckRelay.Proofs.Relay.Offsets
import AckRelay.Proofs.Relay.Handling
import AckRelay.Proofs.Relay.Exchange
import AckRelay.Proofs.Host.Intake
import AckRelay.Proofs.Relay.Report
import AckRelay.Proofs.Host.Sink
import AckRelay.Proofs.Json.Phrases
import AckRelay.Proofs.Host.Truncation
import AckRelay.Proofs.Relay.Commutation
import AckRelay.Proofs.FlowControl.Decision
import AckRelay.Proofs.Text.Blank
import AckRelay.Proofs.Text.Decimal
import AckRelay.Proofs.Config.Properties
import AckRelay.Proofs.Config.ClientSettings
import AckRelay.Proofs.Config.Variables
import AckRelay.Proofs.Config.Loading
