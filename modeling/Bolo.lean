import Bolo.Library.Outcome
import Bolo.Library.Table
import Bolo.Library.Machine
import Bolo.Library.Chain
import Bolo.Library.CString
import Bolo.Library.Buffer
import Bolo.Library.Bytes
import Bolo.Library.Ledger
import Bolo.Library.Json
import Bolo.Library.Lines
import Bolo.Library.LineProtocol
import Bolo.Library.MergeSort
import Bolo.Library.Word
import Bolo.Library.Statistics
import Bolo.Data.Types
import Bolo.Data.Points
import Bolo.Kernel.Series
import Bolo.Kernel.States
import Bolo.Kernel.Events
import Bolo.Kernel.Management
import Bolo.Kernel.Reactor
import Bolo.Kernel.Handlers
import Bolo.Kernel.Steps
import Bolo.Kernel.WellFormed
import Bolo.Kernel.Cells
import Bolo.Kernel.StateCell
import Bolo.Kernel.Statuses
import Bolo.Kernel.Independence
import Bolo.Kernel.Ignored
import Bolo.Kernel.Windows
import Bolo.Kernel.Reports
import Bolo.Kernel.Conservation
import Bolo.Kernel.Order
import Bolo.Kernel.Transitions
import Bolo.Kernel.Staleness
import Bolo.Kernel.EventBuffer
import Bolo.Kernel.Keys
import Bolo.Config.Lexer
import Bolo.Config.Configure
import Bolo.Config.Loaded
import Bolo.Config.Numbers
import Bolo.Config.Reread
import Bolo.Config.Settings
import Bolo.Config.Reference
import Bolo.Config.Lexemes
import Bolo.Config.Endings
import Bolo.Config.Lockstep
import Bolo.Config.Reading
import Bolo.Config.Newline
import Bolo.Config.Layout
import Bolo.Config.Tokens
import Bolo.Config.Directives
import Bolo.Config.Spelling
import Bolo.Config.Dump
import Bolo.Aggregator.Windows
import Bolo.Aggregator.Promptness
import Bolo.Aggregator.Rates
import Bolo.Aggregator.Statistics
import Bolo.Aggregator.Beacons
import Bolo.Aggregator.Conservation
import Bolo.Aggregator.States
import Bolo.Savefile.Format
import Bolo.Savefile.RoundTrip
import Bolo.Savefile.Writer
import Bolo.Savefile.Reader
import Bolo.Savefile.Restore
import Bolo.Savefile.Invariant
import Bolo.Savefile.Restart
import Bolo.Aggregator.Datapoints
import Bolo.Aggregator.Savefile
import Bolo.Aggregator.Events
import Bolo.Aggregator.Keys
import Bolo.Kernel.KeysFile
import Bolo.Aggregator.KeysFile
import Bolo.Aggregator.Forget
import Bolo.Aggregator.Freshness
import Bolo.Aggregator.Division
import Bolo.Agents.Dbolo
import Bolo.Agents.Opentsdb
import Bolo.Agents.Stream
import Bolo.Agents.Wire
import Bolo.Agents.Cache
import Bolo.Agents.Query
import Bolo.Agents.Monitor
import Bolo.Agents.Spy
import Bolo.Agents.Samples
import Bolo.Agents.Reservoir
import Bolo.Agents.Commands
import Bolo.Agents.Schedule
import Bolo.Agents.Heartbeat
import Bolo.Postgres.Reconcile
import Bolo.Postgres.History
import Bolo.Postgres.Anomalies
import Bolo.Postgres.Dispatcher
import Bolo.Rrd.Dispatcher
import Bolo.Rrd.Map
import Bolo.Slack.Request
import Bolo.Names.Name
import Bolo.Names.Components
import Bolo.Names.Canonical
import Bolo.Names.Matching
import Bolo.Names.Coherence
import Bolo.Names.Grammar
import Bolo.Names.Editing
import Bolo.Names.Consistency
import Bolo.Agents.Translation
import Bolo.Tsdp.Pdu
import Bolo.Tsdp.Frames
import Bolo.Tsdp.Unpack
import Bolo.Tsdp.Pack
import Bolo.Subscribers.Broadcasts
import Bolo.Subscribers.Meta
import Bolo.Subscribers.Redis
import Bolo.Subscribers.Sqlite
import Bolo.Subscribers.Influxdb
import Bolo.Subscribers.Late
import Bolo.Agents.Fleet
