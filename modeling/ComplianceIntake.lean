import ComplianceIntake.Text.Blank
import ComplianceIntake.Text.Glyph
import ComplianceIntake.Text.Order
import ComplianceIntake.Number.Numeral
import ComplianceIntake.Number.Shortest
import ComplianceIntake.Json.Fault
import ComplianceIntake.Json.Lexeme
import ComplianceIntake.Json.Tree
import ComplianceIntake.Json.Reader
import ComplianceIntake.Json.Quoted
import ComplianceIntake.Json.Number
import ComplianceIntake.Json.Value
import ComplianceIntake.Json.Record
import ComplianceIntake.Digest.Sha1
import ComplianceIntake.Digest.Fnv
import ComplianceIntake.Spec.Canonical
import ComplianceIntake.Network.Ip
import ComplianceIntake.Network.SocketAddress
import ComplianceIntake.Network.Url
import ComplianceIntake.Event.Entity
import ComplianceIntake.Event.Field
import ComplianceIntake.Event.Wire
import ComplianceIntake.Event.Receipt
import ComplianceIntake.Event.Key
import ComplianceIntake.Event.Timestamp
import ComplianceIntake.Event.Validation
import ComplianceIntake.Store.Call
import ComplianceIntake.Store.Ledger
import ComplianceIntake.Store.Database
import ComplianceIntake.Identity.Cache
import ComplianceIntake.Identity.Plan
import ComplianceIntake.Journal
import ComplianceIntake.Identity.Resolve
import ComplianceIntake.Intake.Request
import ComplianceIntake.Intake.Ingest
import ComplianceIntake.Intake.Route
import ComplianceIntake.Intake.Fleet
import ComplianceIntake.Intake.Traffic
import ComplianceIntake.Proofs.Text.Ascending
import ComplianceIntake.Proofs.Text.Trimming
import ComplianceIntake.Metrics.Registry
import ComplianceIntake.Metrics.Exposition
import ComplianceIntake.Configuration.Fault
import ComplianceIntake.Configuration.Assignments
import ComplianceIntake.Configuration.Load
import ComplianceIntake.Hosting.Lifecycle
import ComplianceIntake.Hosting.Serving
import ComplianceIntake.Store.Backing
import ComplianceIntake.Hosting.Startup
import ComplianceIntake.Main
import ComplianceIntake.Proofs.Store.Growth
import ComplianceIntake.Proofs.Identity.Safety
import ComplianceIntake.Proofs.Event.Validity
import ComplianceIntake.Proofs.Intake.Recording
import ComplianceIntake.Proofs.Event.Labels
import ComplianceIntake.Proofs.Intake.Commitment
import ComplianceIntake.Proofs.Intake.Runs
import ComplianceIntake.Proofs.Intake.SurrogateIds
import ComplianceIntake.Proofs.Identity.Paths
import ComplianceIntake.Proofs.Intake.Interleaving
import ComplianceIntake.Proofs.Identity.Resolution
import ComplianceIntake.Proofs.Intake.Reach
import ComplianceIntake.Proofs.Intake.Transparency
import ComplianceIntake.Proofs.Intake.Stages
import ComplianceIntake.Proofs.Intake.Effects
import ComplianceIntake.Proofs.Intake.Postings
import ComplianceIntake.Proofs.Intake.KnownSpecs
import ComplianceIntake.Proofs.Intake.Outcomes
import ComplianceIntake.Proofs.Event.NormalKeys
import ComplianceIntake.Proofs.Intake.StoredRows
import ComplianceIntake.Proofs.Text.Layout
import ComplianceIntake.Proofs.Json.Grammar
import ComplianceIntake.Proofs.Json.Words
import ComplianceIntake.Proofs.Json.Soundness
import ComplianceIntake.Proofs.Json.Completeness
import ComplianceIntake.Proofs.Spec.Tokens
import ComplianceIntake.Proofs.Text.Octets
import ComplianceIntake.Proofs.Json.Integers
import ComplianceIntake.Proofs.Json.Literals
import ComplianceIntake.Proofs.Json.Written
import ComplianceIntake.Proofs.Json.Values
import ComplianceIntake.Proofs.Json.Rereading
import ComplianceIntake.Proofs.Json.Marks
import ComplianceIntake.Proofs.Json.Slots
import ComplianceIntake.Proofs.Event.Rereading
import ComplianceIntake.Proofs.Event.RoundTrip
import ComplianceIntake.Proofs.Event.Echoes
import ComplianceIntake.Proofs.Intake.Receipts
import ComplianceIntake.Proofs.Intake.Replay
import ComplianceIntake.Proofs.Intake.Reordering
import ComplianceIntake.Proofs.Event.Texts
import ComplianceIntake.Proofs.Intake.StoredTexts
import ComplianceIntake.Proofs.Event.DateTimes
import ComplianceIntake.Proofs.Intake.StoredTimestamps
import ComplianceIntake.Proofs.Hosting.Restarts
import ComplianceIntake.Intake.Observed
import ComplianceIntake.Proofs.Metrics.Counting
import ComplianceIntake.Proofs.Identity.Bookkeeping
import ComplianceIntake.Proofs.Intake.Accounting
import ComplianceIntake.Proofs.Event.Rules
import ComplianceIntake.Proofs.Identity.Traces
import ComplianceIntake.Proofs.Identity.ClientErrors
import ComplianceIntake.Proofs.Identity.Failures
import ComplianceIntake.Proofs.Identity.Coverage
import ComplianceIntake.Proofs.Intake.Resolutions
import ComplianceIntake.Proofs.Intake.StableIds
import ComplianceIntake.Proofs.Metrics.StoreCalls
import ComplianceIntake.Proofs.Store.Books
import ComplianceIntake.Proofs.Intake.DisplayNames
import ComplianceIntake.Proofs.Hosting.Lifecycle
import ComplianceIntake.Proofs.Network.Addresses
import ComplianceIntake.Proofs.Configuration.Lines
import ComplianceIntake.Proofs.Configuration.Settings
import ComplianceIntake.Proofs.Configuration.Files
