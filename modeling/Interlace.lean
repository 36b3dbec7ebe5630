import Interlace.CommandLine.Grammar
import Interlace.CommandLine.Orders
import Interlace.Console
import Interlace.Datum.Basic
import Interlace.Datum.Plain
import Interlace.Datum.Tagged
import Interlace.Environment.Assignments
import Interlace.Environment.Basic
import Interlace.Failure
import Interlace.Frame
import Interlace.Gather
import Interlace.Gauge
import Interlace.Json.Basic
import Interlace.Json.Draft
import Interlace.Machine.Basic
import Interlace.Machine.Step
import Interlace.Main
import Interlace.Number.Basic
import Interlace.Number.Decimal
import Interlace.Number.Reading
import Interlace.Proofs.Abandonment
import Interlace.Proofs.Abreast
import Interlace.Proofs.Accounts
import Interlace.Proofs.Apart
import Interlace.Proofs.Belonging
import Interlace.Proofs.Blame
import Interlace.Proofs.Budget
import Interlace.Proofs.Calls
import Interlace.Proofs.Captures
import Interlace.Proofs.Closings
import Interlace.Proofs.Completion
import Interlace.Proofs.Composition
import Interlace.Proofs.Data
import Interlace.Proofs.Delivery
import Interlace.Proofs.Demos
import Interlace.Proofs.Descent
import Interlace.Proofs.Drafts
import Interlace.Proofs.Effects
import Interlace.Proofs.Evaluation
import Interlace.Proofs.FanIns
import Interlace.Proofs.FanOuts
import Interlace.Proofs.Frames
import Interlace.Proofs.Gathering
import Interlace.Proofs.Gauging
import Interlace.Proofs.History
import Interlace.Proofs.Inlining
import Interlace.Proofs.Interchange
import Interlace.Proofs.Invocations
import Interlace.Proofs.Isolation
import Interlace.Proofs.Joins
import Interlace.Proofs.Lifecycle
import Interlace.Proofs.Lookups
import Interlace.Proofs.Mirrors
import Interlace.Proofs.Nesting
import Interlace.Proofs.Order
import Interlace.Proofs.Origins
import Interlace.Proofs.Ownership
import Interlace.Proofs.Parking
import Interlace.Proofs.Parting
import Interlace.Proofs.Passage
import Interlace.Proofs.Plain
import Interlace.Proofs.Programs
import Interlace.Proofs.Progress
import Interlace.Proofs.Quests
import Interlace.Proofs.Quiet
import Interlace.Proofs.Quoting
import Interlace.Proofs.Recursion
import Interlace.Proofs.Relocation
import Interlace.Proofs.Rendering
import Interlace.Proofs.Replay
import Interlace.Proofs.Reports
import Interlace.Proofs.Repose
import Interlace.Proofs.Routing
import Interlace.Proofs.Scenes
import Interlace.Proofs.Sessions
import Interlace.Proofs.Sleepers
import Interlace.Proofs.Solitude
import Interlace.Proofs.Soundness
import Interlace.Proofs.Spreading
import Interlace.Proofs.Starting
import Interlace.Proofs.Steps
import Interlace.Proofs.Steps.Join
import Interlace.Proofs.Steps.Return
import Interlace.Proofs.Steps.Run
import Interlace.Proofs.Steps.Work
import Interlace.Proofs.Tagged
import Interlace.Proofs.Timeline
import Interlace.Proofs.Traces
import Interlace.Proofs.Transitions
import Interlace.Proofs.Trees
import Interlace.Proofs.Turns
import Interlace.Proofs.Twins
import Interlace.Proofs.Upkeep
import Interlace.Proofs.Ways
import Interlace.Proofs.Wrapping
import Interlace.Script.Coroutine
import Interlace.Script.Evaluation
import Interlace.Script.Host
import Interlace.Script.Syntax
import Interlace.Session
import Interlace.Settings.Basic
import Interlace.Settings.Loading
import Interlace.Settings.Tree
import Interlace.Showcase
import Interlace.Table
import Interlace.Text.Diagnostic
import Interlace.Toml.Document
import Interlace.Toml.Moment
import Interlace.Toml.Quoted
import Interlace.Toml.Scalar
import Interlace.Toml.Value
import Interlace.Trial
import Interlace.Work
