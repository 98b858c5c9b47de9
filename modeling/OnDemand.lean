import OnDemand.Artifact
import OnDemand.ArtifactDirectory
import OnDemand.Bytes
import OnDemand.Cli
import OnDemand.Cli.Arguments
import OnDemand.Cli.Error
import OnDemand.Cli.Session
import OnDemand.Cli.UnitName
import OnDemand.Command
import OnDemand.Command.Build
import OnDemand.Config.Basic
import OnDemand.Config.Environment
import OnDemand.Config.Reader
import OnDemand.Config.Suggestion
import OnDemand.Config.Writer
import OnDemand.Digest
import OnDemand.Digest.Sha256
import OnDemand.Duration
import OnDemand.Engine.Schedule
import OnDemand.Engine.State
import OnDemand.Engine.Step
import OnDemand.Environment
import OnDemand.Error
import OnDemand.Event
import OnDemand.Failures
import OnDemand.FileTree
import OnDemand.Flight
import OnDemand.Flight.Clients
import OnDemand.Json
import OnDemand.Name
import OnDemand.Path
import OnDemand.Policy
import OnDemand.Processors
import OnDemand.Program
import OnDemand.SourceDirectory
import OnDemand.Store
import OnDemand.Text.Class
import OnDemand.Text.Escaped
import OnDemand.Text.Lines
import OnDemand.Text.Lossy
import OnDemand.Text.Printable
import OnDemand.TextSet
import OnDemand.Toml.Document
import OnDemand.Toml.Layout
import OnDemand.Toml.Moment
import OnDemand.Toml.Number
import OnDemand.Toml.Quoted
import OnDemand.Toml.Reader
import OnDemand.Toml.Value
import OnDemand.Toml.Writer
import OnDemand.Rehearsal
import OnDemand.Rehearsal.Script
import OnDemand.Rehearsal.Shell.Arithmetic
import OnDemand.Rehearsal.Shell.Fields
import OnDemand.Rehearsal.Shell.Files
import OnDemand.Rehearsal.Shell.Filters
import OnDemand.Rehearsal.Shell.Pattern
import OnDemand.Rehearsal.Shell.Printf
import OnDemand.Rehearsal.Shell.Programs
import OnDemand.Rehearsal.Shell.Reader
import OnDemand.Rehearsal.Shell.Regex
import OnDemand.Rehearsal.Shell.Run
import OnDemand.Rehearsal.Shell.Script
import OnDemand.Rehearsal.Shell.State
import OnDemand.Rehearsal.Shell.Test
import OnDemand.Rehearsal.Stage
import OnDemand.Rehearsal.Wire
import OnDemand.Main
import OnDemand.Proofs.Engine.Move
import OnDemand.Proofs.Engine.Run
import OnDemand.Proofs.Engine.Holding
import OnDemand.Proofs.Engine.SingleFlight
import OnDemand.Proofs.Engine.Ledger
import OnDemand.Proofs.Engine.Submission
import OnDemand.Proofs.Engine.Exclusion
import OnDemand.Proofs.Engine.Work
import OnDemand.Proofs.Engine.Turns
import OnDemand.Proofs.Engine.Waiting
import OnDemand.Proofs.Engine.Progress
import OnDemand.Proofs.Engine.Completion
import OnDemand.Proofs.Flight.Clients
import OnDemand.Proofs.Engine.Agreement
import OnDemand.Proofs.Engine.Publication
import OnDemand.Proofs.Engine.Settlement
import OnDemand.Proofs.Engine.Serial
import OnDemand.Proofs.Engine.Steady
import OnDemand.Proofs.Failures
import OnDemand.Proofs.Engine.Lone
import OnDemand.Proofs.Engine.Outcome
import OnDemand.Proofs.Engine.Suppression
import OnDemand.Proofs.Engine.Launch
import OnDemand.Proofs.Engine.Report
import OnDemand.Proofs.Engine.Recompile
import OnDemand.Proofs.Engine.Discovery
import OnDemand.Proofs.ArtifactDirectory.Listing
import OnDemand.Proofs.ArtifactDirectory.RoundTrip
import OnDemand.Proofs.ArtifactDirectory.Failure
import OnDemand.Proofs.Config.Extension
import OnDemand.Proofs.Cli.Keeping
import OnDemand.Proofs.Policy
import OnDemand.Proofs.Engine.Clock
import OnDemand.Proofs.Config.Clock
import OnDemand.Proofs.Engine.Telling
import OnDemand.Proofs.Engine.Trail
import OnDemand.Proofs.Engine.Bracketing
import OnDemand.Proofs.Engine.Failing
import OnDemand.Proofs.Command.Staging
import OnDemand.Proofs.Cli.Failing
import OnDemand.Proofs.Store.Batch
import OnDemand.Proofs.Failures.History
import OnDemand.Proofs.Command.Collect
import OnDemand.Proofs.Command.Sources
import OnDemand.Proofs.Path.Below
import OnDemand.Proofs.SourceDirectory
import OnDemand.Proofs.Command.Paths
import OnDemand.Proofs.Processors
import OnDemand.Proofs.Toml.Strings
import OnDemand.Proofs.Toml.Values
import OnDemand.Proofs.Toml.RoundTrip
import OnDemand.Proofs.Config.Rendering
import OnDemand.Proofs.Cli.Showing
import OnDemand.Proofs.Json
import OnDemand.Proofs.Event
import OnDemand.Proofs.Config.Environment
import OnDemand.Proofs.Toml.Rest
import OnDemand.Proofs.Toml.Keyless
import OnDemand.Proofs.Toml.Document
import OnDemand.Proofs.Toml.Marks
import OnDemand.Proofs.Config.Acceptance
import OnDemand.Proofs.Config.Unknown
import OnDemand.Proofs.Config.Lines
import OnDemand.Proofs.Name
import OnDemand.Proofs.Cli.UnitName
import OnDemand.Proofs.Config.Suggestion
