import Rota.Config.Codec
import Rota.Config.Plan
import Rota.Job.Codec
import Rota.Job.Inspect
import Rota.Json.Printer
import Rota.Json.Reader
import Rota.Json.Record
import Rota.Metrics.Codec
import Rota.Rehearsal.Nested
import Rota.Rehearsal.Step
import Rota.Routine.Client
import Rota.Routine.Error
import Rota.Time.Stamp
import Rota.Trigger.Basic
import Rota.Proofs.Written
import Rota.Proofs.RoundTrip
import Rota.Proofs.Install
import Rota.Proofs.Plan
import Rota.Proofs.Reconfigure
import Rota.Proofs.InForce
import Rota.Proofs.Occurrence
import Rota.Proofs.CatchUp
import Rota.Proofs.Site
import Rota.Proofs.Flight
import Rota.Proofs.Carry
import Rota.Proofs.SingleFlight
import Rota.Proofs.Calls
import Rota.Proofs.Search
import Rota.Proofs.Walk
import Rota.Proofs.Stream
import Rota.Proofs.Grammar
import Rota.Proofs.Renumber
import Rota.Proofs.Weekdays
import Rota.Proofs.Tidy
import Rota.Proofs.Pass
import Rota.Proofs.Turn
import Rota.Proofs.Firing
import Rota.Proofs.Removal
import Rota.Proofs.Once
import Rota.Proofs.Course
import Rota.Proofs.Answer
import Rota.Proofs.Recorded
import Rota.Proofs.Adhoc
import Rota.Proofs.Stale
import Rota.Proofs.Tally
import Rota.Proofs.Balance
import Rota.Proofs.Lifecycle
import Rota.Proofs.Drain
import Rota.Proofs.Interleaving
import Rota.Proofs.SideBySide
import Rota.Proofs.Scan
import Rota.Proofs.Obstacle
import Rota.Proofs.Commands
import Rota.Proofs.Asking
import Rota.Proofs.Derivation
import Rota.Proofs.Validation
import Rota.Proofs.Reading
import Rota.Proofs.Acceptance
import Rota.Proofs.Members
import Rota.Proofs.Durations
import Rota.Proofs.Permits
import Rota.Proofs.Keys
