import CheckpointRestart.Command.Simulation
import CheckpointRestart.Main
import CheckpointRestart.Storage.InMemory
import CheckpointRestart.Text.Quoted
import CheckpointRestart.Proofs.Collections
import CheckpointRestart.Proofs.Effects
import CheckpointRestart.Proofs.Flow.Liveness
import CheckpointRestart.Proofs.Flow.Reachability
import CheckpointRestart.Proofs.Flow.Uses
import CheckpointRestart.Proofs.Instrument.Actions
import CheckpointRestart.Proofs.Instrument.Emission
import CheckpointRestart.Proofs.Instrument.Site
import CheckpointRestart.Proofs.Session.CrashConsistency
import CheckpointRestart.Proofs.Instrument.Insertion
import CheckpointRestart.Proofs.Instrument.Keeping
import CheckpointRestart.Proofs.Machine.Extents
import CheckpointRestart.Proofs.Machine.Provenance
import CheckpointRestart.Proofs.Machine.Arithmetic
import CheckpointRestart.Proofs.Machine.Memory
import CheckpointRestart.Proofs.Machine.LiveValues
import CheckpointRestart.Proofs.Machine.Unlimited
import CheckpointRestart.Proofs.Machine.Cutting
import CheckpointRestart.Proofs.Machine.Preparation
import CheckpointRestart.Proofs.Machine.Safety
import CheckpointRestart.Proofs.Number.Literal
import CheckpointRestart.Proofs.Program.Reader.Inference
import CheckpointRestart.Proofs.Program.Reader.Lines
import CheckpointRestart.Proofs.Program.Reader.Passes
import CheckpointRestart.Proofs.Program.Reader.Renumbering
import CheckpointRestart.Proofs.Record.Grammar
import CheckpointRestart.Proofs.Session.Additive
import CheckpointRestart.Proofs.Session.Interval
import CheckpointRestart.Proofs.Program.Reader.Canonical
import CheckpointRestart.Proofs.Program.Reader.Programs
import CheckpointRestart.Proofs.Flow.Paths
import CheckpointRestart.Proofs.Instrument.Availability
import CheckpointRestart.Proofs.Session.Selection
import CheckpointRestart.Proofs.Instrument.WritableCode
import CheckpointRestart.Proofs.Instrument.WritableSites
import CheckpointRestart.Proofs.Instrument.Readable
import CheckpointRestart.Proofs.Pointer.Aliases
import CheckpointRestart.Proofs.Record.Payload
import CheckpointRestart.Proofs.Session.Atomicity
