import CMinusMinus.CommandLine.Directory
import CMinusMinus.Main
import CMinusMinus.Notice
import CMinusMinus.Proofs.Code.Correctness
import CMinusMinus.Proofs.Code.Discipline
import CMinusMinus.Proofs.Code.Integers
import CMinusMinus.Proofs.Code.Persistence
import CMinusMinus.Proofs.Code.Snapshot
import CMinusMinus.Proofs.Code.Structure
import CMinusMinus.Proofs.Code.Validity
import CMinusMinus.Proofs.CommandLine.Commands
import CMinusMinus.Proofs.Graph.Reachability
import CMinusMinus.Proofs.Ideal.Interval
import CMinusMinus.Proofs.Machine.Brackets
import CMinusMinus.Proofs.Machine.Collection
import CMinusMinus.Proofs.Machine.Loosening
import CMinusMinus.Proofs.Machine.Primitives
import CMinusMinus.Proofs.Machine.Resolution
import CMinusMinus.Proofs.Optimizer.Commutation
import CMinusMinus.Proofs.Optimizer.FoldedFlow
import CMinusMinus.Proofs.Optimizer.Folding
import CMinusMinus.Proofs.Optimizer.Liveness
import CMinusMinus.Proofs.Optimizer.Occurrences
import CMinusMinus.Proofs.Optimizer.Pruning
import CMinusMinus.Proofs.Optimizer.Reindexing
import CMinusMinus.Proofs.Optimizer.Selection
import CMinusMinus.Proofs.Optimizer.Survival
import CMinusMinus.Proofs.Source.Nesting
import CMinusMinus.Trace.Listing
import CMinusMinus.Trace.Profile
import CMinusMinus.Trace.Recording
import CMinusMinus.Proofs.Optimizer.Idempotence
import CMinusMinus.Proofs.Machine.Depth
import CMinusMinus.Proofs.Source.Spelling
import CMinusMinus.Proofs.Source.Languages
import CMinusMinus.Proofs.Source.Prefixes
import CMinusMinus.Proofs.Trace.Limits
import CMinusMinus.Proofs.Trace.Profile
import CMinusMinus.Proofs.Trace.Schedule
import CMinusMinus.Proofs.Code.Formatting
