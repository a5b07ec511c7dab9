import Resumption.Analysis.Basic
import Resumption.Analysis.Error
import Resumption.Analysis.StackMap
import Resumption.Bytes.Format
import Resumption.Class.Access
import Resumption.Class.Basic
import Resumption.Code.Basic
import Resumption.Code.Describe
import Resumption.Code.Instruction
import Resumption.Code.Label
import Resumption.Coroutine.Continuation
import Resumption.Coroutine.Interface
import Resumption.Coroutine.LockState
import Resumption.Descriptor.Basic
import Resumption.Descriptor.Parse
import Resumption.Digest.Sha1
import Resumption.Frame.Basic
import Resumption.Frame.SlotType
import Resumption.Frame.Transfer
import Resumption.Frame.WordList
import Resumption.Heap.Object
import Resumption.Heap.Reachable
import Resumption.Heap.Value
import Resumption.Hierarchy.Basic
import Resumption.Hierarchy.Cache
import Resumption.Hierarchy.Classpath
import Resumption.Hierarchy.Header
import Resumption.Hierarchy.Library
import Resumption.Hierarchy.Source
import Resumption.Hierarchy.Subtyping
import Resumption.Instrument.Class
import Resumption.Instrument.Emit
import Resumption.Instrument.Marker
import Resumption.Instrument.Point
import Resumption.Instrument.Policy
import Resumption.Instrument.Refusal
import Resumption.Instrument.Scratch
import Resumption.Instrument.Settings
import Resumption.Machine.Activation
import Resumption.Machine.Arithmetic
import Resumption.Machine.Arrays
import Resumption.Machine.Basic
import Resumption.Machine.Coroutine
import Resumption.Machine.Error
import Resumption.Machine.Interpreter
import Resumption.Machine.Monitors
import Resumption.Machine.Natives
import Resumption.Machine.ObjectFormat
import Resumption.Machine.Recipe
import Resumption.Machine.Step
import Resumption.Main
import Resumption.Name.Basic
import Resumption.Name.WellKnown
import Resumption.Number.Ieee
import Resumption.Number.Shortest
import Resumption.Snapshot.Basic
import Resumption.Snapshot.Edit
import Resumption.Snapshot.Error
import Resumption.Snapshot.Format
import Resumption.Snapshot.Loadable
import Resumption.Snapshot.Rules
import Resumption.Subroutine.Inline
import Resumption.Symbolic.Class
import Resumption.Symbolic.Code
import Resumption.Symbolic.Heap
import Resumption.Symbolic.Instrument
import Resumption.Symbolic.Recipe
import Resumption.Symbolic.Settings
import Resumption.Symbolic.Snapshot
import Resumption.Symbolic.Tree
import Resumption.Text.Hexadecimal
import Resumption.Text.Invisible
import Resumption.Text.Quoted
import Resumption.Text.Utf8
import Resumption.Tool.Command
import Resumption.Tool.Report
import Resumption.Tool.Run
import Resumption.Proofs.Machine.Growth
import Resumption.Proofs.Machine.Straight
import Resumption.Proofs.Machine.Runs
import Resumption.Proofs.Machine.Cells
import Resumption.Proofs.Machine.Effects
import Resumption.Proofs.Instrument.Leases
import Resumption.Proofs.Instrument.Shape
import Resumption.Proofs.Instrument.Points
import Resumption.Proofs.Analysis.Settling
import Resumption.Proofs.Analysis.StackMaps
import Resumption.Proofs.Instrument.Blaming
import Resumption.Proofs.Instrument.Conformance
import Resumption.Proofs.Instrument.Saving
import Resumption.Proofs.Instrument.Spilling
import Resumption.Proofs.Instrument.Restoring
import Resumption.Proofs.Machine.Paths
import Resumption.Proofs.Instrument.Monitors
import Resumption.Proofs.Instrument.Savable
import Resumption.Proofs.Instrument.SavePath
import Resumption.Proofs.Instrument.RestorePath
import Resumption.Proofs.Instrument.RoundTrip
import Resumption.Proofs.Bytes.RoundTrip
import Resumption.Proofs.Text.Utf8
import Resumption.Proofs.Snapshot.RoundTrip
import Resumption.Proofs.Analysis.Edges
import Resumption.Proofs.Analysis.Fixpoint
import Resumption.Proofs.Machine.Agreement
import Resumption.Proofs.Machine.Checked
import Resumption.Proofs.Descriptor.Exact
import Resumption.Proofs.Objects.Depth
import Resumption.Proofs.Objects.Graphs
import Resumption.Proofs.Coroutine.Reached
import Resumption.Proofs.Coroutine.Snapshots
import Resumption.Proofs.Subroutine.Paths
import Resumption.Proofs.Subroutine.Bodies
import Resumption.Proofs.Subroutine.Copies
import Resumption.Proofs.Subroutine.Labels
import Resumption.Proofs.Subroutine.Spreading
import Resumption.Proofs.Subroutine.Standing
import Resumption.Proofs.Subroutine.Repeating
import Resumption.Proofs.Subroutine.Ending
import Resumption.Proofs.Subroutine.Inlining
import Resumption.Proofs.Subroutine.Catching
import Resumption.Proofs.Subroutine.Placing
import Resumption.Proofs.Coroutine.Failures
import Resumption.Proofs.Coroutine.Cycles
import Resumption.Proofs.Instrument.Replaying
import Resumption.Proofs.Instrument.Resetting
import Resumption.Proofs.Objects.Truncation
import Resumption.Proofs.Snapshot.Prefixes
import Resumption.Proofs.Snapshot.Resolving
import Resumption.Proofs.Machine.Places
import Resumption.Proofs.Instrument.Rejecting
import Resumption.Proofs.Instrument.Dispatch
import Resumption.Proofs.Instrument.Unwinding
import Resumption.Proofs.Coroutine.Rewinding
import Resumption.Proofs.Snapshot.Chains
import Resumption.Proofs.Hierarchy.Commuting
import Resumption.Proofs.Analysis.Termination
import Resumption.Proofs.Hierarchy.Headers
import Resumption.Proofs.Hierarchy.Numbering
import Resumption.Proofs.Machine.Instances
import Resumption.Proofs.Hierarchy.Covariance
import Resumption.Proofs.Instrument.Recycling
import Resumption.Proofs.Instrument.Reaching
import Resumption.Proofs.Analysis.Compacting
import Resumption.Proofs.Analysis.Upkeep
import Resumption.Proofs.Code.Operands
import Resumption.Proofs.Code.Versions
import Resumption.Proofs.Machine.Grids
import Resumption.Proofs.Machine.Quiet
import Resumption.Proofs.Hierarchy.Reordering
import Resumption.Proofs.Frame.Offsets
import Resumption.Proofs.Machine.Events
import Resumption.Proofs.Machine.Outlines
import Resumption.Proofs.Machine.SaveCode
import Resumption.Proofs.Machine.Settling
import Resumption.Proofs.Coroutine.Ledger
import Resumption.Proofs.Analysis.Bounding
import Resumption.Proofs.Instrument.Verifying
