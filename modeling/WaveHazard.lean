import WaveHazard.Bits.FlagSet
import WaveHazard.Bits.Width
import WaveHazard.Diagnostic
import WaveHazard.Fault
import WaveHazard.Hazard.Analysis
import WaveHazard.Hazard.Checked
import WaveHazard.Hazard.Clause
import WaveHazard.Hazard.CounterModel
import WaveHazard.Hazard.Demand
import WaveHazard.Hazard.Effect
import WaveHazard.Hazard.Entry
import WaveHazard.Hazard.Event
import WaveHazard.Hazard.Issue
import WaveHazard.Hazard.State
import WaveHazard.Hazard.Transfer
import WaveHazard.Index.Arena
import WaveHazard.Index.Key
import WaveHazard.Index.Range
import WaveHazard.Index.SlotMap
import WaveHazard.Machine.Instr
import WaveHazard.Machine.Opcode
import WaveHazard.Machine.Register
import WaveHazard.Machine.Sync
import WaveHazard.Machine.Target
import WaveHazard.Machine.Text
import WaveHazard.Machine.Timing
import WaveHazard.Pass.CoalesceDelays
import WaveHazard.Pass.InsertWaits
import WaveHazard.Pass.Journal
import WaveHazard.Pass.Option
import WaveHazard.Pass.Registry
import WaveHazard.Pass.Visitor
import WaveHazard.Pass.WellFormed
import WaveHazard.Pipeline
import WaveHazard.Program.Basic
import WaveHazard.Program.Order
import WaveHazard.Program.Text
import WaveHazard.Serial.Program
import WaveHazard.Serial.Tree
import WaveHazard.Text.Number
import WaveHazard.Wait.Delay
import WaveHazard.Wait.Lowering
import WaveHazard.Wait.Packed
import WaveHazard.Wait.Requirement
import WaveHazard.Proofs.EventSets
import WaveHazard.Proofs.JoinOrder
import WaveHazard.Proofs.BlockOrder
import WaveHazard.Proofs.Outcome
import WaveHazard.Proofs.Rewriting
import WaveHazard.Proofs.PostFixpoint
import WaveHazard.Proofs.PackedFields
import WaveHazard.Proofs.WaitEncoding
import WaveHazard.Proofs.Awaiting
import WaveHazard.Proofs.Causes
import WaveHazard.Proofs.Checkpoints
import WaveHazard.Proofs.Completion
import WaveHazard.Proofs.DrainPoints
import WaveHazard.Proofs.MemoryOrder
import WaveHazard.Proofs.RegisterSafety
import WaveHazard.Proofs.Stages
import WaveHazard.Proofs.OnlyWaits
import WaveHazard.Proofs.StateOrder
import WaveHazard.Proofs.ByteRange
import WaveHazard.Proofs.Convergence
import WaveHazard.Proofs.InheritedAccesses
import WaveHazard.Proofs.ScalarStores
import WaveHazard.Proofs.JoinLattice
import WaveHazard.Proofs.OrderedSection
import WaveHazard.Proofs.Bookkeeping
import WaveHazard.Proofs.Representation
import WaveHazard.Proofs.Validation
import WaveHazard.Proofs.Encodable
import WaveHazard.Proofs.FaultFree
import WaveHazard.Proofs.PendingThresholds
import WaveHazard.Proofs.Emission
import WaveHazard.Proofs.DelayMeaning
import WaveHazard.Proofs.Refusals
import WaveHazard.Proofs.Passing
import WaveHazard.Proofs.Occurrence
import WaveHazard.Proofs.RepeatedDemand
import WaveHazard.Proofs.Turns
import WaveHazard.Proofs.ClauseMembers
import WaveHazard.Proofs.Unhindered
import WaveHazard.Proofs.ClauseIntegrity
import WaveHazard.Proofs.TouchTrace
import WaveHazard.Proofs.ExactThresholds
import WaveHazard.Proofs.VisitLimit
import WaveHazard.Proofs.LatchFan
import WaveHazard.Proofs.FoldedDelays
import WaveHazard.Proofs.Destinations
import WaveHazard.Proofs.LinearVisibility
import WaveHazard.Proofs.DelayEncoding
import WaveHazard.Proofs.DelayDistances
import WaveHazard.Proofs.DelayFields
import WaveHazard.Proofs.SearchOrder
import WaveHazard.Proofs.OptionTexts
import WaveHazard.Proofs.OptionValues
import WaveHazard.Proofs.OrderedMaps
import WaveHazard.Proofs.Admissions
import WaveHazard.Proofs.Plans
