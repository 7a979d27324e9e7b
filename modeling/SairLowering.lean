import SairLowering.Mapping
import SairLowering.Program
import SairLowering.IterationSpace
import SairLowering.Storage
import SairLowering.DefaultStorage
import SairLowering.StorageSteps
import SairLowering.StorageInvariants
import SairLowering.Extension
import SairLowering.Coverage
import SairLowering.BackwardSlice
import SairLowering.Sequence
import SairLowering.DefaultLoopNest
import SairLowering.Pipeline
import SairLowering.CommitRenaming
import SairLowering.RunFrame
import SairLowering.Fixpoint
import SairLowering.PipelineCommit
import SairLowering.RoundTrip
import SairLowering.Buffers
