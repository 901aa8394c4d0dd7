import OnePass.CompiledModule
import OnePass.Machine.Decoding
import OnePass.Trace
import OnePass.Proofs.Outline
import OnePass.Proofs.OutlineMatch
import OnePass.Proofs.OutlineOperands
import OnePass.Proofs.OutlineBranches
import OnePass.Proofs.OutlineInstructions
import OnePass.Proofs.OutlineConstructs
import OnePass.Proofs.Reading
import OnePass.Proofs.OutlineBody
import OnePass.Proofs.Verdict
import OnePass.Proofs.Run
import OnePass.Proofs.BranchPayload
import OnePass.Proofs.CacheInvariant
import OnePass.Proofs.CodeLayout
import OnePass.Proofs.Reencoding
import OnePass.Proofs.Assembling
import OnePass.Proofs.TrustedMode
import OnePass.Proofs.CompileFaults
import OnePass.Proofs.StackDiscipline
import OnePass.Proofs.Silence
import OnePass.Proofs.CallTables
import OnePass.Proofs.Callbacks
import OnePass.Proofs.LockStep
import OnePass.Proofs.LockStepBranches
import OnePass.Proofs.LockStepRuns
import OnePass.Proofs.SlotHeights
import OnePass.Proofs.ModuleBuilding
import OnePass.Proofs.ModuleCompilation
import OnePass.Proofs.ParallelMove
import OnePass.Proofs.ValidBodies
import OnePass.Proofs.CompiledTables
import OnePass.Proofs.RegisterClasses
import OnePass.Proofs.FrameRoom
import OnePass.Proofs.DebugStops
import OnePass.Proofs.Joins
import OnePass.Proofs.VarintReading
import OnePass.Proofs.JoinStates
import OnePass.Proofs.OperandCode
import OnePass.Proofs.CacheHistory
import OnePass.Proofs.StackChecks
import OnePass.Proofs.ProtectedAccesses
import OnePass.Proofs.ArgumentPassing
