import TranspileBench.Lib.Reorder
import TranspileBench.Lib.Program
import TranspileBench.Lib.View
import TranspileBench.Lib.Routine
import TranspileBench.Lib.Directory
import TranspileBench.Lib.Interleaving
import TranspileBench.Lib.Parallel
import TranspileBench.Lib.RecordLog
import TranspileBench.Lib.Tiling
import TranspileBench.Lib.Keyed
import TranspileBench.Lib.Fallible
import TranspileBench.Lib.Assoc
import TranspileBench.Lib.Statistics
import TranspileBench.Metrics.Replay
import TranspileBench.Metrics.ReplaySpec
import TranspileBench.Metrics.ReplayGreedy
import TranspileBench.Metrics.WireSemantics
import TranspileBench.Metrics.ReplaySoundness
import TranspileBench.Metrics.ReplayEffect
import TranspileBench.Metrics.Structure
import TranspileBench.Metrics.Depth
import TranspileBench.Metrics.Flatten
import TranspileBench.Metrics.FailClosed
import TranspileBench.Verifier.Schedule
import TranspileBench.Evaluator.Verdict
import TranspileBench.Evaluator.Quality
import TranspileBench.Evaluator.Grading
import TranspileBench.Evaluator.Frame
import TranspileBench.Evaluator.Required
import TranspileBench.Evaluator.Cost
import TranspileBench.Evaluator.Exact
import TranspileBench.Evaluator.CostMonotone
import TranspileBench.Evaluator.Traversal
import TranspileBench.Evaluator.Panels
import TranspileBench.Evaluator.Dominance
import TranspileBench.Coordinator.Gate
import TranspileBench.Coordinator.QualityKey
import TranspileBench.Coordinator.Costs
import TranspileBench.Coordinator.CostReplay
import TranspileBench.Coordinator.Session
import TranspileBench.Coordinator.Quality
import TranspileBench.Coordinator.Suites
import TranspileBench.Coordinator.Stages
import TranspileBench.Coordinator.Maintenance
import TranspileBench.Coordinator.Decide
import TranspileBench.Coordinator.Invariant
import TranspileBench.Coordinator.Effects
import TranspileBench.Coordinator.Bodies
import TranspileBench.Coordinator.Remeasure
import TranspileBench.Coordinator.CostStage
import TranspileBench.Coordinator.QualityRows
import TranspileBench.Coordinator.QualityRun
import TranspileBench.Coordinator.Holding
import TranspileBench.Coordinator.Lifecycle
import TranspileBench.Coordinator.Attempts
import TranspileBench.Coordinator.Sessions
import TranspileBench.Coordinator.StateMachine
import TranspileBench.Coordinator.GateAgreement
import TranspileBench.Coordinator.AppendLog
import TranspileBench.Coordinator.RunWorker
import TranspileBench.Coordinator.VerifyMany
import TranspileBench.Coordinator.Transparent
import TranspileBench.Coordinator.VerifierSession
import TranspileBench.Store.Stages
import TranspileBench.Store.Baseline
import TranspileBench.Store.Halves
import TranspileBench.Store.Noninterference
import TranspileBench.Store.Publication
import TranspileBench.Store.Filling
import TranspileBench.Store.Builds
import TranspileBench.Compile.Tree
import TranspileBench.Compile.Builds
import TranspileBench.Compile.Frozen
import TranspileBench.Compile.Freezing
import TranspileBench.Compile.Building
import TranspileBench.Compile.Tasks
import TranspileBench.Compile.Invocation
import TranspileBench.Compile.Sessions
import TranspileBench.Compile.Playback
import TranspileBench.Compile.Committed
import TranspileBench.Compile.Alike
import TranspileBench.Lsf.CostMonitor
import TranspileBench.Lsf.CostEvidence
import TranspileBench.Lsf.EvidenceSound
import TranspileBench.Lsf.WorkerHooks
import TranspileBench.Lsf.Watching
import TranspileBench.Lsf.MonitorAgreement
import TranspileBench.Lsf.Ledger
import TranspileBench.Lsf.Resume
import TranspileBench.Lsf.RefusedResume
import TranspileBench.Lsf.Manager
import TranspileBench.Lsf.Pipeline
import TranspileBench.Lsf.Conduct
import TranspileBench.Lsf.Keeping
import TranspileBench.Lsf.PipelineSteps
import TranspileBench.Lsf.Orchestration
import TranspileBench.Lsf.LiveJobs
import TranspileBench.Lsf.RetryProtocol
import TranspileBench.Lsf.Playback
import TranspileBench.Lsf.Custody
import TranspileBench.Lsf.Cancelling
import TranspileBench.Lsf.Reaping
import TranspileBench.Lsf.Recovery
import TranspileBench.Coordinator.IncompletePanel
import TranspileBench.Coordinator.NoRemeasurement
import TranspileBench.Coordinator.Refusals
import TranspileBench.Coordinator.Amending
import TranspileBench.Worker.Circuit
import TranspileBench.Worker.Codec
import TranspileBench.Worker.Renaming
import TranspileBench.Coordinator.RustRuns
import TranspileBench.Coordinator.Coverage
import TranspileBench.Verifier.Simulation
import TranspileBench.Verifier.Deferred
import TranspileBench.Verifier.References
import TranspileBench.Lib.Frontier
import TranspileBench.Lib.Recency
import TranspileBench.Lsf.ProcessTree
import TranspileBench.Lsf.ProcessEvents
import TranspileBench.Lsf.WindowCpu
import TranspileBench.Lsf.Exclusion
import TranspileBench.Lib.Hierarchy
import TranspileBench.Evaluator.Weights
import TranspileBench.Coordinator.VerifierBatches
import TranspileBench.Lib.Scan
import TranspileBench.Lsf.ResourceRequest
import TranspileBench.Lsf.Allocation
import TranspileBench.Lsf.CpuList
import TranspileBench.Lsf.Placement
import TranspileBench.Worker.ExactValues
import TranspileBench.Lib.Reading
import TranspileBench.Lib.Json
import TranspileBench.Lib.JsonTokens
import TranspileBench.Lib.JsonText
import TranspileBench.Canonical.Encoding
import TranspileBench.Canonical.Lines
import TranspileBench.Coordinator.Violations
import TranspileBench.Coordinator.Playback
import TranspileBench.Coordinator.FailureRows
import TranspileBench.Worker.RoundTrip
import TranspileBench.Coordinator.Linearizable
import TranspileBench.Coordinator.PassWarranted
import TranspileBench.Coordinator.PathsCovered
import TranspileBench.Coordinator.CleanSafe
import TranspileBench.Verifier.OracleAgreement
import TranspileBench.Verifier.UnitaryVerdict
