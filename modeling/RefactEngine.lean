import RefactEngine.AdmissionFairShare
import RefactEngine.AdmissionOwnership
import RefactEngine.LaunchSafety
import RefactEngine.OutboxSafety
import RefactEngine.LedgerSafety
import RefactEngine.PagingSafety
import RefactEngine.HistoryPositions
import RefactEngine.PolicyMerge
import RefactEngine.ZoneLabels
import RefactEngine.PathScope
import RefactEngine.PatchReading
import RefactEngine.UndoSafety
import RefactEngine.FileLockSafety
import RefactEngine.EvidenceSafety
import RefactEngine.SubGoalSafety
import RefactEngine.GoalRevival
import RefactEngine.TranscriptSafety
import RefactEngine.QuestionSafety
import RefactEngine.ExecutionSafety
import RefactEngine.Decomposition
import RefactEngine.EvidenceReplay
import RefactEngine.DeliverySafety
import RefactEngine.SubtreeCancellation
import RefactEngine.LateCalls
import RefactEngine.RegistryErrors
import RefactEngine.CycleReports
import RefactEngine.WaitRegistry
import RefactEngine.CacheGuardCommits
import RefactEngine.CacheGrowth
import RefactEngine.DeliveryWindows
import RefactEngine.DeliveryCrash
import RefactEngine.ApprovalBounds
import RefactEngine.StoreRetention
import RefactEngine.ClaimVerdicts
import RefactEngine.CausalTraces
import RefactEngine.ResultRelocation
import RefactEngine.ContextDedup
import RefactEngine.WaveOverlaps
import RefactEngine.PatchCursor
import RefactEngine.PatchFaults
import RefactEngine.GateMonotonicity
import RefactEngine.DependencyCycles
import RefactEngine.OverrideRuns
import RefactEngine.GoalTransfer
import RefactEngine.MissedRuns
import RefactEngine.DiffChunks
import RefactEngine.EditFrames
import RefactEngine.ToolIdRenaming
import RefactEngine.PlanRole
import RefactEngine.ChildChatIndex
import RefactEngine.TeamRosters
import RefactEngine.ToolCallAccumulator
import RefactEngine.WorkspacePaths
import RefactEngine.JsonScanning
