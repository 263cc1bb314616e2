import RePrime.Session.Branched
import RePrime.Session.Tree
import RePrime.Session.FailedAppend
import RePrime.Session.UsageAccounting
import RePrime.Session.Migrate
import RePrime.Session.Repair
import RePrime.Session.Readers
import RePrime.Compact.CutChoice
import RePrime.Compact.BranchSummary
import RePrime.Compact.BranchPath
import RePrime.Cron.Scheduler
import RePrime.Cron.Rivals
import RePrime.Daemon.WorkerJournal
import RePrime.SessionWorker.PrivateFraming
import RePrime.Budget.ImageTtl
import RePrime.Budget.PruneSize
import RePrime.Tools.EditOccurrences
import RePrime.Daemon.CompactStream
import RePrime.Tools.MutationQueue
import RePrime.Tools.TruncateLimits
import RePrime.Utils.DirLock
import RePrime.AgentConnection.Reattach
import RePrime.Core.EventLogRivals
import RePrime.Core.ToolOutputCap
import RePrime.Core.SessionActionStore
import RePrime.Daemon.AgentRoster
import RePrime.Agent.ReflexBudget
import RePrime.Agent.ToolPairing
import RePrime.Agent.Transcript
import RePrime.Daemon.RlmLedger
import RePrime.Runtime.BashOutput
import RePrime.Daemon.SupervisorOwnershipRuns
import RePrime.Core.AgentFamily
import RePrime.Core.AutonomousBounds
import RePrime.Core.MessageRateLimiter
import RePrime.Core.Rollback
import RePrime.Core.SettingsWrites
import RePrime.Ai.ProviderHistory
import RePrime.Ai.JsonRepair
import RePrime.Tui.StdinBufferCuts
import RePrime.Core.SemanticEdgeRecorder
import RePrime.Tui.Truncate
import RePrime.Tui.FullscreenClicks
import RePrime.Tui.FullscreenPaint
import RePrime.Tui.WordWrapRows
import RePrime.Tui.EditorUndo
import RePrime.Tui.KillYank
import RePrime.Utils.Semaphore
import RePrime.Tools.OutputSpill
import RePrime.Cron.FieldGrammar
import RePrime.Cron.NextMinute
import RePrime.Core.SettingsPrecedence
import RePrime.Core.AuthPersistence
import RePrime.Core.AuthSources
