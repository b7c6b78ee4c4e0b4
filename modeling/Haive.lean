import Haive.Plan.KeptOps
import Haive.Plan.Versions
import Haive.Plan.SiblingOrder
import Haive.Plan.Impact
import Haive.Plan.ConcurrentTree
import Haive.Mirror.Pruning
import Haive.Mirror.Markdown
import Haive.Mirror.OutboxRuns
import Haive.Dag.Debt
import Haive.Dag.Skips
import Haive.Steps.ParkTiming
import Haive.Steps.Diagnosis
import Haive.Naming.Install
import Haive.Queues.AgentLease
import Haive.Queues.Stream
import Haive.Queues.StreamLogBuffer
import Haive.Queues.CleanTranscriptEnds
import Haive.Terminal.SteerTurns
import Haive.Queues.RagSyncLock
import Haive.Updater.Maintenance
import Haive.Migrate.Once
import Haive.Queues.RuntimeAdmission
import Haive.Files.Park
import Haive.Steps.MergeDir
import Haive.Modules.Drain
import Haive.Templates.Region
import Haive.Steps.Squash
import Haive.Attachments.Paths
import Haive.Stats.BusySpan
import Haive.Steps.LastVerdict
import Haive.Modularity.OwnMarkers
import Haive.Modularity.ToolAddress
import Haive.Schemas.Redaction
import Haive.Steps.FormValues
import Haive.Integrations.Permitted
import Haive.Egress.Guard
import Haive.Egress.Allowlist
import Haive.Steps.YamlScalar
import Haive.Sidebar.Shown
import Haive.Scheduling.MapWithConcurrency
import Haive.Scheduling.PriorityDecay
import Haive.Scheduling.AgentConcurrency
import Haive.Rag.RepositorySync
import Haive.ProjectState.MergeLaws
