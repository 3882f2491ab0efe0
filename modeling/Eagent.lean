import Eagent.BranchSummarization
import Eagent.BranchedSession
import Eagent.CompactionResults
import Eagent.CompactionFiles
import Eagent.CompletionsRuns
import Eagent.CutPlacement
import Eagent.EditUnambiguous
import Eagent.ShellCapture
import Eagent.CommandOutput
import Eagent.EditorUndo
import Eagent.EventDelivery
import Eagent.FinalOutput
import Eagent.GoogleSse
import Eagent.HarnessLock
import Eagent.HarnessQueues
import Eagent.HarnessWrites
import Eagent.HistoryRuns
import Eagent.InputChunks
import Eagent.IpcServer
import Eagent.JsonRepair
import Eagent.MutationOrder
import Eagent.OverlayInput
import Eagent.PreviousSummary
import Eagent.ProxyTermination
import Eagent.RpcRequests
import Eagent.SchemaCoercion
import Eagent.SessionFork
import Eagent.SessionReading
import Eagent.SessionRedaction
import Eagent.SessionTranscript
import Eagent.SettingsSurvival
import Eagent.StickyColumn
import Eagent.TaskCancellation
import Eagent.TaskDeadlock
import Eagent.ToolCallIds
import Eagent.UuidV7
import Eagent.WebProcesses
import Eagent.TruncateExact
import Eagent.WrapStyles
import Eagent.PromptTemplates
import Eagent.ReadTool
import Eagent.FailedAppend
import Eagent.QueueMirror
import Eagent.ModelRefresh
import Eagent.TraceNesting
