import Eagent.Json

/-!
# Messages

The message union of the agent core (`user`, `assistant`, `toolResult`)
together with the coding agent's additions (`bashExecution`, `custom`,
`branchSummary`, `compactionSummary`).

`content` is optional on the three provider roles: session files are
parsed without validation and can hold messages whose content is null or
missing.
-/

namespace Eagent

/-! ## Content blocks -/

/-- `TextContent | ImageContent`. -/
inductive ContentBlock where
  | text (text : String)
  | image (data mimeType : String)
deriving Repr, DecidableEq

/-- `string | (TextContent | ImageContent)[]`. -/
inductive MessageContent where
  | string (s : String)
  | blocks (bs : List ContentBlock)
deriving Repr, DecidableEq

structure ToolCall where
  id : String
  name : String
  arguments : Json
deriving Repr, DecidableEq

/-- `TextContent | ThinkingContent | ToolCall`. -/
inductive AssistantBlock where
  | text (text : String)
  | thinking (thinking : String)
  | toolCall (call : ToolCall)
deriving Repr, DecidableEq

def AssistantBlock.toolCall? : AssistantBlock → Option ToolCall
  | .toolCall call => some call
  | _ => none

/-! ## Messages -/

structure Usage where
  input : Nat
  output : Nat
  cacheRead : Nat
  cacheWrite : Nat
  totalTokens : Nat
deriving Repr, DecidableEq

inductive StopReason where
  | stop
  | length
  | toolUse
  | error
  | aborted
deriving Repr, DecidableEq

structure UserMessage where
  content : Option MessageContent
  timestamp : Nat
deriving Repr, DecidableEq

structure AssistantMessage where
  content : Option (List AssistantBlock)
  provider : String
  model : String
  usage : Option Usage
  stopReason : StopReason
  errorMessage : Option String := none
  timestamp : Nat
deriving Repr, DecidableEq

structure ToolResultMessage where
  toolCallId : String
  toolName : String
  content : Option (List ContentBlock)
  details : Option Json
  addedToolNames : List String := []
  isError : Bool
  timestamp : Nat
deriving Repr, DecidableEq

structure BashExecutionMessage where
  command : String
  output : String
  exitCode : Option Int
  cancelled : Bool
  truncated : Bool
  fullOutputPath : Option String := none
  excludeFromContext : Bool := false
  timestamp : Nat
deriving Repr, DecidableEq

structure CustomMessage where
  customType : String
  content : MessageContent
  display : Bool
  details : Option Json
  timestamp : Nat
deriving Repr, DecidableEq

structure BranchSummaryMessage where
  summary : String
  fromId : String
  timestamp : Nat
deriving Repr, DecidableEq

structure CompactionSummaryMessage where
  summary : String
  tokensBefore : Nat
  timestamp : Nat
deriving Repr, DecidableEq

/-- `AgentMessage`, one constructor per role. -/
inductive AgentMessage where
  | user (m : UserMessage)
  | assistant (m : AssistantMessage)
  | toolResult (m : ToolResultMessage)
  | bashExecution (m : BashExecutionMessage)
  | custom (m : CustomMessage)
  | branchSummary (m : BranchSummaryMessage)
  | compactionSummary (m : CompactionSummaryMessage)
deriving Repr, DecidableEq

/-- The blocks of a streamed message; a missing content (possible in
stored files only) counts as empty. -/
def AssistantMessage.blocks (m : AssistantMessage) : List AssistantBlock :=
  m.content.getD []

/-- `message.content.filter((c) => c.type === "toolCall")`. -/
def AssistantMessage.toolCalls (m : AssistantMessage) : List ToolCall :=
  m.blocks.filterMap AssistantBlock.toolCall?

namespace AgentMessage

def isAssistant : AgentMessage → Bool
  | .assistant _ => true
  | _ => false

def isCompactionSummary : AgentMessage → Bool
  | .compactionSummary _ => true
  | _ => false

end AgentMessage

end Eagent
