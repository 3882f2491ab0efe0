import Eagent.Compaction
import Eagent.TransformMessages

/-!
# Summaries of a conversation

`compact` of the coding agent: the messages before the cut and the prefix of
a split turn are serialized into requests for a summary, the previous
summary with them, and the replies become the text of the new compaction.
The harness has the same functions with other texts (`SummaryTexts`) and
another reading of replies; both are `compactWith`.

A request names what the text is made for; keys, headers and the signal go
through unread. A character that the truncation of a tool result would cut
in two is kept whole.
-/

namespace Eagent

/-! ## Messages for a provider -/

def COMPACTION_SUMMARY_PREFIX : String :=
  "The conversation history before this point was compacted into the following summary:\n\n" ++
    "<summary>\n"

def COMPACTION_SUMMARY_SUFFIX : String := "\n</summary>"

def BRANCH_SUMMARY_PREFIX : String :=
  "The following is a summary of a branch that this conversation came back from:\n\n<summary>\n"

def BRANCH_SUMMARY_SUFFIX : String := "</summary>"

def bashExecutionToText (msg : BashExecutionMessage) : String :=
  let output :=
    if truthy msg.output then "```\n" ++ msg.output ++ "\n```" else "(no output)"
  let status :=
    if msg.cancelled then "\n\n(command cancelled)"
    else match msg.exitCode with
      | some code => if code = 0 then "" else "\n\nCommand exited with code " ++ toString code
      | none => ""
  let truncation :=
    match msg.fullOutputPath.filter truthy with
    | some path =>
        if msg.truncated then "\n\n[Output truncated. Full output: " ++ path ++ "]" else ""
    | none => ""
  "Ran `" ++ msg.command ++ "`\n" ++ output ++ status ++ truncation

private def userText (text : String) (timestamp : Nat) : AgentMessage :=
  .user ⟨some (.blocks [.text text]), timestamp⟩

/-- The messages of the three provider roles; what has another role becomes
a user message, and a command run outside the context nothing. -/
def convertToLlm (messages : List AgentMessage) : List AgentMessage :=
  messages.filterMap fun m =>
    match m with
    | .bashExecution m =>
        if m.excludeFromContext then none else some (userText (bashExecutionToText m) m.timestamp)
    | .custom m =>
        match m.content with
        | .string s => some (userText s m.timestamp)
        | .blocks bs => some (.user ⟨some (.blocks bs), m.timestamp⟩)
    | .branchSummary m =>
        some (userText (BRANCH_SUMMARY_PREFIX ++ m.summary ++ BRANCH_SUMMARY_SUFFIX) m.timestamp)
    | .compactionSummary m =>
        some (userText (COMPACTION_SUMMARY_PREFIX ++ m.summary ++ COMPACTION_SUMMARY_SUFFIX)
          m.timestamp)
    | m => some m

/-! ## Serializing -/

def TOOL_RESULT_MAX_CHARS : Nat := 2000

/-- The characters that begin within the first `n` code units. -/
def takeUnits : Nat → List Char → List Char
  | 0, _ => []
  | _, [] => []
  | n + 1, c :: cs => c :: takeUnits (if c.toNat < 0x10000 then n else n - 1) cs

def truncateForSummary (text : String) (maxChars : Nat) : String :=
  let length := utf16Length text.toList
  if length ≤ maxChars then text
  else
    String.ofList (takeUnits maxChars text.toList) ++
      "\n\n[... " ++ toString (length - maxChars) ++ " more characters truncated]"

private def textOf (block : ContentBlock) : Option String :=
  match block with
  | .text text => some text
  | .image _ _ => none

private def blockTexts (blocks : List ContentBlock) : String := String.join (blocks.filterMap textOf)

private def userContentText : Option MessageContent → String
  | some (.string s) => s
  | some (.blocks bs) => blockTexts bs
  | none => ""

private def argumentTexts : Json → List String
  | .obj fields => fields.map fun p => p.1 ++ "=" ++ String.ofList p.2.stringify
  | _ => []

private def callText (call : ToolCall) : String :=
  call.name ++ "(" ++ ", ".intercalate (argumentTexts call.arguments) ++ ")"

private def labelled (label separator : String) (parts : List String) : List String :=
  if parts.isEmpty then [] else [label ++ separator.intercalate parts]

private def assistantParts (m : AssistantMessage) : List String :=
  let textParts := m.blocks.filterMap fun block =>
    match block with | .text text => some text | _ => none
  let thinkingParts := m.blocks.filterMap fun block =>
    match block with | .thinking thinking => some thinking | _ => none
  labelled "[Assistant thinking]: " "\n" thinkingParts ++
    labelled "[Assistant]: " "\n" textParts ++
    labelled "[Assistant tool calls]: " "; " (m.toolCalls.map callText)

/-- What `serializeConversation` pushes for one message. -/
def serializedParts : AgentMessage → List String
  | .user m =>
      let content := userContentText m.content
      if truthy content then ["[User]: " ++ content] else []
  | .assistant m => assistantParts m
  | .toolResult m =>
      let content := blockTexts (m.content.getD [])
      if truthy content then
        ["[Tool result]: " ++ truncateForSummary content TOOL_RESULT_MAX_CHARS]
      else []
  | _ => []

def serializeConversation (messages : List AgentMessage) : String :=
  "\n\n".intercalate (messages.flatMap serializedParts)

/-! ## File lists -/

/-- The order of `Array.prototype.sort` on strings. -/
def sortTexts (texts : List String) : List String :=
  texts.mergeSort fun a b => decide (Ai.js a ≤ Ai.js b)

structure FileLists where
  readFiles : List String
  modifiedFiles : List String
deriving Repr, DecidableEq

def computeFileLists (fileOps : FileOperations) : FileLists :=
  let modified := (fileOps.edited ++ fileOps.written).foldl addPath []
  { readFiles := sortTexts (fileOps.read.filter fun f => f ∉ modified)
    modifiedFiles := sortTexts modified }

def formatFileOperations (lists : FileLists) : String :=
  let tagged (tag : String) (files : List String) : List String :=
    if files.isEmpty then []
    else ["<" ++ tag ++ ">\n" ++ "\n".intercalate files ++ "\n</" ++ tag ++ ">"]
  let sections := tagged "read-files" lists.readFiles ++ tagged "modified-files" lists.modifiedFiles
  if sections.isEmpty then "" else "\n\n" ++ "\n\n".intercalate sections

/-! ## Requests -/

/-- The fixed texts of the requests. -/
structure SummaryTexts where
  system : String
  summarization : String
  update : String
  additionalFocus : String
  turnPrefix : String

structure SummarizationRequest where
  systemPrompt : String
  promptText : String
  maxTokens : Int
  reasoning : Option String
deriving Repr, DecidableEq

/-- What of the model the requests depend on. -/
structure SummaryModel where
  maxTokens : Int
  reasoning : Bool

/-- What `compact` is given besides the preparation. -/
structure SummaryOptions where
  model : SummaryModel
  customInstructions : Option String
  thinkingLevel : Option String

/-- `Math.min(Math.floor(share * reserveTokens), model.maxTokens)`, the share
in tenths; a model without a limit sets none. -/
def summaryTokens (tenths : Int) (reserveTokens : Int) (model : SummaryModel) : Int :=
  let share := (tenths * reserveTokens).fdiv 10
  if 0 < model.maxTokens then min share model.maxTokens else share

def conversationTags (messages : List AgentMessage) : String :=
  "<conversation>\n" ++ serializeConversation (convertToLlm messages) ++ "\n</conversation>\n\n"

def previousSummaryTags (previousSummary : Option String) : String :=
  match previousSummary.filter truthy with
  | some summary => "<previous-summary>\n" ++ summary ++ "\n</previous-summary>\n\n"
  | none => ""

namespace SummaryTexts

variable (texts : SummaryTexts) (options : SummaryOptions)

/-- The update prompt where there is a previous summary, with the custom
instructions. -/
def basePrompt (previousSummary : Option String) : String :=
  let basePrompt :=
    if previousSummary.any truthy then texts.update else texts.summarization
  match options.customInstructions.filter truthy with
  | some instructions => basePrompt ++ texts.additionalFocus ++ instructions
  | none => basePrompt

def request (tenths : Int) (promptText : String) (reserveTokens : Int) : SummarizationRequest where
  systemPrompt := texts.system
  promptText
  maxTokens := summaryTokens tenths reserveTokens options.model
  reasoning :=
    if options.model.reasoning then
      options.thinkingLevel.filter fun level => truthy level && level ≠ "off"
    else none

/-- The request of `generateSummary`. -/
def summaryRequest (currentMessages : List AgentMessage) (reserveTokens : Int)
    (previousSummary : Option String) : SummarizationRequest :=
  texts.request options 8
    (conversationTags currentMessages ++ previousSummaryTags previousSummary ++
      texts.basePrompt options previousSummary)
    reserveTokens

/-- The request of `generateTurnPrefixSummary`. -/
def turnPrefixRequest (messages : List AgentMessage) (reserveTokens : Int) :
    SummarizationRequest :=
  texts.request options 5 (conversationTags messages ++ texts.turnPrefix) reserveTokens

end SummaryTexts

/-! ## Compacting -/

structure CompactionResult where
  summary : String
  firstKeptEntryId : String
  tokensBefore : Nat
  details : FileLists
deriving Repr, DecidableEq

/-- The requests a call issued, and how it ended. -/
structure Compacted (ε : Type) where
  requests : List SummarizationRequest
  result : Except ε CompactionResult

def replyText (response : AssistantMessage) : String :=
  "\n".intercalate (response.blocks.filterMap fun block =>
    match block with | .text text => some text | _ => none)

/-- How a variant of `compact` asks for a summary: its texts, the provider,
and the failure it makes of a reply, given what was asked for. -/
structure Summarizer (ε : Type) where
  texts : SummaryTexts
  complete : SummarizationRequest → Except ε AssistantMessage
  failure : String → AssistantMessage → Option ε

def NO_PRIOR_HISTORY : String := "No prior history."

def mergeSummaries (history turnPrefix : String) : String :=
  history ++ "\n\n---\n\n**Turn Context (split turn):**\n\n" ++ turnPrefix

section

variable {ε : Type} (summarizer : Summarizer ε)

def Summarizer.ask (label : String) (request : SummarizationRequest) : Except ε String :=
  match summarizer.complete request with
  | .error e => .error e
  | .ok response =>
      match summarizer.failure label response with
      | some e => .error e
      | none => .ok (replyText response)

def compactionResult (preparation : CompactionPreparation) (summary : String) :
    CompactionResult where
  summary := summary ++ formatFileOperations (computeFileLists preparation.fileOps)
  firstKeptEntryId := preparation.firstKeptEntryId
  tokensBefore := preparation.tokensBefore
  details := computeFileLists preparation.fileOps

def compactWith (preparation : CompactionPreparation) (options : SummaryOptions) :
    Compacted ε :=
  let reserveTokens := preparation.settings.reserveTokens
  let summaryRequest := summarizer.texts.summaryRequest options preparation.messagesToSummarize
    reserveTokens preparation.previousSummary
  let askSummary := summarizer.ask "Summarization" summaryRequest
  if preparation.isSplitTurn && !preparation.turnPrefixMessages.isEmpty then
    let turnRequest := summarizer.texts.turnPrefixRequest options preparation.turnPrefixMessages
      reserveTokens
    let askTurn (history : String) : Except ε CompactionResult :=
      (summarizer.ask "Turn prefix summarization" turnRequest).map fun turnPrefix =>
        compactionResult preparation (mergeSummaries history turnPrefix)
    if preparation.messagesToSummarize.isEmpty then
      ⟨[turnRequest], askTurn NO_PRIOR_HISTORY⟩
    else
      match askSummary with
      | .error e => ⟨[summaryRequest], .error e⟩
      | .ok history => ⟨[summaryRequest, turnRequest], askTurn history⟩
  else
    ⟨[summaryRequest], askSummary.map (compactionResult preparation)⟩

end

/-! ## The coding agent -/

namespace CodingAgentCompaction

def SUMMARIZATION_SYSTEM_PROMPT : String := "\n".intercalate
  [ "You are a context summarization assistant. Your task is to read a conversation " ++
      "between a user and an AI assistant, then produce a structured summary following the " ++
      "exact format specified.",
    "",
    "Do NOT continue the conversation. Do NOT respond to any questions in the " ++
      "conversation. ONLY output the structured summary." ]

def SUMMARIZATION_PROMPT : String := "\n".intercalate
  [ "The messages above are a conversation to summarize. Create a structured context " ++
      "checkpoint summary that another LLM will use to continue the work.",
    "",
    "Use this EXACT format:",
    "",
    "## Goal",
    "[What is the user trying to accomplish? Can be multiple items if the session covers " ++
      "different tasks.]",
    "",
    "## Constraints & Preferences",
    "- [Any constraints, preferences, or requirements mentioned by user]",
    "- [Or \"(none)\" if none were mentioned]",
    "",
    "## Progress",
    "### Done",
    "- [x] [Completed tasks/changes]",
    "",
    "### In Progress",
    "- [ ] [Current work]",
    "",
    "### Blocked",
    "- [Issues preventing progress, if any]",
    "",
    "## Key Decisions",
    "- **[Decision]**: [Brief rationale]",
    "",
    "## Next Steps",
    "1. [Ordered list of what should happen next]",
    "",
    "## Critical Context",
    "- [Any data, examples, or references needed to continue]",
    "- [Or \"(none)\" if not applicable]",
    "",
    "Keep each section concise. Preserve exact file paths, function names, and error " ++
      "messages." ]

def UPDATE_SUMMARIZATION_PROMPT : String := "\n".intercalate
  [ "The messages above are NEW conversation messages to incorporate into the existing " ++
      "summary provided in <previous-summary> tags.",
    "",
    "Update the existing structured summary with new information. RULES:",
    "- PRESERVE all existing information from the previous summary",
    "- ADD new progress, decisions, and context from the new messages",
    "- UPDATE the Progress section: move items from \"In Progress\" to \"Done\" when " ++
      "completed",
    "- UPDATE \"Next Steps\" based on what was accomplished",
    "- PRESERVE exact file paths, function names, and error messages",
    "- If something is no longer relevant, you may remove it",
    "",
    "Use this EXACT format:",
    "",
    "## Goal",
    "[Preserve existing goals, add new ones if the task expanded]",
    "",
    "## Constraints & Preferences",
    "- [Preserve existing, add new ones discovered]",
    "",
    "## Progress",
    "### Done",
    "- [x] [Include previously done items AND newly completed items]",
    "",
    "### In Progress",
    "- [ ] [Current work - update based on progress]",
    "",
    "### Blocked",
    "- [Current blockers - remove if resolved]",
    "",
    "## Key Decisions",
    "- **[Decision]**: [Brief rationale] (preserve all previous, add new)",
    "",
    "## Next Steps",
    "1. [Update based on current state]",
    "",
    "## Critical Context",
    "- [Preserve important context, add new if needed]",
    "",
    "Keep each section concise. Preserve exact file paths, function names, and error " ++
      "messages." ]

def TURN_PREFIX_SUMMARIZATION_PROMPT : String := "\n".intercalate
  [ "This is the PREFIX of a turn that was too large to keep. The SUFFIX (recent work) is " ++
      "retained.",
    "",
    "Summarize the prefix to provide context for the retained suffix:",
    "",
    "## Original Request",
    "[What did the user ask for in this turn?]",
    "",
    "## Early Progress",
    "- [Key decisions and work done in the prefix]",
    "",
    "## Context for Suffix",
    "- [Information needed to understand the retained recent work]",
    "",
    "Be concise. Focus on what's needed to understand the kept suffix." ]

def texts : SummaryTexts where
  system := SUMMARIZATION_SYSTEM_PROMPT
  summarization := SUMMARIZATION_PROMPT
  update := UPDATE_SUMMARIZATION_PROMPT
  additionalFocus := "\n\nAdditional focus: "
  turnPrefix := TURN_PREFIX_SUMMARIZATION_PROMPT

/-- A reply that ended in an error is thrown; an aborted one is taken as it
is. -/
def failure (label : String) (response : AssistantMessage) : Option String :=
  if response.stopReason = .error then
    some (label ++ " failed: " ++ (response.errorMessage.filter truthy).getD "Unknown error")
  else none

def summarizer (complete : SummarizationRequest → Except String AssistantMessage) :
    Summarizer String :=
  ⟨texts, complete, failure⟩

/-- `compact`; an error is what it throws. -/
def compact (complete : SummarizationRequest → Except String AssistantMessage)
    (preparation : CompactionPreparation) (options : SummaryOptions) : Compacted String :=
  let compacted := compactWith (summarizer complete) preparation options
  if truthy preparation.firstKeptEntryId then compacted
  else
    { compacted with
      result := compacted.result.bind fun _ =>
        .error "First kept entry has no UUID - session may need migration" }

end CodingAgentCompaction

end Eagent
