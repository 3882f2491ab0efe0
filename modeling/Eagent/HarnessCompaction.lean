import Eagent.HarnessSession
import Eagent.Summarization

/-!
# Compaction of a harness session

`prepareCompaction` and `compact` of the agent harness. They differ from the
coding agent's in what counts: only message entries carry tokens, every
entry without one is passed by the metadata scan, and a turn is split
wherever the cut is not a user message. A preparation with nothing to
summarize is returned as well.
-/

namespace Eagent

namespace HarnessCompaction

/-! ## Errors -/

inductive CompactionErrorCode where
  | aborted | summarizationFailed | invalidSession | unknown
deriving Repr, DecidableEq

structure CompactionError where
  code : CompactionErrorCode
  message : String
deriving Repr, DecidableEq

def missingId : CompactionError :=
  ⟨.invalidSession, "First kept entry has no UUID - session may need migration"⟩

/-! ## Entries -/

def message? (entry : SessionTreeEntry) : Option AgentMessage :=
  match entry.body with
  | .entry (.message message) => some message
  | _ => none

def isCompaction (entry : SessionTreeEntry) : Bool :=
  match entry.body with
  | .entry (.compaction ..) => true
  | _ => false

/-- `entry.type === "branch_summary" || entry.type === "custom_message"` -/
def isInserted (entry : SessionTreeEntry) : Bool :=
  match entry.body with
  | .entry (.branchSummary ..) => true
  | .entry (.customMessage ..) => true
  | _ => false

def getMessageFromEntry (entry : SessionTreeEntry) : Option AgentMessage :=
  match entry.body with
  | .entry (.message message) => some message
  | .entry (.customMessage customType content display details) =>
      some (.custom (createCustomMessage customType (content.getD (.blocks [])) display details
        entry.timestamp))
  | .entry (.branchSummary fromId summary _ _) =>
      some (.branchSummary (createBranchSummaryMessage summary fromId entry.timestamp))
  | .entry (.compaction summary _ tokensBefore _ _) =>
      some (.compactionSummary (createCompactionSummaryMessage summary tokensBefore
        entry.timestamp))
  | _ => none

def getMessageFromEntryForCompaction (entry : SessionTreeEntry) : Option AgentMessage :=
  if isCompaction entry then none else getMessageFromEntry entry

/-! ## The cut point -/

/-- The test `findValidCutPoints` makes of one entry. -/
def isValidCutPoint (entry : SessionTreeEntry) : Bool :=
  (message? entry).any isCutPointMessage || isInserted entry

def findValidCutPoints (entries : List SessionTreeEntry) (startIndex endIndex : Nat) :
    List Nat :=
  (List.range' startIndex (endIndex - startIndex)).filter fun i =>
    entries[i]?.any isValidCutPoint

/-- `role === "user" || role === "bashExecution"` -/
def isTurnStartRole : AgentMessage → Bool
  | .user _ => true
  | .bashExecution _ => true
  | _ => false

def isTurnStart (entry : SessionTreeEntry) : Bool :=
  isInserted entry || (message? entry).any isTurnStartRole

/-- The loop of `findTurnStartIndex`; `none` is the source's `-1`. -/
def findTurnStartIndex (entries : List SessionTreeEntry) (startIndex : Nat) : Nat → Option Nat
  | 0 => if startIndex = 0 && entries[0]?.any isTurnStart then some 0 else none
  | i + 1 =>
      if i + 1 < startIndex then none
      else if entries[i + 1]?.any isTurnStart then some (i + 1)
      else findTurnStartIndex entries startIndex i

/-- The backward walk: `n` entries are still ahead of it, `acc` tokens
behind. -/
def budgetCut (entries : List SessionTreeEntry) (startIndex : Nat) (keepRecentTokens : Int)
    (cutPoints : List Nat) (cutIndex : Nat) : Nat → Nat → Nat
  | 0, _ => cutIndex
  | i + 1, acc =>
      if i < startIndex then cutIndex
      else
        match entries[i]?.bind message? with
        | none => budgetCut entries startIndex keepRecentTokens cutPoints cutIndex i acc
        | some message =>
            let acc := acc + estimateTokens message
            if keepRecentTokens ≤ acc then
              (cutPoints.find? (fun c => i ≤ c)).getD cutIndex
            else budgetCut entries startIndex keepRecentTokens cutPoints cutIndex i acc

def includeMetadata (entries : List SessionTreeEntry) (startIndex : Nat) : Nat → Nat
  | 0 => 0
  | c + 1 =>
      if startIndex < c + 1 && entries[c]?.any fun e => !isCompaction e && (message? e).isNone then
        includeMetadata entries startIndex c
      else c + 1

def isUserMessage (entry : SessionTreeEntry) : Bool :=
  match message? entry with
  | some (.user _) => true
  | _ => false

def findCutPoint (entries : List SessionTreeEntry) (startIndex endIndex : Nat)
    (keepRecentTokens : Int) : CutPointResult :=
  match findValidCutPoints entries startIndex endIndex with
  | [] => { firstKeptEntryIndex := startIndex, turnStartIndex := none, isSplitTurn := false }
  | first :: rest =>
      let cutIndex := includeMetadata entries startIndex
        (budgetCut entries startIndex keepRecentTokens (first :: rest) first endIndex 0)
      let isUserMessage := entries[cutIndex]?.any isUserMessage
      let turnStartIndex :=
        if isUserMessage then none else findTurnStartIndex entries startIndex cutIndex
      { firstKeptEntryIndex := cutIndex
        turnStartIndex
        isSplitTurn := !isUserMessage && turnStartIndex.isSome }

/-! ## The preparation -/

/-- `summary` and `firstKeptEntryId` of a compaction. -/
def compaction? (entry : SessionTreeEntry) : Option CompactionEntry :=
  match entry.body with
  | .entry body => SessionEntry.compaction? ⟨entry.id, entry.parentId, entry.timestamp, body⟩
  | _ => none

/-- The last compaction, where the summarized span starts. -/
def compactionBoundary (entries : List SessionTreeEntry) : Option CompactionEntry × Nat :=
  match entries.reverse.findIdx? isCompaction with
  | none => (none, 0)
  | some fromEnd =>
      let prevCompactionIndex := entries.length - 1 - fromEnd
      match entries[prevCompactionIndex]?.bind compaction? with
      | none => (none, 0)
      | some c =>
          (some c, (entries.findIdx? (fun e => e.id = c.firstKeptEntryId)).getD
            (prevCompactionIndex + 1))

def messagesBetween (entries : List SessionTreeEntry) (i j : Nat) : List AgentMessage :=
  (slice entries i j).filterMap getMessageFromEntryForCompaction

/-- `messagesToSummarize` for a cut point. -/
def historyMessages (entries : List SessionTreeEntry) (boundaryStart : Nat)
    (cutPoint : CutPointResult) : List AgentMessage :=
  messagesBetween entries boundaryStart (historyEnd cutPoint)

/-- `turnPrefixMessages` for a cut point. -/
def turnPrefix (entries : List SessionTreeEntry) (cutPoint : CutPointResult) :
    List AgentMessage :=
  if cutPoint.isSplitTurn then
    messagesBetween entries (historyEnd cutPoint) cutPoint.firstKeptEntryIndex
  else []

def prepareCompaction (pathEntries : List SessionTreeEntry) (settings : CompactionSettings) :
    Except CompactionError (Option CompactionPreparation) :=
  if pathEntries.isEmpty || pathEntries.getLast?.any isCompaction then .ok none
  else
    let prevCompaction := (compactionBoundary pathEntries).1
    let boundaryStart := (compactionBoundary pathEntries).2
    let context := HarnessSession.buildSessionContext .default pathEntries
    let cutPoint :=
      findCutPoint pathEntries boundaryStart pathEntries.length settings.keepRecentTokens
    match (pathEntries[cutPoint.firstKeptEntryIndex]?).filter (fun e => truthy e.id) with
    | none => .error missingId
    | some firstKeptEntry =>
        let messagesToSummarize := historyMessages pathEntries boundaryStart cutPoint
        let turnPrefixMessages := turnPrefix pathEntries cutPoint
        .ok (some
          { firstKeptEntryId := firstKeptEntry.id
            messagesToSummarize
            turnPrefixMessages
            isSplitTurn := cutPoint.isSplitTurn
            tokensBefore := (estimateContextTokens context.messages).tokens
            previousSummary := prevCompaction.map (·.summary)
            fileOps :=
              turnPrefixMessages.foldl extractFileOpsFromMessage
                (extractFileOperations messagesToSummarize prevCompaction)
            settings })

/-! ## Compacting -/

def SUMMARIZATION_SYSTEM_PROMPT : String := "\n".intercalate
  [ "你是一个上下文摘要助手。你的任务是阅读用户和 AI 助手之间的对话，然后按照下面指定的格式生成结构化摘要。",
    "",
    "不要继续对话。不要回应对话中的任何问题。只输出结构化摘要。" ]

def SUMMARIZATION_PROMPT : String := "\n".intercalate
  [ "以上是待摘要的对话。创建一个结构化的上下文检查点摘要，另一个 LLM 将用它来继续工作。",
    "",
    "请严格使用以下格式：",
    "",
    "## 目标",
    "[用户想要完成什么？如果会话涵盖多个任务，可列出多项。]",
    "",
    "## 约束与偏好",
    "- [用户提到的任何约束、偏好或需求]",
    "- [如果没有则写\"（无）\"]",
    "",
    "## 进度",
    "### 已完成",
    "- [x] [已完成的任务/变更]",
    "",
    "### 进行中",
    "- [ ] [当前工作]",
    "",
    "### 阻塞",
    "- [阻碍进展的问题（如有）]",
    "",
    "## 关键决策",
    "- **[决策]**：[简要理由]",
    "",
    "## 后续步骤",
    "1. [接下来应该做什么的有序列表]",
    "",
    "## 关键上下文",
    "- [继续工作所需的数据、示例或引用]",
    "- [如不适用则写\"（无）\"]",
    "",
    "每个部分保持简洁。保留精确的文件路径、函数名和错误消息。" ]

def UPDATE_SUMMARIZATION_PROMPT : String := "\n".intercalate
  [ "以上是新的对话消息，需要整合到 <previous-summary> 标签中提供的已有摘要中。",
    "",
    "用新信息更新已有的结构化摘要。规则：",
    "- 保留已有摘要中的所有现有信息",
    "- 从新消息中添加新的进度、决策和上下文",
    "- 更新进度部分：完成后将项目从\"进行中\"移至\"已完成\"",
    "- 根据已完成的内容更新\"后续步骤\"",
    "- 保留精确的文件路径、函数名和错误消息",
    "- 如果某内容已不再相关，可以移除",
    "",
    "请严格使用以下格式：",
    "",
    "## 目标",
    "[保留已有目标，如果任务扩展了则添加新目标]",
    "",
    "## 约束与偏好",
    "- [保留已有的，添加新发现的]",
    "",
    "## 进度",
    "### 已完成",
    "- [x] [包含之前已完成的项目和新完成的项目]",
    "",
    "### 进行中",
    "- [ ] [当前工作 - 根据进展更新]",
    "",
    "### 阻塞",
    "- [当前的阻塞项 - 如果已解决则移除]",
    "",
    "## 关键决策",
    "- **[决策]**：[简要理由]（保留所有之前的决策，添加新的）",
    "",
    "## 后续步骤",
    "1. [根据当前状态更新]",
    "",
    "## 关键上下文",
    "- [保留重要的上下文，如有需要添加新的]",
    "",
    "每个部分保持简洁。保留精确的文件路径、函数名和错误消息。" ]

def TURN_PREFIX_SUMMARIZATION_PROMPT : String := "\n".intercalate
  [ "这是因过长而无法保留的一轮对话的 PREFIX（前缀）。SUFFIX（后缀，即最近的工作）已被保留。",
    "",
    "摘要前缀部分，为保留的后缀提供上下文：",
    "",
    "## 原始请求",
    "[用户在本轮中要求了什么？]",
    "",
    "## 早期进展",
    "- [前缀中的关键决策和已完成工作]",
    "",
    "## 后缀上下文",
    "- [理解保留的后续工作所需的信息]",
    "",
    "保持简洁。聚焦于理解保留的后缀所需的内容。" ]

def texts : SummaryTexts where
  system := SUMMARIZATION_SYSTEM_PROMPT
  summarization := SUMMARIZATION_PROMPT
  update := UPDATE_SUMMARIZATION_PROMPT
  additionalFocus := "\n\n额外关注点："
  turnPrefix := TURN_PREFIX_SUMMARIZATION_PROMPT

/-- The error of `generateSummary` and of `generateTurnPrefixSummary`. -/
def failure (label : String) (response : AssistantMessage) : Option CompactionError :=
  let errorMessage := response.errorMessage.filter truthy
  match response.stopReason with
  | .aborted => some ⟨.aborted, errorMessage.getD (label ++ " aborted")⟩
  | .error =>
      some ⟨.summarizationFailed, label ++ " failed: " ++ errorMessage.getD "Unknown error"⟩
  | _ => none

def summarizer (complete : SummarizationRequest → Except CompactionError AssistantMessage) :
    Summarizer CompactionError :=
  ⟨texts, complete, failure⟩

def compact (complete : SummarizationRequest → Except CompactionError AssistantMessage)
    (preparation : CompactionPreparation) (options : SummaryOptions) :
    Compacted CompactionError :=
  if truthy preparation.firstKeptEntryId then
    compactWith (summarizer complete) preparation options
  else ⟨[], .error missingId⟩

end HarnessCompaction

end Eagent
