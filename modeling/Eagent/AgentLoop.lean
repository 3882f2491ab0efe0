import Eagent.Interaction
import Eagent.Message

/-!
# The agent loop

`runLoop` and the functions it calls, as interactive programs: hooks,
tools, the model stream and the event sink are effects, and so are the
reads and writes of the two lists the source mutates in place
(`currentContext.messages` and `newMessages`). The event sink does not
throw.

`LoopWorld` is the heap of a run together with the log of what it did;
`LoopWorld.after` gives each effect its meaning there.
-/

namespace Eagent

open Interaction

/-! ## Tools -/

inductive ToolExecutionMode where
  | sequential
  | parallel
deriving Repr, DecidableEq

/-- A tool's declaration. `validate` is `validateToolArguments` on its
schema; running the tool is an effect. -/
structure AgentTool where
  name : String
  executionMode : Option ToolExecutionMode
  prepareArguments : Option (Json → Except String Json)
  validate : Json → Except String Json

structure AgentToolResult where
  content : Option (List ContentBlock)
  details : Option Json
  addedToolNames : List String := []
  terminate : Option Bool := none
deriving Repr, DecidableEq

structure AgentContext where
  systemPrompt : String
  messages : List AgentMessage
  tools : List AgentTool

structure BeforeToolCallResult where
  block : Option Bool
  reason : Option String
  arguments : Option Json
deriving Repr, DecidableEq

structure AfterToolCallResult where
  content : Option (List ContentBlock)
  details : Option Json
  isError : Option Bool
  terminate : Option Bool
deriving Repr, DecidableEq

structure PreparedToolCall where
  toolCall : ToolCall
  tool : AgentTool
  args : Json

structure ExecutedToolCallOutcome where
  result : AgentToolResult
  isError : Bool
deriving Repr, DecidableEq

/-- `PreparedToolCall | ImmediateToolCallOutcome`. -/
inductive Preparation where
  | prepared (call : PreparedToolCall)
  | immediate (outcome : ExecutedToolCallOutcome)

structure FinalizedToolCallOutcome where
  toolCall : ToolCall
  result : AgentToolResult
  isError : Bool
deriving Repr, DecidableEq

/-- A finalized call, or the closure that will execute it. -/
inductive FinalizedToolCallEntry where
  | done (finalized : FinalizedToolCallOutcome)
  | deferred (preparation : PreparedToolCall)

structure ExecutedToolCallBatch where
  messages : List ToolResultMessage
  terminate : Bool
deriving Repr, DecidableEq

/-! ## Events -/

inductive StreamEventKind where
  | textStart | textDelta | textEnd
  | thinkingStart | thinkingDelta | thinkingEnd
  | toolcallStart | toolcallDelta | toolcallEnd
deriving Repr, DecidableEq

/-- `AssistantMessageEvent`: `done` and `error` close the stream. -/
inductive StreamEvent where
  | start (partialMessage : AssistantMessage)
  | update (kind : StreamEventKind) (partialMessage : AssistantMessage)
  | done
  | error
deriving Repr, DecidableEq

inductive AgentEvent where
  | agentStart
  | agentEnd (messages : List AgentMessage)
  | turnStart
  | turnEnd (message : AssistantMessage) (toolResults : List ToolResultMessage)
  | messageStart (message : AgentMessage)
  | messageUpdate (message : AgentMessage) (kind : StreamEventKind)
  | messageEnd (message : AgentMessage)
  | toolExecutionStart (toolCallId toolName : String) (args : Json)
  | toolExecutionUpdate (toolCallId toolName : String) (args : Json)
      (partialResult : AgentToolResult)
  | toolExecutionEnd (toolCallId toolName : String) (result : AgentToolResult) (isError : Bool)
deriving Repr, DecidableEq

/-! ## Configuration -/

structure LoopModel where
  provider : String
  id : String
deriving Repr, DecidableEq

/-- The options of a run; the flags say which hooks are installed. -/
structure AgentLoopConfig where
  model : LoopModel
  reasoning : Option String
  apiKey : Option String
  toolExecution : Option ToolExecutionMode
  transformContext : Bool
  getApiKey : Bool
  beforeToolCall : Bool
  afterToolCall : Bool

/-- `AgentLoopTurnUpdate`. -/
structure AgentLoopTurnUpdate where
  context : Option AgentContext
  model : Option LoopModel
  thinkingLevel : Option String

structure LlmContext where
  systemPrompt : String
  messages : List AgentMessage
  tools : List AgentTool

/-! ## Effects -/

inductive ToolProgress where
  | update (partialResult : AgentToolResult)
  | returned (result : AgentToolResult)
  | threw (message : String)
deriving Repr, DecidableEq

inductive LoopEffect where
  | emit (event : AgentEvent)
  | readContext
  | pushContext (message : AgentMessage)
  | replaceLastContext (message : AgentMessage)
  | setContext (context : AgentContext)
  | readNewMessages
  | pushNewMessage (message : AgentMessage)
  | isAborted
  | dateNow
  | getSteeringMessages
  | getFollowUpMessages
  | transformContext (messages : List AgentMessage)
  | convertToLlm (messages : List AgentMessage)
  | getApiKey (provider : String)
  | streamFunction (model : LoopModel) (context : LlmContext) (apiKey : Option String)
      (reasoning : Option String)
  | nextStreamEvent
  | streamResult
  | beforeToolCall (assistantMessage : AssistantMessage) (toolCall : ToolCall) (args : Json)
  | execute (tool : AgentTool) (toolCallId : String) (args : Json)
  | toolProgress (toolCallId : String)
  | afterToolCall (assistantMessage : AssistantMessage) (toolCall : ToolCall) (args : Json)
      (result : AgentToolResult) (isError : Bool)
  | prepareNextTurn (message : AssistantMessage) (toolResults : List ToolResultMessage)
  | shouldStopAfterTurn (message : AssistantMessage) (toolResults : List ToolResultMessage)

/-- Answers; an exception where the effect may throw. `beforeToolCall` also
says what it left in the arguments object it was given. -/
def LoopAnswer : LoopEffect → Type
  | .emit _ => Unit
  | .readContext => AgentContext
  | .pushContext _ => Unit
  | .replaceLastContext _ => Unit
  | .setContext _ => Unit
  | .readNewMessages => List AgentMessage
  | .pushNewMessage _ => Unit
  | .isAborted => Bool
  | .dateNow => Nat
  | .getSteeringMessages => Except String (List AgentMessage)
  | .getFollowUpMessages => Except String (List AgentMessage)
  | .transformContext _ => Except String (List AgentMessage)
  | .convertToLlm _ => Except String (List AgentMessage)
  | .getApiKey _ => Except String (Option String)
  | .streamFunction .. => Except String Unit
  | .nextStreamEvent => Except String (Option StreamEvent)
  | .streamResult => Except String AssistantMessage
  | .beforeToolCall .. => Except String (Option BeforeToolCallResult × Json)
  | .execute .. => Unit
  | .toolProgress _ => ToolProgress
  | .afterToolCall .. => Except String (Option AfterToolCallResult)
  | .prepareNextTurn .. => Except String (Option AgentLoopTurnUpdate)
  | .shouldStopAfterTurn .. => Except String Bool

abbrev LoopM := Act LoopEffect LoopAnswer

/-- An effect that may throw. -/
def attempt {α : Type} (e : LoopEffect) (answer : LoopAnswer e → Except String α) : LoopM α := do
  let a ← Act.perform e
  Act.ofExcept (answer a)

def emit (event : AgentEvent) : LoopM Unit := Act.perform (LoopEffect.emit event)

def readContext : LoopM AgentContext := Act.perform LoopEffect.readContext

def pushContext (message : AgentMessage) : LoopM Unit :=
  Act.perform (LoopEffect.pushContext message)

def replaceLastContext (message : AgentMessage) : LoopM Unit :=
  Act.perform (LoopEffect.replaceLastContext message)

def setContext (context : AgentContext) : LoopM Unit :=
  Act.perform (LoopEffect.setContext context)

def readNewMessages : LoopM (List AgentMessage) := Act.perform LoopEffect.readNewMessages

def pushNewMessage (message : AgentMessage) : LoopM Unit :=
  Act.perform (LoopEffect.pushNewMessage message)

def isAborted : LoopM Bool := Act.perform LoopEffect.isAborted

def dateNow : LoopM Nat := Act.perform LoopEffect.dateNow

def execute (tool : AgentTool) (toolCallId : String) (args : Json) : LoopM Unit :=
  Act.perform (LoopEffect.execute tool toolCallId args)

def toolProgress (toolCallId : String) : LoopM ToolProgress :=
  Act.perform (LoopEffect.toolProgress toolCallId)

def getSteeringMessages : LoopM (List AgentMessage) :=
  attempt LoopEffect.getSteeringMessages fun a => a

def getFollowUpMessages : LoopM (List AgentMessage) :=
  attempt LoopEffect.getFollowUpMessages fun a => a

/-! ## Streaming -/

/-- The end of `streamAssistantResponse`: the final message replaces the
partial one, or is added with its own `message_start`. -/
def finishStream (addedPartial : Bool) : LoopM AssistantMessage := do
  let finalMessage ← attempt LoopEffect.streamResult fun a => a
  if addedPartial then
    replaceLastContext (.assistant finalMessage)
    emit (.messageEnd (.assistant finalMessage))
    pure finalMessage
  else
    pushContext (.assistant finalMessage)
    emit (.messageStart (.assistant finalMessage))
    emit (.messageEnd (.assistant finalMessage))
    pure finalMessage

/-- The `for await` loop; `addedPartial` once a partial message is in the
context. -/
def readStream : Nat → Bool → LoopM AssistantMessage
  | 0, _ => Act.outOfFuel
  | fuel + 1, addedPartial => do
      let event ← attempt LoopEffect.nextStreamEvent fun a => a
      match event with
      | none => finishStream addedPartial
      | some (.start partialMessage) =>
          pushContext (.assistant partialMessage)
          emit (.messageStart (.assistant partialMessage))
          readStream fuel true
      | some (.update kind partialMessage) =>
          if addedPartial then
            replaceLastContext (.assistant partialMessage)
            emit (.messageUpdate (.assistant partialMessage) kind)
            readStream fuel true
          else readStream fuel false
      | some .done => finishStream addedPartial
      | some .error => finishStream addedPartial

/-- `(getApiKey ? await getApiKey(provider) : undefined) || apiKey`. -/
def resolveApiKey (config : AgentLoopConfig) : LoopM (Option String) :=
  if config.getApiKey then do
    let key ← attempt (LoopEffect.getApiKey config.model.provider) fun a => a
    pure ((key.filter fun k => k ≠ "").or config.apiKey)
  else pure config.apiKey

def transformMessages (config : AgentLoopConfig) (messages : List AgentMessage) :
    LoopM (List AgentMessage) :=
  if config.transformContext then attempt (LoopEffect.transformContext messages) fun a => a
  else pure messages

def streamAssistantResponse (fuel : Nat) (config : AgentLoopConfig) :
    LoopM AssistantMessage := do
  let context ← readContext
  let messages ← transformMessages config context.messages
  let llmMessages ← attempt (LoopEffect.convertToLlm messages) fun a => a
  let resolvedApiKey ← resolveApiKey config
  let _ ← attempt (LoopEffect.streamFunction config.model
    ⟨context.systemPrompt, llmMessages, context.tools⟩ resolvedApiKey config.reasoning)
    fun a => a
  readStream fuel false

/-! ## Tool results -/

def createErrorToolResult (message : String) : AgentToolResult :=
  { content := some [.text message], details := some (.obj []) }

def emitToolExecutionEnd (finalized : FinalizedToolCallOutcome) : LoopM Unit :=
  emit (.toolExecutionEnd finalized.toolCall.id finalized.toolCall.name finalized.result
    finalized.isError)

def createToolResultMessage (finalized : FinalizedToolCallOutcome) : LoopM ToolResultMessage := do
  let timestamp ← dateNow
  pure
    { toolCallId := finalized.toolCall.id
      toolName := finalized.toolCall.name
      content := some (finalized.result.content.getD [])
      details := finalized.result.details
      addedToolNames := finalized.result.addedToolNames
      isError := finalized.isError
      timestamp }

def emitToolResultMessage (message : ToolResultMessage) : LoopM Unit := do
  emit (.messageStart (.toolResult message))
  emit (.messageEnd (.toolResult message))

def shouldTerminateToolBatch (finalizedCalls : List FinalizedToolCallOutcome) : Bool :=
  !finalizedCalls.isEmpty && finalizedCalls.all fun f => f.result.terminate = some true

/-! ## Truncated messages -/

def truncatedToolCall (toolCall : ToolCall) : FinalizedToolCallOutcome :=
  { toolCall
    result := createErrorToolResult ("Tool call \"" ++ toolCall.name
      ++ "\" was not executed: the response hit the output token limit, so its arguments may "
      ++ "be truncated. Re-issue the tool call with complete arguments.")
    isError := true }

def failToolCalls : List ToolCall → LoopM (List ToolResultMessage)
  | [] => pure []
  | toolCall :: rest => do
      emit (.toolExecutionStart toolCall.id toolCall.name toolCall.arguments)
      emitToolExecutionEnd (truncatedToolCall toolCall)
      let message ← createToolResultMessage (truncatedToolCall toolCall)
      emitToolResultMessage message
      let messages ← failToolCalls rest
      pure (message :: messages)

def failToolCallsFromTruncatedMessage (toolCalls : List ToolCall) :
    LoopM ExecutedToolCallBatch := do
  let messages ← failToolCalls toolCalls
  pure ⟨messages, false⟩

/-! ## Preparing, executing and finalizing a call -/

def prepareToolCallArguments (tool : AgentTool) (toolCall : ToolCall) :
    Except String ToolCall :=
  match tool.prepareArguments with
  | none => .ok toolCall
  | some prepare => (prepare toolCall.arguments).map fun args =>
      { toolCall with arguments := args }

def validateToolArguments (tool : AgentTool) (toolCall : ToolCall) : Except String Json :=
  tool.validate toolCall.arguments

def immediateError (message : String) : Preparation :=
  .immediate ⟨createErrorToolResult message, true⟩

/-- The end of `prepareToolCall`: one more look at the signal. -/
def preparedUnlessAborted (call : PreparedToolCall) : LoopM Preparation := do
  let aborted ← isAborted
  pure (if aborted then immediateError "Operation aborted" else .prepared call)

/-- What `prepareToolCall` makes of the hook's result and the arguments
object the hook left. -/
def applyBeforeToolCall (tool : AgentTool) (toolCall : ToolCall)
    (beforeResult : Option BeforeToolCallResult) (validatedArgs : Json) : LoopM Preparation :=
  match beforeResult with
  | none => preparedUnlessAborted ⟨toolCall, tool, validatedArgs⟩
  | some before =>
      if before.block = some true then
        pure (immediateError
          ((before.reason.filter fun r => r ≠ "").getD "Tool execution was blocked"))
      else match before.arguments with
        | none => preparedUnlessAborted ⟨toolCall, tool, validatedArgs⟩
        | some arguments => do
            let effectiveToolCall := { toolCall with arguments }
            let rewrittenArgs ← Act.ofExcept (validateToolArguments tool effectiveToolCall)
            preparedUnlessAborted ⟨effectiveToolCall, tool, rewrittenArgs⟩

/-- The body of the `try` in `prepareToolCall`. -/
def prepareKnownToolCall (assistantMessage : AssistantMessage) (toolCall : ToolCall)
    (config : AgentLoopConfig) (tool : AgentTool) : LoopM Preparation := do
  let preparedToolCall ← Act.ofExcept (prepareToolCallArguments tool toolCall)
  let validatedArgs ← Act.ofExcept (validateToolArguments tool preparedToolCall)
  if config.beforeToolCall then
    let (beforeResult, validatedArgs) ←
      attempt (LoopEffect.beforeToolCall assistantMessage toolCall validatedArgs) fun a => a
    let aborted ← isAborted
    if aborted then pure (immediateError "Operation aborted")
    else applyBeforeToolCall tool preparedToolCall beforeResult validatedArgs
  else preparedUnlessAborted ⟨preparedToolCall, tool, validatedArgs⟩

def prepareToolCall (assistantMessage : AssistantMessage) (toolCall : ToolCall)
    (config : AgentLoopConfig) : LoopM Preparation := do
  let context ← readContext
  match context.tools.find? fun t => t.name = toolCall.name with
  | none => pure (immediateError ("Tool " ++ toolCall.name ++ " not found"))
  | some tool =>
      Act.tryCatch (prepareKnownToolCall assistantMessage toolCall config tool)
        fun message => pure (immediateError message)

def awaitTool (prepared : PreparedToolCall) : Nat → LoopM ExecutedToolCallOutcome
  | 0 => Act.outOfFuel
  | fuel + 1 => do
      let progress ← toolProgress prepared.toolCall.id
      match progress with
      | .update partialResult =>
          emit (.toolExecutionUpdate prepared.toolCall.id prepared.toolCall.name
            prepared.toolCall.arguments partialResult)
          awaitTool prepared fuel
      | .returned result => pure ⟨result, false⟩
      | .threw message => pure ⟨createErrorToolResult message, true⟩

def executePreparedToolCall (fuel : Nat) (prepared : PreparedToolCall) :
    LoopM ExecutedToolCallOutcome := do
  execute prepared.tool prepared.toolCall.id prepared.args
  awaitTool prepared fuel

def mergeAfterToolCall (executed : ExecutedToolCallOutcome)
    (afterResult : Option AfterToolCallResult) : ExecutedToolCallOutcome :=
  match afterResult with
  | none => executed
  | some after =>
      { result := { executed.result with
          content := after.content.or executed.result.content
          details := after.details.or executed.result.details
          terminate := after.terminate.or executed.result.terminate }
        isError := after.isError.getD executed.isError }

/-- The hook after the call, where one is installed. -/
def runAfterToolCall (assistantMessage : AssistantMessage) (prepared : PreparedToolCall)
    (executed : ExecutedToolCallOutcome) (config : AgentLoopConfig) :
    LoopM ExecutedToolCallOutcome :=
  if config.afterToolCall then
    Act.tryCatch
      (do
        let afterResult ← attempt (LoopEffect.afterToolCall assistantMessage
          prepared.toolCall prepared.args executed.result executed.isError) fun a => a
        pure (mergeAfterToolCall executed afterResult))
      fun message => pure ⟨createErrorToolResult message, true⟩
  else pure executed

def finalizeExecutedToolCall (assistantMessage : AssistantMessage)
    (prepared : PreparedToolCall) (executed : ExecutedToolCallOutcome)
    (config : AgentLoopConfig) : LoopM FinalizedToolCallOutcome := do
  let outcome ← runAfterToolCall assistantMessage prepared executed config
  pure ⟨prepared.toolCall, outcome.result, outcome.isError⟩

/-! ## Executing a batch -/

def runPreparedToolCall (fuel : Nat) (assistantMessage : AssistantMessage)
    (config : AgentLoopConfig) (prepared : PreparedToolCall) : LoopM FinalizedToolCallOutcome := do
  let executed ← executePreparedToolCall fuel prepared
  finalizeExecutedToolCall assistantMessage prepared executed config

def finalizeToolCall (fuel : Nat) (assistantMessage : AssistantMessage)
    (config : AgentLoopConfig) (toolCall : ToolCall) :
    Preparation → LoopM FinalizedToolCallOutcome
  | .immediate outcome => pure ⟨toolCall, outcome.result, outcome.isError⟩
  | .prepared call => runPreparedToolCall fuel assistantMessage config call

def executeSequentially (fuel : Nat) (assistantMessage : AssistantMessage)
    (config : AgentLoopConfig) :
    List ToolCall → LoopM (List (FinalizedToolCallOutcome × ToolResultMessage))
  | [] => pure []
  | toolCall :: rest => do
      emit (.toolExecutionStart toolCall.id toolCall.name toolCall.arguments)
      let preparation ← prepareToolCall assistantMessage toolCall config
      let finalized ← finalizeToolCall fuel assistantMessage config toolCall preparation
      emitToolExecutionEnd finalized
      let message ← createToolResultMessage finalized
      emitToolResultMessage message
      let aborted ← isAborted
      if aborted then pure [(finalized, message)]
      else do
        let more ← executeSequentially fuel assistantMessage config rest
        pure ((finalized, message) :: more)

def executeToolCallsSequential (fuel : Nat) (assistantMessage : AssistantMessage)
    (toolCalls : List ToolCall) (config : AgentLoopConfig) : LoopM ExecutedToolCallBatch := do
  let calls ← executeSequentially fuel assistantMessage config toolCalls
  pure ⟨calls.map (·.2), shouldTerminateToolBatch (calls.map (·.1))⟩

def enterToolCall (toolCall : ToolCall) : Preparation → LoopM FinalizedToolCallEntry
  | .immediate outcome => do
      emitToolExecutionEnd ⟨toolCall, outcome.result, outcome.isError⟩
      pure (.done ⟨toolCall, outcome.result, outcome.isError⟩)
  | .prepared call => pure (.deferred call)

/-- The first loop of `executeToolCallsParallel`: prepare the calls in
order. -/
def startToolCalls (assistantMessage : AssistantMessage) (config : AgentLoopConfig) :
    List ToolCall → LoopM (List FinalizedToolCallEntry)
  | [] => pure []
  | toolCall :: rest => do
      emit (.toolExecutionStart toolCall.id toolCall.name toolCall.arguments)
      let preparation ← prepareToolCall assistantMessage toolCall config
      let entry ← enterToolCall toolCall preparation
      let aborted ← isAborted
      if aborted then pure [entry]
      else do
        let more ← startToolCalls assistantMessage config rest
        pure (entry :: more)

/-- What `Promise.all` waits for. -/
def settleEntry (fuel : Nat) (assistantMessage : AssistantMessage) (config : AgentLoopConfig) :
    FinalizedToolCallEntry → LoopM FinalizedToolCallOutcome
  | .done finalized => pure finalized
  | .deferred prepared => do
      let finalized ← runPreparedToolCall fuel assistantMessage config prepared
      emitToolExecutionEnd finalized
      pure finalized

def emitToolResults : List FinalizedToolCallOutcome → LoopM (List ToolResultMessage)
  | [] => pure []
  | finalized :: rest => do
      let message ← createToolResultMessage finalized
      emitToolResultMessage message
      let messages ← emitToolResults rest
      pure (message :: messages)

def executeToolCallsParallel (fuel : Nat) (assistantMessage : AssistantMessage)
    (toolCalls : List ToolCall) (config : AgentLoopConfig) : LoopM ExecutedToolCallBatch := do
  let finalizedCalls ← startToolCalls assistantMessage config toolCalls
  let orderedFinalizedCalls ←
    Act.all fuel (finalizedCalls.map (settleEntry fuel assistantMessage config))
  let messages ← emitToolResults orderedFinalizedCalls
  pure ⟨messages, shouldTerminateToolBatch orderedFinalizedCalls⟩

def executeToolCalls (fuel : Nat) (assistantMessage : AssistantMessage)
    (config : AgentLoopConfig) : LoopM ExecutedToolCallBatch := do
  let context ← readContext
  let toolCalls := assistantMessage.toolCalls
  let hasSequentialToolCall := toolCalls.any fun tc =>
    ((context.tools.find? fun t => t.name = tc.name).bind (·.executionMode)) = some .sequential
  if config.toolExecution = some .sequential || hasSequentialToolCall then
    executeToolCallsSequential fuel assistantMessage toolCalls config
  else executeToolCallsParallel fuel assistantMessage toolCalls config

/-! ## The loop -/

def injectPending : List AgentMessage → LoopM Unit
  | [] => pure ()
  | message :: rest => do
      emit (.messageStart message)
      emit (.messageEnd message)
      pushContext message
      pushNewMessage message
      injectPending rest

def pushToolResults : List ToolResultMessage → LoopM Unit
  | [] => pure ()
  | result :: rest => do
      pushContext (.toolResult result)
      pushNewMessage (.toolResult result)
      pushToolResults rest

def executeToolBatch (fuel : Nat) (message : AssistantMessage) (config : AgentLoopConfig) :
    LoopM ExecutedToolCallBatch :=
  if message.stopReason = .length then failToolCallsFromTruncatedMessage message.toolCalls
  else executeToolCalls fuel message config

def runToolBatch (fuel : Nat) (message : AssistantMessage) (config : AgentLoopConfig) :
    LoopM (List ToolResultMessage × Bool) :=
  if message.toolCalls.isEmpty then pure ([], false)
  else do
    let executedToolBatch ← executeToolBatch fuel message config
    pushToolResults executedToolBatch.messages
    pure (executedToolBatch.messages, !executedToolBatch.terminate)

def updateConfig (config : AgentLoopConfig) (update : AgentLoopTurnUpdate) : AgentLoopConfig :=
  { config with
    model := update.model.getD config.model
    reasoning := match update.thinkingLevel with
      | none => config.reasoning
      | some level => if level = "off" then none else some level }

/-- Take over what `prepareNextTurn` returned. -/
def applyTurnUpdate (config : AgentLoopConfig) :
    Option AgentLoopTurnUpdate → LoopM AgentLoopConfig
  | none => pure config
  | some update =>
      match update.context with
      | none => pure (updateConfig config update)
      | some context => do
          setContext context
          pure (updateConfig config update)

def endRun : LoopM Unit := do
  let messages ← readNewMessages
  emit (.agentEnd messages)

/-- The first turn's `turn_start` was emitted outside the loop. -/
def startTurn (firstTurn : Bool) : LoopM Unit :=
  if firstTurn then pure () else emit .turnStart

/-- The two nested loops: a round of the inner one while there are tool
calls or pending messages, else the poll of the outer one. -/
def loopRounds : Nat → Bool → AgentLoopConfig → Bool → List AgentMessage → LoopM Unit
  | 0, _, _, _, _ => Act.outOfFuel
  | fuel + 1, firstTurn, config, hasMoreToolCalls, pendingMessages =>
      if hasMoreToolCalls || !pendingMessages.isEmpty then do
        startTurn firstTurn
        injectPending pendingMessages
        let message ← streamAssistantResponse fuel config
        pushNewMessage (.assistant message)
        if message.stopReason = .error || message.stopReason = .aborted then do
          emit (.turnEnd message [])
          endRun
        else do
          let (toolResults, hasMoreToolCalls) ← runToolBatch fuel message config
          emit (.turnEnd message toolResults)
          let update ← attempt (LoopEffect.prepareNextTurn message toolResults) fun a => a
          let config ← applyTurnUpdate config update
          let stop ← attempt (LoopEffect.shouldStopAfterTurn message toolResults) fun a => a
          if stop then endRun
          else do
            let pendingMessages ← getSteeringMessages
            loopRounds fuel false config hasMoreToolCalls pendingMessages
      else do
        let followUpMessages ← getFollowUpMessages
        if followUpMessages.isEmpty then endRun
        else loopRounds fuel firstTurn config true followUpMessages

def runLoop (fuel : Nat) (config : AgentLoopConfig) : LoopM Unit := do
  let pendingMessages ← getSteeringMessages
  loopRounds fuel true config true pendingMessages

def emitPrompts : List AgentMessage → LoopM Unit
  | [] => pure ()
  | prompt :: rest => do
      emit (.messageStart prompt)
      emit (.messageEnd prompt)
      emitPrompts rest

def pushPrompts : List AgentMessage → LoopM Unit
  | [] => pure ()
  | prompt :: rest => do
      pushNewMessage prompt
      pushContext prompt
      pushPrompts rest

/-- The prompts join the context, a copy of the caller's, before anything
is emitted. -/
def runAgentLoop (fuel : Nat) (prompts : List AgentMessage) (config : AgentLoopConfig) :
    LoopM (List AgentMessage) := do
  pushPrompts prompts
  emit .agentStart
  emit .turnStart
  emitPrompts prompts
  runLoop fuel config
  readNewMessages

def runAgentLoopContinue (fuel : Nat) (config : AgentLoopConfig) :
    LoopM (List AgentMessage) := do
  let context ← readContext
  match context.messages.getLast? with
  | none => Act.throw "Cannot continue: no messages in context"
  | some last =>
      if last.isAssistant then Act.throw "Cannot continue from message role: assistant"
      else do
        emit .agentStart
        emit .turnStart
        runLoop fuel config
        readNewMessages

/-- The two entry points. -/
inductive LoopCall where
  | prompt (prompts : List AgentMessage)
  | continuation
deriving Repr, DecidableEq

namespace LoopCall

def prompts : LoopCall → List AgentMessage
  | .prompt prompts => prompts
  | .continuation => []

def run (fuel : Nat) (config : AgentLoopConfig) : LoopCall → LoopM (List AgentMessage)
  | .prompt prompts => runAgentLoop fuel prompts config
  | .continuation => runAgentLoopContinue fuel config

end LoopCall

/-! ## The world of a run -/

/-- What a run did: an event, a message appended to `newMessages`, messages
taken at a poll, or the abort signal seen set. -/
inductive Observation where
  | event (event : AgentEvent)
  | append (message : AgentMessage)
  | polled (messages : List AgentMessage)
  | aborted
deriving Repr, DecidableEq

/-- The heap of a run, its log, and what is remembered of the environment:
whether the signal was set, whether the current stream has sent a `start`,
whether none has sent a second one, and whether `prepareNextTurn` never
replaced the context. -/
structure LoopWorld where
  context : AgentContext
  newMessages : List AgentMessage
  log : List Observation
  aborted : Bool
  streamStarted : Bool
  startsOnce : Bool
  contextKept : Bool

namespace LoopWorld

def initial (context : AgentContext) (newMessages : List AgentMessage) : LoopWorld :=
  { context, newMessages, log := [], aborted := false, streamStarted := false
    startsOnce := true, contextKept := true }

def setMessages (w : LoopWorld) (messages : List AgentMessage) : LoopWorld :=
  { w with context := { w.context with messages } }

def record (w : LoopWorld) (o : Observation) : LoopWorld := { w with log := w.log ++ [o] }

def after (w : LoopWorld) : (e : LoopEffect) → LoopAnswer e → LoopWorld
  | .emit event, _ => w.record (.event event)
  | .pushContext message, _ => w.setMessages (w.context.messages ++ [message])
  | .replaceLastContext message, _ => w.setMessages (w.context.messages.dropLast ++ [message])
  | .setContext context, _ => { w with context }
  | .pushNewMessage message, _ =>
      { w.record (.append message) with newMessages := w.newMessages ++ [message] }
  | .isAborted, (aborted : Bool) =>
      if aborted then { w.record .aborted with aborted := true } else w
  | .getSteeringMessages, (.ok messages : Except String (List AgentMessage)) =>
      w.record (.polled messages)
  | .getFollowUpMessages, (.ok messages : Except String (List AgentMessage)) =>
      w.record (.polled messages)
  | .streamFunction .., _ => { w with streamStarted := false }
  | .nextStreamEvent, (.ok (some (.start _)) : Except String (Option StreamEvent)) =>
      { w with streamStarted := true, startsOnce := w.startsOnce && !w.streamStarted }
  | .prepareNextTurn .., (.ok (some update) : Except String (Option AgentLoopTurnUpdate)) =>
      { w with contextKept := w.contextKept && update.context.isNone }
  | _, _ => w

/-- The answers the heap and the signal allow: reads return what is stored,
a set signal stays set. -/
def Legal (w : LoopWorld) : (e : LoopEffect) → LoopAnswer e → Prop
  | .readContext, (context : AgentContext) => context = w.context
  | .readNewMessages, (messages : List AgentMessage) => messages = w.newMessages
  | .isAborted, (aborted : Bool) => w.aborted = true → aborted = true
  | _, _ => True

def Env (w : LoopWorld) (e : LoopEffect) (a : LoopAnswer e) (w' : LoopWorld) : Prop :=
  w.Legal e a ∧ w' = w.after e a

/-- A simple environment: the model streams `responses` without partial
messages, a tool returns `result`, no hook intervenes, nothing is queued. -/
def scripted (responses : List AssistantMessage) (result : AgentToolResult) (w : LoopWorld) :
    (e : LoopEffect) → LoopAnswer e
  | .emit _ => ()
  | .readContext => w.context
  | .pushContext _ => ()
  | .replaceLastContext _ => ()
  | .setContext _ => ()
  | .readNewMessages => w.newMessages
  | .pushNewMessage _ => ()
  | .isAborted => w.aborted
  | .dateNow => (0 : Nat)
  | .getSteeringMessages => .ok []
  | .getFollowUpMessages => .ok []
  | .transformContext messages => .ok messages
  | .convertToLlm messages => .ok messages
  | .getApiKey _ => .ok none
  | .streamFunction .. => .ok ()
  | .nextStreamEvent => .ok (some .done)
  | .streamResult =>
      match responses[(w.newMessages.filter AgentMessage.isAssistant).length]? with
      | some message => .ok message
      | none => .error "no response"
  | .beforeToolCall _ _ args => .ok (none, args)
  | .execute .. => ()
  | .toolProgress _ => .returned result
  | .afterToolCall .. => .ok none
  | .prepareNextTurn .. => .ok none
  | .shouldStopAfterTurn .. => .ok false

theorem scripted_env (responses : List AssistantMessage) (result : AgentToolResult)
    (w : LoopWorld) (e : LoopEffect) :
    Env w e (w.scripted responses result e) (w.after e (w.scripted responses result e)) := by
  refine ⟨?_, rfl⟩
  cases e with
  | readContext => exact rfl
  | readNewMessages => exact rfl
  | isAborted => exact id
  | _ => trivial

end LoopWorld

/-- The configurations a run of a program can reach. -/
def LoopReaches {α : Type} (w : LoopWorld) (p : LoopM α)
    (c : LoopWorld × Prog LoopEffect LoopAnswer (Except Failure α)) : Prop :=
  Relation.ReflTransGen (Prog.Step LoopWorld.Env) (w, p) c

def driveLoop {α : Type} (responses : List AssistantMessage) (result : AgentToolResult)
    (p : LoopM α) (w : LoopWorld) : LoopWorld × Except Failure α :=
  Prog.drive (fun w e => w.scripted responses result e) LoopWorld.after p w

theorem driveLoop_reaches {α : Type} (responses : List AssistantMessage)
    (result : AgentToolResult) (p : LoopM α) (w : LoopWorld) :
    LoopReaches w p ((driveLoop responses result p w).1, .ret (driveLoop responses result p w).2) :=
  Prog.drive_reaches (fun w e => w.scripted_env responses result e) p w

end Eagent
