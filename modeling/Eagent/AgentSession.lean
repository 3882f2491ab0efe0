import Eagent.Agent
import Eagent.Calls
import Eagent.Machine
import Eagent.SessionManager

/-!
# The agent session

`AgentSession` as a machine. Every `await` ends a step: a call under way is
the point at which it waits, and between two of its steps any other call may
be made or go on.

The agent loop is left free within what it keeps to: it first reports the
messages it was given or has drained; then it emits messages of its own,
drains a queue or ends. A message is what the redaction of the final output
and the extensions have made of it. Listeners and the session file do not
fail, and extension handlers that throw are reported, not rethrown.
-/

namespace Eagent

/-! ## Calls and where they wait -/

/-- `streamingBehavior`, and `deliverAs` of a custom message. -/
inductive StreamingBehavior where
  | steer
  | followUp
deriving Repr, DecidableEq

inductive DeliverAs where
  | streaming (behavior : StreamingBehavior)
  | nextTurn
deriving Repr, DecidableEq

/-- The arguments of `prompt`, the text already expanded. An `intercepted`
one is first given to an extension command or to the `input` handlers. -/
structure PromptRequest where
  text : String
  images : List ContentBlock
  streamingBehavior : Option StreamingBehavior
  intercepted : Bool
deriving Repr, DecidableEq

/-- What `_checkCompaction` decides. -/
inductive CompactionCheck where
  | skip
  | threshold
  | overflow (willRetry : Bool)
deriving Repr, DecidableEq

/-- Where `_checkCompaction` waits: before it decides, for the summary, for
the notification of `session_compact`. -/
inductive CompactionPoint where
  | deciding
  | summarizing (willRetry : Bool)
  | announcing (willRetry : Bool)
deriving Repr, DecidableEq

/-- What a compaction appends. -/
structure CompactionData where
  summary : String
  firstKeptEntryId : String
  tokensBefore : Nat
  details : Option Json
  fromExtension : Bool
deriving Repr, DecidableEq

/-- Where a call of the session waits. -/
inductive SessionPoint where
  /-- `prompt`: for an extension command or the `input` handlers -/
  | intercepting (request : PromptRequest)
  | checkingAuth (request : PromptRequest)
  /-- for the compaction check before a prompt -/
  | checking (request : PromptRequest) (point : CompactionPoint)
  /-- for the `before_agent_start` handlers; `queued` were next-turn messages -/
  | startingHook (message : AgentMessage) (queued : List AgentMessage)
  /-- `_runAgentPrompt`: for the loop, which has still to report `pending` -/
  | running (pending : List AgentMessage)
  /-- for the handler of a `message_end`, up to its append -/
  | handling (message : AgentMessage) (pending : List AgentMessage)
  /-- the agent's promise is fulfilled -/
  | returned
  /-- the agent's promise is rejected -/
  | rejected
  /-- for the delay of a retry -/
  | retrying
  /-- for the compaction check after a run -/
  | compacting (point : CompactionPoint)
  /-- the check asks for no continuation -/
  | checked
  /-- `_handlePostAgentRun` has returned -/
  | decided (continues : Bool)
  /-- for the extensions' `agent_settled` handlers -/
  | settling
  /-- `compact`: for the idle promise, the summary, the notification -/
  | aborting (promise : Option Nat)
  | summarizing
  | announcing
  /-- `executeBash`: for the command -/
  | executing
  /-- `abort` and `waitForIdle`: for the idle promise -/
  | waiting (promise : Nat)
deriving Repr, DecidableEq

structure SessionCall where
  id : Nat
  point : SessionPoint
deriving Repr, DecidableEq

/-- How what a call waits for goes on. -/
inductive SessionAwaited where
  | ok
  | failed
  /-- the command or a handler has handled the input -/
  | handled
  | continued (text : String) (images : List ContentBlock)
  /-- `before_agent_start` returns messages -/
  | messages (messages : List CustomMessage)
  /-- the loop reports the next pending message -/
  | reports
  /-- the loop emits the `message_end` of a message of its own -/
  | emits (message : AgentMessage)
  | polls (queue : QueueKind)
  | ends
  /-- the last message is an error to retry -/
  | retries
  | checks (check : CompactionCheck)
  | compacted (compaction : CompactionData)
  | finished (result : BashExecutionMessage)
deriving Repr, DecidableEq

/-! ## The session -/

/-- What persists a message after redaction; messages of other roles are
persisted elsewhere. -/
def AgentMessage.persistedBody : AgentMessage → Option EntryBody
  | .custom m => some (.customMessage m.customType (some m.content) m.display m.details)
  | .user m => some (.message (.user m))
  | .assistant m => some (.message (.assistant m))
  | .toolResult m => some (.message (.toolResult m))
  | _ => none

/-- The redaction hook `beforePersist` keeps the role of a message, as far
as it decides whether and how the message is persisted. -/
structure SessionConfig where
  model : Option LoopModel
  hasConfiguredAuth : Bool
  redactBeforePersist : AgentMessage → AgentMessage
  keepsRole : ∀ m, (redactBeforePersist m).persistedBody.isSome = m.persistedBody.isSome

inductive NoticeKind where
  | agentSettledToExtensions
  | agentSettled
  | idle
deriving Repr, DecidableEq

/-- Something told to the outside, and whether a run was active then, by the
session's flag or by the agent. -/
structure SessionNotice where
  kind : NoticeKind
  runActive : Bool
deriving Repr, DecidableEq

/-- What happened so far: the notices, the prompts for which
`preflightResult(true)` was reported, the messages handed to the session for
the agent, those of them the loop has reported, all messages whose
`message_end` it emitted, those the handler has appended, with the entries,
and the assistant messages removed from the transcript for a retry. -/
structure SessionHistory where
  notices : List SessionNotice := []
  accepted : List AgentMessage := []
  given : List AgentMessage := []
  entered : List AgentMessage := []
  emitted : List AgentMessage := []
  saves : List (AgentMessage × SessionEntry) := []
  removed : List AssistantMessage := []
deriving Repr, DecidableEq

/-- The fields of `AgentSession` and of its agent. `activeRun` is the call
whose run is active, `connected` says whether the session is subscribed to
the agent, and an idle promise is its number. -/
structure AgentSession where
  config : SessionConfig
  messages : List AgentMessage
  steeringQueue : PendingMessageQueue
  followUpQueue : PendingMessageQueue
  activeRun : Option Nat
  isAgentRunActive : Bool
  idleWaitPromise : Option Nat
  nextPromise : Nat
  pendingNextTurnMessages : List AgentMessage
  pendingBashMessages : List BashExecutionMessage
  connected : Bool
  lastAssistantMessage : Option AssistantMessage
  sessionManager : SessionManager
  history : SessionHistory

/-- The environment of a step draws fresh ids. -/
structure FreshEnv where
  env : Env
  fresh : env.Fresh

namespace AgentSession

variable (s : AgentSession)

def new (config : SessionConfig) (steeringMode followUpMode : QueueMode)
    (sessionManager : SessionManager) (messages : List AgentMessage) : AgentSession where
  config
  messages
  steeringQueue := ⟨[], steeringMode⟩
  followUpQueue := ⟨[], followUpMode⟩
  activeRun := none
  isAgentRunActive := false
  idleWaitPromise := none
  nextPromise := 0
  pendingNextTurnMessages := []
  pendingBashMessages := []
  connected := true
  lastAssistantMessage := none
  sessionManager
  history := {}

def notice (kind : NoticeKind) : AgentSession :=
  { s with history := { s.history with
      notices := s.history.notices ++ [⟨kind, s.isAgentRunActive || s.activeRun.isSome⟩] } }

/-- `preflightResult(true)` for a prompt with this message. -/
def accept (message : AgentMessage) : AgentSession :=
  { s with history := { s.history with accepted := s.history.accepted ++ [message] } }

def give (messages : List AgentMessage) : AgentSession :=
  { s with history := { s.history with given := s.history.given ++ messages } }

/-- `agent.steer` and `agent.followUp`. -/
def enqueue (behavior : StreamingBehavior) (message : AgentMessage) : AgentSession :=
  match behavior with
  | .steer => { s.give [message] with steeringQueue := s.steeringQueue.enqueue message }
  | .followUp => { s.give [message] with followUpQueue := s.followUpQueue.enqueue message }

def hasQueuedMessages : Bool := s.steeringQueue.hasItems || s.followUpQueue.hasItems

def appendDirectly (env : Env) (message : AgentMessage) : AgentSession :=
  { s with
    messages := s.messages ++ [message]
    sessionManager := (s.sessionManager.appendMessage env message).manager }

def appendCustom (env : Env) (m : CustomMessage) : AgentSession :=
  { s with
    messages := s.messages ++ [.custom m]
    sessionManager := (s.sessionManager.appendCustomMessageEntry env m.customType m.content
      m.display m.details).manager }

def recordBashResult (env : Env) (result : BashExecutionMessage) : AgentSession :=
  if s.isAgentRunActive then
    { s with pendingBashMessages := s.pendingBashMessages ++ [result] }
  else s.appendDirectly env (.bashExecution result)

def flushPendingBashMessages (env : Env) : AgentSession :=
  { s.pendingBashMessages.foldl (fun s m => s.appendDirectly env (.bashExecution m)) s with
    pendingBashMessages := [] }

/-! ### Settling -/

def resolveIdleWaitIfIdle : AgentSession :=
  if s.isAgentRunActive then s
  else match s.idleWaitPromise with
    | none => s
    | some _ => { s.notice .idle with idleWaitPromise := none }

/-- The `finally` of `_runAgentPrompt`, up to the `await` in
`_emitAgentSettled`. -/
def settle (env : Env) : AgentSession :=
  { s.flushPendingBashMessages env with isAgentRunActive := false }.notice
    .agentSettledToExtensions

/-- The rest of `_emitAgentSettled`. -/
def settled : AgentSession := (s.notice .agentSettled).resolveIdleWaitIfIdle

/-- `waitForIdle`: the promise to wait for, unless the session is idle. -/
def waitForIdle : AgentSession × Option Nat :=
  if !s.isAgentRunActive then (s.notice .idle, none)
  else match s.idleWaitPromise with
    | some promise => (s, some promise)
    | none =>
        ({ s with idleWaitPromise := some s.nextPromise, nextPromise := s.nextPromise + 1 },
          some s.nextPromise)

/-! ### Running the agent -/

/-- `_runAgentPrompt` up to its first `await`: `agent.prompt` throws while a
run is active. -/
def runAgentPrompt (id : Nat) (messages : List AgentMessage) : AgentSession × SessionPoint :=
  if s.activeRun.isSome then ({ s with isAgentRunActive := true }, .rejected)
  else ({ s with isAgentRunActive := true, activeRun := some id }, .running messages)

/-- `agent.continue` up to its first `await`. -/
def continueRun (id : Nat) : AgentSession × SessionPoint :=
  if s.activeRun.isSome then (s, .rejected)
  else match s.messages.getLast? with
    | none => (s, .rejected)
    | some last =>
        if !last.isAssistant then ({ s with activeRun := some id }, .running [])
        else match s.steeringQueue.drain with
          | (m :: ms, queue) =>
              ({ s with steeringQueue := queue, activeRun := some id }, .running (m :: ms))
          | ([], _) => match s.followUpQueue.drain with
            | (m :: ms, queue) =>
                ({ s with followUpQueue := queue, activeRun := some id }, .running (m :: ms))
            | ([], _) => (s, .rejected)

/-- `processEvents` for a `message_end`, up to the first `await` of the
session's handler, which is not called while the session is disconnected. -/
def messageEnd (message : AgentMessage) (pending : List AgentMessage) :
    AgentSession × SessionPoint :=
  ({ s with
    messages := s.messages ++ [message]
    history := { s.history with emitted := s.history.emitted ++ [message] } },
   if s.connected then .handling message pending else .running pending)

/-- The end of the handler of a `message_end`. -/
def persist (env : Env) (message : AgentMessage) : AgentSession :=
  let s := match message with
    | .assistant m => { s with lastAssistantMessage := some m }
    | _ => s
  match (s.config.redactBeforePersist message).persistedBody with
  | none => s
  | some body =>
      let entry := s.sessionManager.nextEntry env body
      { s with
        sessionManager := (s.sessionManager.appendEntry entry).manager
        history := { s.history with saves := s.history.saves ++ [(message, entry)] } }

def pollQueue (queue : QueueKind) : AgentSession × List AgentMessage :=
  match queue with
  | .steering =>
      ({ s with steeringQueue := s.steeringQueue.drain.2 }, s.steeringQueue.drain.1)
  | .followUp =>
      ({ s with followUpQueue := s.followUpQueue.drain.2 }, s.followUpQueue.drain.1)

/-! ### Compaction -/

def removeLastAssistant : AgentSession :=
  match s.messages.getLast? with
  | some (.assistant m) =>
      { s with
        messages := s.messages.dropLast
        history := { s.history with removed := s.history.removed ++ [m] } }
  | _ => s

def removeLastError : AgentSession :=
  match s.messages.getLast? with
  | some (.assistant m) => if m.stopReason = .error then s.removeLastAssistant else s
  | _ => s

/-- The compaction is appended, and the transcript becomes the context of
the session. -/
def installCompaction (env : Env) (c : CompactionData) : Option AgentSession :=
  let manager := (s.sessionManager.appendCompaction env c.summary c.firstKeptEntryId
    c.tokensBefore c.details (some c.fromExtension)).manager
  manager.buildSessionContext.map fun context =>
    { s with sessionManager := manager, messages := context.messages }

/-- `_checkCompaction` from one `await` to the next: where it waits then, or
what it returns. -/
def resumeCompaction (env : Env) (point : CompactionPoint) (outcome : SessionAwaited) :
    Option (AgentSession × (CompactionPoint ⊕ Bool)) :=
  match point, outcome with
  | .deciding, .checks .skip => some (s, .inr false)
  | .deciding, .checks .threshold => some (s, .inl (.summarizing false))
  | .deciding, .checks (.overflow false) => some (s, .inl (.summarizing false))
  | .deciding, .checks (.overflow true) =>
      some (s.removeLastAssistant, .inl (.summarizing true))
  | .summarizing _, .failed => some (s, .inr false)
  | .summarizing willRetry, .compacted c =>
      (s.installCompaction env c).map fun s => (s, .inl (.announcing willRetry))
  | .announcing true, .ok => some (s.removeLastError, .inr true)
  | .announcing false, .ok => some (s, .inr s.hasQueuedMessages)
  | _, _ => none

end AgentSession

/-! ## A prompt before its run -/

/-- The user message of `prompt`, `_queueSteer` and `_queueFollowUp`. -/
def PromptRequest.message (r : PromptRequest) (now : Nat) : AgentMessage :=
  .user ⟨some (.blocks (.text r.text :: r.images)), now⟩

namespace AgentSession

variable (s : AgentSession)

def buildMessages (r : PromptRequest) (now : Nat) : AgentSession × SessionPoint :=
  ({ s with pendingNextTurnMessages := [] },
    .startingHook (r.message now) s.pendingNextTurnMessages)

/-- `prompt` from the compaction check on. -/
def promptAuthorized (r : PromptRequest) (now : Nat) : AgentSession × SessionPoint :=
  if s.messages.any AgentMessage.isAssistant then (s, .checking r .deciding)
  else s.buildMessages r now

/-- `prompt` from the test for streaming on; no point is left when it has
returned or thrown. -/
def promptExpanded (env : Env) (r : PromptRequest) (now : Nat) :
    AgentSession × Option SessionPoint :=
  if s.isAgentRunActive then
    match r.streamingBehavior with
    | none => (s, none)
    | some behavior => ((s.enqueue behavior (r.message now)).accept (r.message now), none)
  else
    let s := s.flushPendingBashMessages env
    match s.config.model with
    | none => (s, none)
    | some _ =>
        if s.config.hasConfiguredAuth then
          let next := s.promptAuthorized r now
          (next.1, some next.2)
        else (s, some (.checkingAuth r))

end AgentSession

/-! ## A call from one `await` to the next -/

/-- The messages a loop emits of its own. -/
def AgentMessage.isResponse : AgentMessage → Bool
  | .assistant _ => true
  | .toolResult _ => true
  | _ => false

/-- What a call does when what it waits for goes on; no point is left when
it has returned or thrown. -/
def SessionPoint.resume (s : AgentSession) (env : Env) (now id : Nat) (point : SessionPoint)
    (outcome : SessionAwaited) : Option (AgentSession × Option SessionPoint) :=
  match point, outcome with
  | .intercepting _, .handled => some (s, none)
  | .intercepting r, .continued text images =>
      some (s.promptExpanded env { r with text, images } now)
  | .checkingAuth _, .failed => some (s, none)
  | .checkingAuth r, .ok =>
      let next := s.promptAuthorized r now
      some (next.1, some next.2)
  | .checking r point, outcome =>
      (s.resumeCompaction env point outcome).map fun next =>
        match next.2 with
        | .inl point => (next.1, some (.checking r point))
        | .inr _ =>
            let built := next.1.buildMessages r now
            (built.1, some built.2)
  | .startingHook message queued, .messages messages =>
      let messages := messages.map AgentMessage.custom
      let next := ((s.accept message).give (message :: messages)).runAgentPrompt id
        (message :: queued ++ messages)
      some (next.1, some next.2)
  | .running (message :: pending), .reports =>
      let next := { s with history := { s.history with
        entered := s.history.entered ++ [message] } }.messageEnd message pending
      some (next.1, some next.2)
  | .running [], .emits message =>
      if message.isResponse then
        let next := s.messageEnd message []
        some (next.1, some next.2)
      else none
  | .running [], .polls queue =>
      let next := s.pollQueue queue
      some (next.1, some (.running next.2))
  | .running [], .ends => some ({ s with activeRun := none }, some .returned)
  | .handling message pending, .ok => some (s.persist env message, some (.running pending))
  | .returned, .retries =>
      match s.lastAssistantMessage with
      | none => none
      | some m =>
          if m.stopReason = .error then
            some ({ s.removeLastAssistant with lastAssistantMessage := none }, some .retrying)
          else none
  | .returned, .ok =>
      match s.lastAssistantMessage with
      | none => some (s, some (.decided false))
      | some _ => some ({ s with lastAssistantMessage := none }, some (.compacting .deciding))
  | .retrying, .ok => some (s, some (.decided true))
  | .retrying, .failed => some (s, some (.compacting .deciding))
  | .compacting point, outcome =>
      (s.resumeCompaction env point outcome).map fun next =>
        match next.2 with
        | .inl point => (next.1, some (.compacting point))
        | .inr true => (next.1, some (.decided true))
        | .inr false => (next.1, some .checked)
  | .checked, .ok => some (s, some (.decided s.hasQueuedMessages))
  | .decided true, .ok =>
      let next := s.continueRun id
      some (next.1, some next.2)
  | .decided false, .ok => some (s.settle env, some .settling)
  | .rejected, .ok => some (s.settle env, some .settling)
  | .settling, .ok => some (s.settled, none)
  | .aborting promise, .ok =>
      if promise.isSome && s.idleWaitPromise = promise then none else some (s, some .summarizing)
  | .summarizing, .failed => some ({ s with connected := true }, none)
  | .summarizing, .compacted c => (s.installCompaction env c).map fun s => (s, some .announcing)
  | .announcing, .ok => some ({ s with connected := true }, none)
  | .executing, .finished result => some (s.recordBashResult env result, none)
  | .executing, .failed => some (s, none)
  | .waiting promise, .ok => if s.idleWaitPromise = some promise then none else some (s, none)
  | _, _ => none

/-! ## The session with the calls under way -/

inductive SessionCommand where
  | prompt (request : PromptRequest)
  | queue (behavior : StreamingBehavior) (text : String) (images : List ContentBlock)
  | sendCustomMessage (message : CustomMessage) (deliverAs : Option DeliverAs)
      (triggerTurn : Bool)
  | executeBash
  | compact
  | abort
  | waitForIdle
deriving Repr, DecidableEq

namespace AgentSession

variable (s : AgentSession)

def sendCustomMessage (env : Env) (id : Nat) (m : CustomMessage) (deliverAs : Option DeliverAs)
    (triggerTurn : Bool) : AgentSession × Option SessionPoint :=
  match deliverAs with
  | some .nextTurn =>
      ({ s.give [.custom m] with
        pendingNextTurnMessages := s.pendingNextTurnMessages ++ [.custom m] }, none)
  | _ =>
      if s.isAgentRunActive then
        match deliverAs with
        | some (.streaming .followUp) => (s.enqueue .followUp (.custom m), none)
        | _ => (s.enqueue .steer (.custom m), none)
      else if triggerTurn then
        let next := (s.give [.custom m]).runAgentPrompt id [.custom m]
        (next.1, some next.2)
      else (s.appendCustom env m, none)

/-- A call up to its first `await`. -/
def begin (env : Env) (now id : Nat) : SessionCommand → AgentSession × Option SessionPoint
  | .prompt r =>
      if r.intercepted then (s, some (.intercepting r)) else s.promptExpanded env r now
  | .queue behavior text images =>
      (s.enqueue behavior (PromptRequest.message ⟨text, images, none, false⟩ now), none)
  | .sendCustomMessage m deliverAs triggerTurn =>
      s.sendCustomMessage env id m deliverAs triggerTurn
  | .executeBash => (s, some .executing)
  | .compact =>
      let next := { s with connected := false }.waitForIdle
      (next.1, some (.aborting next.2))
  | .abort | .waitForIdle =>
      let next := s.waitForIdle
      (next.1, next.2.map .waiting)

end AgentSession

structure AgentSessionState where
  session : AgentSession
  calls : List SessionCall := []
  nextId : Nat := 0

inductive AgentSessionAction where
  | call (env : FreshEnv) (now : Nat) (command : SessionCommand)
  | resume (env : FreshEnv) (now index : Nat) (outcome : SessionAwaited)

namespace AgentSessionState

def step (s : AgentSessionState) : AgentSessionAction → Option AgentSessionState
  | .call env now command =>
      let next := s.session.begin env.env now s.nextId command
      some
        { session := next.1
          calls := s.calls ++ (next.2.map (SessionCall.mk s.nextId)).toList
          nextId := s.nextId + 1 }
  | .resume env now index outcome => do
      let call ← s.calls[index]?
      let next ← call.point.resume s.session env.env now call.id outcome
      return { s with
        session := next.1
        calls := replaceAt s.calls index (next.2.map (SessionCall.mk call.id)) }

end AgentSessionState

end Eagent
