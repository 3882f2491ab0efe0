import Eagent.Agent
import Eagent.Calls
import Eagent.JsonlStorage
import Eagent.Machine

/-!
# The agent harness

`AgentHarness` as a machine. Every `await` ends a step: an operation is the
point at which it waits, and between two of its steps any other call may be
made, by a listener of the event it emits or by anyone else.

The agent loop is left free. It may emit any event, drain a queue, prepare
the next turn or throw at any point; `agent_end` is its last event. An
append to the session takes effect when it is done, or fails and has none.
-/

namespace Eagent

/-! ## Errors, phases, configuration -/

inductive AgentHarnessErrorCode where
  | busy | invalidState | invalidArgument
deriving Repr, DecidableEq

structure AgentHarnessError where
  code : AgentHarnessErrorCode
  message : String
deriving Repr, DecidableEq

inductive AgentHarnessPhase where
  | idle | turn | compaction | branchSummary | retry
deriving Repr, DecidableEq

/-- `SessionTreeEntry` without its generated fields. -/
abbrev PendingSessionWrite := TreeEntryBody

/-- What setters change and the session records. -/
structure HarnessConfig where
  model : LoopModel
  thinkingLevel : String
  tools : List String
  activeToolNames : List String
deriving Repr, DecidableEq

def findDuplicateNames (names : List String) : List String :=
  (names.foldl (fun (seen, duplicates) name =>
    if name ∈ seen then (seen, if name ∈ duplicates then duplicates else duplicates ++ [name])
    else (seen ++ [name], duplicates)) (([], []) : List String × List String)).2

def validateUniqueNames (names : List String) (message : String) : Except AgentHarnessError Unit :=
  match findDuplicateNames names with
  | [] => .ok ()
  | duplicates => .error ⟨.invalidArgument, message ++ ": " ++ ", ".intercalate duplicates⟩

def validateToolNames (toolNames tools : List String) : Except AgentHarnessError Unit := do
  validateUniqueNames toolNames "Duplicate active tool name(s)"
  match toolNames.filter fun name => name ∉ tools with
  | [] => .ok ()
  | missing => .error ⟨.invalidArgument, "Unknown tool(s): " ++ ", ".intercalate missing⟩

/-- The setters and `appendMessage`: the calls that ask for a session write. -/
inductive WriteRequest where
  | appendMessage (message : AgentMessage)
  | setModel (model : LoopModel)
  | setThinkingLevel (level : String)
  | setTools (tools : List String) (activeToolNames : Option (List String))
  | setActiveTools (toolNames : List String)
deriving Repr, DecidableEq

/-- What a request changes in the configuration once its write is made. -/
inductive ConfigUpdate where
  | none
  | model (model : LoopModel)
  | thinkingLevel (level : String)
  | tools (tools activeToolNames : List String)
  | activeTools (activeToolNames : List String)
deriving Repr, DecidableEq

def HarnessConfig.update (c : HarnessConfig) : ConfigUpdate → HarnessConfig
  | .none => c
  | .model model => { c with model }
  | .thinkingLevel thinkingLevel => { c with thinkingLevel }
  | .tools tools activeToolNames => { c with tools, activeToolNames }
  | .activeTools activeToolNames => { c with activeToolNames }

def WriteRequest.write (c : HarnessConfig) :
    WriteRequest → Except AgentHarnessError (PendingSessionWrite × ConfigUpdate)
  | .appendMessage message => .ok (.entry (.message message), .none)
  | .setModel model => .ok (.entry (.modelChange model.provider model.id), .model model)
  | .setThinkingLevel level => .ok (.entry (.thinkingLevelChange level), .thinkingLevel level)
  | .setTools tools activeToolNames => do
      validateUniqueNames tools "Duplicate tool name(s)"
      let nextActiveToolNames := activeToolNames.getD c.activeToolNames
      validateToolNames nextActiveToolNames tools
      return (.activeToolsChange nextActiveToolNames, .tools tools nextActiveToolNames)
  | .setActiveTools toolNames => do
      validateToolNames toolNames c.tools
      return (.activeToolsChange toolNames, .activeTools toolNames)

def createUserMessage (text : String) (images : List ContentBlock) (now : Nat) : AgentMessage :=
  .user ⟨some (.blocks (.text text :: images)), now⟩

/-! ## The shared state -/

/-- An entry of the session: asked for by a caller of the harness, or the
harness's own (a message of the run, a compaction, a move of the leaf). -/
inductive SessionWrite where
  | requested (write : PendingSessionWrite)
  | own (write : TreeEntryBody)
deriving Repr, DecidableEq

/-- The fields of `AgentHarness`, and what they refer to: the arrays of the
queues, the session, the signals that are aborted. `delivered` records
the queued messages that were handed to a run. -/
structure AgentHarness where
  phase : AgentHarnessPhase
  runAbortController : Option Nat
  runPromise : Option Nat
  pendingSessionWrites : List PendingSessionWrite
  config : HarnessConfig
  steerQueue : Nat
  steeringQueueMode : QueueMode
  followUpQueue : Nat
  followUpQueueMode : QueueMode
  nextTurnQueue : List AgentMessage
  arrays : Nat → List AgentMessage
  nextArray : Nat
  session : List SessionWrite
  aborted : List Nat
  delivered : List AgentMessage

namespace AgentHarness

def new (config : HarnessConfig) (steeringQueueMode followUpQueueMode : QueueMode)
    (session : List TreeEntryBody) : AgentHarness where
  phase := .idle
  runAbortController := none
  runPromise := none
  pendingSessionWrites := []
  config
  steerQueue := 0
  steeringQueueMode
  followUpQueue := 1
  followUpQueueMode
  nextTurnQueue := []
  arrays := fun _ => []
  nextArray := 2
  session := session.map .own
  aborted := []
  delivered := []

def setArray (h : AgentHarness) (queue : Nat) (messages : List AgentMessage) : AgentHarness :=
  { h with arrays := fun i => if i = queue then messages else h.arrays i }

end AgentHarness

/-! ## Operations -/

/-- Who called `handleAgentEvent`: the loop, with its last event or another
one, or `emitRunFailure`, with the events it still has to report. -/
inductive EventCaller where
  | loop (last : Bool)
  | failure (rest : List AgentEvent)
deriving Repr, DecidableEq

/-- Who called `flushPendingSessionWrites`. -/
inductive FlushCaller where
  | turnEnd (caller : EventCaller) (eventError : Option String)
  | agentEnd (caller : EventCaller)
  | prepareNextTurn
  | cleanup (threw : Bool)
deriving Repr, DecidableEq

inductive Invocation where
  | prompt (text : String) (images : List ContentBlock)
  | skill (name : String)
  | promptFromTemplate (name : String)
deriving Repr, DecidableEq

/-- The text of the turn; `resource` is the formatted skill or template of
that name, if there is one. -/
def Invocation.text (resource : Option String) : Invocation → Except AgentHarnessError String
  | .prompt text _ => .ok text
  | .skill name =>
      match resource with
      | some text => .ok text
      | none => .error ⟨.invalidArgument, "Unknown skill: " ++ name⟩
  | .promptFromTemplate name =>
      match resource with
      | some text => .ok text
      | none => .error ⟨.invalidArgument, "Unknown prompt template: " ++ name⟩

def Invocation.images : Invocation → List ContentBlock
  | .prompt _ images => images
  | _ => []

/-- Where a `prompt`, `skill` or `promptFromTemplate` waits. -/
inductive RunPoint where
  /-- for `createTurnState` -/
  | creating (invocation : Invocation)
  /-- for the notification of a drained `nextTurnQueue` -/
  | notifyingNextTurn (queuedMessages : List AgentMessage) (message : AgentMessage)
  /-- for the `before_agent_start` hook -/
  | startingHook (queuedMessages : List AgentMessage) (message : AgentMessage)
  /-- for something the loop does itself -/
  | running
  /-- for the notification in `drainQueuedMessages` -/
  | draining (queue : Nat) (messages : List AgentMessage)
  /-- for the append of a `message_end` -/
  | saving (message : AgentMessage) (caller : EventCaller)
  /-- for the last notification of an event -/
  | emitting (caller : EventCaller)
  | emittingTurnEnd (caller : EventCaller)
  | emittingAgentEnd (caller : EventCaller)
  /-- for the append of the first pending write -/
  | appending (write : PendingSessionWrite) (caller : FlushCaller)
  /-- the write is made and not yet shifted -/
  | appended (write : PendingSessionWrite) (caller : FlushCaller)
  /-- the flush has returned, its caller has not gone on -/
  | flushed (caller : FlushCaller)
  /-- for `createTurnState`, in `prepareNextTurn` -/
  | creatingNext
  /-- the loop has returned, or its failure is reported -/
  | returned
  /-- `executeTurn` has settled -/
  | turnSettled (threw : Bool)
deriving Repr, DecidableEq

/-- `model` is that of the turn state, `prompts` what the loop was started
with; `released` says that the run has reset the phase in its `agent_end`
handler. -/
structure Run where
  point : RunPoint
  model : LoopModel
  prompts : List AgentMessage := []
  released : Bool := false
deriving Repr, DecidableEq

/-- Where a `compact` or `navigateTree` waits. -/
inductive EditPoint where
  /-- for the session, a hook, a summary -/
  | preparing
  /-- for the append of an entry -/
  | saving (entry : TreeEntryBody) (rest : List TreeEntryBody)
  /-- for the notification of `session_compact` or `session_tree` -/
  | announcing
deriving Repr, DecidableEq

inductive OperationState where
  | run (run : Run)
  | edit (point : EditPoint)
deriving Repr, DecidableEq

/-- A structural operation past its busy check. Its run promise and its
abort controller carry its `id`. -/
structure Operation where
  id : Nat
  state : OperationState
deriving Repr, DecidableEq

/-- How what an operation waits for goes on. -/
inductive Awaited where
  | ok
  | failed (error : String)
  /-- `createTurnState` returns -/
  | created (resource : Option String)
  /-- `before_agent_start` returns messages -/
  | messages (messages : List AgentMessage)
  /-- the loop emits an event -/
  | emits (event : AgentEvent)
  | getsSteeringMessages
  | getsFollowUpMessages
  | preparesNextTurn
  /-- the run is over, with or without an assistant message -/
  | assistant (found : Bool)
  /-- what `compact` or `navigateTree` is going to append -/
  | entries (entries : List TreeEntryBody)
deriving Repr, DecidableEq

/-! ## A run from one `await` to the next -/

namespace AgentHarness

/-- `flushPendingSessionWrites` up to its first `await`, or to its end. -/
def flushPendingSessionWrites (h : AgentHarness) (caller : FlushCaller) : RunPoint :=
  match h.pendingSessionWrites with
  | [] => .flushed caller
  | write :: _ => .appending write caller

def handleAgentEvent (h : AgentHarness) (caller : EventCaller) : AgentEvent → RunPoint
  | .messageEnd message => .saving message caller
  | .turnEnd .. => .emittingTurnEnd caller
  | .agentEnd _ => h.flushPendingSessionWrites (.agentEnd caller)
  | _ => .emitting caller

end AgentHarness

def AgentEvent.isAgentEnd : AgentEvent → Bool
  | .agentEnd _ => true
  | _ => false

def createFailureMessage (model : LoopModel) (error : String) (aborted : Bool) (now : Nat) :
    AssistantMessage where
  content := some [.text ""]
  provider := model.provider
  model := model.id
  usage := some ⟨0, 0, 0, 0, 0⟩
  stopReason := if aborted then .aborted else .error
  errorMessage := some error
  timestamp := now

/-- `drainQueuedMessages`, what it splices off and what stays. -/
def QueueMode.splice (mode : QueueMode) (queue : List AgentMessage) :
    List AgentMessage × List AgentMessage :=
  match mode with
  | .all => (queue, [])
  | .oneAtATime => (queue.take 1, queue.drop 1)

namespace Run

def atPoint (r : Run) (point : RunPoint) : Run := { r with point }

/-- The loop has thrown: `emitRunFailure`, up to its first `await`. -/
def loopThrew (r : Run) (h : AgentHarness) (id now : Nat) (error : String) : Run :=
  let failureMessage := createFailureMessage r.model error (id ∈ h.aborted) now
  r.atPoint (h.handleAgentEvent
    (.failure [.messageEnd (.assistant failureMessage), .turnEnd failureMessage [],
      .agentEnd [.assistant failureMessage]])
    (.messageStart (.assistant failureMessage)))

/-- `handleAgentEvent` has returned. -/
def handled (r : Run) (h : AgentHarness) : EventCaller → Run
  | .loop false => r.atPoint .running
  | .loop true => r.atPoint .returned
  | .failure [] => r.atPoint .returned
  | .failure (event :: rest) => r.atPoint (h.handleAgentEvent (.failure rest) event)

/-- `handleAgentEvent` has thrown. -/
def handlerThrew (r : Run) (h : AgentHarness) (id now : Nat) (error : String) :
    EventCaller → Run
  | .loop _ => r.loopThrew h id now error
  | .failure _ => r.atPoint (h.flushPendingSessionWrites (.cleanup true))

/-- `drainQueuedMessages` up to its `await`; an empty drain returns at once. -/
def drainQueuedMessages (r : Run) (h : AgentHarness) (queue : Nat) (mode : QueueMode) :
    AgentHarness × Run :=
  match mode.splice (h.arrays queue) with
  | ([], _) => (h, r)
  | (messages, rest) => (h.setArray queue rest, r.atPoint (.draining queue messages))

/-- `flushPendingSessionWrites` has returned. -/
def flushed (r : Run) (h : AgentHarness) (id now : Nat) : FlushCaller → AgentHarness × Run
  | .turnEnd caller (some error) => (h, r.handlerThrew h id now error caller)
  | .turnEnd caller none => (h, r.atPoint (.emitting caller))
  | .agentEnd caller =>
      ({ h with phase := .idle }, { r with point := .emittingAgentEnd caller, released := true })
  | .prepareNextTurn => (h, r.atPoint .creatingNext)
  | .cleanup threw => ({ h with runAbortController := none }, r.atPoint (.turnSettled threw))

/-- `flushPendingSessionWrites` has thrown. -/
def flushThrew (r : Run) (h : AgentHarness) (id now : Nat) (error : String) :
    FlushCaller → AgentHarness × Run
  | .turnEnd caller _ => (h, r.handlerThrew h id now error caller)
  | .agentEnd caller => (h, r.handlerThrew h id now error caller)
  | .prepareNextTurn => (h, r.loopThrew h id now error)
  | .cleanup _ => ({ h with runAbortController := none }, r.atPoint (.turnSettled true))

/-- The first half of `executeTurn`, up to its first `await`. -/
def executeTurn (r : Run) (h : AgentHarness) (message : AgentMessage) : AgentHarness × Run :=
  match h.nextTurnQueue with
  | [] => (h, r.atPoint (.startingHook [] message))
  | queued => ({ h with nextTurnQueue := [] }, r.atPoint (.notifyingNextTurn queued message))

end Run

namespace AgentHarness

/-- The `catch` of `prompt`, with its `finally`. -/
def promptThrew (h : AgentHarness) : AgentHarness :=
  { h with phase := .idle, runPromise := none }

/-- The `finally` of `prompt`. -/
def promptReturned (h : AgentHarness) : AgentHarness := { h with runPromise := none }

end AgentHarness

/-- A run from one `await` to the next; no run is left when its promise
settles. -/
def Run.resume (h : AgentHarness) (id now : Nat) (r : Run) (outcome : Awaited) :
    Option (AgentHarness × Option Run) :=
  match r.point, outcome with
  | .creating _, .failed _ => some (h.promptThrew, none)
  | .creating invocation, .created resource =>
      match invocation.text resource with
      | .error _ => some (h.promptThrew, none)
      | .ok text =>
          let next := { r with model := h.config.model }.executeTurn h
            (createUserMessage text invocation.images now)
          some (next.1, some next.2)
  | .notifyingNextTurn queuedMessages message, .ok =>
      some (h, some (r.atPoint (.startingHook queuedMessages message)))
  | .notifyingNextTurn queuedMessages _, .failed _ =>
      some ({ h with nextTurnQueue := queuedMessages ++ h.nextTurnQueue },
        some (r.atPoint (.turnSettled true)))
  | .startingHook _ _, .failed _ => some (h, some (r.atPoint (.turnSettled true)))
  | .startingHook queuedMessages message, .messages messages =>
      some ({ h with runAbortController := some id, delivered := h.delivered ++ queuedMessages },
        some { r with point := .running, prompts := queuedMessages ++ [message] ++ messages })
  | .running, .emits event =>
      some (h, some (r.atPoint (h.handleAgentEvent (.loop event.isAgentEnd) event)))
  | .running, .getsSteeringMessages =>
      let next := r.drainQueuedMessages h h.steerQueue h.steeringQueueMode
      some (next.1, some next.2)
  | .running, .getsFollowUpMessages =>
      let next := r.drainQueuedMessages h h.followUpQueue h.followUpQueueMode
      some (next.1, some next.2)
  | .running, .preparesNextTurn =>
      some (h, some (r.atPoint (h.flushPendingSessionWrites .prepareNextTurn)))
  | .running, .failed error => some (h, some (r.loopThrew h id now error))
  | .draining _ messages, .ok =>
      some ({ h with delivered := h.delivered ++ messages }, some (r.atPoint .running))
  | .draining queue messages, .failed error =>
      let h' := h.setArray queue (messages ++ h.arrays queue)
      some (h', some (r.loopThrew h' id now error))
  | .saving message caller, .ok =>
      some ({ h with session := h.session ++ [.own (.entry (.message message))] },
        some (r.atPoint (.emitting caller)))
  | .saving _ caller, .failed error => some (h, some (r.handlerThrew h id now error caller))
  | .emitting caller, .ok => some (h, some (r.handled h caller))
  | .emitting caller, .failed error => some (h, some (r.handlerThrew h id now error caller))
  | .emittingTurnEnd caller, .ok =>
      some (h, some (r.atPoint (h.flushPendingSessionWrites (.turnEnd caller none))))
  | .emittingTurnEnd caller, .failed error =>
      some (h, some (r.atPoint (h.flushPendingSessionWrites (.turnEnd caller (some error)))))
  | .emittingAgentEnd caller, .ok => some (h, some (r.atPoint (.emitting caller)))
  | .emittingAgentEnd caller, .failed error =>
      some (h, some (r.handlerThrew h id now error caller))
  | .appending write caller, .ok =>
      some ({ h with session := h.session ++ [.requested write] },
        some (r.atPoint (.appended write caller)))
  | .appending _ caller, .failed error =>
      let next := r.flushThrew h id now error caller
      some (next.1, some next.2)
  | .appended _ caller, .ok =>
      let h' := { h with pendingSessionWrites := h.pendingSessionWrites.tail }
      some (h', some (r.atPoint (h'.flushPendingSessionWrites caller)))
  | .flushed caller, .ok =>
      let next := r.flushed h id now caller
      some (next.1, some next.2)
  | .creatingNext, .created _ =>
      some (h, some { r with point := .running, model := h.config.model })
  | .creatingNext, .failed error => some (h, some (r.loopThrew h id now error))
  | .returned, .assistant found =>
      some (h, some (r.atPoint (h.flushPendingSessionWrites (.cleanup !found))))
  | .turnSettled true, .ok => some (h.promptThrew, none)
  | .turnSettled false, .ok => some (h.promptReturned, none)
  | _, _ => none

/-- A `compact` or `navigateTree` from one `await` to the next. -/
def EditPoint.resume (h : AgentHarness) (point : EditPoint) (outcome : Awaited) :
    Option (AgentHarness × Option EditPoint) :=
  match point, outcome with
  | .preparing, .entries (entry :: rest) => some (h, some (.saving entry rest))
  | .preparing, .entries [] => some ({ h with phase := .idle }, none)
  | .preparing, .failed _ => some ({ h with phase := .idle }, none)
  | .saving entry (next :: rest), .ok =>
      some ({ h with session := h.session ++ [.own entry] }, some (.saving next rest))
  | .saving entry [], .ok =>
      some ({ h with session := h.session ++ [.own entry] }, some .announcing)
  | .saving _ _, .failed _ => some ({ h with phase := .idle }, none)
  | .announcing, .ok => some ({ h with phase := .idle }, none)
  | .announcing, .failed _ => some ({ h with phase := .idle }, none)
  | _, _ => none

def Operation.resume (h : AgentHarness) (now : Nat) (op : Operation) (outcome : Awaited) :
    Option (AgentHarness × Option Operation) :=
  match op.state with
  | .run r => (r.resume h op.id now outcome).map fun next =>
      (next.1, next.2.map fun r => ⟨op.id, .run r⟩)
  | .edit point => (point.resume h outcome).map fun next =>
      (next.1, next.2.map fun point => ⟨op.id, .edit point⟩)

/-! ## The harness and the calls under way -/

/-- A write made while the harness is idle, under way. -/
structure DirectWrite where
  write : PendingSessionWrite
  update : ConfigUpdate
deriving Repr, DecidableEq

/-- Where an `abort` waits: for its `queue_update`, for the run promise it
read, for its `abort` event. -/
inductive AbortPoint where
  | notifying
  | waiting (promise : Option Nat)
  | emitting
deriving Repr, DecidableEq

structure Abort where
  clearedSteer : List AgentMessage
  clearedFollowUp : List AgentMessage
  point : AbortPoint
  threw : Bool
deriving Repr, DecidableEq

/-- The harness with the calls under way, each kind in the order of the
calls. `requested`, `queued` and `returned` record the session writes asked
for, the messages queued and those the aborts have returned. -/
structure HarnessState where
  harness : AgentHarness
  operations : List Operation := []
  writes : List DirectWrite := []
  aborts : List Abort := []
  waiters : List (Option Nat) := []
  nextId : Nat := 0
  requested : List PendingSessionWrite := []
  queued : List AgentMessage := []
  returned : List AgentMessage := []

inductive HarnessCall where
  | invoke (invocation : Invocation)
  | compact
  | navigateTree
  | steer (text : String) (images : List ContentBlock) (now : Nat)
  | followUp (text : String) (images : List ContentBlock) (now : Nat)
  | nextTurn (text : String) (images : List ContentBlock) (now : Nat)
  | request (request : WriteRequest)
  | setSteeringMode (mode : QueueMode)
  | setFollowUpMode (mode : QueueMode)
  | abort
  | waitForIdle
deriving Repr, DecidableEq

inductive HarnessAction where
  | call (call : HarnessCall)
  | resume (index now : Nat) (outcome : Awaited)
  | resumeWrite (index : Nat) (done : Bool)
  | resumeAbort (index : Nat) (done : Bool)
  | resumeWaiter (index : Nat)
deriving Repr, DecidableEq

namespace HarnessState

def new (config : HarnessConfig) (steeringQueueMode followUpQueueMode : QueueMode)
    (session : List TreeEntryBody) : HarnessState where
  harness := .new config steeringQueueMode followUpQueueMode session

/-- A harness with one tool and an empty session. -/
def quietHarness : HarnessState :=
  new ⟨⟨"anthropic", "opus"⟩, "off", ["read"], ["read"]⟩ .oneAtATime .oneAtATime []

/-- The busy check of a structural operation, and what it does before its
first `await`. -/
def startRun (s : HarnessState) (invocation : Invocation) : Except AgentHarnessError HarnessState :=
  if s.harness.phase ≠ .idle then .error ⟨.busy, "AgentHarness is busy"⟩
  else .ok { s with
    harness := { s.harness with phase := .turn, runPromise := some s.nextId }
    operations := s.operations ++
      [⟨s.nextId, .run { point := .creating invocation, model := s.harness.config.model }⟩]
    nextId := s.nextId + 1 }

def startEdit (s : HarnessState) (phase : AgentHarnessPhase) (message : String) :
    Except AgentHarnessError HarnessState :=
  if s.harness.phase ≠ .idle then .error ⟨.busy, message⟩
  else .ok { s with
    harness := { s.harness with phase }
    operations := s.operations ++ [⟨s.nextId, .edit .preparing⟩]
    nextId := s.nextId + 1 }

/-- `this.steerQueue.push(…)`, and the same for `followUp`. -/
def push (s : HarnessState) (queue : Nat) (message : AgentMessage) : HarnessState :=
  { s with
    harness := s.harness.setArray queue (s.harness.arrays queue ++ [message])
    queued := s.queued ++ [message] }

def request (s : HarnessState) (request : WriteRequest) : Except AgentHarnessError HarnessState := do
  let (write, update) ← request.write s.harness.config
  let s := { s with requested := s.requested ++ [write] }
  if s.harness.phase = .idle then
    return { s with writes := s.writes ++ [⟨write, update⟩] }
  else
    return { s with
      harness := { s.harness with
        pendingSessionWrites := s.harness.pendingSessionWrites ++ [write]
        config := s.harness.config.update update } }

/-- `abort` up to its first `await`. -/
def startAbort (s : HarnessState) : HarnessState :=
  let h := s.harness
  { s with
    harness := { h with
      steerQueue := h.nextArray
      followUpQueue := h.nextArray + 1
      arrays := fun i => if i = h.nextArray ∨ i = h.nextArray + 1 then [] else h.arrays i
      nextArray := h.nextArray + 2
      aborted := h.runAbortController.toList ++ h.aborted }
    aborts := s.aborts ++ [⟨h.arrays h.steerQueue, h.arrays h.followUpQueue, .notifying, false⟩] }

def call (s : HarnessState) : HarnessCall → Except AgentHarnessError HarnessState
  | .invoke invocation => s.startRun invocation
  | .compact => s.startEdit .compaction "compact() requires idle harness"
  | .navigateTree => s.startEdit .branchSummary "navigateTree() requires idle harness"
  | .steer text images now =>
      if s.harness.phase = .idle then .error ⟨.invalidState, "Cannot steer while idle"⟩
      else .ok (s.push s.harness.steerQueue (createUserMessage text images now))
  | .followUp text images now =>
      if s.harness.phase = .idle then .error ⟨.invalidState, "Cannot follow up while idle"⟩
      else .ok (s.push s.harness.followUpQueue (createUserMessage text images now))
  | .nextTurn text images now =>
      let message := createUserMessage text images now
      .ok { s with
        harness := { s.harness with nextTurnQueue := s.harness.nextTurnQueue ++ [message] }
        queued := s.queued ++ [message] }
  | .request request => s.request request
  | .setSteeringMode mode => .ok { s with harness := { s.harness with steeringQueueMode := mode } }
  | .setFollowUpMode mode => .ok { s with harness := { s.harness with followUpQueueMode := mode } }
  | .abort => .ok s.startAbort
  | .waitForIdle => .ok { s with waiters := s.waiters ++ [s.harness.runPromise] }

def Settled (s : HarnessState) (promise : Option Nat) : Prop :=
  ∀ id ∈ promise, ∀ op ∈ s.operations, op.id ≠ id

instance (s : HarnessState) (promise : Option Nat) : Decidable (s.Settled promise) := by
  unfold Settled
  exact inferInstance

def resumeWrite (s : HarnessState) (index : Nat) (w : DirectWrite) (done : Bool) : HarnessState :=
  if done then
    { s with
      harness := { s.harness with
        session := s.harness.session ++ [.requested w.write]
        config := s.harness.config.update w.update }
      writes := replaceAt s.writes index none }
  else { s with writes := replaceAt s.writes index none }

def resumeAbort (s : HarnessState) (index : Nat) (a : Abort) (done : Bool) : Option HarnessState :=
  match a.point with
  | .notifying =>
      let a' := { a with point := .waiting s.harness.runPromise, threw := !done }
      some { s with aborts := replaceAt s.aborts index (some a') }
  | .waiting promise =>
      if s.Settled promise then
        some { s with aborts := replaceAt s.aborts index (some { a with point := .emitting }) }
      else none
  | .emitting =>
      some { s with
        aborts := replaceAt s.aborts index none
        returned := if done && !a.threw then s.returned ++ a.clearedSteer ++ a.clearedFollowUp
          else s.returned }

def step (s : HarnessState) : HarnessAction → Option HarnessState
  | .call c =>
      match s.call c with
      | .ok s' => some s'
      | .error _ => some s
  | .resume index now outcome => do
      let op ← s.operations[index]?
      let (harness, next) ← op.resume s.harness now outcome
      return { s with harness, operations := replaceAt s.operations index next }
  | .resumeWrite index done => do
      let w ← s.writes[index]?
      return s.resumeWrite index w done
  | .resumeAbort index done => do
      let a ← s.aborts[index]?
      s.resumeAbort index a done
  | .resumeWaiter index => do
      let promise ← s.waiters[index]?
      if s.Settled promise then return { s with waiters := replaceAt s.waiters index none }
      else none

end HarnessState

end Eagent
