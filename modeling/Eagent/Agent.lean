import Eagent.AgentLoop

/-!
# The agent

`Agent` owns the transcript, reduces the events of its loop into its state
and holds the two queues the loop polls. A step is a call from outside,
which may come at any moment, or a step of the loop of the active run;
`AgentAct` is what a step did to the messages.
-/

namespace Eagent

open Interaction

/-! ## Queues -/

inductive QueueMode where
  | all
  | oneAtATime
deriving Repr, DecidableEq

structure PendingMessageQueue where
  messages : List AgentMessage
  mode : QueueMode
deriving Repr, DecidableEq

namespace PendingMessageQueue

def enqueue (q : PendingMessageQueue) (message : AgentMessage) : PendingMessageQueue :=
  { q with messages := q.messages ++ [message] }

def hasItems (q : PendingMessageQueue) : Bool := !q.messages.isEmpty

def drain (q : PendingMessageQueue) : List AgentMessage × PendingMessageQueue :=
  match q.mode with
  | .all => (q.messages, { q with messages := [] })
  | .oneAtATime =>
      match q.messages with
      | [] => ([], q)
      | first :: rest => ([first], { q with messages := rest })

def clear (q : PendingMessageQueue) : PendingMessageQueue := { q with messages := [] }

end PendingMessageQueue

/-! ## State -/

/-- `AgentState`; `pendingToolCalls` is a set kept in insertion order. -/
structure AgentState where
  systemPrompt : String
  model : LoopModel
  thinkingLevel : String
  tools : List AgentTool
  messages : List AgentMessage
  isStreaming : Bool
  streamingMessage : Option AgentMessage
  pendingToolCalls : List String
  errorMessage : Option String

/-- The hooks and settings a run's configuration is made from. -/
structure AgentOptions where
  transformContext : Bool
  getApiKey : Bool
  beforeToolCall : Bool
  afterToolCall : Bool
  toolExecution : ToolExecutionMode

/-- Where a run is: in the loop, or emitting what is left of
`handleRunFailure`. -/
inductive RunPhase where
  | running (prog : LoopM (List AgentMessage))
  | failing (events : List AgentEvent)

/-- The active run: the transcript its context was copied from, its abort
signal, and the loop with its heap. -/
structure ActiveRun where
  before : List AgentMessage
  aborted : Bool
  skipInitialSteeringPoll : Bool
  world : LoopWorld
  phase : RunPhase

structure Agent where
  options : AgentOptions
  state : AgentState
  steeringQueue : PendingMessageQueue
  followUpQueue : PendingMessageQueue
  activeRun : Option ActiveRun

namespace AgentState

/-- The reducer of `processEvents`. -/
def reduce (s : AgentState) : AgentEvent → AgentState
  | .messageStart message => { s with streamingMessage := some message }
  | .messageUpdate message _ => { s with streamingMessage := some message }
  | .messageEnd message =>
      { s with streamingMessage := none, messages := s.messages ++ [message] }
  | .toolExecutionStart id _ _ =>
      { s with pendingToolCalls :=
          if id ∈ s.pendingToolCalls then s.pendingToolCalls else s.pendingToolCalls ++ [id] }
  | .toolExecutionEnd id _ _ _ =>
      { s with pendingToolCalls := s.pendingToolCalls.filter fun other => other ≠ id }
  | .turnEnd message _ =>
      match message.errorMessage.filter fun e => e ≠ "" with
      | some errorMessage => { s with errorMessage := some errorMessage }
      | none => s
  | .agentEnd _ => { s with streamingMessage := none }
  | .agentStart => s
  | .turnStart => s
  | .toolExecutionUpdate .. => s

end AgentState

namespace Agent

def new (options : AgentOptions) (state : AgentState) (steeringMode followUpMode : QueueMode) :
    Agent :=
  { options, state, steeringQueue := ⟨[], steeringMode⟩, followUpQueue := ⟨[], followUpMode⟩
    activeRun := none }

/-! ## Calls that do not touch the run -/

def steer (a : Agent) (message : AgentMessage) : Agent :=
  { a with steeringQueue := a.steeringQueue.enqueue message }

def followUp (a : Agent) (message : AgentMessage) : Agent :=
  { a with followUpQueue := a.followUpQueue.enqueue message }

def clearSteeringQueue (a : Agent) : Agent :=
  { a with steeringQueue := a.steeringQueue.clear }

def clearFollowUpQueue (a : Agent) : Agent :=
  { a with followUpQueue := a.followUpQueue.clear }

def setSteeringMode (a : Agent) (mode : QueueMode) : Agent :=
  { a with steeringQueue := { a.steeringQueue with mode } }

def setFollowUpMode (a : Agent) (mode : QueueMode) : Agent :=
  { a with followUpQueue := { a.followUpQueue with mode } }

def abort (a : Agent) : Agent :=
  { a with activeRun := a.activeRun.map fun run => { run with aborted := true } }

/-! ## Starting a run -/

def createContextSnapshot (a : Agent) : AgentContext :=
  { systemPrompt := a.state.systemPrompt, messages := a.state.messages, tools := a.state.tools }

def createLoopConfig (a : Agent) : AgentLoopConfig :=
  { model := a.state.model
    reasoning := if a.state.thinkingLevel = "off" then none else some a.state.thinkingLevel
    apiKey := none
    toolExecution := some a.options.toolExecution
    transformContext := a.options.transformContext
    getApiKey := a.options.getApiKey
    beforeToolCall := a.options.beforeToolCall
    afterToolCall := a.options.afterToolCall }

/-- The start of `runWithLifecycle`. -/
def startRun (a : Agent) (fuel : Nat) (call : LoopCall) (skipInitialSteeringPoll : Bool) :
    Agent :=
  { a with
    state := { a.state with
      isStreaming := true
      streamingMessage := none
      errorMessage := none }
    activeRun := some
      { before := a.state.messages
        aborted := false
        skipInitialSteeringPoll
        world := .initial a.createContextSnapshot []
        phase := .running (call.run fuel a.createLoopConfig) } }

end Agent

/-! ## What a step does to the messages -/

inductive QueueKind where
  | steering
  | followUp
deriving Repr, DecidableEq

/-- `started` says from which queue the prompts of a run were drained, if
from one. -/
inductive AgentAct where
  | enqueued (queue : QueueKind) (message : AgentMessage)
  | cleared (queue : QueueKind) (messages : List AgentMessage)
  | started (queue : Option QueueKind) (prompts : List AgentMessage)
  | polled (queue : QueueKind) (messages : List AgentMessage)
  | emitted (event : AgentEvent)
  | finished
  | internal
deriving Repr, DecidableEq

namespace Agent

/-- `prompt`, the input already normalised to a list of messages. -/
def prompt (a : Agent) (fuel : Nat) (messages : List AgentMessage) :
    Except String (AgentAct × Agent) :=
  match a.activeRun with
  | some _ => .error ("Agent is already processing a prompt. Use steer() or followUp() to queue "
      ++ "messages, or wait for completion.")
  | none => .ok (.started none messages, a.startRun fuel (.prompt messages) false)

/-- `continue` from an assistant message: the queues give the prompts. -/
def continueFromQueues (a : Agent) (fuel : Nat) : Except String (AgentAct × Agent) :=
  let queuedSteering := a.steeringQueue.drain
  if !queuedSteering.1.isEmpty then
    .ok (.started (some .steering) queuedSteering.1,
      { a with steeringQueue := queuedSteering.2 }.startRun fuel (.prompt queuedSteering.1) true)
  else
    let queuedFollowUps := a.followUpQueue.drain
    if !queuedFollowUps.1.isEmpty then
      .ok (.started (some .followUp) queuedFollowUps.1,
        { a with followUpQueue := queuedFollowUps.2 }.startRun fuel (.prompt queuedFollowUps.1)
          false)
    else .error "Cannot continue from message role: assistant"

def «continue» (a : Agent) (fuel : Nat) : Except String (AgentAct × Agent) :=
  match a.activeRun with
  | some _ => .error "Agent is already processing. Wait for completion before continuing."
  | none =>
      match a.state.messages.getLast? with
      | none => .error "No messages to continue from"
      | some lastMessage =>
          if lastMessage.isAssistant then a.continueFromQueues fuel
          else .ok (.started none [], a.startRun fuel .continuation false)

theorem prompt_ok {a a' : Agent} {fuel : Nat} {messages : List AgentMessage} {act : AgentAct}
    (h : a.prompt fuel messages = .ok (act, a')) :
    a.activeRun = none ∧ act = .started none messages ∧
      a' = a.startRun fuel (.prompt messages) false := by
  unfold prompt at h
  cases hrun : a.activeRun with
  | some run =>
    rw [hrun] at h
    cases h
  | none =>
    rw [hrun] at h
    obtain ⟨rfl, rfl⟩ := Prod.mk.inj (Except.ok.inj h)
    exact ⟨rfl, rfl, rfl⟩

/-- How a continuation that is accepted starts its run: from one of the
queues, or from the transcript as it is. -/
theorem continue_ok {a a' : Agent} {fuel : Nat} {act : AgentAct}
    (h : a.continue fuel = .ok (act, a')) :
    a.activeRun = none ∧
      ((act = .started (some .steering) a.steeringQueue.drain.1 ∧
          a' = { a with steeringQueue := a.steeringQueue.drain.2 }.startRun fuel
            (.prompt a.steeringQueue.drain.1) true) ∨
        (act = .started (some .followUp) a.followUpQueue.drain.1 ∧
          a' = { a with followUpQueue := a.followUpQueue.drain.2 }.startRun fuel
            (.prompt a.followUpQueue.drain.1) false) ∨
        (act = .started none [] ∧ a' = a.startRun fuel .continuation false)) := by
  unfold «continue» at h
  cases hrun : a.activeRun with
  | some run =>
    rw [hrun] at h
    cases h
  | none =>
    rw [hrun] at h
    refine ⟨rfl, ?_⟩
    cases hlast : a.state.messages.getLast? with
    | none =>
      rw [hlast] at h
      cases h
    | some last =>
      rw [hlast] at h
      dsimp only at h
      split at h
      · unfold continueFromQueues at h
        dsimp only at h
        split at h
        · obtain ⟨rfl, rfl⟩ := Prod.mk.inj (Except.ok.inj h)
          exact .inl ⟨rfl, rfl⟩
        · split at h
          · obtain ⟨rfl, rfl⟩ := Prod.mk.inj (Except.ok.inj h)
            exact .inr (.inl ⟨rfl, rfl⟩)
          · cases h
      · obtain ⟨rfl, rfl⟩ := Prod.mk.inj (Except.ok.inj h)
        exact .inr (.inr ⟨rfl, rfl⟩)

/-! ## Steps of the loop -/

def processEvents (a : Agent) (event : AgentEvent) : Agent :=
  { a with state := a.state.reduce event }

def failureMessage (a : Agent) (run : ActiveRun) (error : String) (timestamp : Nat) :
    AssistantMessage :=
  { content := some [.text ""]
    provider := a.state.model.provider
    model := a.state.model.id
    usage := some ⟨0, 0, 0, 0, 0⟩
    stopReason := if run.aborted then .aborted else .error
    errorMessage := some error
    timestamp }

/-- The events of `handleRunFailure`. -/
def failureEvents (message : AssistantMessage) : List AgentEvent :=
  [.messageStart (.assistant message), .messageEnd (.assistant message), .turnEnd message [],
    .agentEnd [.assistant message]]

def finishRun (a : Agent) : Agent :=
  { a with
    state := { a.state with isStreaming := false, streamingMessage := none, pendingToolCalls := [] }
    activeRun := none }

/-- Effects the agent does not take part in. -/
def External : LoopEffect → Prop
  | .emit _ | .getSteeringMessages | .getFollowUpMessages | .isAborted => False
  | _ => True

def withRun (a : Agent) (run : ActiveRun) : Agent := { a with activeRun := some run }

/-- The agent's part in answering an effect of its loop. -/
inductive Interacts (a : Agent) (run : ActiveRun) :
    (e : LoopEffect) → LoopAnswer e → AgentAct → Agent → ActiveRun → Prop
  | emit (event : AgentEvent) :
      Interacts a run (.emit event) () (.emitted event) (a.processEvents event) run
  | skippedPoll (h : run.skipInitialSteeringPoll = true) :
      Interacts a run .getSteeringMessages (Except.ok [] : Except String (List AgentMessage))
        .internal a { run with skipInitialSteeringPoll := false }
  | steeringPoll (h : run.skipInitialSteeringPoll = false) :
      Interacts a run .getSteeringMessages
        (Except.ok a.steeringQueue.drain.1 : Except String (List AgentMessage))
        (.polled .steering a.steeringQueue.drain.1)
        { a with steeringQueue := a.steeringQueue.drain.2 } run
  | followUpPoll :
      Interacts a run .getFollowUpMessages
        (Except.ok a.followUpQueue.drain.1 : Except String (List AgentMessage))
        (.polled .followUp a.followUpQueue.drain.1)
        { a with followUpQueue := a.followUpQueue.drain.2 } run
  | signal : Interacts a run .isAborted run.aborted .internal a run
  | other {e : LoopEffect} (he : External e) (answer : LoopAnswer e) :
      Interacts a run e answer .internal a run

/-- One step of an agent: calls from outside at any moment, and the steps
of the active run. -/
inductive Step : Agent → AgentAct → Agent → Prop
  | steer (a : Agent) (message : AgentMessage) :
      Step a (.enqueued .steering message) (a.steer message)
  | followUp (a : Agent) (message : AgentMessage) :
      Step a (.enqueued .followUp message) (a.followUp message)
  | clearSteeringQueue (a : Agent) :
      Step a (.cleared .steering a.steeringQueue.messages) a.clearSteeringQueue
  | clearFollowUpQueue (a : Agent) :
      Step a (.cleared .followUp a.followUpQueue.messages) a.clearFollowUpQueue
  | setSteeringMode (a : Agent) (mode : QueueMode) : Step a .internal (a.setSteeringMode mode)
  | setFollowUpMode (a : Agent) (mode : QueueMode) : Step a .internal (a.setFollowUpMode mode)
  | abort (a : Agent) : Step a .internal a.abort
  | prompt {a a' : Agent} {fuel : Nat} {messages : List AgentMessage} {act : AgentAct}
      (h : a.prompt fuel messages = .ok (act, a')) : Step a act a'
  | «continue» {a a' : Agent} {fuel : Nat} {act : AgentAct}
      (h : a.continue fuel = .ok (act, a')) : Step a act a'
  | ask {a a' : Agent} {run run' : ActiveRun} {e : LoopEffect} {answer : LoopAnswer e}
      {k : LoopAnswer e → LoopM (List AgentMessage)} {act : AgentAct} {w : LoopWorld}
      (hrun : a.activeRun = some run) (hphase : run.phase = .running (.ask e k))
      (hworld : run.world.Env e answer w) (hagent : Interacts a run e answer act a' run') :
      Step a act (a'.withRun { run' with world := w, phase := .running (k answer) })
  | choose {a : Agent} {run : ActiveRun} {k : Nat → LoopM (List AgentMessage)}
      (hrun : a.activeRun = some run) (hphase : run.phase = .running (.choose k)) (i : Nat) :
      Step a .internal (a.withRun { run with phase := .running (k i) })
  | fail {a : Agent} {run : ActiveRun} {error : String} (hrun : a.activeRun = some run)
      (hphase : run.phase = .running (.ret (.error (.thrown error)))) (timestamp : Nat) :
      Step a .internal (a.withRun
        { run with phase := .failing (failureEvents (a.failureMessage run error timestamp)) })
  | failing {a : Agent} {run : ActiveRun} {event : AgentEvent} {events : List AgentEvent}
      (hrun : a.activeRun = some run) (hphase : run.phase = .failing (event :: events)) :
      Step a (.emitted event)
        ((a.processEvents event).withRun { run with phase := .failing events })
  | returned {a : Agent} {run : ActiveRun} {newMessages : List AgentMessage}
      (hrun : a.activeRun = some run)
      (hphase : run.phase = .running (.ret (.ok newMessages))) :
      Step a .finished a.finishRun
  | failed {a : Agent} {run : ActiveRun} (hrun : a.activeRun = some run)
      (hphase : run.phase = .failing []) : Step a .finished a.finishRun

/-- The agents reachable from `a`, each with what was done on the way. -/
inductive Run (a : Agent) : List AgentAct → Agent → Prop
  | nil : Run a [] a
  | snoc {acts : List AgentAct} {act : AgentAct} {a₁ a₂ : Agent} (h : Run a acts a₁)
      (hstep : Step a₁ act a₂) : Run a (acts ++ [act]) a₂

end Agent

end Eagent
