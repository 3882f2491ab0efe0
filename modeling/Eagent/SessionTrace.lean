import Eagent.AgentLoop
import Eagent.OrdMap
import Eagent.SpanLog

/-!
# The session trace

`SessionTrace` publishes the spans of one session: a root span for each
turn of the session, below it the run of the agent, its turns and their
tool calls, and the short spans of skills and policy decisions.
`randomUUID` is a counter. The attributes of events, their ids and times,
the trace file and the subscriber are left out; `recordPolicyDecision`
keeps the one attribute it reads.
-/

namespace Eagent

inductive TraceSpanKind where
  | session | agent | turn | skill | tool | policy
deriving Repr, DecidableEq

/-- `TraceEventPhase`: `stop` is `"end"`. -/
inductive TraceEventPhase where
  | start | update | stop
deriving Repr, DecidableEq

inductive TraceStatus where
  | ok | error | aborted
deriving Repr, DecidableEq

structure TraceSpan where
  traceId : Nat
  spanId : Nat
  parentSpanId : Option Nat
  name : String
  kind : TraceSpanKind
deriving Repr, DecidableEq

structure TraceEvent extends TraceSpan where
  sequence : Nat
  phase : TraceEventPhase
  status : Option TraceStatus
deriving Repr, DecidableEq

structure ActiveTrace where
  root : TraceSpan
  agent : Option TraceSpan := none
  turn : Option TraceSpan := none
  tools : OrdMap String TraceSpan
  status : TraceStatus

def statusPriority : TraceStatus → Nat
  | .error => 2
  | .aborted => 1
  | .ok => 0

def assistantStatus : Option AgentMessage → TraceStatus
  | some (.assistant message) =>
      match message.stopReason with
      | .error => .error
      | .aborted => .aborted
      | _ => .ok
  | _ => .ok

def lastAssistantMessage (messages : List AgentMessage) : Option AgentMessage :=
  messages.reverse.find? AgentMessage.isAssistant

/-- `active.turn?.spanId ?? active.agent?.spanId ?? active.root.spanId`. -/
def ActiveTrace.innermost (active : ActiveTrace) : Nat :=
  match active.turn, active.agent with
  | some turn, _ => turn.spanId
  | none, some agent => agent.spanId
  | none, none => active.root.spanId

structure SessionTrace where
  events : List TraceEvent := []
  active : Option ActiveTrace := none
  sequence : Nat := 0
  uuids : Nat := 0

namespace SessionTrace

/-! ## Spans -/

def publish (s : SessionTrace) (span : TraceSpan) (phase : TraceEventPhase)
    (status : Option TraceStatus := none) : SessionTrace :=
  { s with
    sequence := s.sequence + 1
    events := s.events ++ [{ span with sequence := s.sequence + 1, phase, status }] }

/-- `randomUUID`. -/
def randomUUID (s : SessionTrace) : SessionTrace × Nat :=
  ({ s with uuids := s.uuids + 1 }, s.uuids)

def startSpan (s : SessionTrace) (traceId : Nat) (parentSpanId : Option Nat) (name : String)
    (kind : TraceSpanKind) : SessionTrace × TraceSpan :=
  let span := { traceId, spanId := s.randomUUID.2, parentSpanId, name, kind }
  (s.randomUUID.1.publish span .start, span)

def updateSpan (s : SessionTrace) (span : TraceSpan) : SessionTrace :=
  s.publish span .update

def endSpan (s : SessionTrace) (span : TraceSpan) (status : TraceStatus) : SessionTrace :=
  s.publish span .stop (some status)

/-- A write to the fields of `this.active`. -/
def modifyActive (s : SessionTrace) (f : ActiveTrace → ActiveTrace) : SessionTrace :=
  { s with active := s.active.map f }

/-! ## Closing -/

def markStatus (s : SessionTrace) (status : TraceStatus) : SessionTrace :=
  match s.active with
  | none => s
  | some active =>
      if statusPriority status ≤ statusPriority active.status then s
      else s.modifyActive fun active => { active with status }

/-- The loop over `active.tools`, which ends every span and empties the map. -/
def endTools (s : SessionTrace) (active : ActiveTrace) (status : TraceStatus) : SessionTrace :=
  (active.tools.values.foldl (fun s span => s.endSpan span status) s).modifyActive
    fun active => { active with tools := .empty }

def closeTurn (s : SessionTrace) (status : TraceStatus) : SessionTrace :=
  match s.active with
  | none => s
  | some active =>
      match active.turn with
      | none => s
      | some turn =>
          ((s.endTools active .aborted).endSpan turn status).modifyActive
            fun active => { active with turn := none }

def closeAgent (s : SessionTrace) (status : TraceStatus) : SessionTrace :=
  match s.active with
  | none => s
  | some active =>
      match active.agent with
      | none => s
      | some agent =>
          ((if active.turn.isSome then s.closeTurn status else s).endSpan agent
            status).modifyActive fun active => { active with agent := none }

/-- The body of `finish` after the status is marked. -/
def finishActive (s : SessionTrace) (active : ActiveTrace) (status : Option TraceStatus) :
    SessionTrace :=
  let swept := s.endTools active (status.getD .aborted)
  let turnClosed := if active.turn.isSome then swept.closeTurn (status.getD .aborted) else swept
  let closed :=
    if active.agent.isSome then turnClosed.closeAgent (status.getD active.status) else turnClosed
  { closed.endSpan active.root active.status with active := none }

def finish (s : SessionTrace) (status : Option TraceStatus) : SessionTrace :=
  let marked := status.elim s s.markStatus
  match marked.active with
  | none => marked
  | some active => marked.finishActive active status

/-! ## Calls -/

def start (s : SessionTrace) : SessionTrace :=
  let idle := if s.active.isSome then s.finish (some .aborted) else s
  let root := idle.randomUUID.1.startSpan idle.randomUUID.2 none "agent.session.turn" .session
  { root.1 with active := some { root := root.2, tools := .empty, status := .ok } }

/-- The operation has returned a value or thrown; the caller gets its
outcome. -/
def traceSkill {ε α : Type} (s : SessionTrace) (operation : Except ε α) :
    SessionTrace × Except ε α :=
  match s.active with
  | none => (s, operation)
  | some active =>
      let span := s.startSpan active.root.traceId (some active.root.spanId) "agent.agent.skill"
        .skill
      match operation with
      | .ok result => (span.1.endSpan span.2 .ok, .ok result)
      | .error e => ((span.1.endSpan span.2 .error).markStatus .error, .error e)

/-- `decision` is the attribute of that name. -/
def recordPolicyDecision (s : SessionTrace) (decision : Option String) : SessionTrace :=
  match s.active with
  | none => s
  | some active =>
      let span := s.startSpan active.root.traceId (some active.innermost)
        "agent.policy.decision" .policy
      span.1.endSpan span.2 (if decision = some "block" then .aborted else .ok)

def agentStart (s : SessionTrace) (active : ActiveTrace) : SessionTrace :=
  let closed := if active.agent.isSome then s.closeAgent .aborted else s
  let agent := closed.startSpan active.root.traceId (some active.root.spanId) "agent.agent.run"
    .agent
  agent.1.modifyActive fun active => { active with agent := some agent.2 }

def turnStart (s : SessionTrace) (active : ActiveTrace) : SessionTrace :=
  let closed := if active.turn.isSome then s.closeTurn .aborted else s
  let parent := (active.agent.map TraceSpan.spanId).getD active.root.spanId
  let turn := closed.startSpan active.root.traceId (some parent) "agent.agent.turn" .turn
  turn.1.modifyActive fun active => { active with turn := some turn.2 }

def toolStart (s : SessionTrace) (active : ActiveTrace) (toolCallId : String) : SessionTrace :=
  let closed := (active.tools.get toolCallId).elim s fun existing => s.endSpan existing .aborted
  let span := closed.startSpan active.root.traceId (some active.innermost)
    "agent.agent.tool_call" .tool
  span.1.modifyActive fun active => { active with tools := active.tools.set toolCallId span.2 }

def handleAgentEvent (s : SessionTrace) (event : AgentEvent) : SessionTrace :=
  match s.active with
  | none => s
  | some active =>
      match event with
      | .agentStart => s.agentStart active
      | .turnStart => s.turnStart active
      | .toolExecutionStart toolCallId _ _ => s.toolStart active toolCallId
      | .toolExecutionUpdate toolCallId _ _ _ =>
          (active.tools.get toolCallId).elim s s.updateSpan
      | .toolExecutionEnd toolCallId _ _ isError =>
          match active.tools.get toolCallId with
          | none => s
          | some span =>
              (s.endSpan span (if isError then .error else .ok)).modifyActive
                fun active => { active with tools := active.tools.delete toolCallId }
      | .turnEnd message _ => s.closeTurn (assistantStatus (some (.assistant message)))
      | .agentEnd messages =>
          let status := assistantStatus (lastAssistantMessage messages)
          (s.closeAgent status).modifyActive fun active => { active with status }
      | _ => s

end SessionTrace

/-- A call on the trace. The operation of a skill has no effect on it. -/
inductive TraceCall where
  | start
  | handleAgentEvent (event : AgentEvent)
  | recordPolicyDecision (decision : Option String)
  | traceSkill (operation : Except String Unit)
  | finish (status : Option TraceStatus)

def SessionTrace.step (s : SessionTrace) : TraceCall → SessionTrace
  | .start => s.start
  | .handleAgentEvent event => s.handleAgentEvent event
  | .recordPolicyDecision decision => s.recordPolicyDecision decision
  | .traceSkill operation => (s.traceSkill operation).1
  | .finish status => s.finish status

def SessionTrace.run (s : SessionTrace) (calls : List TraceCall) : SessionTrace :=
  calls.foldl SessionTrace.step s

end Eagent
