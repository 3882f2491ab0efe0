import Eagent.ChatDisplay
import Eagent.Machine

/-!
# History and events of a web session

One session of the web server with one client. The agent process writes
events and responses on its stdout; the server numbers the events in a
bounded buffer and sends them to the stream of the client. `getHistory` asks
the process twice and then reads the cursor. The client loads the history,
opens the stream behind its cursor and drops what is not above its own.
-/

namespace Eagent

/-! ## The agent process -/

inductive ProcessOutput where
  | event (event : WebStreamEvent)
  | messages (request : Nat) (messages : List AgentMessage)
  | state (request : Nat) (isStreaming : Bool)

/-- A line on the stdout of a process. -/
structure ProcessLine where
  process : Nat
  output : ProcessOutput

inductive AgentCommand where
  | getMessages (request : Nat)
  | getState (request : Nat)
deriving DecidableEq

/-- The process that runs. `inProgress`: the role of the message that it has
started and not ended; `commands`: its stdin. -/
structure AgentRuntime where
  process : Nat
  messages : List AgentMessage
  isStreaming : Bool := false
  inProgress : Option EntryType := none
  commands : List AgentCommand := []

/-! ## Server and client -/

structure BufferedWebStreamEvent where
  cursor : Nat
  event : WebStreamEvent
deriving DecidableEq

/-- `SessionHistory` -/
structure WebSessionHistory where
  events : List WebStreamEvent
  isStreaming : Bool
  cursor : Nat

/-- Where a call of `getHistory` is. -/
inductive HistoryPhase where
  /-- in `getProcess` -/
  | process
  | messages (process : Nat)
  /-- answered, not resumed -/
  | gotMessages (process : Nat) (messages : List AgentMessage)
  | state (process : Nat) (messages : List AgentMessage)
  | gotState (messages : List AgentMessage) (isStreaming : Bool)
  | returned

structure HistoryRequest where
  selection : Nat
  phase : HistoryPhase

/-- The stream, with what is on its way to the client. -/
inductive EventSource where
  | closed
  | connecting
  | connected (lastCursor : Nat) (inFlight : List BufferedWebStreamEvent)

structure ChatState where
  isOpen : Bool := false
  messages : List WebStreamEvent := []
  approvals : List String := []
  isStreaming : Bool := false
  cursor : Nat := 0
  streamCursor : Nat := 0

/-- `appended`, `read`, `reading` and the origins are not in the source: all
events since the server started; the messages whose end has left the pipe; the
message in progress there, with its process; and what had ended before the
server started, for the server and for a client without a history. -/
structure WebStream where
  agent : Option AgentRuntime := none
  processes : Nat := 0
  stdout : List ProcessLine := []
  nextCursor : Nat := 0
  eventBuffer : List BufferedWebStreamEvent := []
  requests : List HistoryRequest := []
  replies : List (Nat × Option WebSessionHistory) := []
  selection : Nat := 0
  chat : ChatState := {}
  source : EventSource := .closed
  appended : List WebStreamEvent := []
  read : List AgentMessage := []
  reading : Option (Nat × EntryType) := none
  serverOrigin : List AgentMessage := []
  origin : List AgentMessage := []

inductive WebStreamAct where
  /-- `getProcess` starts a process, which loads its messages -/
  | start (messages : List AgentMessage)
  /-- the agent's list: a message is pushed, or the list is replaced -/
  | setMessages (messages : List AgentMessage)
  | setStreaming (isStreaming : Bool)
  | emit (event : WebStreamEvent)
  /-- the next command on stdin -/
  | respond
  | exit
  /-- the server handles a line -/
  | line (index : Nat)
  /-- `getHistory` has the process -/
  | ask (request : Nat)
  /-- no process, or it is gone -/
  | refuse (request : Nat)
  | resume (request : Nat) (traces : List Json)
  | restartServer
  | selectSession
  | leaveSession
  | reply (index : Nat)
  | connect
  | disconnect
  | deliver

/-! ## The stream -/

def maxBuffer : Nat := 10000

def EventSource.sendEvent (source : EventSource) (item : BufferedWebStreamEvent) : EventSource :=
  match source with
  | .connected lastCursor inFlight =>
      if item.cursor ≤ lastCursor then source
      else .connected item.cursor (inFlight ++ [item])
  | _ => source

def WebStreamEvent.type : WebStreamEvent → String
  | .agent .agentStart => "agent_start"
  | .agent (.agentEnd _) => "agent_end"
  | .agent .turnStart => "turn_start"
  | .agent (.turnEnd _ _) => "turn_end"
  | .agent (.messageStart _) => "message_start"
  | .agent (.messageUpdate _ _) => "message_update"
  | .agent (.messageEnd _) => "message_end"
  | .agent (.toolExecutionStart _ _ _) => "tool_execution_start"
  | .agent (.toolExecutionUpdate _ _ _ _) => "tool_execution_update"
  | .agent (.toolExecutionEnd _ _ _ _) => "tool_execution_end"
  | .traceEvent _ => "trace_event"
  | .session type => type
  | .approvalRequest _ => "approval_request"

/-- What the client listens for. -/
def eventTypes : List String := [
  "agent_start", "agent_end", "agent_settled",
  "turn_start", "turn_end",
  "message_start", "message_update", "message_end",
  "tool_execution_start", "tool_execution_update", "tool_execution_end",
  "queue_update",
  "compaction_start", "compaction_end",
  "entry_appended", "session_info_changed",
  "thinking_level_changed",
  "auto_retry_start", "auto_retry_end",
  "trace_event",
  "approval_request"]

def ChatState.streaming (chat : ChatState) (event : WebStreamEvent) : Bool :=
  match event.type with
  | "agent_start" | "turn_start" => true
  | "agent_end" | "agent_settled" => false
  | _ => chat.isStreaming

def ChatState.handleEvent (chat : ChatState) (event : WebStreamEvent) (cursor : Nat) :
    ChatState :=
  if 0 < cursor ∧ cursor ≤ chat.cursor then chat
  else match event with
    | .approvalRequest id =>
        { chat with
          cursor := max chat.cursor cursor
          approvals := chat.approvals.filter (· ≠ id) ++ [id] }
    | _ =>
        { chat with
          messages := chat.messages ++ [event]
          isStreaming := chat.streaming event
          cursor := max chat.cursor cursor }

namespace WebStream

variable (s : WebStream)

def getEventBuffer (afterCursor : Nat) : List BufferedWebStreamEvent :=
  s.eventBuffer.filter fun item => item.cursor > afterCursor

def appendEvent (event : WebStreamEvent) : WebStream :=
  let item : BufferedWebStreamEvent := ⟨s.nextCursor + 1, event⟩
  let buffer := s.eventBuffer ++ [item]
  { s with
    nextCursor := s.nextCursor + 1
    eventBuffer := if buffer.length > maxBuffer then buffer.drop 1 else buffer
    source := s.source.sendEvent item
    appended := s.appended ++ [event] }

/-- `addClient`: the replay comes before anything else. -/
def addClient (afterCursor : Nat) : EventSource :=
  (s.getEventBuffer afterCursor).foldl EventSource.sendEvent (.connected afterCursor [])

/-! ## `getHistory` -/

def setPhase (request : Nat) (phase : HistoryPhase) : WebStream :=
  { s with requests := s.requests.modify request ({ · with phase }) }

def respondHistory (request : Nat) (history : Option WebSessionHistory) : WebStream :=
  match s.requests[request]? with
  | none => s
  | some r =>
      { s.setPhase request .returned with replies := s.replies ++ [(r.selection, history)] }

def phase (request : Nat) : Option HistoryPhase := (s.requests[request]?).map (·.phase)

def handleLine (line : ProcessLine) : WebStream :=
  match line.output with
  | .event event =>
      { s.appendEvent event with
        read := s.read ++ event.ends
        reading := match event.phase with
          | none => s.reading
          | some (.finish, _) => none
          | some (_, role) => some (line.process, role) }
  | .messages request messages =>
      match s.phase request with
      | some (.messages process) =>
          if process = line.process then s.setPhase request (.gotMessages process messages) else s
      | _ => s
  | .state request isStreaming =>
      match s.phase request with
      | some (.state process messages) =>
          if process = line.process then s.setPhase request (.gotState messages isStreaming) else s
      | _ => s

/-- Takes a line; the lines of one process come in order. -/
def takeLine (index : Nat) : Option WebStream :=
  match s.stdout[index]? with
  | none => none
  | some line =>
      if (s.stdout.take index).any (·.process = line.process) then none
      else some ({ s with stdout := s.stdout.eraseIdx index }.handleLine line)

def resume (request : Nat) (traces : List Json) : Option WebStream :=
  match s.phase request, s.agent with
  | some (.gotMessages process messages), some agent =>
      if agent.process = process then
        some ({ s with
          agent := some { agent with
            commands := agent.commands ++ [AgentCommand.getState request] } }.setPhase request
              (.state process messages))
      else some (s.respondHistory request none)
  | some (.gotMessages _ _), none => some (s.respondHistory request none)
  | some (.gotState messages isStreaming), _ =>
      some (s.respondHistory request (some {
        events := historyEventsFromMessages messages ++ traces.map .traceEvent
        isStreaming
        cursor := s.nextCursor }))
  | _, _ => none

def respond : Option WebStream :=
  match s.agent with
  | none => none
  | some agent =>
      match agent.commands with
      | [] => none
      | command :: commands =>
          let output : ProcessOutput := match command with
            | .getMessages request => .messages request agent.messages
            | .getState request => .state request agent.isStreaming
          some { s with
            agent := some { agent with commands }
            stdout := s.stdout ++ [⟨agent.process, output⟩] }

def emit (event : WebStreamEvent) : Option WebStream :=
  match s.agent with
  | none => none
  | some agent =>
      (event.progress agent.inProgress).map fun inProgress =>
        { s with
          agent := some { agent with inProgress }
          stdout := s.stdout ++ [⟨agent.process, .event event⟩] }

/-! ## The client -/

def lineEnds (line : ProcessLine) : List AgentMessage :=
  match line.output with
  | .event event => event.ends
  | _ => []

def ended : List AgentMessage := s.read ++ s.stdout.flatMap lineEnds

/-- `selectSession` up to its request, and `deleteSession`. -/
def reset (requests : List HistoryRequest) : WebStream :=
  { s with selection := s.selection + 1, chat := {}, source := .closed, requests, origin := [] }

def handleReply (selection : Nat) (history : Option WebSessionHistory) : WebStream :=
  if selection ≠ s.selection then s
  else match history with
    | some history =>
        { s with
          chat := {
            isOpen := true
            messages := history.events
            isStreaming := history.isStreaming
            cursor := history.cursor
            streamCursor := history.cursor }
          source := .connecting
          origin := [] }
    | none =>
        { s with
          chat := { s.chat with isOpen := true, messages := [], cursor := 0, streamCursor := 0 }
          source := .connecting
          origin := s.serverOrigin }

def restartServer : WebStream :=
  { s with
    agent := none
    stdout := []
    nextCursor := 0
    eventBuffer := []
    requests := s.requests.map ({ · with phase := .returned })
    replies := s.replies ++ (s.requests.filter fun r => match r.phase with
      | .returned => false
      | _ => true).map fun r => (r.selection, none)
    source := match s.source with
      | .closed => .closed
      | _ => .connecting
    appended := []
    read := s.ended
    serverOrigin := s.ended }

def step : WebStreamAct → Option WebStream
  | .start messages =>
      match s.agent with
      | some _ => none
      | none => some { s with
          agent := some { process := s.processes, messages }, processes := s.processes + 1 }
  | .setMessages messages => s.agent.map fun agent =>
      { s with agent := some { agent with messages } }
  | .setStreaming isStreaming => s.agent.map fun agent =>
      { s with agent := some { agent with isStreaming } }
  | .emit event => s.emit event
  | .respond => s.respond
  | .exit => s.agent.map fun _ => { s with agent := none }
  | .line index => s.takeLine index
  | .ask request =>
      match s.phase request, s.agent with
      | some .process, some agent =>
          some ({ s with
            agent := some { agent with
              commands := agent.commands ++ [AgentCommand.getMessages request] } }.setPhase request
                (.messages agent.process))
      | _, _ => none
  | .refuse request =>
      match s.phase request with
      | some .process | some (.messages _) | some (.state _ _) =>
          some (s.respondHistory request none)
      | _ => none
  | .resume request traces => s.resume request traces
  | .restartServer => some s.restartServer
  | .selectSession => some (s.reset (s.requests ++ [⟨s.selection + 1, .process⟩]))
  | .leaveSession => some (s.reset s.requests)
  | .reply index =>
      match s.replies[index]? with
      | none => none
      | some (selection, history) =>
          some ({ s with replies := s.replies.eraseIdx index }.handleReply selection history)
  | .connect =>
      match s.source, s.agent with
      | .connecting, some _ => some { s with source := s.addClient s.chat.streamCursor }
      | _, _ => none
  | .disconnect =>
      match s.source with
      | .connected _ _ => some { s with source := .connecting }
      | _ => none
  | .deliver =>
      match s.source with
      | .connected lastCursor (item :: inFlight) =>
          some { s with
            source := .connected lastCursor inFlight
            chat :=
              if item.event.type ∈ eventTypes then s.chat.handleEvent item.event item.cursor
              else s.chat }
      | _ => none

end WebStream

end Eagent
