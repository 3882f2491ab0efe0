import Eagent.Emitter
import Eagent.JsonText

/-!
# The RPC client

`RpcClient`: requests go to the agent process with an id of their own and
wait for the response with that id; every other line is an event for the
listeners. What the process and the timers do comes as actions.
-/

namespace Eagent

/-- `code` and `signal` of an exit, as the message has them. -/
structure ExitStatus where
  code : String
  signal : String

/-- What `send` sees of the child process. -/
structure ChildView where
  hasStdin : Bool
  /-- `exitCode` is there, before or after the exit event -/
  exited : Option ExitStatus
  writable : Bool

/-- What becomes of a request. -/
inductive RpcOutcome where
  | resolved (response : Json)
  | rejected (message : String)

/-- The timeout of a request. -/
structure RpcTimer where
  send : Nat
  id : String
  type : String

/-- Sends and child processes are numbered. `commands`: the sends that got an
id; `settled`: the calls of `resolve` and `reject`; `exited`: the children
whose exit event came; `stopping`: the calls of `stop` that wait. -/
structure RpcClient (L : Type) where
  emitter : Emitter L Json := {}
  process : Option Nat := none
  spawned : Nat := 0
  exited : List Nat := []
  readers : List Nat := []
  stopReadingStdout : Option Nat := none
  stopping : Nat := 0
  stderr : String := ""
  exitError : Option String := none
  requestId : Nat := 0
  pendingRequests : OrdMap String Nat := OrdMap.empty
  timers : List RpcTimer := []
  sends : Nat := 0
  commands : List (Nat × String) := []
  settled : List (Nat × RpcOutcome) := []

inductive RpcAct (L : Type) where
  | start
  /-- `start` after its wait -/
  | started (exited : Option ExitStatus)
  | stop
  /-- `stop` after its wait, by the exit or after a second -/
  | stopped
  | send (type : String) (child : ChildView) (writeError : Option String)
  | timeout (send : Nat)
  | exit (child : Nat) (status : ExitStatus)
  | processError (child : Nat) (message : String)
  | stdinError (child : Nat) (message : String)
  | stderr (data : String)
  | line (child : Nat) (text : List Char)
  /-- `onEvent`, its result, and the calls of listeners -/
  | listeners (act : EmitterAct L Json)

/-- What happens only when no code runs. -/
def RpcAct.fromOutside {L : Type} : RpcAct L → Bool
  | .started _ | .stopped | .timeout _ | .exit _ _ | .processError _ _ | .stdinError _ _
  | .stderr _ | .line _ _ => true
  | .start | .stop | .send _ _ _ | .listeners _ => false

/-- `subscribe` and `_emit` of `AgentSession`; the calls of a listener may emit. -/
abbrev SessionListeners (L E : Type) := Emitter L E

def requestIdText (requestId : Nat) : String := "req_" ++ toString requestId

/-- A field of a value that is not null. -/
def dataField (data : Json) (key : String) : Option Json :=
  match data with
  | .obj fields => OrdMap.lookupIn key fields
  | _ => none

namespace RpcClient

variable {L : Type} (s : RpcClient L)

def createProcessExitError (status : ExitStatus) : String :=
  "Agent process exited (code=" ++ status.code ++ " signal=" ++ status.signal ++ "). Stderr: " ++
    s.stderr

/-- `resolve` or `reject` of a pending request. -/
def settle (send : Nat) (outcome : RpcOutcome) : RpcClient L :=
  { s with
    timers := s.timers.filter (·.send ≠ send)
    settled := s.settled ++ [(send, outcome)] }

def rejectPendingRequests (message : String) : RpcClient L :=
  { s with
    timers := s.timers.filter (·.send ∉ s.pendingRequests.values)
    settled := s.settled ++ s.pendingRequests.values.map fun send => (send, .rejected message)
    pendingRequests := OrdMap.empty }

/-- A child is gone. -/
def fail (message : String) : RpcClient L :=
  rejectPendingRequests { s with exitError := some message } message

def spawn : RpcClient L :=
  { s with
    exitError := none
    process := some s.spawned
    spawned := s.spawned + 1
    readers := s.readers ++ [s.spawned]
    stopReadingStdout := some s.spawned }

/-- `stop` up to its wait. -/
def stop : RpcClient L :=
  if s.process.isNone then s
  else
    { s with
      readers := s.stopReadingStdout.elim s.readers s.readers.erase
      stopReadingStdout := none
      stopping := s.stopping + 1 }

/-- The `throw`s of `send`, with what is left of it. -/
def refuse (message : String) : RpcClient L :=
  { s with
    sends := s.sends + 1
    settled := s.settled ++ [(s.sends, .rejected message)] }

def request (type : String) : RpcClient L :=
  let id := requestIdText (s.requestId + 1)
  { s with
    sends := s.sends + 1
    requestId := s.requestId + 1
    commands := s.commands ++ [(s.sends, id)]
    timers := s.timers ++ [⟨s.sends, id, type⟩]
    pendingRequests := s.pendingRequests.set id s.sends }

def send (type : String) (child : ChildView) (writeError : Option String) : RpcClient L :=
  if s.process.isNone || !child.hasStdin then s.refuse "Client not started"
  else match s.exitError, child.exited with
    | some error, _ => s.refuse error
    | none, some status =>
        let error := s.createProcessExitError status
        refuse { s with exitError := some error } error
    | none, none =>
        if !child.writable then
          let error := "Agent process stdin is not writable. Stderr: " ++ s.stderr
          refuse { s with exitError := some error } error
        else
          let id := requestIdText (s.requestId + 1)
          let s' := s.request type
          match writeError, s'.pendingRequests.get id with
          | some message, some send =>
              settle { s' with pendingRequests := s'.pendingRequests.delete id } send
                (.rejected message)
          | _, _ => s'

def answered (data : Json) : Option (String × Nat) :=
  if dataField data "type" = some (.str "response") then
    match dataField data "id" with
    | some (.str id) =>
        if id.isEmpty then none else (s.pendingRequests.get id).map fun send => (id, send)
    | _ => none
  else none

/-- `handleLine` after `JSON.parse`. -/
def handleData (data : Json) : RpcClient L :=
  match s.answered data with
  | some (id, send) =>
      settle { s with pendingRequests := s.pendingRequests.delete id } send (.resolved data)
  | none => { s with emitter := s.emitter.emitted data }

def handleLine (line : List Char) : RpcClient L :=
  match Json.parse line with
  | none => s
  -- a field of null: the error is caught
  | some .null => s
  | some data => s.handleData data

def timeOut (t : RpcTimer) : RpcClient L :=
  settle { s with pendingRequests := s.pendingRequests.delete t.id } t.send
    (.rejected ("Timeout waiting for response to " ++ t.type ++ ". Stderr: " ++ s.stderr))

variable [DecidableEq L]

def step (s : RpcClient L) (act : RpcAct L) : Option (RpcClient L) :=
  if act.fromOutside && !s.emitter.delivering.isEmpty then none
  else match act with
    | .start => some (if s.process.isSome then s else s.spawn)
    | .started exited =>
        some (match s.process, exited with
          | some _, some status =>
              { s with exitError := s.exitError <|> some (s.createProcessExitError status) }
          | _, _ => s)
    | .stop => some s.stop
    | .stopped =>
        if 0 < s.stopping then
          some { s with
            process := none
            pendingRequests := OrdMap.empty
            stopping := s.stopping - 1 }
        else none
    | .send type child writeError => some (s.send type child writeError)
    | .timeout send => (s.timers.find? (·.send = send)).map s.timeOut
    | .exit child status =>
        if child < s.spawned ∧ child ∉ s.exited then
          let s' := { s with exited := s.exited ++ [child] }
          some (if s.process = some child then s'.fail (s.createProcessExitError status) else s')
        else none
    | .processError child message =>
        some (if s.process = some child then
            s.fail ("Agent process error: " ++ message ++ ". Stderr: " ++ s.stderr)
          else s)
    | .stdinError child message =>
        some (if s.process = some child then
            s.fail (s.exitError.getD
              ("Agent process stdin error: " ++ message ++ ". Stderr: " ++ s.stderr))
          else s)
    | .stderr data => some { s with stderr := s.stderr ++ data }
    | .line child text => if child ∈ s.readers then some (s.handleLine text) else none
    | .listeners (.emit _) => none
    | .listeners act => (s.emitter.step act).map fun emitter => { s with emitter }

end RpcClient

end Eagent
