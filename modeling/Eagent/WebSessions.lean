import Eagent.Machine
import Eagent.OrdMap
import Mathlib.Logic.Function.Basic

/-!
# The sessions of the web server

The web server's `SessionManager` keeps one agent process for a session and
starts it on demand. Starting, the end of `deleteSession` and the end of
`shutdown` are steps of their own: other calls and exits come in between.
-/

namespace Eagent

/-- `SessionEntry`; the process by its number. -/
structure WebEntry where
  lastActivityAt : Nat
  process : Option Nat := none
  startingProcess : Bool := false

/-- An agent process. `epoch`: the shutdowns that had ended when `getProcess`
asked for it. -/
structure WebProcess where
  session : String
  exited : Bool
  epoch : Nat

/-- `entries` has those of deleted sessions too, which callbacks still refer
to; `sessions` are the keys of the map. `starts` and `settles`: what is left
of the calls of `getProcess` that start a process. `deletions` and
`shutdowns`: the calls that wait, with the processes they wait for. -/
structure WebSessions where
  idleTimeoutMs : Nat
  maxProcesses : Nat
  entries : String → Option WebEntry := fun _ => none
  sessions : List String := []
  idleTimer : Bool := true
  processes : List WebProcess := []
  starts : List (String × Nat) := []
  settles : List String := []
  deletions : List (String × Nat) := []
  deleted : List String := []
  shutdowns : List (List Nat) := []
  shutdownsDone : Nat := 0

inductive WebAct where
  | createSession (id : String) (now : Nat)
  | getProcess (id : String) (now : Nat)
  /-- the first start of the queue; it may throw -/
  | startRuns (spawns : Bool)
  | startSettles (id : String)
  | event (process now : Nat)
  | exit (process : Nat)
  | reap (now : Nat)
  | deleteSession (id : String)
  | deleteReturns (id : String)
  | shutdown
  | shutdownReturns (index : Nat)

namespace WebSessions

variable (s : WebSessions)

def isRunning (process : Nat) : Bool := (s.processes[process]?).any (!·.exited)

/-- `entry.process?.isRunning` -/
def running (id : String) : Bool := ((s.entries id).bind (·.process)).any s.isRunning

def starting (id : String) : Bool := (s.entries id).any (·.startingProcess)

def activeProcesses : Nat := (s.sessions.filter s.running).length

def update (id : String) (f : WebEntry → WebEntry) : WebSessions :=
  { s with entries := Function.update s.entries id ((s.entries id).map f) }

/-- `getProcess` up to its wait. -/
def getProcess (id : String) (now : Nat) : WebSessions :=
  if id ∈ s.sessions then
    let s := s.update id ({ · with lastActivityAt := now })
    if s.running id || s.starting id then s
    else if s.maxProcesses ≤ s.activeProcesses then s
    else
      { s.update id ({ · with startingProcess := true }) with
        starts := s.starts ++ [(id, s.shutdownsDone)] }
  else s

/-- A start, and what is left of the others. -/
def startProcess (id : String) (epoch : Nat) (rest : List (String × Nat)) (spawns : Bool) :
    WebSessions :=
  if spawns then
    { s.update id ({ · with process := some s.processes.length }) with
      processes := s.processes ++ [⟨id, false, epoch⟩]
      starts := rest
      settles := s.settles ++ [id] }
  else { s with starts := rest, settles := s.settles ++ [id] }

/-- A tick of the idle timer. -/
def reapIdle (now : Nat) : WebSessions :=
  { s with
    entries := fun id => (s.entries id).map fun entry =>
      if id ∈ s.sessions ∧ entry.lastActivityAt + s.idleTimeoutMs < now then
        { entry with process := none }
      else entry }

/-- `deleteSession` up to its wait. -/
def deleteSession (id : String) : WebSessions :=
  if id ∈ s.sessions then
    let s' := { s with sessions := s.sessions.erase id }
    match (s.entries id).bind (·.process) with
    | some process => { s' with deletions := s.deletions ++ [(id, process)] }
    | none => { s' with deleted := s.deleted ++ [id] }
  else s

/-- `shutdown` up to its wait. -/
def shutdown : WebSessions :=
  { s with
    idleTimer := false
    shutdowns := s.shutdowns ++
      [s.sessions.filterMap fun id => (s.entries id).bind (·.process)] }

def shutdownReturns (index : Nat) : WebSessions :=
  { s with
    entries := fun id => (s.entries id).map fun entry =>
      if id ∈ s.sessions then { entry with process := none } else entry
    shutdowns := s.shutdowns.eraseIdx index
    shutdownsDone := s.shutdownsDone + 1 }

def step (s : WebSessions) : WebAct → Option WebSessions
  | .createSession id now =>
      if (s.entries id).isSome then none
      else
        some { s with
          entries := Function.update s.entries id (some { lastActivityAt := now })
          sessions := s.sessions ++ [id] }
  | .getProcess id now => some (s.getProcess id now)
  | .startRuns spawns =>
      match s.starts with
      | [] => none
      | (id, epoch) :: rest => some (s.startProcess id epoch rest spawns)
  | .startSettles id =>
      if id ∈ s.settles then
        some { s.update id ({ · with startingProcess := false }) with settles := s.settles.erase id }
      else none
  | .event process now =>
      (s.processes[process]?).map fun p => s.update p.session ({ · with lastActivityAt := now })
  | .exit process =>
      if s.isRunning process then
        some { s with processes := s.processes.modify process ({ · with exited := true }) }
      else none
  | .reap now => if s.idleTimer then some (s.reapIdle now) else none
  | .deleteSession id => some (s.deleteSession id)
  | .deleteReturns id =>
      match s.deletions.find? (·.1 = id) with
      | some deletion =>
          if s.isRunning deletion.2 then none
          else
            some { s with
              deletions := s.deletions.erase deletion
              deleted := s.deleted ++ [id] }
      | none => none
  | .shutdown => some s.shutdown
  | .shutdownReturns index =>
      match s.shutdowns[index]? with
      | some waits => if waits.any s.isRunning then none else some (s.shutdownReturns index)
      | none => none

/-- `initialize`, with the sessions on disk and when they were modified. -/
def initialized (idleTimeoutMs maxProcesses : Nat) (persisted : OrdMap String Nat) :
    WebSessions where
  idleTimeoutMs := idleTimeoutMs
  maxProcesses := maxProcesses
  entries id := (persisted.get id).map fun modified => { lastActivityAt := modified }
  sessions := persisted.keys

/-! ## One process for a session -/

def Live (process : Nat) (p : WebProcess) : Prop :=
  s.processes[process]? = some p ∧ p.exited = false

def liveProcesses : List WebProcess := s.processes.filter (!·.exited)

/-- A session has one live process, there are not too many of them, and none
is of a deleted session or older than the last shutdown. -/
structure OneProcess : Prop where
  one : ∀ {i j : Nat} {p q : WebProcess}, s.Live i p → s.Live j q → p.session = q.session → i = j
  atMost : s.liveProcesses.length ≤ s.maxProcesses
  deleted : ∀ {i : Nat} {p : WebProcess}, s.Live i p → p.session ∉ s.deleted
  shutdown : ∀ {i : Nat} {p : WebProcess}, s.Live i p → p.epoch = s.shutdownsDone

/-- `getProcess` goes on to start a process. -/
def Starts (id : String) : Prop :=
  id ∈ s.sessions ∧ s.running id = false ∧ s.starting id = false ∧
    s.activeProcesses < s.maxProcesses

/-- No start while a process of the session is alive, with those to be
started there is room for it, and no shutdown waits; a session is deleted
without a start to come, and its live process is that of its entry; at a
shutdown there is no start to come, and live processes are those of entries. -/
def Spaced (s : WebSessions) : WebAct → Prop
  | .getProcess id _ => s.Starts id →
      (∀ i p, s.Live i p → p.session ≠ id) ∧
        s.liveProcesses.length + s.starts.length < s.maxProcesses ∧ s.shutdowns = []
  | .deleteSession id => id ∈ s.sessions →
      id ∉ s.starts.map Prod.fst ∧
        ∀ i p, s.Live i p → p.session = id → (s.entries id).bind (·.process) = some i
  | .shutdown => s.starts = [] ∧
      ∀ i p, s.Live i p → ∃ id ∈ s.sessions, (s.entries id).bind (·.process) = some i
  | _ => True

end WebSessions

end Eagent
