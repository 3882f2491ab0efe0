import Mathlib.Data.List.Infix
import Eagent.Machine
import Eagent.OrdMap

/-!
# The task supervisor

`TaskSupervisor` as a machine. Its methods run to completion, but every
`emit` calls the listeners, which may call the methods again; so a method is
cut at its emissions, what is left of it is a `Frame`, and a listener's
calls run on top of the stack of frames. Microtasks (the pump, the
continuation of an execution whose executor settled, its `finally`
callback), timers and executors act when the stack is empty, in any order.

An `Execution` is a call of `executeTask` up to its `finally` callback. It
is entered in the `running` map only after its synchronous part.
-/

namespace Eagent

/-! ## Tasks -/

inductive TaskStatus where
  | queued | waiting | running | completed | failed | cancelled | timedOut
deriving Repr, DecidableEq

/-- `TERMINAL_STATUSES.has(status)`. -/
def TaskStatus.terminal : TaskStatus → Bool
  | .completed | .failed | .cancelled | .timedOut => true
  | _ => false

structure TaskRecord where
  id : String
  parentTaskId : Option String
  childTaskIds : List String
  dependencies : List String
  status : TaskStatus
  timeoutMs : Option Nat
  attempt : Nat
  maxAttempts : Nat
  error : Option String
  result : Option String
deriving Repr, DecidableEq

structure SpawnTaskOptions where
  parentTaskId : Option String := none
  dependencies : List String := []
  timeoutMs : Option Nat := none
  maxAttempts : Option Nat := none
deriving Repr, DecidableEq

inductive TaskEventType where
  | created | started | progress | completed | failed | cancelled | retrying | recovered
deriving Repr, DecidableEq

structure TaskEvent where
  eventType : TaskEventType
  taskId : String
  status : TaskStatus
  message : Option String
  attempt : Nat
deriving Repr, DecidableEq

/-! ## Executions -/

inductive RunOutcome where
  | returned (summary : String)
  | threw (message : String)
deriving Repr, DecidableEq

/-- `executeTask` waits for the executor, has its continuation queued, is in
its last synchronous part, or has settled and its `finally` callback is
queued. -/
inductive Phase where
  | running
  | settled (outcome : RunOutcome)
  | finishing
  | finished
deriving Repr, DecidableEq

/-- The executor's promise is awaited, and the timer is not cleared. -/
def Phase.awaiting : Phase → Bool
  | .running | .settled _ => true
  | _ => false

/-- `aborted` is the reason of the signal, `entered` whether `startTask` has
set the map entry. -/
structure Execution where
  controller : Nat
  taskId : String
  aborted : Option String
  entered : Bool
  phase : Phase
deriving Repr, DecidableEq

def Execution.begin (controller : Nat) (taskId : String) : Execution :=
  { controller, taskId, aborted := none, entered := false, phase := .running }

structure TaskSupervisor where
  maxConcurrent : Nat
  tasks : OrdMap String TaskRecord
  running : OrdMap String Nat
  waiters : OrdMap String (List Nat)
  pumpQueued : Bool
  shuttingDown : Bool
  executions : List Execution
  nextController : Nat
  nextWaiter : Nat
  settledWaiters : List (Nat × TaskStatus)
  events : List TaskEvent

/-- What is left of a method after an emission. -/
inductive TaskFrame where
  /-- `spawnTask`, `retryTask`: `this.schedulePump()`. -/
  | schedulePump
  /-- `cancelTask`. -/
  | notifyWaiters (taskId : String)
  /-- `recoverAfterRestart`, at a task. -/
  | recovering (index : Nat)
  /-- `pump`, after it failed the task at `index`. -/
  | pumpFailed (index : Nat) (taskId : String)
  /-- `executeTask` after `started`, called from `pump`. -/
  | started (index : Nat) (controller : Nat)
  /-- `startTask` once `executeTask` has returned, where the executor threw
  at once. -/
  | entering (index : Nat) (controller : Nat)
  /-- `executeTask` before its `finally` block. -/
  | finishing (controller : Nat)
  /-- The executor's `onProgress`. -/
  | returning
deriving Repr, DecidableEq

namespace TaskSupervisor

variable (s : TaskSupervisor)

/-! ## Helpers -/

/-- The constructor: `loaded` is what the repository has. -/
def create (maxConcurrent : Option Nat) (loaded : List TaskRecord) : TaskSupervisor where
  maxConcurrent := max 1 (maxConcurrent.getD 4)
  tasks := loaded.foldl (fun m task => m.set task.id task) .empty
  running := .empty
  waiters := .empty
  pumpQueued := false
  shuttingDown := false
  executions := []
  nextController := 0
  nextWaiter := 0
  settledWaiters := []
  events := []

def statusOf (taskId : String) : Option TaskStatus := (s.tasks.get taskId).map (·.status)

def modifyTask (taskId : String) (f : TaskRecord → TaskRecord) : TaskSupervisor :=
  match s.tasks.get taskId with
  | none => s
  | some task => { s with tasks := s.tasks.set taskId (f task) }

def transition (taskId : String) (status : TaskStatus)
    (updates : TaskRecord → TaskRecord) : TaskSupervisor :=
  s.modifyTask taskId fun task => { updates task with status }

def emit (taskId : String) (eventType : TaskEventType) (message : Option String) :
    TaskSupervisor :=
  match s.tasks.get taskId with
  | none => s
  | some task =>
      { s with events := s.events ++ [⟨eventType, taskId, task.status, message, task.attempt⟩] }

def schedulePump : TaskSupervisor :=
  if s.pumpQueued || s.shuttingDown then s else { s with pumpQueued := true }

/-- Resolve the promises waiting for a task. -/
def notifyWaiters (taskId : String) : TaskSupervisor :=
  match s.waiters.get taskId with
  | none => s
  | some taskWaiters =>
      { s with
        waiters := s.waiters.delete taskId
        settledWaiters := s.settledWaiters ++
          taskWaiters.map fun w => (w, (s.statusOf taskId).getD .queued) }

def modifyExecution (controller : Nat) (f : Execution → Execution) : TaskSupervisor :=
  { s with executions := s.executions.map fun x => if x.controller = controller then f x else x }

/-- `controller.abort(reason)`: the first reason stays. -/
def abort (controller : Nat) (reason : String) : TaskSupervisor :=
  s.modifyExecution controller fun x => { x with aborted := x.aborted.or (some reason) }

def executionOf (controller : Nat) : Option Execution :=
  s.executions.find? fun x => x.controller = controller

/-! ## Methods -/

/-- `spawnTask`; `id` is the random identifier. An unknown parent or
dependency throws. -/
def spawnTask (options : SpawnTaskOptions) (id : String) : TaskSupervisor × List TaskFrame :=
  let parent := options.parentTaskId.filter fun p => p ≠ ""
  if parent.any fun p => !s.tasks.has p then (s, [])
  else if options.dependencies.any fun dependency => !s.tasks.has dependency then (s, [])
  else
    let task : TaskRecord :=
      { id
        parentTaskId := options.parentTaskId
        childTaskIds := []
        dependencies := options.dependencies
        status := .queued
        timeoutMs := options.timeoutMs
        attempt := 0
        maxAttempts := max 1 (options.maxAttempts.getD 1)
        error := none
        result := none }
    let added := { s with tasks := s.tasks.set id task }
    let linked := match parent with
      | none => added
      | some p => added.modifyTask p fun t => { t with childTaskIds := t.childTaskIds ++ [id] }
    (linked.emit id .created none, [.schedulePump])

def cancelTask (taskId : String) : TaskSupervisor × List TaskFrame :=
  match s.tasks.get taskId with
  | none => (s, [])
  | some task =>
      if task.status.terminal then (s, [])
      else if task.status = .running then
        match s.running.get taskId with
        | none => (s, [])
        | some controller => (s.abort controller "Task cancelled", [])
      else
        ((s.transition taskId .cancelled fun t => { t with error := some "Task cancelled" }).emit
          taskId .cancelled none, [.notifyWaiters taskId])

def retryTask (taskId : String) : TaskSupervisor × List TaskFrame :=
  match s.tasks.get taskId with
  | none => (s, [])
  | some task =>
      if !task.status.terminal || task.status = .completed then (s, [])
      else
        ((s.transition taskId .queued fun t =>
            { t with maxAttempts := max t.maxAttempts (t.attempt + 1), error := none }).emit
          taskId .retrying (some "Explicit retry requested"), [.schedulePump])

/-- The promise stays open while the task is not terminal. -/
def waitForTask (taskId : String) : TaskSupervisor :=
  match s.tasks.get taskId with
  | none => s
  | some task =>
      if task.status.terminal then
        { s with
          nextWaiter := s.nextWaiter + 1
          settledWaiters := s.settledWaiters ++ [(s.nextWaiter, task.status)] }
      else
        { s with
          nextWaiter := s.nextWaiter + 1
          waiters := s.waiters.set taskId ((s.waiters.get taskId).getD [] ++ [s.nextWaiter]) }

/-- The timer of a `waitForTask` rejects its promise. -/
def waiterTimedOut (taskId : String) (waiter : Nat) : TaskSupervisor :=
  match s.waiters.get taskId with
  | none => s
  | some taskWaiters =>
      { s with waiters := s.waiters.set taskId (taskWaiters.filter fun w => w ≠ waiter) }

/-- The loop of `recoverAfterRestart` over the `n` tasks from `index` on. -/
def recoverLoop : Nat → Nat → TaskSupervisor → TaskSupervisor × List TaskFrame
  | 0, _, s => (s.schedulePump, [])
  | n + 1, index, s =>
      match s.tasks.entries[index]? with
      | none => (s.schedulePump, [])
      | some (taskId, task) =>
          if task.status = .running then
            ((s.transition taskId .queued fun t => { t with error := none }).emit taskId
              .recovered (some "Recovered after orchestrator restart"), [.recovering (index + 1)])
          else recoverLoop n (index + 1) s

def recoverFrom (index : Nat) : TaskSupervisor × List TaskFrame :=
  recoverLoop (s.tasks.size - index) index s

def recoverAfterRestart : TaskSupervisor × List TaskFrame :=
  recoverFrom { s with shuttingDown := false } 0

/-- `shutdown` up to its `await`. -/
def shutdown : TaskSupervisor :=
  s.running.values.foldl (fun s controller => s.abort controller "Orchestrator shutting down")
    { s with shuttingDown := true }

/-! ## The pump -/

/-- `startTask`, `executeTask` up to the `started` event. -/
def startTask (index : Nat) (taskId : String) : TaskSupervisor × List TaskFrame :=
  let begun := { s with
    nextController := s.nextController + 1
    executions := s.executions ++ [Execution.begin s.nextController taskId] }
  ((begun.transition taskId .running fun t =>
      { t with attempt := t.attempt + 1, error := none }).emit taskId .started none,
    [.started index s.nextController])

/-- The loop of `pump` over the `n` tasks from `index` on. -/
def pumpLoop : Nat → Nat → TaskSupervisor → TaskSupervisor × List TaskFrame
  | 0, _, s => (s, [])
  | n + 1, index, s =>
      match s.tasks.entries[index]? with
      | none => (s, [])
      | some (taskId, task) =>
          if s.maxConcurrent ≤ s.running.size then (s, [])
          else if task.status ≠ .queued ∧ task.status ≠ .waiting then pumpLoop n (index + 1) s
          else if task.dependencies.any fun d =>
              (s.statusOf d).all fun st => st.terminal && st ≠ .completed then
            ((s.transition taskId .failed fun t =>
                { t with error := some "A dependency did not complete successfully" }).emit
              taskId .failed (some "A dependency did not complete successfully"),
              [.pumpFailed index taskId])
          else if task.dependencies.any fun d => s.statusOf d ≠ some .completed then
            pumpLoop n (index + 1)
              (if task.status ≠ .waiting then s.transition taskId .waiting id else s)
          else s.startTask index taskId

def pumpFrom (index : Nat) : TaskSupervisor × List TaskFrame :=
  pumpLoop (s.tasks.size - index) index s

/-- The microtask of `schedulePump`. -/
def pump : TaskSupervisor × List TaskFrame :=
  let s := { s with pumpQueued := false }
  if s.shuttingDown then (s, []) else s.pumpFrom 0

/-! ## Executions -/

/-- `text.includes(part)`. -/
def includes (text part : String) : Bool := decide (part.toList <:+: text.toList)

def handleFailure (taskId : String) (task : TaskRecord) (status : TaskStatus)
    (message : String) : TaskSupervisor :=
  if task.attempt < task.maxAttempts then
    (s.transition taskId .queued fun t => { t with error := some message }).emit taskId
      .retrying (some message)
  else
    (s.transition taskId status fun t => { t with error := some message }).emit taskId
      .failed (some message)

/-- The `catch` block of `executeTask`. -/
def caught (x : Execution) (message : String) : TaskSupervisor :=
  match s.tasks.get x.taskId with
  | none => s
  | some task =>
      if s.shuttingDown then
        (s.transition x.taskId .queued fun t => { t with error := none }).emit x.taskId
          .recovered (some "Queued for restart recovery")
      else if x.aborted.isSome && includes message "timed out" then
        s.handleFailure x.taskId task .timedOut message
      else if x.aborted.isSome then
        (s.transition x.taskId .cancelled fun t => { t with error := some message }).emit x.taskId
          .cancelled (some message)
      else s.handleFailure x.taskId task .failed message

def setPhase (controller : Nat) (phase : Phase) : TaskSupervisor :=
  s.modifyExecution controller fun x => { x with phase }

/-- After the executor settled, up to the event. -/
def continueTask (x : Execution) : RunOutcome → TaskSupervisor
  | .returned summary =>
      ((s.setPhase x.controller .finishing).transition x.taskId .completed fun t =>
        { t with result := some summary }).emit x.taskId .completed (some summary)
  | .threw message => (s.setPhase x.controller .finishing).caught x message

/-- The `finally` block of `executeTask`. -/
def finishTask (controller : Nat) : TaskSupervisor :=
  match s.executionOf controller with
  | none => s
  | some x =>
      let done := s.setPhase controller .finished
      if (done.statusOf x.taskId).any (·.terminal) then done.notifyWaiters x.taskId else done

/-- `this.running.set(task.id, ...)`. -/
def enter (controller : Nat) : TaskSupervisor :=
  match s.executionOf controller with
  | none => s
  | some x =>
      { s.modifyExecution controller fun x => { x with entered := true } with
        running := s.running.set x.taskId controller }

/-- The `finally` callback of `startTask`. -/
def finallyCallback (x : Execution) : TaskSupervisor :=
  schedulePump { s with
    running := s.running.delete x.taskId
    executions := s.executions.filter fun y => y.controller ≠ x.controller }

/-- Take a method up after an emission. `thrown` is what the executor threw
at once, for the frame that calls it. -/
def resume (thrown : Option String) : TaskFrame → TaskSupervisor × List TaskFrame
  | .schedulePump => (s.schedulePump, [])
  | .notifyWaiters taskId => (s.notifyWaiters taskId, [])
  | .recovering index => s.recoverFrom index
  | .pumpFailed index taskId => (s.notifyWaiters taskId).pumpFrom (index + 1)
  | .started index controller =>
      match thrown with
      | none => (s.enter controller).pumpFrom (index + 1)
      | some message =>
          match s.executionOf controller with
          | none => (s, [])
          | some x =>
              (s.continueTask x (.threw message),
                [.finishing controller, .entering index controller])
  | .entering index controller => (s.enter controller).pumpFrom (index + 1)
  | .finishing controller => (s.finishTask controller, [])
  | .returning => (s, [])

end TaskSupervisor

/-! ## The machine -/

/-- A supervisor, and what is suspended in it at emissions, the last one
first. -/
structure TaskConfig where
  sup : TaskSupervisor
  stack : List TaskFrame

inductive TaskAction where
  /-- Calls, from anywhere. -/
  | spawnTask (options : SpawnTaskOptions) (id : String)
  | cancelTask (taskId : String)
  | retryTask (taskId : String)
  | waitForTask (taskId : String)
  | recoverAfterRestart
  | shutdown
  | progress (taskId : String) (message : String)
  /-- The listeners return. -/
  | resume (thrown : Option String)
  /-- Microtasks. -/
  | pump
  | continueTask (controller : Nat)
  | finallyCallback (controller : Nat)
  /-- The executor settles. -/
  | settle (controller : Nat) (outcome : RunOutcome)
  /-- Timers. -/
  | taskTimedOut (controller : Nat)
  | waiterTimedOut (taskId : String) (waiter : Nat)
deriving Repr, DecidableEq

namespace TaskConfig

/-- A call on top of the stack. -/
def push (c : TaskConfig) (r : TaskSupervisor × List TaskFrame) : TaskConfig :=
  ⟨r.1, r.2 ++ c.stack⟩

def timeoutMessage (timeoutMs : Nat) : String := s!"Task timed out after {timeoutMs}ms"

def step (c : TaskConfig) : TaskAction → Option TaskConfig
  | .spawnTask options id =>
      if c.sup.tasks.has id then none else some (c.push (c.sup.spawnTask options id))
  | .cancelTask taskId => some (c.push (c.sup.cancelTask taskId))
  | .retryTask taskId => some (c.push (c.sup.retryTask taskId))
  | .waitForTask taskId => some (c.push (c.sup.waitForTask taskId, []))
  | .recoverAfterRestart => some (c.push c.sup.recoverAfterRestart)
  | .shutdown => some (c.push (c.sup.shutdown, []))
  | .progress taskId message =>
      some (c.push (c.sup.emit taskId .progress (some message), [.returning]))
  | .resume thrown =>
      match c.stack with
      | [] => none
      | frame :: rest => some (push ⟨c.sup, rest⟩ (c.sup.resume thrown frame))
  | .pump =>
      if c.stack.isEmpty && c.sup.pumpQueued then some (c.push c.sup.pump) else none
  | .continueTask controller =>
      match c.stack, c.sup.executionOf controller with
      | [], some x =>
          match x.phase with
          | .settled outcome =>
              some (c.push (c.sup.continueTask x outcome, [.finishing controller]))
          | _ => none
      | _, _ => none
  | .finallyCallback controller =>
      match c.stack, c.sup.executionOf controller with
      | [], some x =>
          if x.phase = .finished then some (c.push (c.sup.finallyCallback x, [])) else none
      | _, _ => none
  | .settle controller outcome =>
      match c.stack, c.sup.executionOf controller with
      | [], some x =>
          if x.phase = .running then
            some (c.push (c.sup.setPhase controller (.settled outcome), []))
          else none
      | _, _ => none
  | .taskTimedOut controller =>
      match c.stack, c.sup.executionOf controller with
      | [], some x =>
          match (c.sup.tasks.get x.taskId).bind (·.timeoutMs) with
          | none => none
          | some timeoutMs =>
              if timeoutMs ≠ 0 ∧ x.phase.awaiting then
                some (c.push (c.sup.abort controller (timeoutMessage timeoutMs), []))
              else none
      | _, _ => none
  | .waiterTimedOut taskId waiter =>
      if c.stack.isEmpty then some (c.push (c.sup.waiterTimedOut taskId waiter, [])) else none

end TaskConfig

end Eagent
