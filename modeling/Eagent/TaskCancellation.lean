import Eagent.TaskProgress

/-!
# A cancelled task is not started again

`cancelTask` of a running task only aborts the controller it finds in the
map; the intent is derived again from the error text and the shutdown flag
when the executor settles. `Stopped` is what lasts: the task is running or
closed, and all its executions in flight are aborted. `Spares` is what a
method does to one task when it neither puts it back nor starts it.
-/

namespace Eagent

namespace TaskSupervisor

/-! ## Starts -/

/-- The `started` events of a task. -/
def startsOf (s : TaskSupervisor) (id : String) : List TaskEvent :=
  s.events.filter fun e => e.eventType = .started ∧ e.taskId = id

def InFlight (s : TaskSupervisor) (id : String) (x : Execution) : Prop :=
  x ∈ s.executions ∧ x.taskId = id ∧ x.phase.awaiting = true

/-- A task that is running or closed, and whose executions in flight are all
aborted. -/
structure Stopped (s : TaskSupervisor) (id : String) : Prop where
  closed : ∀ status, s.statusOf id = some status → ¬ status.Open
  aborted : ∀ x, s.InFlight id x → x.aborted.isSome = true

/-- The task is not put back, and no execution of it is started or loses its
abort. -/
structure Spares (id : String) (s s' : TaskSupervisor) : Prop where
  status : ∀ status, s'.statusOf id = some status →
    s.statusOf id = some status ∨ ¬ status.Open
  inFlight : ∀ x, s'.InFlight id x →
    ∃ y, s.InFlight id y ∧ (y.aborted.isSome = true → x.aborted.isSome = true)
  starts : s'.startsOf id = s.startsOf id

variable {id : String} {s s' s'' : TaskSupervisor}

namespace Spares

theorem refl (id : String) (s : TaskSupervisor) : Spares id s s :=
  ⟨fun _ h => .inl h, fun x hx => ⟨x, hx, fun h => h⟩, rfl⟩

theorem trans (h : Spares id s s') (h' : Spares id s' s'') : Spares id s s'' := by
  refine ⟨?_, ?_, h'.starts.trans h.starts⟩
  · intro status hstatus
    rcases h'.status status hstatus with hmid | hclosed
    · exact h.status status hmid
    · exact .inr hclosed
  · intro x hx
    obtain ⟨y, hy, hxy⟩ := h'.inFlight x hx
    obtain ⟨z, hz, hyz⟩ := h.inFlight y hy
    exact ⟨z, hz, fun hz => hxy (hyz hz)⟩

/-- Only fields that say nothing about a task. -/
theorem of_eq (htasks : s'.tasks = s.tasks) (hexecutions : s'.executions = s.executions)
    (hevents : s'.events = s.events) : Spares id s s' := by
  refine ⟨?_, ?_, ?_⟩
  · intro status hstatus
    rw [statusOf, htasks] at hstatus
    exact .inl hstatus
  · intro x hx
    rw [InFlight, hexecutions] at hx
    exact ⟨x, hx, fun h => h⟩
  · rw [startsOf, startsOf, hevents]

end Spares

theorem Stopped.spares (h : s.Stopped id) (hspares : Spares id s s') : s'.Stopped id := by
  refine ⟨?_, ?_⟩
  · intro status hstatus
    rcases hspares.status status hstatus with hsame | hclosed
    · exact h.closed status hsame
    · exact hclosed
  · intro x hx
    obtain ⟨y, hy, hxy⟩ := hspares.inFlight x hx
    exact hxy (h.aborted y hy)

/-! ## What each method does to a task -/

section Methods

variable (id : String) (s : TaskSupervisor)

variable {taskId : String}

theorem spares_modifyTask {f : TaskRecord → TaskRecord}
    (h : ∀ t, taskId = id → (f t).status = t.status ∨ ¬ (f t).status.Open) :
    Spares id s (s.modifyTask taskId f) := by
  unfold modifyTask
  split
  · exact .refl id s
  · rename_i task hget
    refine ⟨?_, fun x hx => ⟨x, hx, fun h => h⟩, rfl⟩
    intro status hstatus
    rw [statusOf, OrdMap.get_set] at hstatus
    split at hstatus
    · rename_i hid
      obtain rfl := Option.some.inj hstatus
      rcases h task hid.symm with hsame | hclosed
      · refine .inl ?_
        show s.statusOf id = some (f task).status
        rw [hsame, hid, statusOf, hget]
        rfl
      · exact .inr hclosed
    · exact .inl hstatus

/-- Another task changes, or this one is closed. -/
theorem spares_transition {status : TaskStatus} (f : TaskRecord → TaskRecord)
    (h : taskId = id → ¬ status.Open) : Spares id s (s.transition taskId status f) :=
  s.spares_modifyTask id fun _ heq => .inr (h heq)

theorem spares_emit {eventType : TaskEventType} (message : Option String)
    (h : taskId = id → eventType ≠ .started) : Spares id s (s.emit taskId eventType message) := by
  refine ⟨?_, ?_, ?_⟩
  · intro status hstatus
    rw [statusOf, tasks_emit] at hstatus
    exact .inl hstatus
  · intro x hx
    rw [InFlight, executions_emit] at hx
    exact ⟨x, hx, fun h => h⟩
  · unfold startsOf emit
    split
    · rfl
    · rw [List.filter_append, List.filter_cons_of_neg, List.filter_nil, List.append_nil]
      intro hboth
      obtain ⟨htype, hid⟩ := of_decide_eq_true hboth
      exact h hid htype

theorem spares_change {status : TaskStatus} (f : TaskRecord → TaskRecord)
    {eventType : TaskEventType} (message : Option String) (h : taskId = id → ¬ status.Open)
    (htype : eventType ≠ .started) :
    Spares id s ((s.transition taskId status f).emit taskId eventType message) :=
  (s.spares_transition id f h).trans (spares_emit _ _ message fun _ => htype)

theorem spares_schedulePump : Spares id s s.schedulePump := by
  unfold schedulePump
  split
  · exact .refl id s
  · exact .of_eq rfl rfl rfl

theorem spares_notifyWaiters (taskId : String) : Spares id s (s.notifyWaiters taskId) := by
  unfold notifyWaiters
  split
  · exact .refl id s
  · exact .of_eq rfl rfl rfl

/-- No execution gets back in flight. -/
theorem spares_modifyExecution (k : Nat) {f : Execution → Execution}
    (htask : ∀ x, (f x).taskId = x.taskId)
    (hphase : ∀ x ∈ s.executions, x.controller = k → (f x).phase.awaiting = true →
      x.phase.awaiting = true)
    (haborted : ∀ x, x.aborted.isSome = true → (f x).aborted.isSome = true) :
    Spares id s (s.modifyExecution k f) := by
  refine ⟨fun _ h => .inl h, ?_, rfl⟩
  rintro x ⟨hx, hid, hawaiting⟩
  obtain ⟨y, hy, rfl⟩ := List.mem_map.mp hx
  by_cases hk : y.controller = k
  · rw [if_pos hk] at hid hawaiting ⊢
    exact ⟨y, ⟨hy, (htask y).symm.trans hid, hphase y hy hk hawaiting⟩, haborted y⟩
  · rw [if_neg hk] at hid hawaiting ⊢
    exact ⟨y, ⟨hy, hid, hawaiting⟩, fun h => h⟩

theorem spares_abort (k : Nat) (reason : String) : Spares id s (s.abort k reason) := by
  refine s.spares_modifyExecution id k (fun _ => rfl) (fun _ _ _ h => h) ?_
  intro x hx
  show (x.aborted.or (some reason)).isSome = true
  rw [Option.isSome_or, hx]
  rfl

theorem spares_setPhase (k : Nat) (phase : Phase) (h : phase.awaiting = false) :
    Spares id s (s.setPhase k phase) := by
  refine s.spares_modifyExecution id k (fun _ => rfl) ?_ fun _ hx => hx
  intro x _ _ hawaiting
  cases h.symm.trans hawaiting

theorem spares_enter (k : Nat) : Spares id s (s.enter k) := by
  unfold enter
  split
  · exact .refl id s
  · have hentered := s.spares_modifyExecution id k (f := fun x => { x with entered := true })
      (fun _ => rfl) (fun _ _ _ h => h) fun _ h => h
    exact hentered.trans (.of_eq rfl rfl rfl)

theorem spares_finishTask (k : Nat) : Spares id s (s.finishTask k) := by
  unfold finishTask
  split
  · exact .refl id s
  · have hphase := s.spares_setPhase id k .finished rfl
    dsimp only
    split
    · exact hphase.trans (spares_notifyWaiters ..)
    · exact hphase

theorem spares_finallyCallback (x : Execution) : Spares id s (s.finallyCallback x) := by
  unfold finallyCallback
  refine Spares.trans ?_ (spares_schedulePump ..)
  refine ⟨fun _ h => .inl h, ?_, rfl⟩
  rintro y ⟨hy, hid, hawaiting⟩
  exact ⟨y, ⟨(List.mem_filter.mp hy).1, hid, hawaiting⟩, fun h => h⟩

theorem spares_waitForTask (taskId : String) : Spares id s (s.waitForTask taskId) := by
  unfold waitForTask
  split
  · exact .refl id s
  · split
    · exact .of_eq rfl rfl rfl
    · exact .of_eq rfl rfl rfl

theorem spares_waiterTimedOut (taskId : String) (waiter : Nat) :
    Spares id s (s.waiterTimedOut taskId waiter) := by
  unfold waiterTimedOut
  split
  · exact .refl id s
  · exact .of_eq rfl rfl rfl

theorem spares_shutdown : Spares id s s.shutdown := by
  have hfold : ∀ (controllers : List Nat) (t : TaskSupervisor), Spares id t
      (controllers.foldl (fun s k => s.abort k "Orchestrator shutting down") t) := by
    intro controllers
    induction controllers with
    | nil => exact Spares.refl id
    | cons k rest ih => exact fun t => (t.spares_abort id k _).trans (ih _)
  have hflag : Spares id s { s with shuttingDown := true } := .of_eq rfl rfl rfl
  exact hflag.trans (hfold _ _)

theorem spares_cancelTask (taskId : String) : Spares id s (s.cancelTask taskId).1 := by
  unfold cancelTask
  split
  · exact .refl id s
  · split
    · exact .refl id s
    · split
      · split
        · exact .refl id s
        · exact s.spares_abort id _ _
      · exact s.spares_change id _ _ (fun _ => by decide) (by decide)

theorem spares_retryTask (h : taskId ≠ id) :
    Spares id s (s.retryTask taskId).1 := by
  unfold retryTask
  split
  · exact .refl id s
  · split
    · exact .refl id s
    · exact s.spares_change id _ _ (fun heq => absurd heq h) (by decide)

theorem spares_spawnTask (options : SpawnTaskOptions) (h : taskId ≠ id) :
    Spares id s (s.spawnTask options taskId).1 := by
  unfold spawnTask
  dsimp only
  split
  · exact .refl id s
  · split
    · exact .refl id s
    · refine Spares.trans ?_ (spares_emit _ _ _ fun _ => by decide)
      have hset : ∀ task, Spares id s { s with tasks := s.tasks.set taskId task } := by
        intro task
        refine ⟨?_, fun x hx => ⟨x, hx, fun h => h⟩, rfl⟩
        intro status hstatus
        rw [statusOf, OrdMap.get_set_ne _ (Ne.symm h)] at hstatus
        exact .inl hstatus
      split
      · exact hset _
      · refine Spares.trans ?_ (spares_modifyTask _ _ fun _ _ => .inl rfl)
        exact hset _

/-- The loop puts back the running tasks from `index` on. -/
theorem spares_recoverLoop (n index : Nat)
    (h : ∀ e ∈ s.tasks.entries.drop index, e.1 = id → e.2.status ≠ .running) :
    Spares id s (recoverLoop n index s).1 := by
  induction n generalizing index with
  | zero => exact s.spares_schedulePump id
  | succ n ih =>
    unfold recoverLoop
    split
    · exact s.spares_schedulePump id
    · rename_i taskId task hentry
      have hmem : (taskId, task) ∈ s.tasks.entries.drop index := by
        refine List.mem_of_getElem? (i := 0) ?_
        rw [List.getElem?_drop]
        exact hentry
      split
      · rename_i hrunning
        refine s.spares_change id _ _ (fun heq => absurd hrunning (h _ hmem heq)) (by decide)
      · refine ih (index + 1) fun e he => h e ?_
        rw [← List.drop_drop] at he
        exact List.mem_of_mem_drop he

theorem keys_pumpLoop (n index : Nat) : (pumpLoop n index s).1.tasks.keys = s.tasks.keys := by
  induction n generalizing index s with
  | zero => rfl
  | succ n ih =>
    unfold pumpLoop
    split
    · rfl
    · split
      · rfl
      · split
        · exact ih s (index + 1)
        · split
          · rw [tasks_emit, keys_transition]
          · split
            · split
              · rw [ih, keys_transition]
              · exact ih s (index + 1)
            · rw [keys_startTask]

theorem spares_pumpLoop (n index : Nat)
    (h : ∀ status, s.statusOf id = some status → ¬ status.Open) :
    Spares id s (pumpLoop n index s).1 := by
  induction n generalizing index s with
  | zero => exact .refl id s
  | succ n ih =>
    unfold pumpLoop
    split
    · exact .refl id s
    · rename_i taskId task hentry
      split
      · exact .refl id s
      · split
        · exact ih s (index + 1) h
        · rename_i hopen
          -- the task the pump deals with is another one
          have hne : taskId ≠ id := by
            rintro rfl
            have hget : s.tasks.get taskId = some task :=
              OrdMap.get_eq_some.mpr (List.mem_of_getElem? hentry)
            have hclosed := h task.status (by rw [statusOf, hget]; rfl)
            exact hopen (not_or.mp hclosed)
          split
          · exact s.spares_change id _ _ (fun _ => by decide) (by decide)
          · split
            · split
              · have hwaiting : Spares id s (s.transition taskId .waiting fun t => t) :=
                  s.spares_transition id _ fun heq => absurd heq hne
                refine hwaiting.trans (ih _ (index + 1) ?_)
                intro status hstatus
                rcases hwaiting.status status hstatus with hsame | hclosed
                · exact h status hsame
                · exact hclosed
              · exact ih s (index + 1) h
            · unfold startTask
              dsimp only
              refine Spares.trans ?_ (spares_emit _ _ _ fun heq => absurd heq hne)
              refine Spares.trans ?_ (spares_transition _ _ _ fun heq => absurd heq hne)
              refine ⟨fun _ h => .inl h, ?_, rfl⟩
              rintro x ⟨hx, hid, hawaiting⟩
              rcases List.mem_append.mp hx with hx | hx
              · exact ⟨x, ⟨hx, hid, hawaiting⟩, fun h => h⟩
              · obtain rfl := List.mem_singleton.mp hx
                exact absurd hid hne

/-- The `catch` block closes the aborted task `id`: it neither recovers it nor
retries it after a time-out. -/
def ClosedBy (message : String) : Prop :=
  s.shuttingDown = false ∧ ¬ (includes message "timed out" = true ∧
    (s.tasks.get id).any (fun t => decide (t.attempt < t.maxAttempts)) = true)

theorem spares_caught {x : Execution} (message : String)
    (h : x.taskId = id → x.aborted.isSome = true ∧ s.ClosedBy id message) :
    Spares id s (s.caught x message) := by
  unfold caught
  split
  · exact .refl id s
  · rename_i task hget
    have hfailure : ∀ status, ¬ status.Open →
        (x.taskId = id → ¬ task.attempt < task.maxAttempts) →
        Spares id s (s.handleFailure x.taskId task status message) := by
      intro status hclosed hattempt
      unfold handleFailure
      split
      · rename_i hleft
        exact s.spares_change id _ _ (fun heq => absurd hleft (hattempt heq)) (by decide)
      · exact s.spares_change id _ _ (fun _ => hclosed) (by decide)
    split
    · rename_i hshutting
      refine s.spares_change id _ _ (fun heq => ?_) (by decide)
      cases (h heq).2.1.symm.trans hshutting
    · split
      · rename_i htimed
        refine hfailure _ (by decide) fun heq hleft => (h heq).2.2 ⟨?_, ?_⟩
        · exact (Bool.and_eq_true_iff.mp htimed).2
        · rw [heq] at hget
          rw [hget]
          exact decide_eq_true hleft
      · split
        · exact s.spares_change id _ _ (fun _ => by decide) (by decide)
        · rename_i hnot
          exact hfailure _ (by decide) fun heq => absurd (h heq).1 hnot

theorem spares_continueTask {x : Execution} (outcome : RunOutcome)
    (h : ∀ message, outcome = .threw message → x.taskId = id →
      x.aborted.isSome = true ∧ s.ClosedBy id message) :
    Spares id s (s.continueTask x outcome) := by
  have hphase := s.spares_setPhase id x.controller .finishing rfl
  cases outcome with
  | returned summary => exact hphase.trans (spares_change _ _ _ _ (fun _ => by decide) (by decide))
  | threw message => exact hphase.trans (spares_caught _ _ message (h message rfl))

end Methods

end TaskSupervisor

/-! ## What is suspended -/

/-- A frame of a call that can be made at any time. -/
def TaskFrame.isCall : TaskFrame → Bool
  | .schedulePump | .notifyWaiters _ | .recovering _ | .returning => true
  | _ => false

/-- Calls stand on top of at most one microtask: the pump, whose execution
has just begun or is about to be entered, or the end of an execution. -/
inductive Shaped (executions : List Execution) : List TaskFrame → Prop
  | nil : Shaped executions []
  | call {f : TaskFrame} {rest : List TaskFrame} (hf : f.isCall = true)
      (h : Shaped executions rest) : Shaped executions (f :: rest)
  | failed (index : Nat) (taskId : String) : Shaped executions [.pumpFailed index taskId]
  | started (index k : Nat)
      (h : ∀ x ∈ executions, x.controller = k → x.phase = .running) :
      Shaped executions [.started index k]
  | entering (index k : Nat) : Shaped executions [.entering index k]
  | threw (index k : Nat) : Shaped executions [.finishing k, .entering index k]
  | finishing (k : Nat) : Shaped executions [.finishing k]

/-- No execution gets out of `running`. -/
def KeepsRunning (executions executions' : List Execution) : Prop :=
  ∀ x ∈ executions', ∃ y ∈ executions, y.controller = x.controller ∧
    (y.phase = .running → x.phase = .running)

theorem KeepsRunning.refl (executions : List Execution) : KeepsRunning executions executions :=
  fun x hx => ⟨x, hx, rfl, fun h => h⟩

namespace Shaped

variable {executions executions' : List Execution} {stack : List TaskFrame}

theorem mono (h : Shaped executions stack) (hkeeps : KeepsRunning executions executions') :
    Shaped executions' stack := by
  induction h with
  | nil => exact .nil
  | call hf _ ih => exact .call hf ih
  | failed index taskId => exact .failed index taskId
  | started index k h =>
    refine .started index k fun x hx hk => ?_
    obtain ⟨y, hy, hyx, hphase⟩ := hkeeps x hx
    exact hphase (h y hy (hyx.trans hk))
  | entering index k => exact .entering index k
  | threw index k => exact .threw index k
  | finishing k => exact .finishing k

theorem calls {frames : List TaskFrame} (h : Shaped executions stack)
    (hframes : ∀ f ∈ frames, f.isCall = true) : Shaped executions (frames ++ stack) := by
  induction frames with
  | nil => exact h
  | cons f rest ih =>
    exact .call (hframes f (List.mem_cons_self ..))
      (ih fun g hg => hframes g (List.mem_cons_of_mem _ hg))

/-- Below a frame of the pump, or of an execution that ends on its own,
nothing is suspended. -/
theorem alone {f : TaskFrame} {rest : List TaskFrame} (h : Shaped executions (f :: rest))
    (hf : f.isPump = true) : rest = [] := by
  cases h with
  | call hcall => cases f <;> first | exact absurd hf Bool.false_ne_true | exact absurd hcall Bool.false_ne_true
  | threw index k => cases hf
  | _ => rfl

end Shaped

namespace TaskSupervisor

variable (s : TaskSupervisor)

theorem keepsRunning_abort (k : Nat) (reason : String) :
    KeepsRunning s.executions (s.abort k reason).executions := by
  intro x hx
  obtain ⟨y, hy, rfl⟩ := List.mem_map.mp hx
  refine ⟨y, hy, ?_⟩
  split
  · exact ⟨rfl, fun h => h⟩
  · exact ⟨rfl, fun h => h⟩

theorem executions_notifyWaiters (taskId : String) :
    (s.notifyWaiters taskId).executions = s.executions := by
  unfold notifyWaiters
  split <;> rfl

theorem executions_schedulePump : s.schedulePump.executions = s.executions := by
  unfold schedulePump
  split <;> rfl

/-- The loop stops at most once, and an execution it has begun is
running. -/
theorem shaped_pumpLoop (n index : Nat) {s : TaskSupervisor}
    (hfresh : ∀ x ∈ s.executions, x.controller < s.nextController) :
    Shaped (pumpLoop n index s).1.executions (pumpLoop n index s).2 := by
  induction n generalizing index s with
  | zero => exact .nil
  | succ n ih =>
    unfold pumpLoop
    split
    · exact .nil
    · split
      · exact .nil
      · split
        · exact ih (index + 1) hfresh
        · split
          · exact .failed index _
          · split
            · split
              · refine ih (index + 1) ?_
                rw [executions_transition]
                unfold transition modifyTask
                split
                · exact hfresh
                · exact hfresh
              · exact ih (index + 1) hfresh
            · refine .started index s.nextController fun x hx hk => ?_
              unfold startTask at hx
              rw [executions_emit, executions_transition] at hx
              rcases List.mem_append.mp hx with hx | hx
              · exact absurd (hfresh x hx) (by omega)
              · rw [List.mem_singleton.mp hx]
                rfl

/-- A method that can be called at any time. -/
def Callable (s : TaskSupervisor) (r : TaskSupervisor × List TaskFrame) : Prop :=
  (∀ f ∈ r.2, f.isCall = true) ∧ KeepsRunning s.executions r.1.executions

theorem Callable.of_eq {s : TaskSupervisor} {r : TaskSupervisor × List TaskFrame}
    (hframes : ∀ f ∈ r.2, f.isCall = true) (hexecutions : r.1.executions = s.executions) :
    s.Callable r := ⟨hframes, hexecutions ▸ .refl _⟩

theorem Callable.silent {s s' : TaskSupervisor} (h : KeepsRunning s.executions s'.executions) :
    s.Callable (s', []) := ⟨fun _ hf => absurd hf List.not_mem_nil, h⟩

theorem Callable.same (s : TaskSupervisor) : s.Callable (s, []) := .silent (.refl _)

theorem callable_spawnTask (options : SpawnTaskOptions) (id : String) :
    s.Callable (s.spawnTask options id) := by
  unfold spawnTask
  dsimp only
  split
  · exact .same s
  · split
    · exact .same s
    · refine .of_eq (by simp [TaskFrame.isCall]) ?_
      rw [executions_emit]
      split
      · rfl
      · unfold modifyTask
        split <;> rfl

theorem callable_change (taskId : String) (status : TaskStatus) (f : TaskRecord → TaskRecord)
    (eventType : TaskEventType) (message : Option String) {frames : List TaskFrame}
    (hframes : ∀ f ∈ frames, f.isCall = true) :
    s.Callable ((s.transition taskId status f).emit taskId eventType message, frames) :=
  .of_eq hframes (by rw [executions_emit, executions_transition])

theorem callable_cancelTask (taskId : String) : s.Callable (s.cancelTask taskId) := by
  unfold cancelTask
  split
  · exact .same s
  · split
    · exact .same s
    · split
      · split
        · exact .same s
        · exact .silent (s.keepsRunning_abort _ _)
      · exact s.callable_change _ _ _ _ _ (by simp [TaskFrame.isCall])

theorem callable_retryTask (taskId : String) : s.Callable (s.retryTask taskId) := by
  unfold retryTask
  split
  · exact .same s
  · split
    · exact .same s
    · exact s.callable_change _ _ _ _ _ (by simp [TaskFrame.isCall])

theorem callable_recoverLoop (n index : Nat) : s.Callable (recoverLoop n index s) := by
  induction n generalizing index with
  | zero => exact .of_eq nofun s.executions_schedulePump
  | succ n ih =>
    unfold recoverLoop
    split
    · exact .of_eq nofun s.executions_schedulePump
    · split
      · exact s.callable_change _ _ _ _ _ (by simp [TaskFrame.isCall])
      · exact ih (index + 1)

theorem callable_shutdown : s.Callable (s.shutdown, []) := by
  have hfold : ∀ (controllers : List Nat) (t : TaskSupervisor), KeepsRunning t.executions
      (controllers.foldl (fun s k => s.abort k "Orchestrator shutting down") t).executions := by
    intro controllers
    induction controllers with
    | nil => exact fun t => .refl _
    | cons k rest ih =>
      intro t x hx
      obtain ⟨y, hy, hyx, hphase⟩ := ih (t.abort k _) x hx
      obtain ⟨z, hz, hzy, hphase'⟩ := t.keepsRunning_abort k _ y hy
      exact ⟨z, hz, hzy.trans hyx, fun h => hphase (hphase' h)⟩
  exact .silent (hfold _ _)

theorem callable_waitForTask (taskId : String) : s.Callable (s.waitForTask taskId, []) := by
  unfold waitForTask
  split
  · exact .same s
  · split
    · exact .silent (.refl _)
    · exact .silent (.refl _)

end TaskSupervisor

namespace TaskConfig

/-! ## Shapes of runs -/

theorem shaped_push {c : TaskConfig} {r : TaskSupervisor × List TaskFrame}
    (h : Shaped c.sup.executions c.stack) (hr : c.sup.Callable r) :
    Shaped (c.push r).sup.executions (c.push r).stack :=
  (h.mono hr.2).calls hr.1

/-- What follows an emission. -/
theorem shaped_resume {c : TaskConfig} {f : TaskFrame} {rest : List TaskFrame}
    (thrown : Option String) (h : Shaped c.sup.executions (f :: rest))
    (hfresh : ∀ x ∈ c.sup.executions, x.controller < c.sup.nextController) :
    Shaped (push ⟨c.sup, rest⟩ (c.sup.resume thrown f)).sup.executions
      (push ⟨c.sup, rest⟩ (c.sup.resume thrown f)).stack := by
  -- a call is followed by what was below it
  have hcall : ∀ r, f.isCall = true → c.sup.Callable r →
      Shaped (push ⟨c.sup, rest⟩ r).sup.executions (push ⟨c.sup, rest⟩ r).stack := by
    intro r hf hr
    cases h with
    | call _ hrest => exact shaped_push (c := ⟨c.sup, rest⟩) hrest hr
    | _ => cases hf
  have henter : ∀ k, ∀ x ∈ (c.sup.enter k).executions,
      x.controller < (c.sup.enter k).nextController := by
    intro k x hx
    have hmem := List.mem_map_of_mem (f := (·.controller)) hx
    rw [c.sup.controllers_enter] at hmem
    obtain ⟨y, hy, hyx⟩ := List.mem_map.mp hmem
    have hnext : (c.sup.enter k).nextController = c.sup.nextController := by
      unfold TaskSupervisor.enter
      split <;> rfl
    rw [hnext, ← hyx]
    exact hfresh y hy
  cases f with
  | schedulePump => exact hcall _ rfl (.of_eq nofun c.sup.executions_schedulePump)
  | notifyWaiters taskId =>
    exact hcall _ rfl (.of_eq nofun (c.sup.executions_notifyWaiters taskId))
  | recovering index => exact hcall _ rfl (c.sup.callable_recoverLoop _ _)
  | returning => exact hcall _ rfl (.same _)
  | pumpFailed index taskId =>
    obtain rfl := h.alone rfl
    have hnext : (c.sup.notifyWaiters taskId).nextController = c.sup.nextController := by
      unfold TaskSupervisor.notifyWaiters
      split <;> rfl
    rw [push, List.append_nil]
    refine TaskSupervisor.shaped_pumpLoop _ _ ?_
    rw [c.sup.executions_notifyWaiters, hnext]
    exact hfresh
  | started index k =>
    obtain rfl := h.alone rfl
    cases thrown with
    | none =>
      rw [push, List.append_nil]
      exact TaskSupervisor.shaped_pumpLoop _ _ (henter k)
    | some message =>
      cases hx : c.sup.executionOf k with
      | none =>
        have hresume : c.sup.resume (some message) (.started index k) = (c.sup, []) := by
          simp only [TaskSupervisor.resume, hx]
        rw [hresume]
        exact .nil
      | some x =>
        have hresume : c.sup.resume (some message) (.started index k) =
            (c.sup.continueTask x (.threw message), [.finishing k, .entering index k]) := by
          simp only [TaskSupervisor.resume, hx]
        rw [hresume]
        exact .threw index k
  | entering index k =>
    obtain rfl := h.alone rfl
    rw [push, List.append_nil]
    exact TaskSupervisor.shaped_pumpLoop _ _ (henter k)
  | finishing k =>
    cases h with
    | call hf => cases hf
    | threw index k => exact .entering index k
    | finishing k => exact .nil

theorem shaped_step {c c' : TaskConfig} {a : TaskAction} (h : Shaped c.sup.executions c.stack)
    (hfresh : ∀ x ∈ c.sup.executions, x.controller < c.sup.nextController)
    (hstep : c.step a = some c') : Shaped c'.sup.executions c'.stack := by
  cases took_of_step hstep with
  | @spawnTask options id _ => exact shaped_push h (c.sup.callable_spawnTask options id)
  | cancelTask taskId => exact shaped_push h (c.sup.callable_cancelTask taskId)
  | retryTask taskId => exact shaped_push h (c.sup.callable_retryTask taskId)
  | waitForTask taskId => exact shaped_push h (c.sup.callable_waitForTask taskId)
  | recoverAfterRestart =>
    exact shaped_push h
      (TaskSupervisor.callable_recoverLoop { c.sup with shuttingDown := false } _ _)
  | shutdown => exact shaped_push h c.sup.callable_shutdown
  | progress taskId message =>
    exact shaped_push h (.of_eq (by simp [TaskFrame.isCall]) (c.sup.executions_emit ..))
  | @resume thrown f rest hstack => exact shaped_resume thrown (hstack ▸ h) hfresh
  | pump hstack =>
    rw [push, hstack, List.append_nil]
    unfold TaskSupervisor.pump
    dsimp only
    split
    · exact .nil
    · exact TaskSupervisor.shaped_pumpLoop _ 0 hfresh
  | @continueTask k _ _ hstack =>
    rw [push, hstack]
    exact .finishing k
  | finallyCallback hstack =>
    rw [push, hstack]
    exact .nil
  | settle hstack =>
    rw [push, hstack]
    exact .nil
  | taskTimedOut k timeoutMs => exact shaped_push h (.silent (c.sup.keepsRunning_abort _ _))
  | waiterTimedOut taskId waiter hstack =>
    rw [push, hstack]
    exact .nil

/-! ## The task stays cancelled -/

/-- No task `id` is running from `index` on. -/
def NotRunningFrom (c : TaskConfig) (id : String) (index : Nat) : Prop :=
  ∀ e ∈ c.sup.tasks.entries.drop index, e.1 = id → e.2.status ≠ .running

/-- When an executor of task `id` throws `message`, the supervisor is not
shutting down, and the text does not say `timed out` while an attempt is
left. -/
def ThrowsForGood (c : TaskConfig) (id : String) (controller : Nat) (message : String) : Prop :=
  ∀ x ∈ c.sup.executionOf controller, x.taskId = id → c.sup.ClosedBy id message

/-- The task is not retried, not recovered while it is running, and its
executor does not throw what puts it back. -/
def StaysCancelled (id : String) (c : TaskConfig) : TaskAction → Prop
  | .retryTask taskId => taskId ≠ id
  | .recoverAfterRestart => c.NotRunningFrom id 0
  | .resume thrown =>
      match c.stack with
      | .recovering index :: _ => c.NotRunningFrom id index
      | .started _ controller :: _ => ∀ message ∈ thrown, c.ThrowsForGood id controller message
      | _ => True
  | .continueTask controller =>
      match (c.sup.executionOf controller).map Execution.phase with
      | some (.settled (.threw message)) => c.ThrowsForGood id controller message
      | _ => True
  | _ => True

/-- `cancelTask` reaches every execution of the task in flight that is not
aborted yet: the task is running and the map has the execution's
controller. -/
def InReach (c : TaskConfig) (id : String) : Prop :=
  ∀ x ∈ c.sup.executions, x.taskId = id → x.phase.awaiting = true → x.aborted.isSome = true ∨
    (c.sup.statusOf id = some .running ∧ c.sup.running.get id = some x.controller)

/-- What is kept of a cancelled task. -/
structure Cancelled (id : String) (c : TaskConfig) : Prop where
  numbered : Numbered c.sup.slots c.stack
  shaped : Shaped c.sup.executions c.stack
  known : id ∈ c.sup.tasks.keys
  stopped : c.sup.Stopped id

section Step

variable {id : String} {c c' : TaskConfig}

theorem Cancelled.spares_pumpFrom (h : Cancelled id c) {s : TaskSupervisor}
    (hspares : TaskSupervisor.Spares id c.sup s) (index : Nat) :
    TaskSupervisor.Spares id c.sup (s.pumpFrom index).1 :=
  hspares.trans (TaskSupervisor.spares_pumpLoop _ _ _ _ (h.stopped.spares hspares).closed)

theorem Cancelled.spares_resume (h : Cancelled id c) {f : TaskFrame} {rest : List TaskFrame}
    {thrown : Option String} (hstack : c.stack = f :: rest)
    (hok : StaysCancelled id c (.resume thrown)) :
    TaskSupervisor.Spares id c.sup (c.sup.resume thrown f).1 := by
  cases f with
  | schedulePump => exact c.sup.spares_schedulePump id
  | notifyWaiters taskId => exact c.sup.spares_notifyWaiters id taskId
  | recovering index =>
    have hrunning : c.NotRunningFrom id index := by
      simpa only [StaysCancelled, hstack] using hok
    exact c.sup.spares_recoverLoop id _ index hrunning
  | pumpFailed index taskId => exact h.spares_pumpFrom (c.sup.spares_notifyWaiters id taskId) _
  | started index k =>
    cases thrown with
    | none => exact h.spares_pumpFrom (c.sup.spares_enter id k) _
    | some message =>
      cases hx : c.sup.executionOf k with
      | none =>
        simp only [TaskSupervisor.resume, hx]
        exact .refl id _
      | some x =>
        have hthrows : c.ThrowsForGood id k message := by
          have hall : ∀ message' ∈ some message, c.ThrowsForGood id k message' := by
            simpa only [StaysCancelled, hstack] using hok
          exact hall message rfl
        obtain ⟨hmem, hk⟩ := TaskSupervisor.executionOf_eq_some hx
        simp only [TaskSupervisor.resume, hx]
        refine c.sup.spares_continueTask id _ fun message' hmessage heq => ?_
        obtain rfl := RunOutcome.threw.inj hmessage
        refine ⟨h.stopped.aborted x ⟨hmem, heq, ?_⟩, hthrows x hx heq⟩
        -- the execution has just begun
        have hshaped := h.shaped
        rw [hstack] at hshaped
        cases hshaped with
        | call hf => cases hf
        | started _ _ hrunning =>
          rw [hrunning x hmem hk]
          rfl
  | entering index k => exact h.spares_pumpFrom (c.sup.spares_enter id k) _
  | finishing k => exact c.sup.spares_finishTask id k
  | returning => exact .refl id _

theorem Cancelled.spares_step (h : Cancelled id c) {a : TaskAction}
    (hok : StaysCancelled id c a) (hstep : c.step a = some c') :
    TaskSupervisor.Spares id c.sup c'.sup := by
  cases took_of_step hstep with
  | @spawnTask options taskId hfresh =>
    refine c.sup.spares_spawnTask id options ?_
    rintro rfl
    exact hfresh (OrdMap.has_iff.mpr h.known)
  | cancelTask taskId => exact c.sup.spares_cancelTask id taskId
  | retryTask taskId => exact c.sup.spares_retryTask id hok
  | waitForTask taskId => exact c.sup.spares_waitForTask id taskId
  | recoverAfterRestart =>
    have hflag : TaskSupervisor.Spares id c.sup { c.sup with shuttingDown := false } :=
      .of_eq rfl rfl rfl
    exact hflag.trans (TaskSupervisor.spares_recoverLoop _ _ _ 0 hok)
  | shutdown => exact c.sup.spares_shutdown id
  | progress taskId message => exact c.sup.spares_emit id _ fun _ => by decide
  | resume hstack => exact h.spares_resume hstack hok
  | pump =>
    have hflag : TaskSupervisor.Spares id c.sup { c.sup with pumpQueued := false } :=
      .of_eq rfl rfl rfl
    show TaskSupervisor.Spares id c.sup c.sup.pump.1
    unfold TaskSupervisor.pump
    dsimp only
    split
    · exact hflag
    · exact h.spares_pumpFrom hflag 0
  | @continueTask k x outcome _ hx hphase =>
    obtain ⟨hmem, -⟩ := TaskSupervisor.executionOf_eq_some hx
    refine c.sup.spares_continueTask id outcome fun message hmessage heq => ?_
    subst hmessage
    have hthrows : c.ThrowsForGood id k message := by
      simpa only [StaysCancelled, hx, Option.map_some, hphase] using hok
    exact ⟨h.stopped.aborted x ⟨hmem, heq, by rw [hphase]; rfl⟩, hthrows x hx heq⟩
  | finallyCallback => exact c.sup.spares_finallyCallback id _
  | @settle k x outcome _ hx hphase =>
    obtain ⟨hmem, hk⟩ := TaskSupervisor.executionOf_eq_some hx
    refine c.sup.spares_modifyExecution id k (fun _ => rfl) ?_ fun _ h => h
    -- the execution with this controller is in flight
    intro y hy hyk _
    have hdistinct := h.numbered.distinct
    rw [controllers_slots] at hdistinct
    have heq : y = x := List.inj_on_of_nodup_map hdistinct hy hmem (hyk.trans hk.symm)
    rw [heq, hphase]
    rfl
  | taskTimedOut => exact c.sup.spares_abort id _ _
  | waiterTimedOut taskId waiter => exact c.sup.spares_waiterTimedOut id taskId waiter

theorem keys_step {a : TaskAction} (hstep : c.step a = some c') :
    c.sup.tasks.keys <+: c'.sup.tasks.keys := by
  cases stepKind_of_step hstep with
  | call r hkeeps hframes => exact hkeeps.keys
  | resumed r hstack hframe hkeeps hframes => exact hkeeps.keys
  | @threw index k x rest message hstack hx =>
    exact (c.sup.keeps_continueTask x (.threw message)).keys
  | stray message hstack hx => exact List.prefix_rfl
  | pump hstack =>
    show _ <+: (TaskSupervisor.pumpLoop _ 0 _).1.tasks.keys
    simp only [TaskSupervisor.keys_pumpLoop, List.prefix_rfl]
  | @failed _ index taskId rest hstack =>
    show _ <+: (TaskSupervisor.pumpLoop _ (index + 1) _).1.tasks.keys
    simp only [TaskSupervisor.keys_pumpLoop, TaskSupervisor.tasks_notifyWaiters, List.prefix_rfl]
  | @entered _ frame index k rest hstack hframe hindex =>
    show _ <+: (TaskSupervisor.pumpLoop _ (index + 1) _).1.tasks.keys
    simp only [TaskSupervisor.keys_pumpLoop, TaskSupervisor.tasks_enter, List.prefix_rfl]
  | @removed k x hstack hx hphase =>
    show _ <+: (c.sup.finallyCallback x).tasks.keys
    simp only [TaskSupervisor.tasks_finallyCallback, List.prefix_rfl]

theorem fresh_of_numbered {stack : List TaskFrame} (h : Numbered c.sup.slots stack) :
    ∀ x ∈ c.sup.executions, x.controller < c.sup.nextController :=
  fun x hx => h.fresh x.slot (TaskSupervisor.slot_mem hx)

theorem Cancelled.step (h : Cancelled id c) {a : TaskAction} (hok : StaysCancelled id c a)
    (hstep : c.step a = some c') : Cancelled id c' where
  numbered := numbered_step h.numbered hstep
  shaped := shaped_step h.shaped (fresh_of_numbered h.numbered) hstep
  known := (keys_step hstep).subset h.known
  stopped := h.stopped.spares (h.spares_step hok hstep)

end Step

/-! ## Every run -/

section Call

variable {id : String} {c : TaskConfig} {status : TaskStatus}

theorem aborted_iff_inReach (hstatus : c.sup.statusOf id = some status)
    (hopen : status.terminal = false) :
    (∀ x, (c.sup.cancelTask id).1.InFlight id x → x.aborted.isSome = true) ↔ c.InReach id := by
  obtain ⟨task, hget, rfl⟩ := Option.map_eq_some_iff.mp hstatus
  have hsame : ∀ s : TaskSupervisor, s.executions = c.sup.executions →
      (c.sup.statusOf id ≠ some .running ∨ c.sup.running.get id = none) →
      ((∀ x, s.InFlight id x → x.aborted.isSome = true) ↔ c.InReach id) := by
    intro s hexecutions hnone
    constructor
    · intro h x hx hid hawaiting
      exact .inl (h x ⟨hexecutions ▸ hx, hid, hawaiting⟩)
    · rintro h x ⟨hx, hid, hawaiting⟩
      rcases h x (hexecutions ▸ hx) hid hawaiting with haborted | ⟨hrunning, hentry⟩
      · exact haborted
      · rcases hnone with hnot | hnone
        · exact absurd hrunning hnot
        · cases hnone.symm.trans hentry
  unfold TaskSupervisor.cancelTask
  rw [hget]
  dsimp only
  rw [hopen, if_neg Bool.false_ne_true]
  split
  · rename_i hrunning
    rw [hrunning] at hstatus
    split
    · rename_i hnone
      exact hsame _ rfl (.inr hnone)
    · rename_i k hentry
      constructor
      · intro h x hx hid hawaiting
        by_cases hk : x.controller = k
        · exact .inr ⟨hstatus, hk ▸ hentry⟩
        · refine .inl (h x ⟨List.mem_map.mpr ⟨x, hx, ?_⟩, hid, hawaiting⟩)
          rw [if_neg hk]
      · rintro h x ⟨hx, hid, hawaiting⟩
        obtain ⟨y, hy, rfl⟩ := List.mem_map.mp hx
        by_cases hk : y.controller = k
        · rw [if_pos hk]
          show (y.aborted.or (some "Task cancelled")).isSome = true
          rw [Option.isSome_or]
          exact Bool.or_true _
        · rw [if_neg hk] at hid hawaiting ⊢
          rcases h y hy hid hawaiting with haborted | ⟨-, hentry'⟩
          · exact haborted
          · exact absurd (Option.some.inj (hentry'.symm.trans hentry)) hk
  · rename_i hrunning
    refine hsame _ ?_ (.inl ?_)
    · rw [TaskSupervisor.executions_emit, TaskSupervisor.executions_transition]
    · rw [hstatus]
      exact fun h => hrunning (Option.some.inj h)

theorem closed_cancelTask (hstatus : c.sup.statusOf id = some status)
    (hopen : status.terminal = false) :
    ∀ status', (c.sup.cancelTask id).1.statusOf id = some status' → ¬ status'.Open := by
  obtain ⟨task, hget, rfl⟩ := Option.map_eq_some_iff.mp hstatus
  intro status' hstatus'
  unfold TaskSupervisor.cancelTask at hstatus'
  rw [hget] at hstatus'
  dsimp only at hstatus'
  rw [hopen, if_neg Bool.false_ne_true] at hstatus'
  have hrunning : task.status = .running → c.sup.statusOf id = some status' →
      ¬ status'.Open := by
    intro hrunning hsame
    obtain rfl := Option.some.inj (hstatus.symm.trans hsame)
    rw [hrunning]
    decide
  split at hstatus'
  · rename_i h
    split at hstatus'
    · exact hrunning h hstatus'
    · exact hrunning h hstatus'
  · rw [TaskSupervisor.statusOf, TaskSupervisor.tasks_emit, TaskSupervisor.get_transition,
      if_pos rfl, hget] at hstatus'
    obtain rfl := Option.some.inj hstatus'
    show ¬ TaskStatus.cancelled.Open
    decide

end Call

/-- `cancelTask` aborts the executions in its reach; when these are all, no
execution of the task is started in any run that keeps it cancelled. -/
theorem cancelled_for_good {maxConcurrent : Option Nat} {loaded : List TaskRecord} {id : String}
    {c c₁ : TaskConfig} {status : TaskStatus}
    (hreach : Machine.Reaches step (fun _ _ => True) ⟨.create maxConcurrent loaded, []⟩ c)
    (hstatus : c.sup.statusOf id = some status) (hopen : status.terminal = false)
    (hcancel : c.step (.cancelTask id) = some c₁) :
    ((∀ x, c₁.sup.InFlight id x → x.aborted.isSome = true) ↔ c.InReach id) ∧
      (c.InReach id → ∀ c₂, Machine.Reaches step (StaysCancelled id) c₁ c₂ →
        c₂.sup.startsOf id = c.sup.startsOf id) := by
  have hiff := aborted_iff_inReach hstatus hopen
  have hspares := c.sup.spares_cancelTask id id
  have hclosed := closed_cancelTask hstatus hopen
  have hbase : Numbered c.sup.slots c.stack ∧ Shaped c.sup.executions c.stack := by
    have hslots := slotInv_create maxConcurrent loaded
    have hnumbered : Numbered (TaskSupervisor.create maxConcurrent loaded).slots [] :=
      ⟨hslots.fresh, hslots.distinct, nofun, hslots.pumps⟩
    refine hreach.invariant
      (I := fun c => Numbered c.sup.slots c.stack ∧ Shaped c.sup.executions c.stack)
      ⟨hnumbered, .nil⟩ ?_
    intro s a s' hs _ hstep
    exact ⟨numbered_step hs.1 hstep, shaped_step hs.2 (fresh_of_numbered hs.1) hstep⟩
  have hknown : id ∈ c.sup.tasks.keys := by
    obtain ⟨task, hget, -⟩ := Option.map_eq_some_iff.mp hstatus
    exact List.mem_map.mpr ⟨_, OrdMap.get_eq_some.mp hget, rfl⟩
  have hstart : c.InReach id → Cancelled id c₁ := by
    intro hinReach
    refine ⟨numbered_step hbase.1 hcancel,
      shaped_step hbase.2 (fresh_of_numbered hbase.1) hcancel,
      (keys_step hcancel).subset hknown, ?_⟩
    obtain rfl := Option.some.inj hcancel
    exact ⟨hclosed, hiff.mpr hinReach⟩
  refine ⟨?_, ?_⟩
  · obtain rfl := Option.some.inj hcancel
    exact hiff
  · intro hinReach c₂ hrun
    have hinv := hrun.invariant
      (I := fun s => Cancelled id s ∧ s.sup.startsOf id = c₁.sup.startsOf id)
      ⟨hstart hinReach, rfl⟩ fun s a s' hs hok hstep =>
        ⟨hs.1.step hok hstep, (hs.1.spares_step hok hstep).starts.trans hs.2⟩
    obtain rfl := Option.some.inj hcancel
    exact hinv.2.trans hspares.starts

/-! ## Runs -/

instance (c : TaskConfig) (id : String) : Decidable (c.InReach id) := by
  unfold TaskConfig.InReach
  infer_instance

instance (c : TaskConfig) (id : String) (index : Nat) : Decidable (c.NotRunningFrom id index) := by
  unfold TaskConfig.NotRunningFrom
  infer_instance

instance (c : TaskConfig) (id : String) (k : Nat) (message : String) :
    Decidable (c.ThrowsForGood id k message) := by
  unfold TaskConfig.ThrowsForGood TaskSupervisor.ClosedBy
  infer_instance

instance (id : String) (c : TaskConfig) (a : TaskAction) : Decidable (StaysCancelled id c a) := by
  unfold TaskConfig.StaysCancelled
  split
  · infer_instance
  · infer_instance
  · split <;> infer_instance
  · split <;> infer_instance
  · infer_instance

/-- A task with two attempts has begun; its execution is entered by the next
`resume`. -/
def startActions : List TaskAction :=
  [.spawnTask { maxAttempts := some 2 } "a", .resume none, .pump]

/-- The executor throws `message`, and what follows from it. -/
def throwActions (message : String) : List TaskAction :=
  [.settle 0 (.threw message), .continueTask 0, .resume none, .finallyCallback 0, .pump]

/-- The state before `cancelTask` of `a`, the state after it, and the state
after more actions. -/
def cancelRun (ok : TaskConfig → TaskAction → Prop) [∀ c a, Decidable (ok c a)]
    (before after : List TaskAction) : Option (TaskConfig × TaskConfig × TaskConfig) :=
  (Machine.run step (fun _ _ => True) empty before).bind fun c =>
    (c.step (.cancelTask "a")).bind fun c₁ =>
      (Machine.run step ok c₁ after).map fun c₂ => (c, c₁, c₂)

theorem cancelRun_any {ok : TaskConfig → TaskAction → Prop} [∀ c a, Decidable (ok c a)]
    {before after : List TaskAction} {p : TaskConfig × TaskConfig × TaskConfig → Bool}
    (h : (cancelRun ok before after).any p = true) :
    ∃ c c₁ c₂, Machine.Reaches step (fun _ _ => True) empty c ∧
      c.step (.cancelTask "a") = some c₁ ∧ Machine.Reaches step ok c₁ c₂ ∧
      p (c, c₁, c₂) = true := by
  obtain ⟨r, hr, hp⟩ := (Option.any_eq_true ..).mp h
  obtain ⟨c, hc, hr⟩ := Option.bind_eq_some_iff.mp hr
  obtain ⟨c₁, hc₁, hr⟩ := Option.bind_eq_some_iff.mp hr
  obtain ⟨c₂, hc₂, rfl⟩ := Option.map_eq_some_iff.mp hr
  exact ⟨c, c₁, c₂, Machine.reaches_of_run hc, hc₁, Machine.reaches_of_run hc₂, hp⟩

theorem cancelled_for_good_aborted : ∃ c c₁ c₂,
    Machine.Reaches step (fun _ _ => True) empty c ∧ c.step (.cancelTask "a") = some c₁ ∧
      Machine.Reaches step (StaysCancelled "a") c₁ c₂ ∧
      c₂.sup.startsOf "a" = c.sup.startsOf "a" := by
  have hrun : (cancelRun (StaysCancelled "a") (startActions ++ [.resume none])
      (throwActions "aborted")).any (fun r =>
        decide (r.1.sup.statusOf "a" = some .running ∧ r.1.InReach "a")) = true := by
    decide +kernel
  obtain ⟨c, c₁, c₂, hc, hc₁, hc₂, hfacts⟩ := cancelRun_any hrun
  obtain ⟨hstatus, hinReach⟩ := of_decide_eq_true hfacts
  exact ⟨c, c₁, c₂, hc, hc₁, hc₂, (cancelled_for_good hc hstatus rfl hc₁).2 hinReach c₂ hc₂⟩

/-- Cancelled by a listener of its `started` event, a task is not aborted;
cancelled later, it is started again after an error that says `timed
out`. -/
theorem cancelled_forgotten :
    (∃ c c₁, Machine.Reaches step (fun _ _ => True) empty c ∧
      c.sup.statusOf "a" = some .running ∧ c.step (.cancelTask "a") = some c₁ ∧
      ∃ x, c₁.sup.InFlight "a" x ∧ x.aborted = none) ∧
    ∃ c c₁ c₂, Machine.Reaches step (fun _ _ => True) empty c ∧
      c.sup.statusOf "a" = some .running ∧ c.step (.cancelTask "a") = some c₁ ∧
      Machine.Reaches step (fun _ a => a ≠ .retryTask "a") c₁ c₂ ∧
      c₂.sup.startsOf "a" ≠ c.sup.startsOf "a" := by
  constructor
  · have hrun : (cancelRun (fun _ _ => True) startActions []).any (fun r =>
        decide (r.1.sup.statusOf "a" = some .running ∧
          ⟨0, "a", none, false, .running⟩ ∈ r.2.1.sup.executions)) = true := by
      decide +kernel
    obtain ⟨c, c₁, c₂, hc, hc₁, hc₂, hfacts⟩ := cancelRun_any hrun
    obtain ⟨hstatus, hmem⟩ := of_decide_eq_true hfacts
    exact ⟨c, c₁, hc, hstatus, hc₁, _, ⟨hmem, rfl, rfl⟩, rfl⟩
  · have hrun : (cancelRun (fun _ a => a ≠ .retryTask "a") (startActions ++ [.resume none])
        (throwActions "timed out")).any (fun r =>
          decide (r.1.sup.statusOf "a" = some .running ∧
            r.2.2.sup.startsOf "a" ≠ r.1.sup.startsOf "a")) = true := by
      decide +kernel
    obtain ⟨c, c₁, c₂, hc, hc₁, hc₂, hfacts⟩ := cancelRun_any hrun
    obtain ⟨hstatus, hne⟩ := of_decide_eq_true hfacts
    exact ⟨c, c₁, c₂, hc, hstatus, hc₁, hc₂, hne⟩

end TaskConfig

end Eagent
