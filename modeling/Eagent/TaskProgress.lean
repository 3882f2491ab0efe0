import Eagent.TaskScheduling

/-!
# No task is stuck

The pump leaves every queued or waiting task blocked: the map is full, or
one of its dependencies is still open and none has failed (`Blocked`). A
later step keeps that or leaves a pump on its way (`Promised`), except that
`cancelTask` of a queued or waiting task schedules none.
-/

namespace Eagent

def TaskStatus.Open (status : TaskStatus) : Prop := status = .queued ∨ status = .waiting

instance (status : TaskStatus) : Decidable status.Open := by
  unfold TaskStatus.Open
  infer_instance

namespace TaskSupervisor

variable {s s' : TaskSupervisor}

/-- No pump could start or fail the task now. -/
def Blocked (s : TaskSupervisor) (task : TaskRecord) : Prop :=
  s.maxConcurrent ≤ s.running.size ∨
    ((∃ d ∈ task.dependencies, ∃ status, s.statusOf d = some status ∧ status.terminal = false) ∧
      ∀ d ∈ task.dependencies, ∀ status, s.statusOf d = some status → status.terminal = true →
        status = .completed)

variable {task : TaskRecord}

theorem Blocked.congr (h : s.Blocked task) (hmax : s'.maxConcurrent = s.maxConcurrent)
    (hsize : s.running.size ≤ s'.running.size)
    (hdeps : ∀ d ∈ task.dependencies, s'.statusOf d = s.statusOf d) : s'.Blocked task := by
  rcases h with hfull | ⟨⟨d, hd, status, hstatus, hopen⟩, hfailed⟩
  · exact .inl (by omega)
  · refine .inr ⟨⟨d, hd, status, (hdeps d hd).trans hstatus, hopen⟩, ?_⟩
    intro d hd status hstatus
    exact hfailed d hd status ((hdeps d hd).symm.trans hstatus)

/-- The tasks before `index` that are still open are blocked. -/
def Settled (s : TaskSupervisor) (index : Nat) : Prop :=
  ∀ i, i < index → ∀ e, s.tasks.entries[i]? = some e → e.2.status.Open → s.Blocked e.2

/-! ## The pump's loop -/

variable {taskId : String}

theorem not_mem_take {index i : Nat} (hentry : s.tasks.entries[index]? = some (taskId, task))
    (hi : i ≤ index) :
    taskId ∉ s.tasks.keys.take i := by
  intro hmem
  obtain ⟨j, hj, hget⟩ := List.getElem_of_mem hmem
  rw [List.length_take] at hj
  rw [List.getElem_take] at hget
  have hkey := List.getElem?_eq_some_iff.mp (keys_getElem? hentry)
  obtain ⟨hlt, hindex⟩ := hkey
  have hsame := (List.Nodup.getElem_inj_iff s.tasks.nodup).mp (hget.trans hindex.symm)
  omega

variable {index : Nat}

/-- The tasks before `index` do not depend on the one at `index`. -/
theorem Settled.transition (h : s.Settled index) (hord : s.Ordered)
    (hentry : s.tasks.entries[index]? = some (taskId, task)) (status : TaskStatus)
    (f : TaskRecord → TaskRecord) : (s.transition taskId status f).Settled index := by
  intro i hi e he hopen
  rw [TaskSupervisor.transition, entries_modifyTask, List.getElem?_map] at he
  obtain ⟨e', he', rfl⟩ := Option.map_eq_some_iff.mp he
  have hne : e'.1 ≠ taskId := by
    intro heq
    refine not_mem_take (i := i + 1) hentry (by omega) ?_
    have hkey := keys_getElem? he'
    rw [heq] at hkey
    obtain ⟨hlt, hget⟩ := List.getElem?_eq_some_iff.mp hkey
    exact List.mem_take_iff_getElem.mpr ⟨i, by omega, hget⟩
  rw [if_neg hne] at hopen ⊢
  have hslots := s.slots_transition taskId status f
  refine (h i hi e' he' hopen).congr (congrArg Slots.maxConcurrent hslots)
    (Nat.le_of_eq (congrArg (fun sl => sl.running.size) hslots).symm) ?_
  intro d hd
  have hd' : d ≠ taskId := by
    rintro rfl
    exact not_mem_take hentry (Nat.le_of_lt hi) (hord i e' he' d hd)
  rw [statusOf, get_transition, if_neg hd']
  rfl

theorem Settled.same (h : s.Settled index) (htasks : s'.tasks = s.tasks)
    (hmax : s'.maxConcurrent = s.maxConcurrent) (hsize : s.running.size ≤ s'.running.size) :
    s'.Settled index := by
  intro i hi e he hopen
  rw [htasks] at he
  refine (h i hi e he hopen).congr hmax hsize ?_
  intro d _
  rw [statusOf, statusOf, htasks]

theorem entry_transition (hentry : s.tasks.entries[index]? = some (taskId, task))
    (status : TaskStatus) (f : TaskRecord → TaskRecord) :
    (s.transition taskId status f).tasks.entries[index]? =
      some (taskId, { f task with status }) := by
  rw [TaskSupervisor.transition, entries_modifyTask, List.getElem?_map, hentry]
  simp

theorem Settled.succ (h : s.Settled index)
    (hindex : ∀ e, s.tasks.entries[index]? = some e → e.2.status.Open → s.Blocked e.2) :
    s.Settled (index + 1) := by
  intro i hi e he hopen
  rcases Nat.lt_succ_iff_lt_or_eq.mp hi with hlt | rfl
  · exact h i hlt e he hopen
  · exact hindex e he hopen

end TaskSupervisor

def TaskFrame.pumpAt : TaskFrame → Option Nat
  | .pumpFailed index _ | .started index _ | .entering index _ => some index
  | _ => none

namespace TaskSupervisor

variable {s s' : TaskSupervisor}

/-- The loop has dealt with the tasks up to where it stopped. -/
def SettledBy (r : TaskSupervisor × List TaskFrame) : Prop :=
  ∀ i, (∀ f ∈ r.2, ∀ index, f.pumpAt = some index → i ≤ index) →
    ∀ e, r.1.tasks.entries[i]? = some e → e.2.status.Open → r.1.Blocked e.2

theorem Settled.by_nil {index : Nat} (h : s.Settled index) (hindex : s.tasks.size ≤ index) :
    SettledBy (s, []) := by
  intro i _ e he hopen
  have hlt : i < s.tasks.size := (List.getElem?_eq_some_iff.mp he).1
  exact h i (by omega) e he hopen

theorem Settled.by_frame {index : Nat} {f : TaskFrame} (h : s.Settled (index + 1))
    (hf : f.pumpAt = some index) : SettledBy (s, [f]) := by
  intro i hi e he hopen
  have hle := hi f (List.mem_singleton_self f) index hf
  exact h i (by omega) e he hopen

theorem tasks_startTask_eq (s : TaskSupervisor) (index : Nat) (taskId : String) :
    (s.startTask index taskId).1.tasks =
      (s.transition taskId .running fun t =>
        { t with attempt := t.attempt + 1, error := none }).tasks := by
  unfold startTask
  dsimp only
  rw [tasks_emit]
  unfold transition modifyTask
  dsimp only
  split <;> rfl

theorem Settled.emit {index : Nat} (h : s.Settled index) (taskId : String)
    (eventType : TaskEventType) (message : Option String) :
    (s.emit taskId eventType message).Settled index := by
  have hslots := s.slots_emit taskId eventType message
  exact h.same (s.tasks_emit ..) (congrArg Slots.maxConcurrent hslots)
    (Nat.le_of_eq (congrArg (fun sl => sl.running.size) hslots).symm)

/-- No dependency has failed and not all are completed: one is still
open. -/
theorem blocked_of_waiting {task : TaskRecord}
    (hnone : ¬ (task.dependencies.any fun d =>
      (s.statusOf d).all fun status => status.terminal && status ≠ .completed) = true)
    (hsome : (task.dependencies.any fun d => s.statusOf d ≠ some .completed) = true) :
    s.Blocked task := by
  have hfailed : ∀ d ∈ task.dependencies, ∃ status, s.statusOf d = some status ∧
      (status.terminal = true → status = .completed) := by
    intro d hd
    cases hstatus : s.statusOf d with
    | none =>
      refine absurd (List.any_eq_true.mpr ⟨d, hd, ?_⟩) hnone
      rw [hstatus]
      rfl
    | some status =>
      refine ⟨status, rfl, fun hterminal => ?_⟩
      by_contra hne
      refine hnone (List.any_eq_true.mpr ⟨d, hd, ?_⟩)
      rw [hstatus]
      simp [hterminal, hne]
  refine .inr ⟨?_, ?_⟩
  · obtain ⟨d, hd, hnot⟩ := List.any_eq_true.mp hsome
    obtain ⟨status, hstatus, hterminal⟩ := hfailed d hd
    refine ⟨d, hd, status, hstatus, ?_⟩
    cases hopen : status.terminal with
    | false => rfl
    | true =>
      rw [hstatus, hterminal hopen] at hnot
      simp at hnot
  · intro d hd status hstatus
    obtain ⟨status', hstatus', hterminal⟩ := hfailed d hd
    obtain rfl := Option.some.inj (hstatus.symm.trans hstatus')
    exact hterminal

theorem settledBy_pumpLoop (n index : Nat) (hord : s.Ordered) (h : s.Settled index)
    (hn : s.tasks.size ≤ index + n) : SettledBy (pumpLoop n index s) := by
  induction n generalizing index s with
  | zero => exact h.by_nil hn
  | succ n ih =>
    unfold pumpLoop
    split
    · rename_i hnone
      have hsize : s.tasks.size ≤ index := List.getElem?_eq_none_iff.mp hnone
      exact h.by_nil hsize
    · rename_i taskId task hentry
      split
      · rename_i hfull
        exact fun i _ e _ _ => .inl hfull
      · split
        · rename_i hclosed
          refine ih (index + 1) hord (h.succ ?_) (by omega)
          intro e he hopen
          obtain rfl := Option.some.inj (hentry.symm.trans he)
          exact (not_or.mpr hclosed hopen).elim
        · split
          · have hfailed := (h.transition hord hentry .failed fun t =>
              { t with error := some "A dependency did not complete successfully" }).succ
              (by
                intro e he hopen
                obtain rfl := Option.some.inj ((entry_transition hentry _ _).symm.trans he)
                rcases hopen with h | h <;> cases h)
            exact (hfailed.emit _ _ _).by_frame rfl
          · rename_i hnone
            split
            · rename_i hsome
              have hblocked := blocked_of_waiting hnone hsome
              have hnot : ∀ d ∈ task.dependencies, d ≠ taskId := by
                rintro d hd rfl
                exact not_mem_take hentry (Nat.le_refl _) (hord index _ hentry _ hd)
              split
              · refine ih (index + 1) ((s.keeps_transition taskId fun _ => rfl).ordered hord)
                  ((h.transition hord hentry _ _).succ ?_) ?_
                · intro e he _
                  obtain rfl := Option.some.inj ((entry_transition hentry _ _).symm.trans he)
                  refine hblocked.congr ?_ ?_ ?_
                  · exact congrArg Slots.maxConcurrent (s.slots_transition taskId .waiting id)
                  · exact Nat.le_of_eq (congrArg (fun sl => sl.running.size)
                      (s.slots_transition taskId .waiting id)).symm
                  · intro d hd
                    rw [statusOf, get_transition, if_neg (hnot d hd)]
                    rfl
                · have hkeys := congrArg List.length (s.keys_transition taskId .waiting id)
                  rw [OrdMap.keys, OrdMap.keys, List.length_map, List.length_map] at hkeys
                  have hsize : (s.transition taskId .waiting id).tasks.size = s.tasks.size :=
                    hkeys
                  omega
              · refine ih (index + 1) hord (h.succ ?_) (by omega)
                intro e he _
                obtain rfl := Option.some.inj (hentry.symm.trans he)
                exact hblocked
            · have hstarted := (h.transition hord hentry .running fun t =>
                { t with attempt := t.attempt + 1, error := none }).succ
                (by
                  intro e he hopen
                  obtain rfl := Option.some.inj ((entry_transition hentry _ _).symm.trans he)
                  rcases hopen with h | h <;> cases h)
              have hslots := s.slots_startTask index taskId
              have htransition := s.slots_transition taskId .running fun t =>
                { t with attempt := t.attempt + 1, error := none }
              refine (hstarted.same (tasks_startTask_eq s index taskId) ?_ ?_).by_frame rfl
              · exact (congrArg Slots.maxConcurrent hslots).trans
                  (congrArg Slots.maxConcurrent htransition).symm
              · exact Nat.le_of_eq ((congrArg (fun sl => sl.running.size) htransition).trans
                  (congrArg (fun sl => sl.running.size) hslots).symm)

end TaskSupervisor

/-! ## A pump on its way -/

/-- The frame ends in a call of `schedulePump`, or lets its execution
settle, whose `finally` callback makes one. -/
def TaskFrame.Promises (s : TaskSupervisor) : TaskFrame → Prop
  | .schedulePump | .recovering _ => True
  | .finishing k => k ∈ s.executions.map (·.controller)
  | _ => False

def TaskConfig.Promised (c : TaskConfig) : Prop :=
  c.sup.shuttingDown = true ∨ c.sup.pumpQueued = true ∨
    (∃ x ∈ c.sup.executions, x.phase = .finished) ∨ ∃ f ∈ c.stack, f.Promises c.sup

namespace TaskSupervisor

/-- What keeps promises: nothing is taken back. -/
structure Persists (s s' : TaskSupervisor) : Prop where
  down : s.shuttingDown = true → s'.shuttingDown = true
  queued : s.pumpQueued = true → s'.pumpQueued = true
  controllers : ∀ k ∈ s.executions.map (·.controller), k ∈ s'.executions.map (·.controller)
  finished : ∀ x ∈ s.executions, x.phase = .finished → ∃ y ∈ s'.executions, y.phase = .finished

/-- And the tasks are as they were. -/
structure Quiet (s s' : TaskSupervisor) : Prop extends Persists s s' where
  tasks : s'.tasks = s.tasks
  max : s'.maxConcurrent = s.maxConcurrent
  size : s.running.size ≤ s'.running.size

variable {s s' s'' : TaskSupervisor}

theorem Persists.refl (s : TaskSupervisor) : Persists s s :=
  ⟨id, id, fun _ h => h, fun x hx hphase => ⟨x, hx, hphase⟩⟩

theorem Persists.trans (h : Persists s s') (h' : Persists s' s'') : Persists s s'' := by
  refine ⟨fun hd => h'.down (h.down hd), fun hq => h'.queued (h.queued hq),
    fun k hk => h'.controllers k (h.controllers k hk), ?_⟩
  intro x hx hphase
  obtain ⟨y, hy, hyphase⟩ := h.finished x hx hphase
  exact h'.finished y hy hyphase

theorem Quiet.refl (s : TaskSupervisor) : Quiet s s :=
  ⟨.refl s, rfl, rfl, Nat.le_refl _⟩

/-- Only fields no promise is about. -/
theorem Persists.of_eq (hdown : s'.shuttingDown = s.shuttingDown)
    (hqueued : s'.pumpQueued = s.pumpQueued) (hexecutions : s'.executions = s.executions) :
    Persists s s' :=
  ⟨fun h => hdown.trans h, fun h => hqueued.trans h, fun _ h => hexecutions ▸ h,
    fun x hx hphase => ⟨x, hexecutions ▸ hx, hphase⟩⟩

section

variable (s)

theorem persists_transition (taskId : String) (status : TaskStatus) (f : TaskRecord → TaskRecord) :
    Persists s (s.transition taskId status f) := by
  unfold transition modifyTask
  split
  · exact .refl s
  · exact .of_eq rfl rfl rfl

theorem persists_emit (taskId : String) (eventType : TaskEventType) (message : Option String) :
    Persists s (s.emit taskId eventType message) := by
  unfold emit
  split
  · exact .refl s
  · exact .of_eq rfl rfl rfl

theorem quiet_emit (taskId : String) (eventType : TaskEventType) (message : Option String) :
    Quiet s (s.emit taskId eventType message) :=
  ⟨s.persists_emit .., s.tasks_emit .., congrArg Slots.maxConcurrent (s.slots_emit ..),
    Nat.le_of_eq (congrArg (fun sl => sl.running.size) (s.slots_emit ..)).symm⟩

theorem quiet_notifyWaiters (taskId : String) :
    Quiet s (s.notifyWaiters taskId) := by
  unfold notifyWaiters
  split
  · exact .refl s
  · exact ⟨.of_eq rfl rfl rfl, rfl, rfl, Nat.le_refl _⟩

theorem quiet_modifyExecution (k : Nat) {f : Execution → Execution}
    (hcontroller : ∀ x, (f x).controller = x.controller)
    (hfinished : ∀ x ∈ s.executions, x.controller = k → x.phase = .finished → (f x).phase = .finished) :
    Quiet s (s.modifyExecution k f) := by
  refine ⟨⟨id, id, ?_, ?_⟩, rfl, rfl, Nat.le_refl _⟩
  · intro l hl
    obtain ⟨x, hx, rfl⟩ := List.mem_map.mp hl
    refine List.mem_map.mpr ⟨_, List.mem_map.mpr ⟨x, hx, rfl⟩, ?_⟩
    split
    · exact hcontroller x
    · rfl
  · intro x hx hphase
    refine ⟨_, List.mem_map.mpr ⟨x, hx, rfl⟩, ?_⟩
    split
    · rename_i hk
      exact hfinished x hx hk hphase
    · exact hphase

theorem quiet_abort (k : Nat) (reason : String) :
    Quiet s (s.abort k reason) :=
  s.quiet_modifyExecution k (fun _ => rfl) fun _ _ _ hphase => hphase

theorem quiet_finishTask (k : Nat) : Quiet s (s.finishTask k) := by
  unfold finishTask
  split
  · exact .refl s
  · have hphase : Quiet s (s.setPhase k .finished) :=
      s.quiet_modifyExecution k (fun _ => rfl) fun _ _ _ _ => rfl
    dsimp only
    split
    · have hnotify := (s.setPhase k .finished).quiet_notifyWaiters
      exact ⟨hphase.toPersists.trans (hnotify _).toPersists, (hnotify _).tasks.trans hphase.tasks,
        (hnotify _).max.trans hphase.max, Nat.le_trans hphase.size (hnotify _).size⟩
    · exact hphase

theorem quiet_enter (k : Nat) : Quiet s (s.enter k) := by
  unfold enter
  split
  · exact .refl s
  · have hentered : Quiet s (s.modifyExecution k fun x => { x with entered := true }) :=
      s.quiet_modifyExecution k (fun _ => rfl) fun _ _ _ hphase => hphase
    exact ⟨⟨hentered.down, hentered.queued, hentered.controllers, hentered.finished⟩, rfl, rfl,
      OrdMap.size_le_size_set ..⟩

theorem quiet_waitForTask (taskId : String) :
    Quiet s (s.waitForTask taskId) := by
  unfold waitForTask
  split
  · exact .refl s
  · split
    · exact ⟨.of_eq rfl rfl rfl, rfl, rfl, Nat.le_refl _⟩
    · exact ⟨.of_eq rfl rfl rfl, rfl, rfl, Nat.le_refl _⟩

theorem quiet_waiterTimedOut (taskId : String) (waiter : Nat) :
    Quiet s (s.waiterTimedOut taskId waiter) := by
  unfold waiterTimedOut
  split
  · exact .refl s
  · exact ⟨.of_eq rfl rfl rfl, rfl, rfl, Nat.le_refl _⟩

theorem persists_startTask (index : Nat) (taskId : String) :
    Persists s (s.startTask index taskId).1 := by
  unfold startTask
  dsimp only
  refine Persists.trans ?_ (persists_emit ..)
  refine Persists.trans ?_ (persists_transition ..)
  refine ⟨id, id, ?_, ?_⟩
  · intro k hk
    rw [List.map_append]
    exact List.mem_append_left _ hk
  · intro x hx hphase
    exact ⟨x, List.mem_append_left _ hx, hphase⟩

end

theorem persists_pumpLoop (n index : Nat) : Persists s (pumpLoop n index s).1 := by
  induction n generalizing index s with
  | zero => exact .refl s
  | succ n ih =>
    unfold pumpLoop
    split
    · exact .refl s
    · split
      · exact .refl s
      · split
        · exact ih (index + 1)
        · split
          · exact (s.persists_transition ..).trans (persists_emit ..)
          · split
            · split
              · exact (s.persists_transition ..).trans (ih (index + 1))
              · exact ih (index + 1)
            · exact s.persists_startTask index _

theorem shuttingDown_shutdown (s : TaskSupervisor) : s.shutdown.shuttingDown = true := by
  have hfold : ∀ (controllers : List Nat) (t : TaskSupervisor), t.shuttingDown = true →
      (controllers.foldl (fun s k => s.abort k "Orchestrator shutting down") t).shuttingDown =
        true := by
    intro controllers
    induction controllers with
    | nil => exact fun t ht => ht
    | cons k rest ih => exact fun t ht => ih _ ht
  exact hfold _ _ rfl

/-- After `schedulePump` a pump is queued, or the supervisor is shutting
down. -/
theorem schedulePump_promises (s : TaskSupervisor) :
    s.schedulePump.shuttingDown = true ∨ s.schedulePump.pumpQueued = true := by
  unfold schedulePump
  split
  · rename_i h
    exact (Bool.or_eq_true_iff.mp h).symm
  · exact .inr rfl

theorem recoverLoop_promises (n index : Nat) :
    ((recoverLoop n index s).1.shuttingDown = true ∨ (recoverLoop n index s).1.pumpQueued = true) ∨
      ∃ i, .recovering i ∈ (recoverLoop n index s).2 := by
  induction n generalizing index with
  | zero => exact .inl s.schedulePump_promises
  | succ n ih =>
    unfold recoverLoop
    split
    · exact .inl s.schedulePump_promises
    · split
      · exact .inr ⟨index + 1, List.mem_singleton_self _⟩
      · exact ih (index + 1)

end TaskSupervisor

namespace TaskConfig

variable {c : TaskConfig} {r : TaskSupervisor × List TaskFrame}

theorem Promised.push (h : c.Promised) (hpersists : c.sup.Persists r.1) : (c.push r).Promised := by
  rcases h with hdown | hqueued | ⟨x, hx, hphase⟩ | ⟨f, hf, hpromises⟩
  · exact .inl (hpersists.down hdown)
  · exact .inr (.inl (hpersists.queued hqueued))
  · exact .inr (.inr (.inl (hpersists.finished x hx hphase)))
  · refine .inr (.inr (.inr ⟨f, List.mem_append_right _ hf, ?_⟩))
    cases f with
    | finishing k => exact hpersists.controllers k hpromises
    | schedulePump => trivial
    | recovering i => trivial
    | _ => exact hpromises.elim

theorem Promised.pop {f : TaskFrame} {rest : List TaskFrame} (h : c.Promised)
    (hstack : c.stack = f :: rest) (hf : ¬ f.Promises c.sup) :
    TaskConfig.Promised ⟨c.sup, rest⟩ := by
  rcases h with hdown | hqueued | hfinished | ⟨g, hg, hpromises⟩
  · exact .inl hdown
  · exact .inr (.inl hqueued)
  · exact .inr (.inr (.inl hfinished))
  · rw [hstack] at hg
    rcases List.mem_cons.mp hg with rfl | hg
    · exact absurd hpromises hf
    · exact .inr (.inr (.inr ⟨g, hg, hpromises⟩))

/-- The tasks the suspended pump, if any, has dealt with are blocked when
they are open. -/
def Settled (c : TaskConfig) : Prop := TaskSupervisor.SettledBy (c.sup, c.stack)

theorem Settled.push (h : c.Settled) (hquiet : c.sup.Quiet r.1) : (c.push r).Settled := by
  intro i hi e he hopen
  have he' : c.sup.tasks.entries[i]? = some e := hquiet.tasks ▸ he
  refine (h i (fun f hf => hi f (List.mem_append_right _ hf)) e he' hopen).congr hquiet.max
    hquiet.size ?_
  intro d _
  show Option.map _ (r.1.tasks.get d) = Option.map _ (c.sup.tasks.get d)
  rw [hquiet.tasks]

theorem Settled.pop {f : TaskFrame} {rest : List TaskFrame} (h : c.Settled)
    (hstack : c.stack = f :: rest) (hf : f.pumpAt = none) : TaskConfig.Settled ⟨c.sup, rest⟩ := by
  intro i hi e he hopen
  refine h i ?_ e he hopen
  show ∀ g ∈ c.stack, _
  rw [hstack]
  intro g hg index hindex
  rcases List.mem_cons.mp hg with rfl | hg
  · cases hf.symm.trans hindex
  · exact hi g hg index hindex

end TaskConfig

/-! ## Controllers and the suspended pump -/

/-- Controllers are fresh and distinct, the executions still to be entered
are there, and at most one pump is suspended. -/
structure Numbered (sl : Slots) (stack : List TaskFrame) : Prop where
  fresh : ∀ x ∈ sl.list, x.controller < sl.nextController
  distinct : (sl.list.map (·.controller)).Nodup
  begun : ∀ i k, (i, k) ∈ entering stack → k ∈ sl.list.map (·.controller)
  pumps : (stack.filter TaskFrame.isPump).length ≤ 1

namespace Numbered

variable {sl : Slots} {stack frames : List TaskFrame}

theorem push (h : Numbered sl stack) (hframes : ∀ f ∈ frames, f.isPump = false) :
    Numbered sl (frames ++ stack) := by
  refine ⟨h.fresh, h.distinct, ?_, ?_⟩
  · rw [entering_append _ hframes]
    exact h.begun
  · rw [filter_isPump_append _ hframes]
    exact h.pumps

theorem pop {f : TaskFrame} (h : Numbered sl (f :: stack)) (hf : f.isPump = false) :
    Numbered sl stack := by
  have hframes : ∀ g ∈ [f], g.isPump = false := fun g hg => List.mem_singleton.mp hg ▸ hf
  refine ⟨h.fresh, h.distinct, ?_, ?_⟩
  · rw [← entering_append _ hframes]
    exact h.begun
  · rw [← filter_isPump_append _ hframes]
    exact h.pumps

theorem rest_noPump {f : TaskFrame} (h : Numbered sl (f :: stack)) (hf : f.isPump = true) :
    stack.filter TaskFrame.isPump = [] := noPump_below h.pumps hf

/-- No pump is suspended; executions may have gone. -/
theorem idle {sl' : Slots} {stack' : List TaskFrame} (h : Numbered sl stack)
    (hlist : (sl'.list.map (·.controller)).Sublist (sl.list.map (·.controller)))
    (hnext : sl'.nextController = sl.nextController)
    (hnone : stack'.filter TaskFrame.isPump = []) : Numbered sl' stack' := by
  refine ⟨?_, h.distinct.sublist hlist, ?_, ?_⟩
  · intro x hx
    obtain ⟨y, hy, hyx⟩ := List.mem_map.mp (hlist.subset (List.mem_map_of_mem hx))
    rw [hnext, ← hyx]
    exact h.fresh y hy
  · rw [entering_of_noPump hnone]
    intro i k hik
    cases hik
  · rw [hnone]
    exact Nat.zero_le 1

theorem start (h : Numbered sl stack) (hnone : stack.filter TaskFrame.isPump = [])
    (index : Nat) (taskId : String) :
    Numbered
      { sl with
        list := sl.list ++ [⟨sl.nextController, taskId, false⟩]
        nextController := sl.nextController + 1 }
      (.started index sl.nextController :: stack) := by
  refine ⟨Slots.fresh_start h.fresh taskId, Slots.distinct_start h.fresh h.distinct taskId,
    ?_, ?_⟩
  · intro i k hik
    rw [entering_started hnone] at hik
    obtain ⟨rfl, rfl⟩ := Prod.mk.inj (List.mem_singleton.mp hik)
    simp
  · rw [List.filter_cons_of_pos rfl, hnone]
    exact Nat.le_refl 1

end Numbered

namespace TaskSupervisor

variable {s : TaskSupervisor}

theorem numbered_pumpLoop (n index : Nat) {rest : List TaskFrame}
    (h : Numbered s.slots rest) (hrest : rest.filter TaskFrame.isPump = []) :
    Numbered (pumpLoop n index s).1.slots ((pumpLoop n index s).2 ++ rest) := by
  induction n generalizing index s with
  | zero => exact h
  | succ n ih =>
    unfold pumpLoop
    split
    · exact h
    · rename_i taskId task hentry
      split
      · exact h
      · split
        · exact ih (index + 1) h
        · split
          · rw [slots_emit, slots_transition]
            refine ⟨h.fresh, h.distinct, h.begun, ?_⟩
            show ((TaskFrame.pumpFailed index taskId :: rest).filter _).length ≤ 1
            rw [List.filter_cons_of_pos rfl, hrest]
            exact Nat.le_refl 1
          · split
            · split
              · exact ih (index + 1) (by rw [slots_transition]; exact h)
              · exact ih (index + 1) h
            · rw [slots_startTask]
              exact h.start hrest index taskId

theorem ordered_pumpLoop (n index : Nat) (h : s.Ordered) : (pumpLoop n index s).1.Ordered := by
  induction n generalizing index s with
  | zero => exact h
  | succ n ih =>
    unfold pumpLoop
    split
    · exact h
    · split
      · exact h
      · split
        · exact ih (index + 1) h
        · split
          · refine (s.keeps_change _ ?_).ordered h
            exact fun _ => rfl
          · split
            · split
              · exact ih (index + 1) ((s.keeps_transition _ fun _ => rfl).ordered h)
              · exact ih (index + 1) h
            · rename_i taskId task _ _ _ _ _
              have hkeeps : Keeps s (s.transition taskId .running fun t =>
                  { t with attempt := t.attempt + 1, error := none }) :=
                s.keeps_transition taskId fun _ => rfl
              unfold Ordered
              rw [tasks_startTask_eq]
              exact hkeeps.ordered h

end TaskSupervisor

/-! ## Every run -/

namespace TaskConfig

theorem controllers_slots (s : TaskSupervisor) :
    s.slots.list.map (·.controller) = s.executions.map (·.controller) := by
  rw [show s.slots.list = s.executions.map (·.slot) from rfl, List.map_map]
  rfl

/-- Where the suspended pump, if any, has passed: what it passes later it
still looks at. -/
def Passed (c : TaskConfig) (i : Nat) : Prop :=
  ∀ f ∈ c.stack, ∀ index, f.pumpAt = some index → i ≤ index

/-- A queued or waiting task is cancelled when a pump is on its way, or the
map is full, or no task that is still open depends on it. -/
def Covered (c : TaskConfig) : TaskAction → Prop
  | .cancelTask taskId => (c.sup.statusOf taskId).any (fun status => decide status.Open) = true →
      c.Promised ∨ c.sup.maxConcurrent ≤ c.sup.running.size ∨
        ∀ i, c.Passed i → ∀ e, c.sup.tasks.entries[i]? = some e → e.2.status.Open →
          taskId ∉ e.2.dependencies
  | _ => True

/-- What every covered step keeps. -/
structure Progress (c : TaskConfig) : Prop where
  numbered : Numbered c.sup.slots c.stack
  ordered : c.sup.Ordered
  scheduled : c.Promised ∨ c.Settled

/-- Every step keeps the controllers and the suspended pump in order. -/
theorem numbered_step {c c' : TaskConfig} {a : TaskAction} (h : Numbered c.sup.slots c.stack)
    (hstep : c.step a = some c') : Numbered c'.sup.slots c'.stack := by
  cases stepKind_of_step hstep with
  | call r hkeeps hframes =>
    show Numbered r.1.slots (r.2 ++ c.stack)
    rw [hkeeps.slots]
    exact h.push hframes
  | @resumed _ frame rest r hstack hframe hkeeps hframes =>
    rw [hstack] at h
    show Numbered r.1.slots (r.2 ++ rest)
    rw [hkeeps.slots]
    exact (h.pop hframe).push hframes
  | @threw index k x rest message hstack hx =>
    rw [hstack] at h
    have hkeeps := c.sup.keeps_continueTask x (.threw message)
    have hswap : Numbered c.sup.slots (.entering index k :: rest) :=
      ⟨h.fresh, h.distinct, h.begun, h.pumps⟩
    show Numbered (c.sup.continueTask x (.threw message)).slots
      ([.finishing k] ++ .entering index k :: rest)
    rw [hkeeps.slots]
    exact hswap.push (by simp [TaskFrame.isPump])
  | @stray index k rest message hstack hx =>
    rw [hstack] at h
    exact h.idle (.refl _) rfl (h.rest_noPump rfl)
  | pump hstack =>
    rw [hstack] at h
    exact TaskSupervisor.numbered_pumpLoop _ 0 h rfl
  | @failed _ index taskId rest hstack =>
    rw [hstack] at h
    have hkeeps := c.sup.keeps_notifyWaiters taskId
    have hrest := h.rest_noPump rfl
    refine TaskSupervisor.numbered_pumpLoop _ _ ?_ hrest
    rw [hkeeps.slots]
    exact h.idle (.refl _) rfl hrest
  | @entered _ frame index k rest hstack hframe hindex =>
    rw [hstack] at h
    have hpump : frame.isPump = true := by
      cases frame <;> first | rfl | cases hframe
    have hrest := h.rest_noPump hpump
    refine TaskSupervisor.numbered_pumpLoop _ _ (h.idle ?_ ?_ hrest) hrest
    · rw [controllers_slots, controllers_slots, TaskSupervisor.controllers_enter]
    · unfold TaskSupervisor.enter
      split <;> rfl
  | @removed k x hstack hx hphase =>
    have hfilter : (c.sup.slots.list.filter fun y => y.controller ≠ x.controller).Sublist
        c.sup.slots.list := List.filter_sublist
    refine h.idle ?_ ?_ (congrArg (List.filter TaskFrame.isPump) hstack)
    · rw [push, TaskSupervisor.slots_finallyCallback]
      exact hfilter.map _
    · rw [push, TaskSupervisor.slots_finallyCallback]

/-- Every step keeps dependencies before the tasks that have them. -/
theorem ordered_step {c c' : TaskConfig} {a : TaskAction} (h : c.sup.Ordered)
    (hstep : c.step a = some c') : c'.sup.Ordered := by
  cases stepKind_of_step hstep with
  | call r hkeeps hframes => exact hkeeps.ordered h
  | resumed r hstack hframe hkeeps hframes => exact hkeeps.ordered h
  | @threw index k x rest message hstack hx =>
    exact (c.sup.keeps_continueTask x (.threw message)).ordered h
  | stray message hstack hx => exact h
  | pump hstack =>
    have hflag : c.sup.Keeps { c.sup with pumpQueued := false } := .of_eq rfl rfl
    exact TaskSupervisor.ordered_pumpLoop _ 0 (hflag.ordered h)
  | @failed _ index taskId rest hstack =>
    have hkeeps := c.sup.keeps_notifyWaiters taskId
    exact TaskSupervisor.ordered_pumpLoop _ _ (hkeeps.ordered h)
  | @entered _ frame index k rest hstack hframe hindex =>
    refine TaskSupervisor.ordered_pumpLoop _ _ ?_
    unfold TaskSupervisor.Ordered
    rw [TaskSupervisor.tasks_enter]
    exact h
  | @removed k x hstack hx hphase =>
    show (c.sup.finallyCallback x).Ordered
    unfold TaskSupervisor.Ordered
    rw [TaskSupervisor.tasks_finallyCallback]
    exact h

section Scheduled

variable {c : TaskConfig}

theorem scheduled_push {r : TaskSupervisor × List TaskFrame} (h : c.Promised ∨ c.Settled)
    (hquiet : c.sup.Quiet r.1) : (c.push r).Promised ∨ (c.push r).Settled := by
  rcases h with hpromised | hsettled
  · exact .inl (hpromised.push hquiet.toPersists)
  · exact .inr (hsettled.push hquiet)

variable {rest : List TaskFrame} {f : TaskFrame}

theorem scheduled_pop (h : c.Promised ∨ c.Settled) (hstack : c.stack = f :: rest)
    (hpromises : ¬ f.Promises c.sup) (hpump : f.pumpAt = none) :
    TaskConfig.Promised ⟨c.sup, rest⟩ ∨ TaskConfig.Settled ⟨c.sup, rest⟩ := by
  rcases h with hpromised | hsettled
  · exact .inl (hpromised.pop hstack hpromises)
  · exact .inr (hsettled.pop hstack hpump)

theorem Settled.upTo {index : Nat} (h : c.Settled) (hstack : c.stack = f :: rest)
    (hf : f.pumpAt = some index) (hrest : rest.filter TaskFrame.isPump = []) :
    c.sup.Settled (index + 1) := by
  intro i hi e he hopen
  refine h i ?_ e he hopen
  show ∀ g ∈ c.stack, _
  rw [hstack]
  intro g hg j hj
  rcases List.mem_cons.mp hg with rfl | hg
  · obtain rfl := Option.some.inj (hf.symm.trans hj)
    omega
  · have hnot := List.filter_eq_nil_iff.mp hrest g hg
    cases g <;> first | exact absurd rfl hnot | cases hj

variable {s : TaskSupervisor}

/-- A pump from where the tasks are settled settles all, up to where it
stops. -/
theorem settled_pumpFrom {index : Nat} (hord : s.Ordered) (h : s.Settled index) :
    TaskConfig.Settled (push ⟨c.sup, rest⟩ (s.pumpFrom index)) := by
  intro i hi e he hopen
  exact TaskSupervisor.settledBy_pumpLoop _ _ hord h (by omega) i
    (fun f hf => hi f (List.mem_append_left _ hf)) e he hopen

theorem scheduled_pumpFrom {index : Nat} (h : c.Progress) (hstack : c.stack = f :: rest)
    (hf : f.pumpAt = some index) (hquiet : c.sup.Quiet s) :
    (push ⟨c.sup, rest⟩ (s.pumpFrom (index + 1))).Promised ∨
      (push ⟨c.sup, rest⟩ (s.pumpFrom (index + 1))).Settled := by
  have hpump : f.isPump = true := by
    cases f <;> first | rfl | cases hf
  have hrest := noPump_below (hstack ▸ h.numbered.pumps) hpump
  rcases h.scheduled with hpromised | hsettled
  · have hnot : ¬ f.Promises c.sup := by
      cases f <;> first | exact id | cases hf
    refine .inl ((hpromised.pop hstack hnot).push ?_)
    exact hquiet.toPersists.trans (TaskSupervisor.persists_pumpLoop _ _)
  · have hordered : s.Ordered := by
      unfold TaskSupervisor.Ordered
      rw [hquiet.tasks]
      exact h.ordered
    refine .inr (settled_pumpFrom hordered ?_)
    exact (hsettled.upTo hstack hf hrest).same hquiet.tasks hquiet.max hquiet.size

theorem scheduled_schedulePump {stack : List TaskFrame}
    (h : s.shuttingDown = true ∨ s.pumpQueued = true) : TaskConfig.Promised ⟨s, stack⟩ :=
  h.elim .inl fun hqueued => .inr (.inl hqueued)

theorem scheduled_recoverLoop (n index : Nat) (rest : List TaskFrame) :
    (push ⟨c.sup, rest⟩ (TaskSupervisor.recoverLoop n index s)).Promised := by
  rcases s.recoverLoop_promises n index with hsup | ⟨i, hi⟩
  · exact scheduled_schedulePump hsup
  · exact .inr (.inr (.inr ⟨_, List.mem_append_left _ hi, trivial⟩))

theorem scheduled_resume (thrown : Option String) (h : c.Progress) (hstack : c.stack = f :: rest) :
    (push ⟨c.sup, rest⟩ (c.sup.resume thrown f)).Promised ∨
      (push ⟨c.sup, rest⟩ (c.sup.resume thrown f)).Settled := by
  cases f with
  | schedulePump => exact .inl (scheduled_schedulePump c.sup.schedulePump_promises)
  | notifyWaiters taskId =>
    have hpop := scheduled_pop h.scheduled hstack id rfl
    exact scheduled_push hpop (c.sup.quiet_notifyWaiters taskId)
  | recovering index => exact .inl (scheduled_recoverLoop _ _ _)
  | pumpFailed index taskId =>
    exact scheduled_pumpFrom h hstack rfl (c.sup.quiet_notifyWaiters taskId)
  | started index k =>
    cases thrown with
    | none => exact scheduled_pumpFrom h hstack rfl (c.sup.quiet_enter k)
    | some message =>
      have hbegun : (index, k) ∈ entering c.stack := by
        rw [hstack]
        exact List.mem_cons_self ..
      have hmem := h.numbered.begun index k hbegun
      rw [controllers_slots] at hmem
      obtain ⟨y, hy, hyk⟩ := List.mem_map.mp hmem
      cases hx : c.sup.executionOf k with
      | none =>
        have hnot := List.find?_eq_none.mp hx y hy
        simp [hyk] at hnot
      | some x =>
        have hresume : c.sup.resume (some message) (.started index k) =
            (c.sup.continueTask x (.threw message), [.finishing k, .entering index k]) := by
          simp only [TaskSupervisor.resume, hx]
        rw [hresume]
        refine .inl (.inr (.inr (.inr ⟨.finishing k, List.mem_cons_self .., ?_⟩)))
        show k ∈ (c.sup.continueTask x (.threw message)).executions.map (·.controller)
        rw [controllers_of_slots (c.sup.keeps_continueTask x _).slots]
        exact List.mem_map.mpr ⟨y, hy, hyk⟩
  | entering index k => exact scheduled_pumpFrom h hstack rfl (c.sup.quiet_enter k)
  | finishing k =>
    cases hx : c.sup.executionOf k with
    | none =>
      have hnot : ¬ (TaskFrame.finishing k).Promises c.sup := by
        intro hmem
        obtain ⟨y, hy, hyk⟩ := List.mem_map.mp hmem
        have hnot := List.find?_eq_none.mp hx y hy
        simp [hyk] at hnot
      exact scheduled_push (scheduled_pop h.scheduled hstack hnot rfl)
        (c.sup.quiet_finishTask k)
    | some x =>
      obtain ⟨hmem, hk⟩ := TaskSupervisor.executionOf_eq_some hx
      refine .inl (.inr (.inr (.inl ?_)))
      have hphase : ∃ y ∈ (c.sup.setPhase k .finished).executions, y.phase = .finished :=
        ⟨_, List.mem_map.mpr ⟨x, hmem, rfl⟩, by rw [if_pos hk]⟩
      show ∃ y ∈ (c.sup.finishTask k).executions, y.phase = .finished
      unfold TaskSupervisor.finishTask
      rw [hx]
      dsimp only
      split
      · obtain ⟨y, hy, hyphase⟩ := hphase
        exact ((c.sup.setPhase k .finished).quiet_notifyWaiters x.taskId).finished y hy hyphase
      · exact hphase
  | returning =>
    exact scheduled_push (scheduled_pop h.scheduled hstack id rfl) (.refl _)

theorem Settled.cancel {taskId : String} (h : c.Settled)
    (hnone : ∀ i, c.Passed i → ∀ e, c.sup.tasks.entries[i]? = some e → e.2.status.Open →
      taskId ∉ e.2.dependencies) (f : TaskRecord → TaskRecord) :
    TaskConfig.Settled ⟨c.sup.transition taskId .cancelled f, c.stack⟩ := by
  intro i hi e he hopen
  rw [TaskSupervisor.transition, TaskSupervisor.entries_modifyTask, List.getElem?_map] at he
  obtain ⟨e', he', rfl⟩ := Option.map_eq_some_iff.mp he
  by_cases hkey : e'.1 = taskId
  · rw [if_pos hkey] at hopen
    rcases hopen with hopen | hopen <;> cases hopen
  · rw [if_neg hkey] at hopen ⊢
    have hslots := c.sup.slots_transition taskId .cancelled f
    refine (h i hi e' he' hopen).congr (congrArg Slots.maxConcurrent hslots)
      (Nat.le_of_eq (congrArg (fun sl => sl.running.size) hslots).symm) ?_
    intro d hd
    have hne : d ≠ taskId := by
      rintro rfl
      exact hnone i hi e' he' hopen hd
    rw [TaskSupervisor.statusOf, TaskSupervisor.get_transition, if_neg hne]
    rfl

theorem scheduled_cancelTask {taskId : String} (h : c.Promised ∨ c.Settled)
    (hcovered : c.Covered (.cancelTask taskId)) :
    (c.push (c.sup.cancelTask taskId)).Promised ∨ (c.push (c.sup.cancelTask taskId)).Settled := by
  unfold TaskSupervisor.cancelTask
  split
  · exact scheduled_push h (.refl _)
  · rename_i task hget
    split
    · exact scheduled_push h (.refl _)
    · rename_i hterminal
      split
      · split
        · exact scheduled_push h (.refl _)
        · exact scheduled_push h (c.sup.quiet_abort _ _)
      · rename_i hrunning
        have hopen : task.status.Open := by
          unfold TaskStatus.Open
          cases hstatus : task.status with
          | queued => exact .inl rfl
          | waiting => exact .inr rfl
          | running => exact absurd hstatus hrunning
          | _ => exact absurd (by rw [hstatus]; rfl) hterminal
        have hcase := hcovered (by rw [TaskSupervisor.statusOf, hget]; simp [hopen])
        let cancelled := c.sup.transition taskId .cancelled fun t =>
          { t with error := some "Task cancelled" }
        have hemit := cancelled.quiet_emit taskId .cancelled none
        have hpersists : c.sup.Persists (cancelled.emit taskId .cancelled none) :=
          (c.sup.persists_transition ..).trans hemit.toPersists
        rcases hcase with hpromised | hfull | hnone
        · exact .inl (hpromised.push hpersists)
        · -- no pump would start anything
          have hsup : cancelled.slots = c.sup.slots := c.sup.slots_transition ..
          have hslots : (cancelled.emit taskId .cancelled none).slots = c.sup.slots := by
            rw [TaskSupervisor.slots_emit, hsup]
          refine .inr fun i _ e _ _ => .inl ?_
          show (cancelled.emit taskId .cancelled none).slots.maxConcurrent ≤
            (cancelled.emit taskId .cancelled none).slots.running.size
          rw [hslots]
          exact hfull
        · rcases h with hpromised | hsettled
          · exact .inl (hpromised.push hpersists)
          · have hstep := (hsettled.cancel hnone fun t =>
              { t with error := some "Task cancelled" }).push
                (r := (cancelled.emit taskId .cancelled none, [.notifyWaiters taskId])) hemit
            exact .inr hstep

end Scheduled

/-- Every covered step keeps a pump on its way or the tasks blocked. -/
theorem Progress.step {c c' : TaskConfig} {a : TaskAction} (h : c.Progress)
    (hok : c.Covered a) (hstep : c.step a = some c') : c'.Progress := by
  refine ⟨numbered_step h.numbered hstep, ordered_step h.ordered hstep, ?_⟩
  cases took_of_step hstep with
  | spawnTask =>
    unfold TaskSupervisor.spawnTask
    dsimp only
    split
    · exact scheduled_push h.scheduled (.refl _)
    · split
      · exact scheduled_push h.scheduled (.refl _)
      · exact .inl (.inr (.inr (.inr ⟨_, List.mem_cons_self .., trivial⟩)))
  | cancelTask taskId => exact scheduled_cancelTask h.scheduled hok
  | retryTask taskId =>
    unfold TaskSupervisor.retryTask
    split
    · exact scheduled_push h.scheduled (.refl _)
    · split
      · exact scheduled_push h.scheduled (.refl _)
      · exact .inl (.inr (.inr (.inr ⟨_, List.mem_cons_self .., trivial⟩)))
  | waitForTask taskId => exact scheduled_push h.scheduled (c.sup.quiet_waitForTask taskId)
  | recoverAfterRestart => exact .inl (scheduled_recoverLoop (c := c) _ _ c.stack)
  | shutdown => exact .inl (.inl (c.sup.shuttingDown_shutdown))
  | progress taskId message => exact scheduled_push h.scheduled (c.sup.quiet_emit ..)
  | @resume thrown f rest hstack => exact scheduled_resume thrown h hstack
  | pump hstack =>
    unfold TaskSupervisor.pump
    dsimp only
    split
    · rename_i hdown
      exact .inl (.inl hdown)
    · have hzero : TaskSupervisor.Settled { c.sup with pumpQueued := false } 0 := by
        intro i hi
        cases hi
      exact .inr (settled_pumpFrom (c := c) h.ordered hzero)
  | @continueTask k x outcome _ hx _ =>
    obtain ⟨hmem, hk⟩ := TaskSupervisor.executionOf_eq_some hx
    refine .inl (.inr (.inr (.inr ⟨.finishing k, List.mem_cons_self .., ?_⟩)))
    show k ∈ (c.sup.continueTask x outcome).executions.map (·.controller)
    rw [controllers_of_slots (c.sup.keeps_continueTask x _).slots]
    exact List.mem_map.mpr ⟨x, hmem, hk⟩
  | finallyCallback =>
    exact .inl (scheduled_schedulePump (TaskSupervisor.schedulePump_promises _))
  | @settle k x outcome _ hx hphase =>
    obtain ⟨hmem, hk⟩ := TaskSupervisor.executionOf_eq_some hx
    refine scheduled_push h.scheduled (c.sup.quiet_modifyExecution k (fun _ => rfl) ?_)
    -- the execution with this controller is still running
    intro y hy hyk hfinished
    have hdistinct := h.numbered.distinct
    rw [controllers_slots] at hdistinct
    have heq : y = x := List.inj_on_of_nodup_map hdistinct hy hmem (hyk.trans hk.symm)
    rw [heq, hphase] at hfinished
    cases hfinished
  | taskTimedOut => exact scheduled_push h.scheduled (c.sup.quiet_abort ..)
  | waiterTimedOut => exact scheduled_push h.scheduled (c.sup.quiet_waiterTimedOut ..)

/-- A supervisor as `serve` starts it, or one that has no queued or waiting
task yet. What the repository has was saved with dependencies first. -/
inductive Starts : TaskConfig → Prop
  | recovered {maxConcurrent : Option Nat} {loaded : List TaskRecord}
      (hord : (TaskSupervisor.create maxConcurrent loaded).Ordered) :
      Starts (push ⟨.create maxConcurrent loaded, []⟩
        (TaskSupervisor.create maxConcurrent loaded).recoverAfterRestart)
  | closed {maxConcurrent : Option Nat} {loaded : List TaskRecord}
      (hord : (TaskSupervisor.create maxConcurrent loaded).Ordered)
      (hclosed : ∀ e ∈ (TaskSupervisor.create maxConcurrent loaded).tasks.entries,
        ¬ e.2.status.Open) : Starts ⟨.create maxConcurrent loaded, []⟩

theorem Starts.progress {c : TaskConfig} (h : c.Starts) : c.Progress := by
  cases h with
  | @recovered maxConcurrent loaded hord =>
    have hkeeps := (TaskSupervisor.create maxConcurrent loaded).keeps_recoverAfterRestart
    refine ⟨?_, hkeeps.ordered hord, .inl ?_⟩
    · have hslots := slotInv_create maxConcurrent loaded
      have hnumbered : Numbered (TaskSupervisor.create maxConcurrent loaded).slots [] :=
        ⟨hslots.fresh, hslots.distinct, nofun, hslots.pumps⟩
      show Numbered (TaskSupervisor.recoverAfterRestart _).1.slots (_ ++ [])
      rw [hkeeps.slots]
      exact hnumbered.push (TaskSupervisor.recoverLoop_frames _ _ _)
    · exact scheduled_recoverLoop (c := ⟨.create maxConcurrent loaded, []⟩) _ _ []
  | @closed maxConcurrent loaded hord hclosed =>
    have hslots := slotInv_create maxConcurrent loaded
    refine ⟨⟨hslots.fresh, hslots.distinct, nofun, hslots.pumps⟩, hord, .inr ?_⟩
    intro i _ e he hopen
    exact absurd hopen (hclosed e (List.mem_of_getElem? he))

/-- As long as nobody waits for a task that is cancelled, no task is stuck:
when no microtask of the supervisor is queued, every queued or waiting task
is blocked. -/
theorem blocked_of_covered {start c : TaskConfig} (hstart : start.Starts)
    (hrun : Machine.Reaches step Covered start c) (hstack : c.stack = [])
    (hup : c.sup.shuttingDown = false) (hpump : c.sup.pumpQueued = false)
    (hfinally : ∀ x ∈ c.sup.executions, x.phase ≠ .finished) :
    ∀ e ∈ c.sup.tasks.entries, e.2.status = .queued ∨ e.2.status = .waiting →
      c.sup.Blocked e.2 := by
  have hprogress : c.Progress := hrun.invariant hstart.progress
    fun s a s' hs hok hstep => hs.step hok hstep
  rcases hprogress.scheduled with hpromised | hsettled
  · rcases hpromised with hdown | hqueued | ⟨x, hx, hphase⟩ | ⟨f, hf, -⟩
    · cases hup.symm.trans hdown
    · cases hpump.symm.trans hqueued
    · exact absurd hphase (hfinally x hx)
    · rw [hstack] at hf
      cases hf
  · intro e he hopen
    obtain ⟨i, hi⟩ := List.getElem?_of_mem he
    refine hsettled i ?_ e hi hopen
    intro f hf
    have hnil : f ∈ c.stack := hf
    rw [hstack] at hnil
    cases hnil

/-! ## Two runs -/

instance (s : TaskSupervisor) (f : TaskFrame) : Decidable (f.Promises s) := by
  cases f <;> unfold TaskFrame.Promises <;> infer_instance

instance (c : TaskConfig) : Decidable c.Promised := by
  unfold TaskConfig.Promised
  infer_instance

instance (c : TaskConfig) (i : Nat) : Decidable (c.Passed i) :=
  decidable_of_iff (∀ f ∈ c.stack, ∀ index ∈ f.pumpAt, i ≤ index) Iff.rfl

instance (c : TaskConfig) (a : TaskAction) : Decidable (c.Covered a) :=
  match a with
  | .cancelTask taskId =>
      decidable_of_iff
        ((c.sup.statusOf taskId).any (fun status => decide status.Open) = true →
          c.Promised ∨ c.sup.maxConcurrent ≤ c.sup.running.size ∨
            ∀ p ∈ c.sup.tasks.entries.zipIdx, c.Passed p.2 → p.1.2.status.Open →
              taskId ∉ p.1.2.dependencies) <| by
        refine imp_congr_right fun _ => or_congr_right (or_congr_right ?_)
        constructor
        · intro h i hi e he
          exact h (e, i) (List.mem_zipIdx_iff_getElem?.mpr he) hi
        · intro h p hp hi
          exact h p.2 hi p.1 (List.mem_zipIdx_iff_getElem?.mp hp)
  | .spawnTask .. | .retryTask _ | .waitForTask _ | .recoverAfterRestart | .shutdown
  | .progress .. | .resume _ | .pump | .continueTask _ | .finallyCallback _ | .settle ..
  | .taskTimedOut _ | .waiterTimedOut .. => isTrue trivial

/-- A task waits for a running one, and another that nobody waits for is
cancelled. -/
def waitingActions : List TaskAction :=
  [.spawnTask {} "a", .resume none, .spawnTask { dependencies := ["a"] } "b", .resume none,
    .spawnTask { dependencies := ["a"] } "c", .resume none, .pump, .resume none,
    .cancelTask "c", .resume none]

theorem blocked_of_covered_waiting : ∃ c,
    Machine.run step Covered empty waitingActions = some c ∧
      ∀ e ∈ c.sup.tasks.entries, e.2.status = .queued ∨ e.2.status = .waiting →
        c.sup.Blocked e.2 := by
  have hrun : ∃ c, Machine.run step Covered empty waitingActions = some c ∧ c.stack = [] ∧
      c.sup.shuttingDown = false ∧ c.sup.pumpQueued = false ∧
      ∀ x ∈ c.sup.executions, x.phase ≠ .finished :=
    ⟨_, rfl, rfl, rfl, rfl, by decide⟩
  obtain ⟨c, hc, hstack, hup, hpump, hfinally⟩ := hrun
  have hstart : empty.Starts := .closed (by nofun) (by nofun)
  exact ⟨c, hc, blocked_of_covered hstart (Machine.reaches_of_run hc) hstack hup hpump hfinally⟩

/-- The middle one of three tasks, each waiting for the one before, is
cancelled. -/
def cancelActions : List TaskAction :=
  [.spawnTask {} "a", .resume none, .spawnTask { dependencies := ["a"] } "b", .resume none, .pump,
    .resume none, .spawnTask { dependencies := ["b"] } "d", .resume none, .pump,
    .cancelTask "b", .resume none]

/-- The last one is stuck: no pump is queued, the map has room, and its only
dependency is cancelled. -/
theorem cancelled_dependency_stuck : ∃ c,
    Machine.Reaches step (fun _ a => a ≠ .shutdown) empty c ∧ c.stack = [] ∧
      c.sup.pumpQueued = false ∧ (∀ x ∈ c.sup.executions, x.phase ≠ .finished) ∧
      c.sup.running.size < c.sup.maxConcurrent ∧
      ∃ e ∈ c.sup.tasks.entries, e.2.status = .waiting ∧ e.2.dependencies = ["b"] ∧
        c.sup.statusOf "b" = some .cancelled := by
  have hrun : ∃ c, Machine.run step (fun _ a => a ≠ .shutdown) empty cancelActions = some c ∧
      c.stack = [] ∧ c.sup.pumpQueued = false ∧ (∀ x ∈ c.sup.executions, x.phase ≠ .finished) ∧
      c.sup.running.size < c.sup.maxConcurrent ∧
      ∃ e ∈ c.sup.tasks.entries, e.2.status = .waiting ∧ e.2.dependencies = ["b"] ∧
        c.sup.statusOf "b" = some .cancelled :=
    ⟨_, rfl, rfl, rfl, by decide, by decide, by decide⟩
  obtain ⟨c, hc, hstuck⟩ := hrun
  exact ⟨c, Machine.reaches_of_run hc, hstuck⟩

end TaskConfig

end Eagent
