import Eagent.TaskSupervisor
import Mathlib.Data.List.Nodup

/-!
# Executions and the running map

What of a supervisor matters for its executions: the map, the executions
without their phases, the counter (`Slots`). Only a start, its map entry
and the `finally` callback change it. As long as the pump never starts a
task that still has an entry, the map holds exactly the executions in
flight (`SlotInv`).
-/

namespace Eagent

/-- An execution without its phase and its signal. -/
structure Slot where
  controller : Nat
  taskId : String
  entered : Bool
deriving DecidableEq

def Execution.slot (x : Execution) : Slot := ⟨x.controller, x.taskId, x.entered⟩

structure Slots where
  maxConcurrent : Nat
  running : OrdMap String Nat
  list : List Slot
  nextController : Nat

/-- A frame of `pump`. -/
def TaskFrame.isPump : TaskFrame → Bool
  | .pumpFailed .. | .started .. | .entering .. => true
  | _ => false

namespace TaskSupervisor

/-! ## Records -/

section Records

variable (s : TaskSupervisor) (taskId : String)

theorem entries_modifyTask (f : TaskRecord → TaskRecord) :
    (s.modifyTask taskId f).tasks.entries =
      s.tasks.entries.map fun e => if e.1 = taskId then (e.1, f e.2) else e := by
  unfold modifyTask
  cases h : s.tasks.get taskId with
  | none =>
    rw [OrdMap.get_eq_none] at h
    conv_lhs => rw [← List.map_id s.tasks.entries]
    refine List.map_congr_left ?_
    intro e he
    have hne : e.1 ≠ taskId := fun heq => h (List.mem_map.mpr ⟨e, he, heq⟩)
    rw [if_neg hne]
    rfl
  | some task =>
    have hmem := OrdMap.get_eq_some.mp h
    have hkey : taskId ∈ s.tasks.keys := List.mem_map.mpr ⟨_, hmem, rfl⟩
    show (s.tasks.set taskId (f task)).entries = _
    rw [OrdMap.entries_set_present _ hkey]
    refine List.map_congr_left ?_
    rintro ⟨k, t⟩ he
    by_cases hk : k = taskId
    · subst hk
      have ht := OrdMap.get_eq_some.mpr he
      obtain rfl := Option.some.inj (h.symm.trans ht)
      rfl
    · simp [hk]

theorem keys_modifyTask (f : TaskRecord → TaskRecord) :
    (s.modifyTask taskId f).tasks.keys = s.tasks.keys := by
  rw [OrdMap.keys, OrdMap.keys, entries_modifyTask, List.map_map]
  refine List.map_congr_left ?_
  intro e _
  simp only [Function.comp_apply]
  split <;> rfl

@[simp] theorem keys_transition (status : TaskStatus) (f : TaskRecord → TaskRecord) :
    (s.transition taskId status f).tasks.keys = s.tasks.keys := s.keys_modifyTask taskId _

@[simp] theorem tasks_emit (eventType : TaskEventType) (message : Option String) :
    (s.emit taskId eventType message).tasks = s.tasks := by
  unfold emit
  split <;> rfl

@[simp] theorem tasks_schedulePump : s.schedulePump.tasks = s.tasks := by
  unfold schedulePump
  split <;> rfl

@[simp] theorem tasks_notifyWaiters : (s.notifyWaiters taskId).tasks = s.tasks := by
  unfold notifyWaiters
  split <;> rfl

end Records

/-! ## Slots -/

def slots (s : TaskSupervisor) : Slots :=
  ⟨s.maxConcurrent, s.running, s.executions.map (·.slot), s.nextController⟩

section Frame

variable (s : TaskSupervisor) (taskId : String)

@[simp] theorem slots_modifyTask (f : TaskRecord → TaskRecord) :
    (s.modifyTask taskId f).slots = s.slots := by
  unfold modifyTask
  split <;> rfl

@[simp] theorem slots_transition (status : TaskStatus) (f : TaskRecord → TaskRecord) :
    (s.transition taskId status f).slots = s.slots := s.slots_modifyTask taskId _

@[simp] theorem slots_emit (eventType : TaskEventType) (message : Option String) :
    (s.emit taskId eventType message).slots = s.slots := by
  unfold emit
  split <;> rfl

@[simp] theorem slots_schedulePump : s.schedulePump.slots = s.slots := by
  unfold schedulePump
  split <;> rfl

@[simp] theorem slots_notifyWaiters : (s.notifyWaiters taskId).slots = s.slots := by
  unfold notifyWaiters
  split <;> rfl

theorem slots_modifyExecution (controller : Nat) {f : Execution → Execution}
    (hf : ∀ x, (f x).slot = x.slot) : (s.modifyExecution controller f).slots = s.slots := by
  have hlist : (s.modifyExecution controller f).executions.map (·.slot) =
      s.executions.map (·.slot) := by
    show (s.executions.map _).map _ = _
    rw [List.map_map]
    refine List.map_congr_left ?_
    intro x _
    simp only [Function.comp_apply]
    split
    · exact hf x
    · rfl
  show Slots.mk _ _ _ _ = _
  rw [hlist]
  rfl

@[simp] theorem slots_abort (controller : Nat) (reason : String) :
    (s.abort controller reason).slots = s.slots :=
  s.slots_modifyExecution controller fun _ => rfl

@[simp] theorem slots_setPhase (controller : Nat) (phase : Phase) :
    (s.setPhase controller phase).slots = s.slots :=
  s.slots_modifyExecution controller fun _ => rfl

@[simp] theorem keys_abort (controller : Nat) (reason : String) :
    (s.abort controller reason).tasks.keys = s.tasks.keys := rfl

@[simp] theorem keys_setPhase (controller : Nat) (phase : Phase) :
    (s.setPhase controller phase).tasks.keys = s.tasks.keys := rfl

end Frame

/-- Dependencies are earlier tasks: `spawnTask` rejects unknown ones. -/
def Ordered (s : TaskSupervisor) : Prop :=
  ∀ i e, s.tasks.entries[i]? = some e → ∀ d ∈ e.2.dependencies, d ∈ s.tasks.keys.take i

/-- The executions are as they were, and tasks were at most added, after
their dependencies. -/
structure Keeps (s s' : TaskSupervisor) : Prop where
  slots : s'.slots = s.slots
  keys : s.tasks.keys <+: s'.tasks.keys
  ordered : s.Ordered → s'.Ordered

namespace Keeps

variable {s s' s'' : TaskSupervisor}

theorem refl (s : TaskSupervisor) : Keeps s s := ⟨rfl, List.prefix_rfl, id⟩

theorem trans (h : Keeps s s') (h' : Keeps s' s'') : Keeps s s'' :=
  ⟨h'.slots.trans h.slots, h.keys.trans h'.keys, fun ho => h'.ordered (h.ordered ho)⟩

theorem of_eq (hslots : s'.slots = s.slots) (htasks : s'.tasks = s.tasks) : Keeps s s' := by
  refine ⟨hslots, htasks ▸ List.prefix_rfl, ?_⟩
  intro h
  unfold Ordered
  rw [htasks]
  exact h

end Keeps

section Methods

variable (s : TaskSupervisor) (taskId : String)

theorem keeps_notifyWaiters : Keeps s (s.notifyWaiters taskId) :=
  .of_eq (by simp) (by simp)

theorem keeps_schedulePump : Keeps s s.schedulePump := .of_eq (by simp) (by simp)

theorem keeps_abort (controller : Nat) (reason : String) : Keeps s (s.abort controller reason) :=
  .of_eq (by simp) rfl

theorem keeps_setPhase (controller : Nat) (phase : Phase) :
    Keeps s (s.setPhase controller phase) := .of_eq (by simp) rfl

theorem keeps_emit (eventType : TaskEventType) (message : Option String) :
    Keeps s (s.emit taskId eventType message) := .of_eq (by simp) (by simp)

variable {f : TaskRecord → TaskRecord}

theorem ordered_modifyTask (hf : ∀ t, (f t).dependencies = t.dependencies) (h : s.Ordered) :
    (s.modifyTask taskId f).Ordered := by
  intro i e he
  rw [entries_modifyTask, List.getElem?_map] at he
  obtain ⟨e', he', rfl⟩ := Option.map_eq_some_iff.mp he
  rw [keys_modifyTask]
  split
  · rw [hf]
    exact h i e' he'
  · exact h i e' he'

theorem keeps_modifyTask (hf : ∀ t, (f t).dependencies = t.dependencies) :
    Keeps s (s.modifyTask taskId f) :=
  ⟨slots_modifyTask .., keys_modifyTask s taskId f ▸ List.prefix_rfl,
    s.ordered_modifyTask taskId hf⟩

theorem keeps_transition {status : TaskStatus} (hf : ∀ t, (f t).dependencies = t.dependencies) :
    Keeps s (s.transition taskId status f) := s.keeps_modifyTask taskId hf

theorem keeps_change {status : TaskStatus} {eventType : TaskEventType} {message : Option String}
    (hf : ∀ t, (f t).dependencies = t.dependencies) :
    Keeps s ((s.transition taskId status f).emit taskId eventType message) :=
  (s.keeps_transition taskId hf).trans (keeps_emit ..)

theorem keys_set_fresh {id : String} (hnot : id ∉ s.tasks.keys) (task : TaskRecord) :
    (s.tasks.set id task).keys = s.tasks.keys ++ [id] := by
  rw [OrdMap.keys, OrdMap.entries_set_fresh task hnot, List.map_append]
  rfl

theorem keeps_add {id : String} {task : TaskRecord} (hnot : id ∉ s.tasks.keys)
    (hdeps : ∀ d ∈ task.dependencies, d ∈ s.tasks.keys) :
    Keeps s { s with tasks := s.tasks.set id task } := by
  have hkeys := s.keys_set_fresh hnot task
  refine ⟨rfl, ?_, ?_⟩
  · show s.tasks.keys <+: (s.tasks.set id task).keys
    rw [hkeys]
    exact List.prefix_append _ _
  · intro h i e he
    have he' : (s.tasks.entries ++ [(id, task)])[i]? = some e := by
      rw [← OrdMap.entries_set_fresh task hnot]
      exact he
    show ∀ d ∈ e.2.dependencies, d ∈ (s.tasks.set id task).keys.take i
    rw [hkeys]
    have hlength : s.tasks.keys.length = s.tasks.entries.length := List.length_map ..
    by_cases hi : i < s.tasks.entries.length
    · rw [List.getElem?_append_left hi] at he'
      intro d hd
      rw [List.take_append_of_le_length (by omega)]
      exact h i e he' d hd
    · rw [List.getElem?_append_right (by omega)] at he'
      have hzero : i - s.tasks.entries.length < 1 := (List.getElem?_eq_some_iff.mp he').1
      obtain rfl := List.mem_singleton.mp (List.mem_of_getElem? he')
      intro d hd
      have htake : (s.tasks.keys ++ [id]).take i = s.tasks.keys := by
        rw [List.take_append_of_le_length (by omega), List.take_of_length_le (by omega)]
      rw [htake]
      exact hdeps d hd

theorem keeps_spawnTask (options : SpawnTaskOptions) (id : String)
    (hfresh : s.tasks.has id = false) : Keeps s (s.spawnTask options id).1 := by
  unfold spawnTask
  dsimp only
  split
  · exact .refl s
  · split
    · exact .refl s
    · rename_i hknown
      have hnot : id ∉ s.tasks.keys := by
        rw [← OrdMap.has_iff, hfresh]
        exact Bool.false_ne_true
      have hdeps : ∀ d ∈ options.dependencies, d ∈ s.tasks.keys := by
        intro d hd
        rw [← OrdMap.has_iff]
        by_contra hunknown
        exact hknown (List.any_eq_true.mpr ⟨d, hd, by simpa using hunknown⟩)
      refine Keeps.trans ?_ (keeps_emit ..)
      split
      · exact keeps_add s hnot (by exact hdeps)
      · refine Keeps.trans ?_ (keeps_modifyTask _ _ fun _ => rfl)
        exact keeps_add s hnot (by exact hdeps)

theorem keeps_cancelTask : Keeps s (s.cancelTask taskId).1 := by
  unfold cancelTask
  split
  · exact .refl s
  · split
    · exact .refl s
    · split
      · split
        · exact .refl s
        · exact s.keeps_abort _ _
      · exact s.keeps_change _ fun _ => rfl

theorem keeps_retryTask : Keeps s (s.retryTask taskId).1 := by
  unfold retryTask
  split
  · exact .refl s
  · split
    · exact .refl s
    · exact s.keeps_change _ fun _ => rfl

theorem keeps_waitForTask : Keeps s (s.waitForTask taskId) := by
  unfold waitForTask
  split
  · exact .refl s
  · split
    · exact .of_eq rfl rfl
    · exact .of_eq rfl rfl

theorem keeps_waiterTimedOut (waiter : Nat) : Keeps s (s.waiterTimedOut taskId waiter) := by
  unfold waiterTimedOut
  split
  · exact .refl s
  · exact .of_eq rfl rfl

theorem spawnTask_frames (options : SpawnTaskOptions) (id : String) :
    ∀ f ∈ (s.spawnTask options id).2, f.isPump = false := by
  unfold spawnTask
  dsimp only
  split
  · simp
  · split
    · simp
    · simp [TaskFrame.isPump]

theorem cancelTask_frames : ∀ f ∈ (s.cancelTask taskId).2, f.isPump = false := by
  unfold cancelTask
  split
  · simp
  · split
    · simp
    · split
      · split <;> simp
      · simp [TaskFrame.isPump]

theorem retryTask_frames : ∀ f ∈ (s.retryTask taskId).2, f.isPump = false := by
  unfold retryTask
  split
  · simp
  · split
    · simp
    · simp [TaskFrame.isPump]

theorem recoverLoop_frames (n index : Nat) :
    ∀ f ∈ (recoverLoop n index s).2, f.isPump = false := by
  induction n generalizing index with
  | zero => simp [recoverLoop]
  | succ n ih =>
    unfold recoverLoop
    split
    · simp
    · split
      · simp [TaskFrame.isPump]
      · exact ih (index + 1)

theorem keeps_recoverLoop (n index : Nat) : Keeps s (recoverLoop n index s).1 := by
  induction n generalizing index with
  | zero => exact s.keeps_schedulePump
  | succ n ih =>
    unfold recoverLoop
    split
    · exact s.keeps_schedulePump
    · split
      · exact s.keeps_change _ fun _ => rfl
      · exact ih (index + 1)

theorem keeps_recoverAfterRestart : Keeps s s.recoverAfterRestart.1 := by
  have hflag : Keeps s { s with shuttingDown := false } := .of_eq rfl rfl
  exact hflag.trans (keeps_recoverLoop _ _ _)

theorem keeps_shutdown : Keeps s s.shutdown := by
  have hfold : ∀ (controllers : List Nat) (t : TaskSupervisor), Keeps t
      (controllers.foldl (fun s c => s.abort c "Orchestrator shutting down") t) := by
    intro controllers
    induction controllers with
    | nil => exact Keeps.refl
    | cons c rest ih => exact fun t => (t.keeps_abort c _).trans (ih _)
  have hflag : Keeps s { s with shuttingDown := true } := .of_eq rfl rfl
  exact hflag.trans (hfold _ _)

theorem keeps_handleFailure (task : TaskRecord) (status : TaskStatus) (message : String) :
    Keeps s (s.handleFailure taskId task status message) := by
  unfold handleFailure
  split
  · exact s.keeps_change _ fun _ => rfl
  · exact s.keeps_change _ fun _ => rfl

theorem keeps_caught (x : Execution) (message : String) : Keeps s (s.caught x message) := by
  unfold caught
  split
  · exact .refl s
  · split
    · exact s.keeps_change _ fun _ => rfl
    · split
      · exact s.keeps_handleFailure ..
      · split
        · exact s.keeps_change _ fun _ => rfl
        · exact s.keeps_handleFailure ..

theorem keeps_continueTask (x : Execution) (outcome : RunOutcome) :
    Keeps s (s.continueTask x outcome) := by
  cases outcome with
  | returned summary =>
    exact (s.keeps_setPhase ..).trans (keeps_change _ _ fun _ => rfl)
  | threw message => exact (s.keeps_setPhase ..).trans (keeps_caught ..)

theorem keeps_finishTask (controller : Nat) : Keeps s (s.finishTask controller) := by
  unfold finishTask
  split
  · exact .refl s
  · dsimp only
    split
    · exact (s.keeps_setPhase ..).trans (keeps_notifyWaiters ..)
    · exact s.keeps_setPhase ..

end Methods

end TaskSupervisor

/-! ## The invariant -/

/-- A frame that will set a map entry: the index of the task and the
controller. -/
def TaskFrame.enters : TaskFrame → Option (Nat × Nat)
  | .started index controller | .entering index controller => some (index, controller)
  | _ => none

def entering (stack : List TaskFrame) : List (Nat × Nat) := stack.filterMap TaskFrame.enters

/-- The map holds the executions that were entered, each task has at most
one execution, and at most one execution, that of the suspended pump, has
still to be entered. -/
structure SlotInv (sl : Slots) (keys : List String) (stack : List TaskFrame) : Prop where
  fresh : ∀ x ∈ sl.list, x.controller < sl.nextController
  distinct : (sl.list.map (·.controller)).Nodup
  once : (sl.list.map (·.taskId)).Nodup
  entries : ∀ id k, sl.running.get id = some k ↔ ⟨k, id, true⟩ ∈ sl.list
  suspended : ∀ k id, ⟨k, id, false⟩ ∈ sl.list → ∃ i, (i, k) ∈ entering stack
  opened : ∀ i k, (i, k) ∈ entering stack → ∃ id, ⟨k, id, false⟩ ∈ sl.list ∧ keys[i]? = some id
  capacity : sl.running.size + (entering stack).length ≤ sl.maxConcurrent
  pumps : (stack.filter TaskFrame.isPump).length ≤ 1

def TaskConfig.SlotInv (c : TaskConfig) : Prop :=
  Eagent.SlotInv c.sup.slots c.sup.tasks.keys c.stack

theorem entering_of_noPump {stack : List TaskFrame}
    (h : stack.filter TaskFrame.isPump = []) : entering stack = [] := by
  refine List.filterMap_eq_nil_iff.mpr ?_
  intro f hf
  have hnot := List.filter_eq_nil_iff.mp h f hf
  cases f with
  | started i k => exact absurd rfl hnot
  | entering i k => exact absurd rfl hnot
  | _ => rfl

section Stack

variable {frames : List TaskFrame} (stack : List TaskFrame)

theorem filter_isPump_append (hframes : ∀ f ∈ frames, f.isPump = false) :
    (frames ++ stack).filter TaskFrame.isPump = stack.filter TaskFrame.isPump := by
  have hnone : frames.filter TaskFrame.isPump = [] := by
    refine List.filter_eq_nil_iff.mpr ?_
    intro f hf
    rw [hframes f hf]
    exact Bool.false_ne_true
  rw [List.filter_append, hnone]
  rfl

theorem entering_append (hframes : ∀ f ∈ frames, f.isPump = false) :
    entering (frames ++ stack) = entering stack := by
  have hnone : entering frames = [] := by
    refine entering_of_noPump ?_
    have h := filter_isPump_append [] hframes
    rwa [List.append_nil] at h
  rw [entering, List.filterMap_append, ← entering, ← entering, hnone]
  rfl

theorem noPump_below {f : TaskFrame} {stack : List TaskFrame}
    (hpumps : ((f :: stack).filter TaskFrame.isPump).length ≤ 1) (hf : f.isPump = true) :
    stack.filter TaskFrame.isPump = [] := by
  rw [List.filter_cons_of_pos hf, List.length_cons] at hpumps
  exact List.length_eq_zero_iff.mp (by omega)

end Stack

namespace SlotInv

variable {sl : Slots} {keys keys' : List String} {stack frames : List TaskFrame}

theorem push (h : SlotInv sl keys stack) (hkeys : keys <+: keys')
    (hframes : ∀ f ∈ frames, f.isPump = false) : SlotInv sl keys' (frames ++ stack) := by
  have hentering := entering_append stack hframes
  refine ⟨h.fresh, h.distinct, h.once, h.entries, ?_, ?_, ?_, ?_⟩
  · rw [hentering]
    exact h.suspended
  · rw [hentering]
    intro i k hik
    obtain ⟨id, hmem, hid⟩ := h.opened i k hik
    obtain ⟨more, rfl⟩ := hkeys
    have hi : i < keys.length := (List.getElem?_eq_some_iff.mp hid).1
    exact ⟨id, hmem, by rw [List.getElem?_append_left hi, hid]⟩
  · rw [hentering]
    exact h.capacity
  · rw [filter_isPump_append stack hframes]
    exact h.pumps

theorem pop {f : TaskFrame} (h : SlotInv sl keys (f :: stack)) (hf : f.isPump = false) :
    SlotInv sl keys stack := by
  have hentering : entering (f :: stack) = entering stack := by
    cases f with
    | started i k => cases hf
    | entering i k => cases hf
    | _ => rfl
  refine ⟨h.fresh, h.distinct, h.once, h.entries, ?_, ?_, ?_, ?_⟩
  · exact hentering ▸ h.suspended
  · exact hentering ▸ h.opened
  · exact hentering ▸ h.capacity
  · have hpumps := h.pumps
    rwa [List.filter_cons_of_neg (by rw [hf]; exact Bool.false_ne_true)] at hpumps

theorem rest_noPump {f : TaskFrame} (h : SlotInv sl keys (f :: stack)) (hf : f.isPump = true) :
    stack.filter TaskFrame.isPump = [] := noPump_below h.pumps hf

end SlotInv

/-! ## Starts, entries and removals -/

namespace Slots

variable {sl : Slots}

theorem fresh_start (h : ∀ x ∈ sl.list, x.controller < sl.nextController) (taskId : String) :
    ∀ x ∈ sl.list ++ [Slot.mk sl.nextController taskId false],
      x.controller < sl.nextController + 1 := by
  intro x hx
  rcases List.mem_append.mp hx with hx | hx
  · exact Nat.lt_succ_of_lt (h x hx)
  · rw [List.mem_singleton.mp hx]
    exact Nat.lt_succ_self _

theorem distinct_start (hfresh : ∀ x ∈ sl.list, x.controller < sl.nextController)
    (h : (sl.list.map (·.controller)).Nodup) (taskId : String) :
    ((sl.list ++ [Slot.mk sl.nextController taskId false]).map (·.controller)).Nodup := by
  rw [List.map_append, List.nodup_append]
  refine ⟨h, List.nodup_singleton _, ?_⟩
  intro a ha b hb
  obtain ⟨x, hx, rfl⟩ := List.mem_map.mp ha
  rw [List.mem_singleton.mp hb]
  exact Nat.ne_of_lt (hfresh x hx)

end Slots

theorem entering_started {rest : List TaskFrame} (hrest : rest.filter TaskFrame.isPump = [])
    (index k : Nat) : entering (.started index k :: rest) = [(index, k)] := by
  show (index, k) :: entering rest = _
  rw [entering_of_noPump hrest]

namespace SlotInv

variable {sl : Slots} {keys : List String} {rest : List TaskFrame}

theorem start (h : SlotInv sl keys rest) (hrest : rest.filter TaskFrame.isPump = [])
    {index : Nat} {taskId : String} (hindex : keys[index]? = some taskId)
    (hentry : sl.running.get taskId = none) (hroom : sl.running.size < sl.maxConcurrent) :
    SlotInv
      { sl with
        list := sl.list ++ [⟨sl.nextController, taskId, false⟩]
        nextController := sl.nextController + 1 }
      keys (.started index sl.nextController :: rest) := by
  have hnone := entering_of_noPump hrest
  have hentering := entering_started hrest index sl.nextController
  have hnew : ∀ x ∈ sl.list, x.taskId ≠ taskId := by
    rintro ⟨k, id, e⟩ hx rfl
    cases e with
    | true =>
      rw [(h.entries id k).mpr hx] at hentry
      cases hentry
    | false =>
      obtain ⟨i, hi⟩ := h.suspended k id hx
      rw [hnone] at hi
      cases hi
  refine ⟨Slots.fresh_start h.fresh taskId, Slots.distinct_start h.fresh h.distinct taskId,
    ?_, ?_, ?_, ?_, ?_, ?_⟩
  · rw [List.map_append, List.nodup_append]
    refine ⟨h.once, List.nodup_singleton _, ?_⟩
    intro a ha b hb
    obtain ⟨x, hx, rfl⟩ := List.mem_map.mp ha
    rw [List.mem_singleton.mp hb]
    exact hnew x hx
  · intro id k
    rw [h.entries]
    simp
  · intro k id hmem
    rw [hentering]
    rcases List.mem_append.mp hmem with hmem | hmem
    · obtain ⟨i, hi⟩ := h.suspended k id hmem
      rw [hnone] at hi
      cases hi
    · obtain ⟨rfl, -⟩ := Slot.mk.inj (List.mem_singleton.mp hmem)
      exact ⟨index, List.mem_singleton_self _⟩
  · intro i k hik
    rw [hentering] at hik
    obtain ⟨rfl, rfl⟩ := Prod.mk.inj (List.mem_singleton.mp hik)
    exact ⟨taskId, List.mem_append_right _ (List.mem_singleton_self _), hindex⟩
  · rw [hentering]
    exact hroom
  · rw [List.filter_cons_of_pos rfl, hrest]
    exact Nat.le_refl 1

/-- The entry of the execution the pump has just started. -/
theorem enter {f : TaskFrame} {index k : Nat} {id : String}
    (h : SlotInv sl keys (f :: rest)) (hf : f.enters = some (index, k))
    (hmem : ⟨k, id, false⟩ ∈ sl.list) :
    SlotInv
      { sl with
        running := sl.running.set id k
        list := sl.list.map fun x => if x.controller = k then { x with entered := true } else x }
      keys rest := by
  have hpump : f.isPump = true := by
    cases f <;> first | rfl | cases hf
  have hnone := entering_of_noPump (h.rest_noPump hpump)
  have hentering : entering (f :: rest) = [(index, k)] := by
    rw [entering, List.filterMap_cons_some hf, ← entering, hnone]
  -- every other execution was entered
  have hother : ∀ x ∈ sl.list, x.controller ≠ k → x.entered = true := by
    rintro ⟨l, id', e⟩ hx hne
    cases e with
    | true => rfl
    | false =>
      obtain ⟨i, hi⟩ := h.suspended l id' hx
      rw [hentering] at hi
      exact absurd (Prod.mk.inj (List.mem_singleton.mp hi)).2 hne
  have hsame : ∀ x ∈ sl.list, x.controller = k → x = ⟨k, id, false⟩ := by
    intro x hx hk
    exact List.inj_on_of_nodup_map h.distinct hx hmem hk
  have hcontrollers : (sl.list.map fun x =>
      if x.controller = k then { x with entered := true } else x).map (·.controller) =
        sl.list.map (·.controller) := by
    rw [List.map_map]
    refine List.map_congr_left ?_
    intro x _
    simp only [Function.comp_apply]
    split <;> rfl
  have hids : (sl.list.map fun x =>
      if x.controller = k then { x with entered := true } else x).map (·.taskId) =
        sl.list.map (·.taskId) := by
    rw [List.map_map]
    refine List.map_congr_left ?_
    intro x _
    simp only [Function.comp_apply]
    split <;> rfl
  refine ⟨?_, ?_, ?_, ?_, ?_, ?_, ?_, ?_⟩
  · intro x hx
    obtain ⟨y, hy, rfl⟩ := List.mem_map.mp hx
    dsimp only
    split
    · exact h.fresh y hy
    · exact h.fresh y hy
  · rw [hcontrollers]
    exact h.distinct
  · rw [hids]
    exact h.once
  · intro id' l
    rw [OrdMap.get_set]
    constructor
    · intro hget
      split at hget
      · rename_i hid
        obtain rfl := Option.some.inj hget
        refine List.mem_map.mpr ⟨_, hmem, ?_⟩
        rw [if_pos rfl, hid]
      · have hx := (h.entries id' l).mp hget
        refine List.mem_map.mpr ⟨_, hx, ?_⟩
        split
        · rfl
        · rfl
    · intro hx
      obtain ⟨y, hy, hyx⟩ := List.mem_map.mp hx
      by_cases hk : y.controller = k
      · rw [if_pos hk, hsame y hy hk] at hyx
        obtain ⟨rfl, rfl, -⟩ := Slot.mk.inj hyx
        rw [if_pos rfl]
      · rw [if_neg hk] at hyx
        have hne : id' ≠ id := by
          rintro rfl
          have hy' : y = ⟨k, id', false⟩ :=
            List.inj_on_of_nodup_map h.once hy hmem (by rw [hyx])
          exact hk (by rw [hy'])
        rw [if_neg hne]
        exact (h.entries id' l).mpr (hyx ▸ hy)
  · intro l id' hx
    obtain ⟨y, hy, hyx⟩ := List.mem_map.mp hx
    by_cases hk : y.controller = k
    · rw [if_pos hk] at hyx
      cases (Slot.mk.inj hyx).2.2
    · rw [if_neg hk] at hyx
      have hentered := hother y hy hk
      rw [hyx] at hentered
      cases hentered
  · rw [hnone]
    intro i l hil
    cases hil
  · rw [hnone]
    have hcap := h.capacity
    rw [hentering] at hcap
    exact Nat.le_trans (OrdMap.size_set_le _ _ _) hcap
  · rw [h.rest_noPump hpump]
    exact Nat.zero_le 1

theorem remove {k : Nat} {id : String} {e : Bool} (h : SlotInv sl keys [])
    (hmem : ⟨k, id, e⟩ ∈ sl.list) :
    SlotInv
      { sl with
        running := sl.running.delete id
        list := sl.list.filter fun x => x.controller ≠ k }
      keys [] := by
  have hsub : (sl.list.filter fun x => x.controller ≠ k).Sublist sl.list :=
    List.filter_sublist
  refine ⟨fun x hx => h.fresh x (hsub.subset hx), h.distinct.sublist (hsub.map _),
    h.once.sublist (hsub.map _), ?_, ?_, ?_, ?_, Nat.zero_le 1⟩
  · intro id' l
    rw [OrdMap.get_delete]
    have hkey : ∀ l' e', ⟨l', id', e'⟩ ∈ sl.list → (id' = id ↔ l' = k) := by
      intro l' e' hx
      constructor
      · rintro rfl
        have heq := List.inj_on_of_nodup_map h.once hx hmem rfl
        exact (Slot.mk.inj heq).1
      · rintro rfl
        have heq := List.inj_on_of_nodup_map h.distinct hx hmem rfl
        exact (Slot.mk.inj heq).2.1
    constructor
    · intro hget
      split at hget
      · cases hget
      · rename_i hne
        have hx := (h.entries id' l).mp hget
        have hlk : l ≠ k := fun hl => hne ((hkey l true hx).mpr hl)
        simpa [hlk] using hx
    · intro hx
      obtain ⟨hx, hlk⟩ := List.mem_filter.mp hx
      have hne : id' ≠ id := fun hid => by simp [(hkey l true hx).mp hid] at hlk
      rw [if_neg hne]
      exact (h.entries id' l).mpr hx
  · intro l id' hx
    exact h.suspended l id' (hsub.subset hx)
  · intro i l hil
    cases hil
  · have hle : (sl.running.delete id).size ≤ sl.running.size := List.length_filter_le _ _
    exact Nat.le_trans hle h.capacity

end SlotInv

/-! ## The pump -/

namespace TaskSupervisor

variable {s : TaskSupervisor}

/-- The queued and waiting tasks from `index` on have no entry. -/
def Unentered (s : TaskSupervisor) (index : Nat) : Prop :=
  ∀ i, index ≤ i → ∀ e, s.tasks.entries[i]? = some e →
    e.2.status = .queued ∨ e.2.status = .waiting → s.running.get e.1 = none

instance (s : TaskSupervisor) (index : Nat) : Decidable (s.Unentered index) :=
  decidable_of_iff (∀ e ∈ s.tasks.entries.drop index,
      e.2.status = .queued ∨ e.2.status = .waiting → s.running.get e.1 = none) <| by
    constructor
    · intro h i hi e he
      refine h e (List.mem_of_getElem? (i := i - index) ?_)
      rw [List.getElem?_drop, Nat.add_sub_cancel' hi]
      exact he
    · intro h e he
      obtain ⟨i, hi⟩ := List.getElem?_of_mem he
      rw [List.getElem?_drop] at hi
      exact h _ (Nat.le_add_right ..) e hi

theorem keys_getElem? {i : Nat} {e : String × TaskRecord}
    (h : s.tasks.entries[i]? = some e) : s.tasks.keys[i]? = some e.1 := by
  rw [OrdMap.keys, List.getElem?_map, h]
  rfl

/-- Waiting for the dependencies keeps the other tasks as they are. -/
theorem Unentered.transition {index : Nat} {taskId : String} (h : s.Unentered index)
    (hentry : s.running.get taskId = none) (status : TaskStatus) (f : TaskRecord → TaskRecord) :
    (s.transition taskId status f).Unentered (index + 1) := by
  intro i hi e he hopen
  have hrunning : (s.transition taskId status f).running = s.running :=
    congrArg Slots.running (s.slots_transition taskId status f)
  rw [hrunning]
  rw [TaskSupervisor.transition, entries_modifyTask, List.getElem?_map] at he
  obtain ⟨e', he', rfl⟩ := Option.map_eq_some_iff.mp he
  by_cases hkey : e'.1 = taskId
  · rw [if_pos hkey]
    exact hkey ▸ hentry
  · rw [if_neg hkey] at hopen ⊢
    exact h i (by omega) e' he' hopen

theorem slots_startTask (s : TaskSupervisor) (index : Nat) (taskId : String) :
    (s.startTask index taskId).1.slots =
      { s.slots with
        list := s.slots.list ++ [⟨s.nextController, taskId, false⟩]
        nextController := s.nextController + 1 } := by
  unfold startTask
  dsimp only
  rw [slots_emit, slots_transition]
  simp [slots, Execution.begin, Execution.slot]

theorem keys_startTask (s : TaskSupervisor) (index : Nat) (taskId : String) :
    (s.startTask index taskId).1.tasks.keys = s.tasks.keys := by
  unfold startTask
  dsimp only
  rw [tasks_emit, keys_transition]

variable {rest : List TaskFrame}

theorem slotInv_pumpLoop (n index : Nat) (h : SlotInv s.slots s.tasks.keys rest)
    (hrest : rest.filter TaskFrame.isPump = []) (hclear : s.Unentered index) :
    SlotInv (pumpLoop n index s).1.slots (pumpLoop n index s).1.tasks.keys
      ((pumpLoop n index s).2 ++ rest) := by
  induction n generalizing index s with
  | zero => exact h
  | succ n ih =>
    have hnext : s.Unentered (index + 1) := fun i hi => hclear i (by omega)
    unfold pumpLoop
    split
    · exact h
    · rename_i taskId task hentry
      split
      · exact h
      · rename_i hroom
        split
        · exact ih (index + 1) h hnext
        · rename_i hopen
          have hstatus : task.status = .queued ∨ task.status = .waiting := by
            by_contra hnot
            exact hopen (not_or.mp hnot)
          have hget := hclear index (Nat.le_refl _) _ hentry hstatus
          split
          · -- the task fails: its frame is the only one of the pump
            rw [slots_emit, slots_transition, tasks_emit, keys_transition]
            have hentering : entering (.pumpFailed index taskId :: rest) = entering rest := rfl
            refine ⟨h.fresh, h.distinct, h.once, h.entries, hentering ▸ h.suspended,
              hentering ▸ h.opened, hentering ▸ h.capacity, ?_⟩
            show ((TaskFrame.pumpFailed index taskId :: rest).filter _).length ≤ 1
            rw [List.filter_cons_of_pos rfl, hrest]
            exact Nat.le_refl 1
          · split
            · split
              · refine ih (index + 1) ?_ (hclear.transition hget _ _)
                rw [slots_transition, keys_transition]
                exact h
              · exact ih (index + 1) h hnext
            · rw [slots_startTask, keys_startTask]
              exact h.start hrest (keys_getElem? hentry) hget (Nat.lt_of_not_le hroom)

theorem slotInv_pumpFrom {index : Nat} (h : SlotInv s.slots s.tasks.keys rest)
    (hrest : rest.filter TaskFrame.isPump = []) (hclear : s.Unentered index) :
    SlotInv (s.pumpFrom index).1.slots (s.pumpFrom index).1.tasks.keys
      ((s.pumpFrom index).2 ++ rest) :=
  slotInv_pumpLoop _ index h hrest hclear

theorem executionOf_eq_some {k : Nat} {x : Execution} (h : s.executionOf k = some x) :
    x ∈ s.executions ∧ x.controller = k :=
  ⟨List.mem_of_find?_eq_some h, by simpa using List.find?_some h⟩

theorem slot_mem {x : Execution} (h : x ∈ s.executions) : x.slot ∈ s.slots.list :=
  List.mem_map.mpr ⟨x, h, rfl⟩

theorem executionOf_of_slot {k : Nat} {id : String} {e : Bool}
    (hdistinct : (s.slots.list.map (·.controller)).Nodup) (h : ⟨k, id, e⟩ ∈ s.slots.list) :
    ∃ x, s.executionOf k = some x ∧ x.slot = ⟨k, id, e⟩ := by
  obtain ⟨x, hx, hslot⟩ := List.mem_map.mp h
  have hk : x.controller = k := congrArg Slot.controller hslot
  cases hfind : s.executionOf k with
  | none =>
    have hnot := List.find?_eq_none.mp hfind x hx
    simp [hk] at hnot
  | some y =>
    obtain ⟨hy, hyk⟩ := executionOf_eq_some hfind
    refine ⟨y, rfl, ?_⟩
    exact List.inj_on_of_nodup_map hdistinct (slot_mem hy) h hyk

theorem slots_enter {k : Nat} {x : Execution} (h : s.executionOf k = some x) :
    (s.enter k).slots =
      { s.slots with
        running := s.running.set x.taskId k
        list := s.slots.list.map fun y =>
          if y.controller = k then { y with entered := true } else y } := by
  unfold enter
  rw [h]
  show Slots.mk _ _ _ _ = Slots.mk _ _ _ _
  congr 1
  show (s.executions.map _).map _ = (s.executions.map _).map _
  rw [List.map_map, List.map_map]
  refine List.map_congr_left ?_
  intro y _
  simp only [Function.comp_apply]
  by_cases hy : y.controller = k
  · rw [if_pos hy, if_pos (show y.slot.controller = k from hy)]
    rfl
  · rw [if_neg hy, if_neg (show ¬ y.slot.controller = k from hy)]

theorem tasks_enter (s : TaskSupervisor) (k : Nat) : (s.enter k).tasks = s.tasks := by
  unfold enter
  split <;> rfl

theorem controllers_enter (s : TaskSupervisor) (k : Nat) :
    (s.enter k).executions.map (·.controller) = s.executions.map (·.controller) := by
  unfold enter
  split
  · rfl
  · show (s.executions.map _).map _ = _
    rw [List.map_map]
    refine List.map_congr_left ?_
    intro y _
    simp only [Function.comp_apply]
    split <;> rfl

theorem slots_finallyCallback (s : TaskSupervisor) (x : Execution) :
    (s.finallyCallback x).slots =
      { s.slots with
        running := s.running.delete x.taskId
        list := s.slots.list.filter fun y => y.controller ≠ x.controller } := by
  unfold finallyCallback
  rw [slots_schedulePump]
  show Slots.mk _ _ _ _ = Slots.mk _ _ _ _
  congr 1
  show (s.executions.filter _).map _ = (s.executions.map _).filter _
  rw [List.filter_map]
  rfl

theorem tasks_finallyCallback (s : TaskSupervisor) (x : Execution) :
    (s.finallyCallback x).tasks = s.tasks := by
  unfold finallyCallback
  rw [tasks_schedulePump]

theorem slotInv_enter {f : TaskFrame} {index k : Nat} (h : SlotInv s.slots s.tasks.keys (f :: rest))
    (hf : f.enters = some (index, k)) (hpump : f.isPump = true) (hclear : s.Unentered (index + 1)) :
    SlotInv ((s.enter k).pumpFrom (index + 1)).1.slots
      ((s.enter k).pumpFrom (index + 1)).1.tasks.keys
      (((s.enter k).pumpFrom (index + 1)).2 ++ rest) := by
  have hmem : (index, k) ∈ entering (f :: rest) := by
    rw [entering, List.filterMap_cons_some hf]
    exact List.mem_cons_self ..
  obtain ⟨id, hslot, hkey⟩ := h.opened index k hmem
  obtain ⟨x, hx, hxslot⟩ := executionOf_of_slot h.distinct hslot
  have hid : x.taskId = id := congrArg Slot.taskId hxslot
  have hslots := slots_enter hx
  rw [hid] at hslots
  refine slotInv_pumpFrom ?_ (h.rest_noPump hpump) ?_
  · rw [hslots, tasks_enter]
    exact h.enter hf hslot
  · -- the tasks still to come are not the one just entered
    intro i hi e he hopen
    rw [tasks_enter] at he
    have hrunning : (s.enter k).running = s.running.set id k := congrArg Slots.running hslots
    have hne : e.1 ≠ id := by
      intro heq
      have hkey' := keys_getElem? he
      rw [heq] at hkey'
      have hlt := (List.getElem?_eq_some_iff.mp hkey).1
      have hsame := (List.getElem?_inj hlt s.tasks.nodup).mp (hkey.trans hkey'.symm)
      omega
    rw [hrunning, OrdMap.get_set_ne _ hne]
    exact hclear i hi e he hopen

end TaskSupervisor

/-! ## Every run -/

namespace TaskConfig

/-- Where the pump's loop goes on in a step. -/
def pumpIndex (c : TaskConfig) : TaskAction → Option Nat
  | .pump => some 0
  | .resume thrown =>
      match c.stack with
      | .pumpFailed index _ :: _ => some (index + 1)
      | .started index _ :: _ => if thrown.isNone then some (index + 1) else none
      | .entering index _ :: _ => some (index + 1)
      | _ => none
  | _ => none

def MeetsUnentered (c : TaskConfig) (a : TaskAction) : Prop :=
  ∀ index, c.pumpIndex a = some index → c.sup.Unentered index

instance (c : TaskConfig) (a : TaskAction) : Decidable (c.MeetsUnentered a) :=
  match h : c.pumpIndex a with
  | none => isTrue fun index hindex => by cases h.symm.trans hindex
  | some index => decidable_of_iff (c.sup.Unentered index) <| by
      constructor
      · intro hclear i hi
        obtain rfl := Option.some.inj (h.symm.trans hi)
        exact hclear
      · exact fun hall => hall index h

/-- Each task has at most one execution, the map holds exactly those past
their synchronous start, all of them when nothing is suspended, and is not
too large. -/
structure Exclusive (c : TaskConfig) : Prop where
  once : (c.sup.executions.map (·.taskId)).Nodup
  entries : ∀ taskId controller, c.sup.running.get taskId = some controller ↔
    ∃ x ∈ c.sup.executions, x.taskId = taskId ∧ x.controller = controller ∧ x.entered = true
  entered : c.stack = [] → ∀ x ∈ c.sup.executions, x.entered = true
  capacity : c.sup.running.size ≤ c.sup.maxConcurrent

theorem SlotInv.exclusive {c : TaskConfig} (h : c.SlotInv) : c.Exclusive where
  once := by
    have honce := h.once
    rwa [show c.sup.slots.list = c.sup.executions.map (·.slot) from rfl, List.map_map] at honce
  entries := by
    intro id k
    rw [show c.sup.running.get id = some k ↔ _ from h.entries id k]
    constructor
    · intro hmem
      obtain ⟨x, hx, hslot⟩ := List.mem_map.mp hmem
      obtain ⟨rfl, rfl, hentered⟩ := Slot.mk.inj hslot
      exact ⟨x, hx, rfl, rfl, hentered⟩
    · rintro ⟨x, hx, rfl, rfl, hentered⟩
      exact List.mem_map.mpr ⟨x, hx, by rw [Execution.slot, hentered]⟩
  entered := by
    intro hstack x hx
    cases hentered : x.entered with
    | true => rfl
    | false =>
      have hslot : ⟨x.controller, x.taskId, false⟩ ∈ c.sup.slots.list :=
        List.mem_map.mpr ⟨x, hx, by rw [Execution.slot, hentered]⟩
      obtain ⟨i, hi⟩ := h.suspended _ _ hslot
      rw [hstack] at hi
      cases hi
  capacity := Nat.le_trans (Nat.le_add_right _ _) h.capacity

/-! ## What a step can do -/

/-- A step is a call or the end of one, which keep the executions, a part
of the pump, or the removal of an execution. -/
inductive StepKind (c : TaskConfig) : TaskAction → TaskConfig → Prop
  | call {a : TaskAction} (r : TaskSupervisor × List TaskFrame) (hkeeps : c.sup.Keeps r.1)
      (hframes : ∀ f ∈ r.2, f.isPump = false) : StepKind c a (c.push r)
  | resumed {thrown : Option String} {frame : TaskFrame} {rest : List TaskFrame}
      (r : TaskSupervisor × List TaskFrame) (hstack : c.stack = frame :: rest)
      (hframe : frame.isPump = false) (hkeeps : c.sup.Keeps r.1)
      (hframes : ∀ f ∈ r.2, f.isPump = false) :
      StepKind c (.resume thrown) (push ⟨c.sup, rest⟩ r)
  | threw {index k : Nat} {x : Execution} {rest : List TaskFrame} (message : String)
      (hstack : c.stack = .started index k :: rest) (hx : c.sup.executionOf k = some x) :
      StepKind c (.resume (some message)) ⟨c.sup.continueTask x (.threw message),
        .finishing k :: .entering index k :: rest⟩
  | stray {index k : Nat} {rest : List TaskFrame} (message : String)
      (hstack : c.stack = .started index k :: rest) (hx : c.sup.executionOf k = none) :
      StepKind c (.resume (some message)) ⟨c.sup, rest⟩
  | pump (hstack : c.stack = []) :
      StepKind c .pump
        (push ⟨c.sup, []⟩ (TaskSupervisor.pumpFrom { c.sup with pumpQueued := false } 0))
  | failed {thrown : Option String} {index : Nat} {taskId : String} {rest : List TaskFrame}
      (hstack : c.stack = .pumpFailed index taskId :: rest) :
      StepKind c (.resume thrown)
        (push ⟨c.sup, rest⟩ ((c.sup.notifyWaiters taskId).pumpFrom (index + 1)))
  | entered {thrown : Option String} {frame : TaskFrame} {index k : Nat} {rest : List TaskFrame}
      (hstack : c.stack = frame :: rest) (hframe : frame.enters = some (index, k))
      (hindex : c.pumpIndex (.resume thrown) = some (index + 1)) :
      StepKind c (.resume thrown)
        (push ⟨c.sup, rest⟩ ((c.sup.enter k).pumpFrom (index + 1)))
  | removed {k : Nat} {x : Execution} (hstack : c.stack = [])
      (hx : c.sup.executionOf k = some x) (hphase : x.phase = .finished) :
      StepKind c (.finallyCallback k) (c.push (c.sup.finallyCallback x, []))

theorem stepKind_resume {c : TaskConfig} {frame : TaskFrame} {rest : List TaskFrame}
    (thrown : Option String) (hstack : c.stack = frame :: rest) :
    StepKind c (.resume thrown) (push ⟨c.sup, rest⟩ (c.sup.resume thrown frame)) := by
  cases frame with
  | schedulePump =>
    exact .resumed _ hstack rfl c.sup.keeps_schedulePump (by simp [TaskSupervisor.resume])
  | notifyWaiters taskId =>
    exact .resumed _ hstack rfl (c.sup.keeps_notifyWaiters taskId)
      (by simp [TaskSupervisor.resume])
  | recovering index =>
    exact .resumed _ hstack rfl (c.sup.keeps_recoverLoop _ _)
      (TaskSupervisor.recoverLoop_frames _ _ _)
  | pumpFailed index taskId => exact .failed hstack
  | started index k =>
    cases thrown with
    | none => exact .entered hstack rfl (by simp [pumpIndex, hstack])
    | some message =>
      cases hx : c.sup.executionOf k with
      | none =>
        have hresume : c.sup.resume (some message) (.started index k) = (c.sup, []) := by
          simp only [TaskSupervisor.resume, hx]
        rw [hresume]
        exact .stray message hstack hx
      | some x =>
        have hresume : c.sup.resume (some message) (.started index k) =
            (c.sup.continueTask x (.threw message), [.finishing k, .entering index k]) := by
          simp only [TaskSupervisor.resume, hx]
        rw [hresume]
        exact .threw message hstack hx
  | entering index k => exact .entered hstack rfl (by simp [pumpIndex, hstack])
  | finishing k =>
    exact .resumed _ hstack rfl (c.sup.keeps_finishTask k) (by simp [TaskSupervisor.resume])
  | returning => exact .resumed _ hstack rfl (.refl _) (by simp [TaskSupervisor.resume])

/-- What each action needs, and where it leads. -/
inductive Took (c : TaskConfig) : TaskAction → TaskConfig → Prop
  | spawnTask {options : SpawnTaskOptions} {id : String} (hfresh : ¬ c.sup.tasks.has id = true) :
      Took c (.spawnTask options id) (c.push (c.sup.spawnTask options id))
  | cancelTask (taskId : String) : Took c (.cancelTask taskId) (c.push (c.sup.cancelTask taskId))
  | retryTask (taskId : String) : Took c (.retryTask taskId) (c.push (c.sup.retryTask taskId))
  | waitForTask (taskId : String) :
      Took c (.waitForTask taskId) (c.push (c.sup.waitForTask taskId, []))
  | recoverAfterRestart : Took c .recoverAfterRestart (c.push c.sup.recoverAfterRestart)
  | shutdown : Took c .shutdown (c.push (c.sup.shutdown, []))
  | progress (taskId message : String) : Took c (.progress taskId message)
      (c.push (c.sup.emit taskId .progress (some message), [.returning]))
  | resume {thrown : Option String} {frame : TaskFrame} {rest : List TaskFrame}
      (hstack : c.stack = frame :: rest) :
      Took c (.resume thrown) (push ⟨c.sup, rest⟩ (c.sup.resume thrown frame))
  | pump (hstack : c.stack = []) : Took c .pump (c.push c.sup.pump)
  | continueTask {k : Nat} {x : Execution} {outcome : RunOutcome} (hstack : c.stack = [])
      (hx : c.sup.executionOf k = some x) (hphase : x.phase = .settled outcome) :
      Took c (.continueTask k) (c.push (c.sup.continueTask x outcome, [.finishing k]))
  | finallyCallback {k : Nat} {x : Execution} (hstack : c.stack = [])
      (hx : c.sup.executionOf k = some x) (hphase : x.phase = .finished) :
      Took c (.finallyCallback k) (c.push (c.sup.finallyCallback x, []))
  | settle {k : Nat} {x : Execution} {outcome : RunOutcome} (hstack : c.stack = [])
      (hx : c.sup.executionOf k = some x) (hphase : x.phase = .running) :
      Took c (.settle k outcome) (c.push (c.sup.setPhase k (.settled outcome), []))
  | taskTimedOut (k timeoutMs : Nat) (hstack : c.stack = []) :
      Took c (.taskTimedOut k) (c.push (c.sup.abort k (timeoutMessage timeoutMs), []))
  | waiterTimedOut (taskId : String) (waiter : Nat) (hstack : c.stack = []) :
      Took c (.waiterTimedOut taskId waiter) (c.push (c.sup.waiterTimedOut taskId waiter, []))

theorem took_of_step {c c' : TaskConfig} {a : TaskAction} (hstep : c.step a = some c') :
    Took c a c' := by
  cases a with
  | cancelTask taskId => exact Option.some.inj hstep ▸ .cancelTask taskId
  | retryTask taskId => exact Option.some.inj hstep ▸ .retryTask taskId
  | waitForTask taskId => exact Option.some.inj hstep ▸ .waitForTask taskId
  | recoverAfterRestart => exact Option.some.inj hstep ▸ .recoverAfterRestart
  | shutdown => exact Option.some.inj hstep ▸ .shutdown
  | progress taskId message => exact Option.some.inj hstep ▸ .progress taskId message
  | spawnTask options id =>
    simp only [TaskConfig.step, Option.ite_none_left_eq_some] at hstep
    exact Option.some.inj hstep.2 ▸ .spawnTask hstep.1
  | resume thrown =>
    simp only [TaskConfig.step] at hstep
    split at hstep
    · cases hstep
    · rename_i hstack
      exact Option.some.inj hstep ▸ .resume hstack
  | pump =>
    simp only [TaskConfig.step, Option.ite_none_right_eq_some] at hstep
    have hstack := List.isEmpty_iff.mp (Bool.and_eq_true_iff.mp hstep.1).1
    exact Option.some.inj hstep.2 ▸ .pump hstack
  | waiterTimedOut taskId waiter =>
    simp only [TaskConfig.step, Option.ite_none_right_eq_some] at hstep
    exact Option.some.inj hstep.2 ▸ .waiterTimedOut taskId waiter (List.isEmpty_iff.mp hstep.1)
  | continueTask k =>
    simp only [TaskConfig.step] at hstep
    split at hstep
    · rename_i hstack hx
      split at hstep
      · rename_i hphase
        exact Option.some.inj hstep ▸ .continueTask hstack hx hphase
      · cases hstep
    · cases hstep
  | finallyCallback k =>
    simp only [TaskConfig.step] at hstep
    split at hstep
    · rename_i hstack hx
      rw [Option.ite_none_right_eq_some] at hstep
      exact Option.some.inj hstep.2 ▸ .finallyCallback hstack hx hstep.1
    · cases hstep
  | settle k outcome =>
    simp only [TaskConfig.step] at hstep
    split at hstep
    · rename_i hstack hx
      rw [Option.ite_none_right_eq_some] at hstep
      exact Option.some.inj hstep.2 ▸ .settle hstack hx hstep.1
    · cases hstep
  | taskTimedOut k =>
    simp only [TaskConfig.step] at hstep
    split at hstep
    · rename_i hstack _
      split at hstep
      · cases hstep
      · rw [Option.ite_none_right_eq_some] at hstep
        exact Option.some.inj hstep.2 ▸ .taskTimedOut k _ hstack
    · cases hstep

theorem stepKind_of_step {c c' : TaskConfig} {a : TaskAction} (hstep : c.step a = some c') :
    StepKind c a c' := by
  cases took_of_step hstep with
  | @spawnTask options id hfresh =>
    exact .call _ (c.sup.keeps_spawnTask options id (by simpa using hfresh))
      (c.sup.spawnTask_frames options id)
  | cancelTask taskId =>
    exact .call _ (c.sup.keeps_cancelTask taskId) (c.sup.cancelTask_frames taskId)
  | retryTask taskId =>
    exact .call _ (c.sup.keeps_retryTask taskId) (c.sup.retryTask_frames taskId)
  | waitForTask taskId => exact .call _ (c.sup.keeps_waitForTask taskId) (by simp)
  | recoverAfterRestart =>
    exact .call _ c.sup.keeps_recoverAfterRestart (TaskSupervisor.recoverLoop_frames _ _ _)
  | shutdown => exact .call _ c.sup.keeps_shutdown (by simp)
  | progress taskId message => exact .call _ (c.sup.keeps_emit ..) (by simp [TaskFrame.isPump])
  | @resume thrown frame rest hstack => exact stepKind_resume thrown hstack
  | pump hstack =>
    have hflag : c.sup.Keeps { c.sup with pumpQueued := false } := .of_eq rfl rfl
    unfold TaskSupervisor.pump
    dsimp only
    split
    · exact .call _ hflag (by simp)
    · have hkind := StepKind.pump (c := c) hstack
      rw [push, hstack]
      exact hkind
  | continueTask hstack hx hphase =>
    exact .call _ (c.sup.keeps_continueTask _ _) (by simp [TaskFrame.isPump])
  | finallyCallback hstack hx hphase => exact .removed hstack hx hphase
  | settle hstack hx hphase => exact .call _ (c.sup.keeps_setPhase ..) (by simp)
  | taskTimedOut k timeoutMs hstack => exact .call _ (c.sup.keeps_abort ..) (by simp)
  | waiterTimedOut taskId waiter hstack =>
    exact .call _ (c.sup.keeps_waiterTimedOut ..) (by simp)

/-- Every step keeps the invariant, unless the pump meets a task that still
has an entry. -/
theorem SlotInv.step {c c' : TaskConfig} {a : TaskAction} (h : c.SlotInv)
    (hok : c.MeetsUnentered a) (hstep : c.step a = some c') : c'.SlotInv := by
  cases stepKind_of_step hstep with
  | call r hkeeps hframes =>
    show Eagent.SlotInv r.1.slots r.1.tasks.keys (r.2 ++ c.stack)
    rw [hkeeps.slots]
    exact SlotInv.push h hkeeps.keys hframes
  | @resumed _ frame rest r hstack hframe hkeeps hframes =>
    have hinv : Eagent.SlotInv c.sup.slots c.sup.tasks.keys (frame :: rest) := hstack ▸ h
    show Eagent.SlotInv r.1.slots r.1.tasks.keys (r.2 ++ rest)
    rw [hkeeps.slots]
    exact (hinv.pop hframe).push hkeeps.keys hframes
  | @threw index k x rest message hstack hx =>
    have hinv : Eagent.SlotInv c.sup.slots c.sup.tasks.keys (.started index k :: rest) :=
      hstack ▸ h
    have hkeeps := c.sup.keeps_continueTask x (.threw message)
    -- the new frame of the pump takes the place of the old one
    have hswap : Eagent.SlotInv c.sup.slots c.sup.tasks.keys (.entering index k :: rest) :=
      ⟨hinv.fresh, hinv.distinct, hinv.once, hinv.entries, hinv.suspended, hinv.opened,
        hinv.capacity, hinv.pumps⟩
    show Eagent.SlotInv (c.sup.continueTask x (.threw message)).slots _
      ([.finishing k] ++ .entering index k :: rest)
    rw [hkeeps.slots]
    exact hswap.push hkeeps.keys (by simp [TaskFrame.isPump])
  | @stray index k rest message hstack hx =>
    have hinv : Eagent.SlotInv c.sup.slots c.sup.tasks.keys (.started index k :: rest) :=
      hstack ▸ h
    obtain ⟨id, hslot, -⟩ := hinv.opened index k (List.mem_cons_self ..)
    obtain ⟨x, hx', -⟩ := TaskSupervisor.executionOf_of_slot hinv.distinct hslot
    cases hx.symm.trans hx'
  | pump hstack =>
    have hinv : Eagent.SlotInv c.sup.slots c.sup.tasks.keys [] := hstack ▸ h
    exact TaskSupervisor.slotInv_pumpFrom (s := { c.sup with pumpQueued := false }) hinv rfl
      (hok 0 rfl)
  | @failed _ index taskId rest hstack =>
    have hinv : Eagent.SlotInv c.sup.slots c.sup.tasks.keys (.pumpFailed index taskId :: rest) :=
      hstack ▸ h
    have hkeeps := c.sup.keeps_notifyWaiters taskId
    have hrest := hinv.rest_noPump rfl
    have hclear : c.sup.Unentered (index + 1) := hok _ (by simp [pumpIndex, hstack])
    have hentering : entering (.pumpFailed index taskId :: rest) = entering rest := rfl
    refine TaskSupervisor.slotInv_pumpFrom ?_ hrest ?_
    · rw [hkeeps.slots, TaskSupervisor.tasks_notifyWaiters]
      exact ⟨hinv.fresh, hinv.distinct, hinv.once, hinv.entries, hentering ▸ hinv.suspended,
        hentering ▸ hinv.opened, hentering ▸ hinv.capacity, by
          rw [hrest]
          exact Nat.zero_le 1⟩
    · have hrunning : (c.sup.notifyWaiters taskId).running = c.sup.running :=
        congrArg Slots.running hkeeps.slots
      intro i hi e he hopen
      rw [TaskSupervisor.tasks_notifyWaiters] at he
      rw [hrunning]
      exact hclear i hi e he hopen
  | @entered _ frame index k rest hstack hframe hindex =>
    have hinv : Eagent.SlotInv c.sup.slots c.sup.tasks.keys (frame :: rest) := hstack ▸ h
    have hpump : frame.isPump = true := by
      cases frame <;> first | rfl | cases hframe
    exact TaskSupervisor.slotInv_enter hinv hframe hpump (hok _ hindex)
  | @removed k x hstack hx hphase =>
    have hinv : Eagent.SlotInv c.sup.slots c.sup.tasks.keys [] := hstack ▸ h
    have hremoved :=
      hinv.remove (TaskSupervisor.slot_mem (TaskSupervisor.executionOf_eq_some hx).1)
    show Eagent.SlotInv (c.sup.finallyCallback x).slots
      (c.sup.finallyCallback x).tasks.keys ([] ++ c.stack)
    rw [TaskSupervisor.slots_finallyCallback, TaskSupervisor.tasks_finallyCallback, hstack]
    exact hremoved

/-! ## Dependencies -/

end TaskConfig

namespace TaskSupervisor

variable {s : TaskSupervisor}

def Ready (s : TaskSupervisor) (taskId : String) : Prop :=
  ∀ task, s.tasks.get taskId = some task →
    ∀ d ∈ task.dependencies, s.statusOf d = some .completed

theorem get_transition (s : TaskSupervisor) (taskId : String) (status : TaskStatus)
    (f : TaskRecord → TaskRecord) (id : String) :
    (s.transition taskId status f).tasks.get id =
      if id = taskId then (s.tasks.get taskId).map fun t => { f t with status }
      else s.tasks.get id := by
  unfold transition modifyTask
  cases hget : s.tasks.get taskId with
  | none =>
    by_cases hid : id = taskId
    · rw [if_pos hid, hid, hget]
      rfl
    · rw [if_neg hid]
  | some task =>
    show (s.tasks.set taskId _).get id = _
    rw [OrdMap.get_set]
    rfl

@[simp] theorem executions_transition (s : TaskSupervisor) (taskId : String)
    (status : TaskStatus) (f : TaskRecord → TaskRecord) :
    (s.transition taskId status f).executions = s.executions := by
  unfold transition modifyTask
  split <;> rfl

@[simp] theorem executions_emit (s : TaskSupervisor) (taskId : String)
    (eventType : TaskEventType) (message : Option String) :
    (s.emit taskId eventType message).executions = s.executions := by
  unfold emit
  split <;> rfl

/-- A task that is not completed itself is started when its dependencies
are. -/
theorem ready_startTask (index : Nat) {taskId : String} {task : TaskRecord}
    (hget : s.tasks.get taskId = some task) (hopen : task.status ≠ .completed)
    (hdeps : ∀ d ∈ task.dependencies, s.statusOf d = some .completed) :
    (s.startTask index taskId).1.Ready taskId := by
  intro task' htask' d hd
  unfold startTask at htask' ⊢
  dsimp only at htask' ⊢
  rw [tasks_emit, get_transition, if_pos rfl] at htask'
  rw [show TaskSupervisor.tasks _ = s.tasks from rfl, hget] at htask'
  obtain rfl := Option.some.inj htask'
  have hcompleted := hdeps d hd
  have hne : d ≠ taskId := by
    rintro rfl
    rw [statusOf, hget] at hcompleted
    exact hopen (Option.some.inj hcompleted)
  rw [statusOf, tasks_emit, get_transition, if_neg hne]
  exact hcompleted

/-- The pump starts a task only when it is ready; the other executions were
there before. -/
theorem ready_pumpLoop (n index : Nat) :
    ∀ x ∈ (pumpLoop n index s).1.executions,
      x ∈ s.executions ∨ (pumpLoop n index s).1.Ready x.taskId := by
  induction n generalizing index s with
  | zero => exact fun x hx => .inl hx
  | succ n ih =>
    unfold pumpLoop
    split
    · exact fun x hx => .inl hx
    · rename_i taskId task hentry
      split
      · exact fun x hx => .inl hx
      · split
        · exact ih (index + 1)
        · rename_i hopen
          split
          · intro x hx
            rw [executions_emit, executions_transition] at hx
            exact .inl hx
          · split
            · split
              · intro x hx
                have hloop := ih (s := s.transition taskId .waiting id) (index + 1) x hx
                rwa [executions_transition] at hloop
              · exact ih (index + 1)
            · rename_i hdeps
              intro x hx
              have hget : s.tasks.get taskId = some task :=
                OrdMap.get_eq_some.mpr (List.mem_of_getElem? hentry)
              have hready := ready_startTask index hget
                (fun h => hopen ⟨by rw [h]; decide, by rw [h]; decide⟩)
                (by simpa using hdeps)
              have hexecutions : (s.startTask index taskId).1.executions =
                  s.executions ++ [.begin s.nextController taskId] := by
                unfold startTask
                dsimp only
                rw [executions_emit, executions_transition]
              rw [hexecutions] at hx
              rcases List.mem_append.mp hx with hx | hx
              · exact .inl hx
              · rw [List.mem_singleton.mp hx]
                exact .inr hready

end TaskSupervisor

namespace TaskConfig

theorem controllers_of_slots {s s' : TaskSupervisor} (h : s'.slots = s.slots) :
    s'.executions.map (·.controller) = s.executions.map (·.controller) := by
  have hlist : s'.executions.map (·.slot) = s.executions.map (·.slot) := congrArg Slots.list h
  have hmap := congrArg (List.map Slot.controller) hlist
  rwa [List.map_map, List.map_map] at hmap

theorem started_ready {c c' : TaskConfig} {a : TaskAction} (hstep : c.step a = some c') :
    ∀ x ∈ c'.sup.executions, x.controller ∉ c.sup.executions.map (·.controller) →
      c'.sup.Ready x.taskId := by
  -- before the pump goes on the controllers are those of `c`
  have hpump : ∀ {s : TaskSupervisor} (index : Nat), s.executions.map (·.controller) =
      c.sup.executions.map (·.controller) → ∀ x ∈ (s.pumpFrom index).1.executions,
      x.controller ∉ c.sup.executions.map (·.controller) →
        (s.pumpFrom index).1.Ready x.taskId := by
    intro s index hsame x hx hnew
    rcases TaskSupervisor.ready_pumpLoop _ index x hx with hold | hready
    · exact absurd (hsame ▸ List.mem_map_of_mem hold) hnew
    · exact hready
  have hkept : ∀ {s : TaskSupervisor}, c.sup.Keeps s → ∀ x ∈ s.executions,
      x.controller ∉ c.sup.executions.map (·.controller) → s.Ready x.taskId := by
    intro s hkeeps x hx hnew
    exact absurd (controllers_of_slots hkeeps.slots ▸ List.mem_map_of_mem hx) hnew
  cases stepKind_of_step hstep with
  | call r hkeeps hframes => exact hkept hkeeps
  | resumed r hstack hframe hkeeps hframes => exact hkept hkeeps
  | @threw index k x rest message hstack hx =>
    exact hkept (c.sup.keeps_continueTask x (.threw message))
  | stray message hstack hx => exact hkept (.refl _)
  | pump hstack => exact hpump 0 rfl
  | failed hstack =>
    exact hpump _ (controllers_of_slots (c.sup.keeps_notifyWaiters _).slots)
  | @entered _ frame index k rest hstack hframe hindex =>
    exact hpump _ (c.sup.controllers_enter k)
  | @removed k x hstack hx hphase =>
    intro y hy hnew
    have hexecutions : (c.sup.finallyCallback x).executions =
        c.sup.executions.filter fun y => y.controller ≠ x.controller := by
      unfold TaskSupervisor.finallyCallback TaskSupervisor.schedulePump
      split <;> rfl
    have hy' : y ∈ c.sup.executions.filter fun y => y.controller ≠ x.controller :=
      hexecutions ▸ hy
    exact absurd (List.mem_map_of_mem (List.mem_filter.mp hy').1) hnew

/-! ## Every run -/

theorem slotInv_create (maxConcurrent : Option Nat) (loaded : List TaskRecord) :
    TaskConfig.SlotInv ⟨.create maxConcurrent loaded, []⟩ where
  fresh := by simp [TaskSupervisor.slots, TaskSupervisor.create]
  distinct := List.nodup_nil
  once := List.nodup_nil
  entries := by simp [TaskSupervisor.slots, TaskSupervisor.create]
  suspended := by simp [TaskSupervisor.slots, TaskSupervisor.create]
  opened := by simp [entering]
  capacity := Nat.zero_le _
  pumps := Nat.zero_le _

/-- As long as the pump meets no task that still has an entry, executions
are exclusive; and a task is started only when its dependencies are
completed. -/
theorem exclusive_of_unentered {maxConcurrent : Option Nat} {loaded : List TaskRecord}
    {c : TaskConfig} (hrun : Machine.Reaches step MeetsUnentered
      ⟨.create maxConcurrent loaded, []⟩ c) :
    c.Exclusive ∧ ∀ a c', c.step a = some c' → ∀ x ∈ c'.sup.executions,
      x.controller ∉ c.sup.executions.map (·.controller) → c'.sup.Ready x.taskId := by
  refine ⟨?_, fun a c' hstep => started_ready hstep⟩
  have hinv : c.SlotInv := hrun.invariant (slotInv_create maxConcurrent loaded)
    fun s a s' hs hok hstep => hs.step hok hstep
  exact hinv.exclusive

/-! ## Two runs -/

/-- An empty supervisor for two executions at a time. -/
def empty : TaskConfig := ⟨.create (some 2) [], []⟩

theorem exclusive_of_unentered_oneTask : ∃ c,
    Machine.run step MeetsUnentered empty
      [.spawnTask {} "a", .resume none, .pump, .resume none] = some c ∧ c.Exclusive := by
  have hsome : (Machine.run step MeetsUnentered empty
      [.spawnTask {} "a", .resume none, .pump, .resume none]).isSome = true := by decide
  obtain ⟨c, hc, hreaches⟩ := Machine.reaches_of_isSome hsome
  exact ⟨c, hc, (exclusive_of_unentered hreaches).1⟩

/-- While a failed execution is put back to `queued`, a listener spawns
another task: its pump runs before the `finally` callback. -/
def requeueActions : List TaskAction :=
  [.spawnTask { maxAttempts := some 2 } "a", .resume none, .pump, .resume none,
    .settle 0 (.threw "error"), .continueTask 0, .spawnTask {} "b", .resume none, .resume none,
    .pump, .resume none, .resume none, .finallyCallback 0]

/-- The second execution of the task has lost its entry. -/
theorem requeued_loses_entry : ∃ c,
    Machine.Reaches step (fun _ _ => True) empty c ∧ c.stack = [] ∧ ¬ c.Exclusive := by
  have hrun : ∃ c, Machine.run step (fun _ _ => True) empty requeueActions = some c ∧
      c.stack = [] ∧ c.sup.running.get "a" = none ∧
      ⟨1, "a", none, true, .running⟩ ∈ c.sup.executions :=
    ⟨_, rfl, rfl, by decide, by decide⟩
  obtain ⟨c, hc, hstack, hget, hmem⟩ := hrun
  refine ⟨c, Machine.reaches_of_run hc, hstack, fun h => ?_⟩
  have hentry := (h.entries "a" 1).mpr ⟨_, hmem, rfl, rfl, rfl⟩
  cases hget.symm.trans hentry

end TaskConfig

end Eagent
