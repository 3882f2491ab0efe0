import Eagent.TaskProgress
import Mathlib.Logic.Relation

/-!
# No deadlock

Dependencies are earlier tasks (`Ordered`), so no task waits for itself
through others. When the pump has left every queued or waiting task blocked,
the tasks one of them waits for lead to one that is running, or the map is
full.
-/

namespace Eagent

theorem TaskStatus.open_or_running {status : TaskStatus} (h : status.terminal = false) :
    status.Open ∨ status = .running := by
  cases status with
  | queued => exact .inl (.inl rfl)
  | waiting => exact .inl (.inr rfl)
  | running => exact .inr rfl
  | _ => cases h

namespace TaskSupervisor

def DependsOn (s : TaskSupervisor) (taskId dependency : String) : Prop :=
  ∃ task, s.tasks.get taskId = some task ∧ dependency ∈ task.dependencies

variable {s : TaskSupervisor}

theorem index_lt_of_dependsOn (h : s.Ordered) {taskId d : String} (hdep : s.DependsOn taskId d) :
    s.tasks.keys.idxOf d < s.tasks.keys.idxOf taskId := by
  obtain ⟨task, hget, hd⟩ := hdep
  obtain ⟨i, hi⟩ := List.getElem?_of_mem (OrdMap.get_eq_some.mp hget)
  obtain ⟨hlt, hkey⟩ := List.getElem?_eq_some_iff.mp (keys_getElem? hi)
  have hindex : s.tasks.keys.idxOf taskId = i := by
    rw [← show s.tasks.keys[i] = taskId from hkey]
    exact s.tasks.nodup.idxOf_getElem i hlt
  obtain ⟨j, hj, hget⟩ := List.getElem_of_mem (h i _ hi d hd)
  rw [List.getElem_take] at hget
  have hji : j < i := Nat.lt_of_lt_of_le hj (List.length_take_le ..)
  have hfirst : s.tasks.keys.idxOf d = j := by
    rw [← hget]
    exact s.tasks.nodup.idxOf_getElem j (Nat.lt_trans hji hlt)
  omega

theorem index_lt_of_transGen (h : s.Ordered) {taskId d : String}
    (hdep : Relation.TransGen s.DependsOn taskId d) :
    s.tasks.keys.idxOf d < s.tasks.keys.idxOf taskId := by
  induction hdep with
  | single hone => exact index_lt_of_dependsOn h hone
  | tail _ hone ih => exact Nat.lt_trans (index_lt_of_dependsOn h hone) ih

/-- Along the open dependencies, which come earlier and earlier, one meets a
running task. -/
theorem waits_for_running (hord : s.Ordered)
    (hblocked : ∀ e ∈ s.tasks.entries, e.2.status.Open → s.Blocked e.2)
    (hroom : s.running.size < s.maxConcurrent) {taskId : String} {status : TaskStatus}
    (hstatus : s.statusOf taskId = some status) (hopen : status.terminal = false) :
    ∃ other, Relation.ReflTransGen s.DependsOn taskId other ∧
      s.statusOf other = some .running := by
  induction hn : s.tasks.keys.idxOf taskId using Nat.strong_induction_on
    generalizing taskId status with
  | _ n ih =>
    rcases status.open_or_running hopen with hwaits | rfl
    · obtain ⟨task, hget, rfl⟩ := Option.map_eq_some_iff.mp hstatus
      have hmem := OrdMap.get_eq_some.mp hget
      rcases hblocked _ hmem hwaits with hfull | ⟨⟨d, hd, status, hd', hlive⟩, -⟩
      · exact absurd hfull (by omega)
      · have hdep : s.DependsOn taskId d := ⟨task, hget, hd⟩
        obtain ⟨other, hpath, hrunning⟩ :=
          ih _ (hn ▸ index_lt_of_dependsOn hord hdep) hd' hlive rfl
        exact ⟨other, .head hdep hpath, hrunning⟩
    · exact ⟨taskId, .refl, hstatus⟩

end TaskSupervisor

namespace TaskConfig

/-- In every run, whatever the listeners call, no task depends on itself. -/
theorem dependencies_acyclic {maxConcurrent : Option Nat} {loaded : List TaskRecord}
    {c : TaskConfig} (hord : (TaskSupervisor.create maxConcurrent loaded).Ordered)
    (hrun : Machine.Reaches step (fun _ _ => True) ⟨.create maxConcurrent loaded, []⟩ c)
    (taskId : String) : ¬ Relation.TransGen c.sup.DependsOn taskId taskId := by
  have hordered : c.sup.Ordered := 
    hrun.invariant (I := fun c => c.sup.Ordered) hord fun s a s' hs _ => ordered_step hs
  intro hself
  exact Nat.lt_irrefl _ (TaskSupervisor.index_lt_of_transGen hordered hself)

/-- When no call is suspended and no microtask queued, a task that is not
terminal is running or waits for one that is, unless the map is full. -/
theorem running_behind_open {start c : TaskConfig} (hstart : start.Starts)
    (hrun : Machine.Reaches step Covered start c) (hstack : c.stack = [])
    (hup : c.sup.shuttingDown = false) (hpump : c.sup.pumpQueued = false)
    (hfinally : ∀ x ∈ c.sup.executions, x.phase ≠ .finished)
    (hroom : c.sup.running.size < c.sup.maxConcurrent) {taskId : String} {status : TaskStatus}
    (hstatus : c.sup.statusOf taskId = some status) (hopen : status.terminal = false) :
    ∃ other, Relation.ReflTransGen c.sup.DependsOn taskId other ∧
      c.sup.statusOf other = some .running := by
  have hprogress : c.Progress := hrun.invariant hstart.progress
    fun s a s' hs hok hstep => hs.step hok hstep
  refine TaskSupervisor.waits_for_running hprogress.ordered ?_ hroom hstatus hopen
  rcases hprogress.scheduled with hpromised | hsettled
  · rcases hpromised with hdown | hqueued | ⟨x, hx, hphase⟩ | ⟨f, hf, -⟩
    · cases hup.symm.trans hdown
    · cases hpump.symm.trans hqueued
    · exact absurd hphase (hfinally x hx)
    · rw [hstack] at hf
      cases hf
  · intro e he hopen
    obtain ⟨i, hi⟩ := List.getElem?_of_mem he
    refine hsettled i ?_ e hi hopen
    intro f hf
    have hnil : f ∈ c.stack := hf
    rw [hstack] at hnil
    cases hnil

theorem dependencies_acyclic_waiting : ∃ c,
    Machine.run step (fun _ _ => True) empty waitingActions = some c ∧
      ¬ Relation.TransGen c.sup.DependsOn "b" "b" := by
  have hrun : ∃ c, Machine.run step (fun _ _ => True) empty waitingActions = some c := ⟨_, rfl⟩
  obtain ⟨c, hc⟩ := hrun
  exact ⟨c, hc, dependencies_acyclic (by nofun) (Machine.reaches_of_run hc) "b"⟩

theorem running_behind_open_waiting : ∃ c,
    Machine.run step Covered empty waitingActions = some c ∧
      ∃ other, Relation.ReflTransGen c.sup.DependsOn "b" other ∧
        c.sup.statusOf other = some .running := by
  have hrun : ∃ c, Machine.run step Covered empty waitingActions = some c ∧ c.stack = [] ∧
      c.sup.shuttingDown = false ∧ c.sup.pumpQueued = false ∧
      (∀ x ∈ c.sup.executions, x.phase ≠ .finished) ∧
      c.sup.running.size < c.sup.maxConcurrent ∧ c.sup.statusOf "b" = some .waiting :=
    ⟨_, rfl, rfl, rfl, rfl, by decide, by decide, by decide⟩
  obtain ⟨c, hc, hstack, hup, hpump, hfinally, hroom, hstatus⟩ := hrun
  have hstart : empty.Starts := .closed (by nofun) (by nofun)
  exact ⟨c, hc, running_behind_open hstart (Machine.reaches_of_run hc) hstack hup hpump hfinally
    hroom hstatus rfl⟩

end TaskConfig

end Eagent
