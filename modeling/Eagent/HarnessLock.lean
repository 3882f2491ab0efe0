import Eagent.HarnessSteps

/-!
# The busy check of the harness

A structural operation checks that the phase is idle and takes it. A run
gives the phase up in its `agent_end` handler, before its own `finally`
blocks have run; until it has ended it is settling. As long as no structural
operation starts while a run settles, there is at most one at a time, and
the run promise and the abort controller are those of the run in progress.
-/

namespace Eagent

open Machine

/-! ## Runs and their fields -/

def RunPoint.hasController : RunPoint → Bool
  | .creating _ | .notifyingNextTurn _ _ | .startingHook _ _ | .turnSettled _ => false
  | _ => true

namespace Operation

/-- The run promise of the operation; `compact` and `navigateTree` have none. -/
def promise (op : Operation) : Option Nat :=
  match op.state with
  | .run _ => some op.id
  | .edit _ => none

def controller (op : Operation) : Option Nat :=
  match op.state with
  | .run r => if r.point.hasController then some op.id else none
  | .edit _ => none

/-- The run has reset the phase in its `agent_end` handler, and has not
ended. -/
def settling (op : Operation) : Bool :=
  match op.state with
  | .run r => r.released
  | .edit _ => false

end Operation

namespace HarnessState

/-- All that is claimed of a state but the clause about the phase: at most
one structural operation is in progress, the run promise and the abort
controller are its own, and an abort aborts its signal. -/
structure Guarded (s : HarnessState) : Prop where
  alone : s.operations.length ≤ 1
  promise : ∀ id, s.harness.runPromise = some id ↔ ∃ op ∈ s.operations, op.promise = some id
  controller : ∀ id,
    s.harness.runAbortController = some id ↔ ∃ op ∈ s.operations, op.controller = some id
  aborts : ∀ s', s.step (.call .abort) = some s' →
    ∀ op ∈ s.operations, ∀ id ∈ op.controller, id ∈ s'.harness.aborted

def PhaseExact (s : HarnessState) : Prop := s.harness.phase = .idle ↔ s.operations = []

/-- A run is between its phase reset and its end. -/
def Settling (s : HarnessState) : Prop := ∃ op ∈ s.operations, op.settling = true

instance (s : HarnessState) : Decidable s.Settling :=
  inferInstanceAs (Decidable (∃ op ∈ s.operations, op.settling = true))

def IsStructural : HarnessCall → Bool
  | .invoke _ | .compact | .navigateTree => true
  | _ => false

/-- No structural operation is called while a run settles. -/
def StartsSettled (s : HarnessState) : HarnessAction → Prop
  | .call c => IsStructural c = true → ¬ s.Settling
  | _ => True

instance (s : HarnessState) (a : HarnessAction) : Decidable (s.StartsSettled a) := by
  unfold StartsSettled
  split <;> infer_instance

end HarnessState

/-! ## A run ends only after it has given up the phase -/

/-- The events `emitRunFailure` still has to report end with `agent_end`,
their only one. -/
def EndsReport : List AgentEvent → Prop
  | [] => True
  | [e] => e.isAgentEnd = true
  | e :: rest => e.isAgentEnd = false ∧ EndsReport rest

namespace EventCaller

def Last : EventCaller → Prop
  | .loop last => last = true
  | .failure rest => rest = []

def Sound : EventCaller → Prop
  | .loop _ => True
  | .failure rest => EndsReport rest

/-- The event is handled for this caller. -/
structure Handles (c : EventCaller) (e : AgentEvent) : Prop where
  sound : c.Sound
  last : c.Last ↔ e.isAgentEnd = true

theorem Last.sound {c : EventCaller} (h : c.Last) : c.Sound := by
  cases c with
  | loop last => trivial
  | failure rest => rw [show rest = [] from h]; trivial

end EventCaller

def FlushCaller.Sound (released : Bool) : FlushCaller → Prop
  | .turnEnd c _ => c.Sound ∧ ¬ c.Last
  | .agentEnd c => c.Last
  | .prepareNextTurn => True
  | .cleanup threw => threw = false → released = true

/-- Past the last event of the run the phase has been given up, unless the
run throws. -/
def RunPoint.Sound (released : Bool) : RunPoint → Prop
  | .saving _ c | .emittingTurnEnd c => c.Sound ∧ ¬ c.Last
  | .emitting c => c.Sound ∧ (c.Last → released = true)
  | .emittingAgentEnd c => c.Last ∧ released = true
  | .appending _ k | .appended _ k | .flushed k => k.Sound released
  | .returned => released = true
  | .turnSettled threw => threw = false → released = true
  | _ => True

namespace Run

def Sound (r : Run) : Prop := r.point.Sound r.released

variable {h h' : AgentHarness} {id now : Nat} {r r' : Run} {outcome : Awaited}

theorem sound_flush (h : AgentHarness) {k : FlushCaller} {released : Bool}
    (hk : k.Sound released) : (h.flushPendingSessionWrites k).Sound released := by
  unfold AgentHarness.flushPendingSessionWrites
  split <;> exact hk

variable {c : EventCaller}

theorem sound_event (h : AgentHarness) {e : AgentEvent} (hc : c.Handles e) (released : Bool) :
    (h.handleAgentEvent c e).Sound released := by
  have hnot (hend : e.isAgentEnd = false) : ¬ c.Last := fun hlast => by
    rw [hc.last.mp hlast] at hend
    cases hend
  cases e with
  | agentEnd messages => exact sound_flush h (hc.last.mpr rfl)
  | messageEnd | turnEnd => exact ⟨hc.sound, hnot rfl⟩
  | _ => exact ⟨hc.sound, fun hlast => absurd hlast (hnot rfl)⟩

theorem sound_atPoint_event (r : Run) (h : AgentHarness) {e : AgentEvent} (hc : c.Handles e) :
    (r.atPoint (h.handleAgentEvent c e)).Sound :=
  sound_event h hc r.released

theorem sound_loopThrew (r : Run) (h : AgentHarness) (id now : Nat) (error : String) :
    (r.loopThrew h id now error).Sound := by
  unfold loopThrew
  dsimp only
  refine sound_atPoint_event r h ⟨?_, ?_, ?_⟩
  · exact ⟨rfl, rfl, rfl⟩
  · exact fun hlast => nomatch hlast
  · exact fun hend => nomatch hend

theorem sound_handlerThrew (r : Run) (h : AgentHarness) (id now : Nat) (error : String)
    (c : EventCaller) : (r.handlerThrew h id now error c).Sound := by
  cases c with
  | loop last => exact sound_loopThrew r h id now error
  | failure rest => exact sound_flush h nofun

theorem sound_handled (h : AgentHarness) (hc : c.Sound) (hlast : c.Last → r.released = true) :
    (r.handled h c).Sound := by
  match c with
  | .loop false => trivial
  | .loop true => exact hlast rfl
  | .failure [] => exact hlast rfl
  | .failure [e] =>
    exact sound_event h (c := .failure []) ⟨trivial, fun _ => hc, fun _ => rfl⟩ r.released
  | .failure (e :: e' :: rest) =>
    refine sound_event h (c := .failure (e' :: rest)) ⟨hc.2, fun hlast => (nomatch hlast),
      fun hend => ?_⟩ r.released
    rw [hc.1] at hend
    cases hend

/-- What a run waits for says whether it may still give up the phase; a
step keeps this. -/
theorem sound_resume (hs : r.Sound) (hr : r.resume h id now outcome = some (h', some r')) :
    r'.Sound := by
  unfold resume at hr
  split at hr
  all_goals rename_i hp
  case h_2 =>
      split at hr
      · cases hr
      · cases hr
        unfold executeTurn
        split <;> trivial
  case h_8 | h_9 =>
      cases hr
      unfold drainQueuedMessages
      split
      · exact hs
      · trivial
  case h_25 =>
      cases hr
      unfold Sound at hs
      rw [hp] at hs
      rename_i k
      match k with
      | .turnEnd c (some error) => exact sound_handlerThrew r h id now error c
      | .turnEnd c none => exact ⟨hs.1, fun hlast => absurd hlast hs.2⟩
      | .agentEnd c => exact ⟨hs, rfl⟩
      | .prepareNextTurn => trivial
      | .cleanup threw => exact hs
  case h_23 =>
      cases hr
      rename_i k error
      match k with
      | .turnEnd c _ | .agentEnd c => exact sound_handlerThrew r h id now error c
      | .prepareNextTurn => exact sound_loopThrew r h id now error
      | .cleanup threw => exact fun hthrew => nomatch hthrew
  case h_7 => cases hr; exact sound_event h (c := .loop _) ⟨trivial, .rfl⟩ r.released
  case h_10 => cases hr; exact sound_flush h trivial
  case h_11 | h_13 | h_27 => cases hr; exact sound_loopThrew r _ id now _
  case h_14 =>
      cases hr
      unfold Sound at hs
      rw [hp] at hs
      exact ⟨hs.1, fun hlast => absurd hlast hs.2⟩
  case h_15 | h_17 | h_21 => cases hr; exact sound_handlerThrew r h id now _ _
  case h_16 =>
      cases hr
      unfold Sound at hs
      rw [hp] at hs
      exact sound_handled h hs.1 hs.2
  case h_18 | h_19 =>
      cases hr
      unfold Sound at hs
      rw [hp] at hs
      exact sound_flush h hs
  case h_20 =>
      cases hr
      unfold Sound at hs
      rw [hp] at hs
      exact ⟨hs.1.sound, fun _ => hs.2⟩
  case h_22 =>
      cases hr
      unfold Sound at hs
      rw [hp] at hs
      exact hs
  case h_24 =>
      cases hr
      unfold Sound at hs
      rw [hp] at hs
      exact sound_flush _ hs
  case h_28 =>
      cases hr
      unfold Sound at hs
      rw [hp] at hs
      exact sound_flush h fun _ => hs
  case h_1 | h_29 | h_30 | h_31 => cases hr
  case h_3 | h_6 | h_12 | h_26 => cases hr; trivial
  case h_4 | h_5 => cases hr; exact fun hthrew => nomatch hthrew

end Run

/-! ## One operation at a time -/

/-- The harness while `op` is the operation in progress. -/
structure HeldBy (h : AgentHarness) (op : Operation) : Prop where
  promise : h.runPromise = op.promise
  controller : h.runAbortController = op.controller
  phase : h.phase = .idle ↔ op.settling = true
  sound : ∀ r, op.state = .run r → r.Sound

/-- The harness between operations. -/
structure Unheld (h : AgentHarness) : Prop where
  promise : h.runPromise = none
  controller : h.runAbortController = none
  phase : h.phase = .idle

theorem RunPoint.Working.hasController {point : RunPoint} (h : point.Working) :
    point.hasController = true := by
  cases point <;> first | rfl | cases h

theorem RunPoint.Quiet.hasController {point : RunPoint} (h : point.Quiet) :
    point.hasController = true := by
  cases point <;> first | rfl | cases h

@[simp] theorem hasController_flush (h : AgentHarness) (k : FlushCaller) :
    (h.flushPendingSessionWrites k).hasController = true := by
  unfold AgentHarness.flushPendingSessionWrites
  split <;> rfl

/-- What a step of a run does to the fields of the harness that say who is
in progress. -/
structure KeepsLock (h h' : AgentHarness) (id : Nat) (r r' : Run) : Prop where
  promise : h'.runPromise = h.runPromise
  controller : h.runAbortController = (if r.point.hasController then some id else none) →
    h'.runAbortController = if r'.point.hasController then some id else none
  phase : (h.phase = .idle ↔ r.released = true) → (h'.phase = .idle ↔ r'.released = true)

theorem Run.Goes.keepsLock {h h' : AgentHarness} {id : Nat} {r r' : Run} {outcome : Awaited}
    (hg : r.Goes h id outcome h' (some r')) : KeepsLock h h' id r r' := by
  cases hg with
  | skipped _ _ _ hp | took _ _ _ hp | notified _ _ hp | putBack _ _ _ hp _ | hookThrew _ _ _ hp _ =>
    exact ⟨rfl, by rw [hp]; exact fun hc => hc, fun hphase => hphase⟩
  | began _ _ _ hp => exact ⟨rfl, fun _ => rfl, fun hphase => hphase⟩
  | worked point model hp hnext =>
    exact ⟨rfl, by rw [hp.hasController, hnext.hasController]; exact fun hc => hc,
      fun hphase => hphase⟩
  | flushes k hp hcalls =>
    refine ⟨rfl, ?_, fun hphase => hphase⟩
    rw [hp.hasController]
    simp [Run.atPoint]
  | drainThrew _ _ _ point hp hout hnext =>
    exact ⟨rfl, by rw [hp, show (r.atPoint point).point.hasController = true from
      hnext.hasController]; exact fun hc => hc, fun hphase => hphase⟩
  | drained _ _ hp hq | handedOn _ _ hp | saved _ _ hp | wrote _ _ hp _ =>
    exact ⟨rfl, by rw [hp]; exact fun hc => hc, fun hphase => hphase⟩
  | shifted _ _ hp =>
    refine ⟨rfl, ?_, fun hphase => hphase⟩
    rw [hp]
    simp only [Run.atPoint, hasController_flush]
    exact fun hc => hc
  | released c hp => exact ⟨rfl, by rw [hp]; exact fun hc => hc, fun _ => ⟨fun _ => rfl, fun _ => rfl⟩⟩
  | cleaned threw hp => exact ⟨rfl, fun _ => rfl, fun hphase => hphase⟩
  | cleanupThrew _ _ _ hp _ => exact ⟨rfl, fun _ => rfl, fun hphase => hphase⟩

theorem Run.Goes.unheld {h h' : AgentHarness} {id : Nat} {r : Run} {outcome : Awaited}
    (hg : r.Goes h id outcome h' none) (hs : r.Sound)
    (hcontroller : h.runAbortController = if r.point.hasController then some id else none)
    (hphase : h.phase = .idle ↔ r.released = true) : Unheld h' := by
  cases hg with
  | refused _ hp hout => exact ⟨rfl, by rw [hp] at hcontroller; exact hcontroller, rfl⟩
  | threw hp => exact ⟨rfl, by rw [hp] at hcontroller; exact hcontroller, rfl⟩
  | ended hp =>
    unfold Run.Sound at hs
    rw [hp] at hs hcontroller
    exact ⟨rfl, hcontroller, hphase.mpr (hs rfl)⟩

namespace HarnessState

variable {s s' : HarnessState}

/-- Either nothing is in progress and the harness is free, or one operation
holds it. -/
def LockInv (s : HarnessState) : Prop :=
  (s.operations = [] ∧ Unheld s.harness) ∨ ∃ op, s.operations = [op] ∧ HeldBy s.harness op

theorem LockInv.new (config : HarnessConfig) (steeringMode followUpMode : QueueMode)
    (session : List TreeEntryBody) : (new config steeringMode followUpMode session).LockInv :=
  .inl ⟨rfl, rfl, rfl, rfl⟩

section

variable (hi : s.LockInv)
include hi

/-- A call or a step of something else than an operation leaves the lock. -/
theorem LockInv.frame (hops : s'.operations = s.operations)
    (hpromise : s'.harness.runPromise = s.harness.runPromise)
    (hcontroller : s'.harness.runAbortController = s.harness.runAbortController)
    (hphase : s'.harness.phase = s.harness.phase) : s'.LockInv := by
  rcases hi with ⟨hnil, hfree⟩ | ⟨op, hop, hholds⟩
  · refine .inl ⟨hops.trans hnil, ?_, ?_, ?_⟩
    · exact hpromise.trans hfree.promise
    · exact hcontroller.trans hfree.controller
    · exact hphase.trans hfree.phase
  · refine .inr ⟨op, hops.trans hop, ?_, ?_, ?_, hholds.sound⟩
    · exact hpromise.trans hholds.promise
    · exact hcontroller.trans hholds.controller
    · rw [hphase]; exact hholds.phase

theorem LockInv.settling_or (hidle : s.harness.phase = .idle) (hsettled : ¬ s.Settling) :
    s.operations = [] ∧ Unheld s.harness := by
  rcases hi with hfree | ⟨op, hop, hholds⟩
  · exact hfree
  · refine absurd ⟨op, ?_, hholds.phase.mp hidle⟩ hsettled
    rw [hop]
    exact List.mem_singleton_self op

theorem LockInv.call {c : HarnessCall} (hc : s.Calls c s') (hstart : s.StartsSettled (.call c)) :
    s'.LockInv := by
  cases hc with
  | run invocation hidle =>
    obtain ⟨hnil, hfree⟩ := hi.settling_or hidle (hstart rfl)
    refine .inr ⟨⟨s.nextId, .run { point := .creating invocation, model := s.harness.config.model }⟩,
      by simp only [hnil]; rfl, rfl, hfree.controller, ?_, ?_⟩
    · exact ⟨fun hphase => (nomatch hphase), fun hset => (nomatch hset)⟩
    · rintro r ⟨⟩
      trivial
  | edit c phase hc hidle hphase =>
    obtain ⟨hnil, hfree⟩ := hi.settling_or hidle (hstart (by rcases hc with rfl | rfl <;> rfl))
    refine .inr ⟨⟨s.nextId, .edit .preparing⟩, by simp only [hnil]; rfl, hfree.promise,
      hfree.controller, ?_, ?_⟩
    · rcases hphase with rfl | rfl <;>
        exact ⟨fun hphase => (nomatch hphase), fun hset => (nomatch hset)⟩
    · exact fun r hr => nomatch hr
  | push | nextTurn | write | pend | modes | abort | wait => exact hi.frame rfl rfl rfl rfl

/-- The operation in progress goes on, or ends. -/
theorem LockInv.resume {index now : Nat} {outcome : Awaited} {op : Operation} {h' : AgentHarness}
    {next : Option Operation} (hop : s.operations[index]? = some op)
    (hr : op.resume s.harness now outcome = some (h', next)) :
    LockInv { s with harness := h', operations := replaceAt s.operations index next } := by
  rcases hi with ⟨hnil, _⟩ | ⟨op', hop', hholds⟩
  · rw [hnil] at hop
    cases hop
  rw [hop'] at hop
  obtain ⟨rfl, rfl⟩ : index = 0 ∧ op' = op := by
    cases index with
    | zero => exact ⟨rfl, Option.some.inj hop⟩
    | succ n => cases hop
  have hops : replaceAt s.operations 0 next = next.toList := by
    rw [hop']
    simp [replaceAt]
  unfold LockInv
  simp only [hops]
  obtain ⟨id, state⟩ := op'
  cases state with
  | run r =>
    obtain ⟨⟨h₁, next₁⟩, hrun, heq⟩ := Option.map_eq_some_iff.mp hr
    cases heq
    have hs := hholds.sound r rfl
    have hg := Run.goes_of_resume hrun
    cases next₁ with
    | none => exact .inl ⟨rfl, hg.unheld hs hholds.controller hholds.phase⟩
    | some r' =>
      have hk := hg.keepsLock
      refine .inr ⟨_, rfl, hk.promise.trans hholds.promise, hk.controller hholds.controller,
        hk.phase hholds.phase, ?_⟩
      rintro r'' ⟨⟩
      exact Run.sound_resume hs hrun
  | edit point =>
    obtain ⟨⟨h₁, next₁⟩, hedit, heq⟩ := Option.map_eq_some_iff.mp hr
    cases heq
    cases EditPoint.goes_of_resume hedit with
    | worked next | saved entry next =>
      exact .inr ⟨_, rfl, hholds.promise, hholds.controller, hholds.phase,
        fun _ hr => by cases hr⟩
    | ended hout => exact .inl ⟨rfl, hholds.promise, hholds.controller, rfl⟩

theorem LockInv.step {a : HarnessAction} (hstart : s.StartsSettled a) (hstep : s.step a = some s') :
    s'.LockInv := by
  cases steps_of_step hstep with
  | refused c => exact hi
  | called c s' hc => exact hi.call hc hstart
  | resumed index now outcome op h' next hop hr => exact hi.resume hop hr
  | wrote index w done hw => cases done <;> exact hi.frame rfl rfl rfl rfl
  | aborting | aborted | waited => exact hi.frame rfl rfl rfl rfl

theorem LockInv.guarded : s.Guarded := by
  rcases hi with ⟨hnil, hfree⟩ | ⟨op, hop, hholds⟩
  · refine ⟨by rw [hnil]; exact Nat.zero_le 1, fun id => ?_, fun id => ?_, ?_⟩
    · rw [hfree.promise, hnil]
      exact ⟨fun h => (nomatch h), fun ⟨_, hmem, _⟩ => (nomatch hmem)⟩
    · rw [hfree.controller, hnil]
      exact ⟨fun h => (nomatch h), fun ⟨_, hmem, _⟩ => (nomatch hmem)⟩
    · intro s' _ op hmem
      rw [hnil] at hmem
      cases hmem
  · have hone (p : Operation → Prop) : (∃ op' ∈ s.operations, p op') ↔ p op := by
      rw [hop]
      simp
    refine ⟨by rw [hop]; exact Nat.le_refl 1, fun id => ?_, fun id => ?_, ?_⟩
    · rw [hone, hholds.promise]
    · rw [hone, hholds.controller]
    · intro s' hstep op' hmem id hid
      rw [hop] at hmem
      obtain rfl := List.mem_singleton.mp hmem
      cases hstep
      have hcontroller : s.harness.runAbortController = some id := hholds.controller.trans hid
      exact List.mem_append_left _ (Option.mem_toList.mpr hcontroller)

/-- With an operation that has given up the phase in progress, and only
then, the phase does not say who is in progress. -/
theorem LockInv.phaseExact_iff : s.PhaseExact ↔ ¬ s.Settling := by
  rcases hi with ⟨hnil, hfree⟩ | ⟨op, hop, hholds⟩
  · refine ⟨fun _ ⟨_, hmem, _⟩ => ?_, fun _ => ⟨fun _ => hnil, fun _ => hfree.phase⟩⟩
    rw [hnil] at hmem
    cases hmem
  · have hne : s.operations ≠ [] := by rw [hop]; exact List.cons_ne_nil _ _
    have hsettling : s.Settling ↔ op.settling = true := by
      unfold Settling
      rw [hop]
      simp
    rw [hsettling, ← hholds.phase]
    exact ⟨fun hexact hidle => hne (hexact.mp hidle),
      fun hbusy => ⟨fun hidle => absurd hidle hbusy, fun hnil => absurd hnil hne⟩⟩

end

/-! ## Mutual exclusion -/

/-- While no structural operation is called in the settling time of a run,
at most one is in progress and the fields are its own; and the phase is
exact in all states but those in which a run settles. -/
theorem mutual_exclusion {config : HarnessConfig} {steeringMode followUpMode : QueueMode}
    {session : List TreeEntryBody}
    (h : Reaches step StartsSettled (new config steeringMode followUpMode session) s) :
    s.Guarded ∧ (s.PhaseExact ↔ ¬ s.Settling) := by
  have hi : s.LockInv := h.invariant (LockInv.new config steeringMode followUpMode session)
    fun _ _ _ hi hstart hstep => hi.step hstart hstep
  exact ⟨hi.guarded, hi.phaseExact_iff⟩

/-- A prompt up to the listeners of its `agent_end`, and to its end. -/
def settlingActions : List HarnessAction :=
  [.call (.invoke (.prompt "go" [])), .resume 0 2 (.created none), .resume 0 2 (.messages []),
    .resume 0 2 (.emits (.agentEnd [])), .resume 0 2 .ok]

theorem mutual_exclusion_settled : ∃ s, Reaches step StartsSettled quietHarness s ∧
    s.operations.length = 1 ∧ s.Guarded := by
  have hrun : (Machine.run step StartsSettled quietHarness
      (settlingActions ++ [.resume 0 2 .ok, .resume 0 2 .ok, .resume 0 2 (.assistant true),
        .resume 0 2 .ok, .resume 0 2 .ok, .call (.invoke (.prompt "again" []))])).any (fun s =>
      decide (s.operations.length = 1)) = true := by
    decide +kernel
  obtain ⟨s, hs, hfacts⟩ := (Option.any_eq_true ..).mp hrun
  have hreach := Machine.reaches_of_run hs
  exact ⟨s, hreach, of_decide_eq_true hfacts, (mutual_exclusion hreach).1⟩

/-- A prompt called by a listener of `agent_end` runs when the first one
ends, and loses its run promise and its abort controller to it: an abort
then aborts nothing. -/
theorem prompt_while_settling : ∃ s s', Reaches step (fun _ _ => True) quietHarness s ∧
    s.operations.length = 1 ∧ s.harness.phase = .turn ∧ s.harness.runPromise = none ∧
    s.step (.call .abort) = some s' ∧ s'.harness.aborted = [] ∧ ¬ s.Guarded := by
  have hrun : (Machine.run step (fun _ _ => True) quietHarness
      (settlingActions ++ [.call (.invoke (.prompt "again" [])), .resume 1 2 (.created none),
        .resume 1 2 (.messages []), .resume 0 2 .ok, .resume 0 2 .ok, .resume 0 2 (.assistant true),
        .resume 0 2 .ok, .resume 0 2 .ok])).any (fun s =>
      decide (s.operations.map Operation.promise = [some 1] ∧ s.harness.phase = .turn ∧
        s.harness.runPromise = none ∧ s.harness.runAbortController = none ∧
        s.harness.aborted = [])) = true := by
    decide +kernel
  obtain ⟨s, hs, hfacts⟩ := (Option.any_eq_true ..).mp hrun
  obtain ⟨hops, hphase, hpromise, hcontroller, haborted⟩ := of_decide_eq_true hfacts
  obtain ⟨op, hop, hone⟩ := List.map_eq_singleton_iff.mp hops
  refine ⟨s, s.startAbort, Machine.reaches_of_run hs, by rw [hop]; rfl, hphase, hpromise, rfl, ?_,
    fun hguarded => ?_⟩
  · simp [startAbort, hcontroller, haborted]
  · have := (hguarded.promise 1).mpr ⟨op, by rw [hop]; exact List.mem_singleton_self op, hone⟩
    rw [hpromise] at this
    cases this

end HarnessState

end Eagent
