import Eagent.HarnessSteps

/-!
# The queues of the harness

A message given to `steer`, `followUp` or `nextTurn` is in the live array of
its queue, in the hands of a run that drains it, handed to the run, or
cleared by an abort. A drain whose notification throws puts its messages
back on the array it spliced. After an abort that array is no longer the
queue, and the messages are lost.
-/

namespace Eagent

open Machine

/-! ## Where a message is -/

def RunPoint.taken : RunPoint → List AgentMessage
  | .notifyingNextTurn queuedMessages _ => queuedMessages
  | .startingHook queuedMessages _ => queuedMessages
  | .draining _ messages => messages
  | _ => []

def Operation.taken (op : Operation) : List AgentMessage :=
  match op.state with
  | .run r => r.point.taken
  | .edit _ => []

def Operation.run? (op : Operation) : Option Run :=
  match op.state with
  | .run r => some r
  | .edit _ => none

def Abort.cleared (a : Abort) : List AgentMessage := a.clearedSteer ++ a.clearedFollowUp

namespace AgentHarness

def steering (h : AgentHarness) : List AgentMessage := h.arrays h.steerQueue

def followUps (h : AgentHarness) : List AgentMessage := h.arrays h.followUpQueue

/-- Everything in a live queue, and everything handed to a run. -/
def accounted (h : AgentHarness) : List AgentMessage :=
  h.steering ++ h.followUps ++ h.nextTurnQueue ++ h.delivered

/-- The arrays of the two queues differ, and neither is still to be made. -/
structure Arrays (h : AgentHarness) : Prop where
  distinct : h.steerQueue ≠ h.followUpQueue
  steer : h.steerQueue < h.nextArray
  followUp : h.followUpQueue < h.nextArray

/-- `queue` is the array of a live queue. -/
def Live (h : AgentHarness) (queue : Nat) : Prop :=
  queue = h.steerQueue ∨ queue = h.followUpQueue

instance (h : AgentHarness) (queue : Nat) : Decidable (h.Live queue) :=
  inferInstanceAs (Decidable (_ ∨ _))

end AgentHarness

namespace HarnessState

def taken (s : HarnessState) : List AgentMessage := s.operations.flatMap Operation.taken

def cleared (s : HarnessState) : List AgentMessage := s.aborts.flatMap Abort.cleared

/-- Every queued message is in exactly one place: in its queue, on its way
to a run or handed to it, in the lists of an abort or returned by one. -/
def Accounted (s : HarnessState) : Prop :=
  s.queued.Perm (s.harness.accounted ++ s.taken ++ s.cleared ++ s.returned)

instance (s : HarnessState) : Decidable s.Accounted := inferInstanceAs (Decidable (List.Perm _ _))

end HarnessState

/-! ## The branches that drop messages -/

/-- What is awaited at this point fails without a loss: a drain puts its
messages back on a live array, and `before_agent_start` has none to lose. -/
def RunPoint.FailsSafely (h : AgentHarness) : RunPoint → Prop
  | .draining queue _ => h.Live queue
  | .startingHook queuedMessages _ => queuedMessages = []
  | _ => True

instance (h : AgentHarness) : ∀ point : RunPoint, Decidable (point.FailsSafely h)
  | .draining queue _ => inferInstanceAs (Decidable (h.Live queue))
  | .startingHook queuedMessages _ => inferInstanceAs (Decidable (queuedMessages = []))
  | .creating _ | .notifyingNextTurn _ _ | .running | .saving _ _ | .emitting _
  | .emittingTurnEnd _ | .emittingAgentEnd _ | .appending _ _ | .appended _ _ | .flushed _
  | .creatingNext | .returned | .turnSettled _ => .isTrue trivial

/-- An abort rejects, its `queue_update` or its `abort` event having thrown,
only with nothing in its lists. -/
def Abort.RejectsEmpty (a : Abort) (done : Bool) : Prop :=
  a.point = .emitting → a.cleared = [] ∨ (done = true ∧ a.threw = false)

instance (a : Abort) (done : Bool) : Decidable (a.RejectsEmpty done) :=
  inferInstanceAs (Decidable (_ → _))

/-- The step takes no branch that drops messages. -/
def HarnessState.Keeps (s : HarnessState) : HarnessAction → Prop
  | .resume index _ (.failed _) =>
      ∀ op ∈ s.operations[index]?, ∀ r ∈ op.run?, r.point.FailsSafely s.harness
  | .resumeAbort index done => ∀ a ∈ s.aborts[index]?, a.RejectsEmpty done
  | _ => True

instance (s : HarnessState) (a : HarnessAction) : Decidable (s.Keeps a) := by
  unfold HarnessState.Keeps
  split <;> infer_instance

/-! ## What a run does to the queues -/

@[simp] theorem taken_flushPendingSessionWrites (h : AgentHarness) (caller : FlushCaller) :
    (h.flushPendingSessionWrites caller).taken = [] := by
  unfold AgentHarness.flushPendingSessionWrites
  split <;> rfl

theorem RunPoint.Working.taken {point : RunPoint} (h : point.Working) : point.taken = [] := by
  cases point <;> first | rfl | cases h

theorem RunPoint.Quiet.taken {point : RunPoint} (h : point.Quiet) : point.taken = [] := by
  cases point <;> first | rfl | cases h

theorem QueueMode.splice_append (mode : QueueMode) (queue : List AgentMessage) :
    (mode.splice queue).1 ++ (mode.splice queue).2 = queue := by
  cases mode with
  | all => exact List.append_nil queue
  | oneAtATime => exact List.take_append_drop 1 queue

namespace AgentHarness

/-- What a step does to the queues and to what was handed to runs, when the
run holds `before` and goes on with `after`. -/
structure Moves (h h' : AgentHarness) (before after : List AgentMessage) : Prop where
  steer : h'.steerQueue = h.steerQueue
  followUp : h'.followUpQueue = h.followUpQueue
  next : h'.nextArray = h.nextArray
  perm : (h'.accounted ++ after).Perm (h.accounted ++ before)

variable {h h' : AgentHarness} {before after : List AgentMessage}

theorem Moves.arrays (hm : Moves h h' before after) (harr : h.Arrays) : h'.Arrays where
  distinct := by rw [hm.steer, hm.followUp]; exact harr.distinct
  steer := by rw [hm.steer, hm.next]; exact harr.steer
  followUp := by rw [hm.followUp, hm.next]; exact harr.followUp

theorem Moves.setArray (harr : h.Arrays) {queue : Nat} (hq : h.Live queue)
    {messages : List AgentMessage}
    (hperm : (messages ++ after).Perm (h.arrays queue ++ before)) :
    Moves h (h.setArray queue messages) before after where
  steer := rfl
  followUp := rfl
  next := rfl
  perm := by
    have hcount := List.perm_iff_count.mp hperm
    have hne := harr.distinct
    refine List.perm_iff_count.mpr fun m => ?_
    have := hcount m
    unfold accounted steering followUps AgentHarness.setArray
    rcases hq with rfl | rfl
    · simp only [if_true, if_neg hne.symm, List.count_append] at this ⊢
      omega
    · simp only [if_true, if_neg hne, List.count_append] at this ⊢
      omega

end AgentHarness

open AgentHarness (Moves)

variable {outcome : Awaited}

theorem Run.Goes.moves {h h' : AgentHarness} {id : Nat} {r : Run} {next : Option Run}
    (hg : r.Goes h id outcome h' next) (harr : h.Arrays)
    (hkeep : ∀ error, outcome = .failed error → r.point.FailsSafely h) :
    Moves h h' r.point.taken (next.elim [] fun r => r.point.taken) := by
  cases hg with
  | refused _ hp _ | skipped _ _ _ hp | notified _ _ hp | saved _ _ hp | wrote _ _ hp _ | released _ hp
  | cleaned _ hp | cleanupThrew _ _ _ hp | threw hp | ended hp =>
    rw [hp]
    exact ⟨rfl, rfl, rfl, .refl _⟩
  | shifted write caller hp =>
    refine ⟨rfl, rfl, rfl, ?_⟩
    rw [hp]
    simp only [Option.elim, Run.atPoint, taken_flushPendingSessionWrites]
    exact .refl _
  | worked point model hp hnext =>
    refine ⟨rfl, rfl, rfl, ?_⟩
    rw [hp.taken]
    simp [hnext.taken]
  | flushes caller hp hcalls =>
    refine ⟨rfl, rfl, rfl, ?_⟩
    rw [hp.taken]
    simp [Run.atPoint]
  | hookThrew queued message error hp hout =>
    have hnil : queued = [] := by
      have := hkeep error hout
      rwa [hp] at this
    rw [hp, hnil]
    exact ⟨rfl, rfl, rfl, .refl _⟩
  | took _ model message hp =>
    rw [hp]
    refine ⟨rfl, rfl, rfl, List.perm_iff_count.mpr fun m => ?_⟩
    simp [RunPoint.taken, AgentHarness.accounted, AgentHarness.steering, AgentHarness.followUps]
    omega
  | putBack queued message error hp hout =>
    rw [hp]
    refine ⟨rfl, rfl, rfl, List.perm_iff_count.mpr fun m => ?_⟩
    simp [Run.atPoint, RunPoint.taken, AgentHarness.accounted, AgentHarness.steering,
      AgentHarness.followUps]
    omega
  | began queued message prompts hp =>
    rw [hp]
    refine ⟨rfl, rfl, rfl, List.perm_iff_count.mpr fun m => ?_⟩
    simp [RunPoint.taken, AgentHarness.accounted, AgentHarness.steering, AgentHarness.followUps]
  | handedOn queue messages hp =>
    rw [hp]
    refine ⟨rfl, rfl, rfl, List.perm_iff_count.mpr fun m => ?_⟩
    simp [Run.atPoint, RunPoint.taken, AgentHarness.accounted, AgentHarness.steering,
      AgentHarness.followUps]
  | drained queue mode hp hq =>
    rw [hp]
    refine .setArray harr hq ?_
    have happ := mode.splice_append (h.arrays queue)
    calc (mode.splice (h.arrays queue)).2 ++ (mode.splice (h.arrays queue)).1
        |>.Perm ((mode.splice (h.arrays queue)).1 ++ (mode.splice (h.arrays queue)).2) :=
          List.perm_append_comm
      _ = h.arrays queue ++ [] := by rw [happ, List.append_nil]
  | drainThrew queue messages error point hp hout hnext =>
    have hlive : h.Live queue := by
      have := hkeep error hout
      rwa [hp] at this
    rw [hp]
    refine .setArray harr hlive ?_
    simp only [Option.elim, Run.atPoint, hnext.taken]
    rw [List.append_nil]
    exact List.perm_append_comm

theorem EditPoint.Goes.moves {h h' : AgentHarness} {point : EditPoint} {next : Option EditPoint}
    (hg : point.Goes h outcome h' next) : Moves h h' [] [] := by
  cases hg <;> exact ⟨rfl, rfl, rfl, .refl _⟩

theorem Operation.Goes.moves {h h' : AgentHarness} {op : Operation} {next : Option Operation}
    (hg : op.Goes h outcome h' next) (harr : h.Arrays)
    (hkeep : ∀ error, outcome = .failed error → ∀ r ∈ op.run?, r.point.FailsSafely h) :
    Moves h h' op.taken (next.toList.flatMap Operation.taken) := by
  cases hg with
  | run r hs h' next hg =>
    have hm := hg.moves harr fun error hout => hkeep error hout r (by simp [Operation.run?, hs])
    unfold Operation.taken
    rw [hs]
    cases next with
    | none => exact hm
    | some r' => simpa [Operation.taken] using hm
  | edit point hs h' next hg =>
    have hm := hg.moves
    unfold Operation.taken
    rw [hs]
    cases next with
    | none => exact hm
    | some point' => simpa [Operation.taken] using hm

/-! ## Runs of the harness -/

namespace HarnessState

variable {s s' : HarnessState}

/-- What every step that keeps the messages keeps. -/
structure QueueInv (s : HarnessState) : Prop where
  arrays : s.harness.Arrays
  accounted : s.Accounted

theorem QueueInv.new (config : HarnessConfig) (steeringMode followUpMode : QueueMode)
    (session : List TreeEntryBody) : (new config steeringMode followUpMode session).QueueInv where
  arrays := ⟨nofun, Nat.zero_lt_two, Nat.one_lt_two⟩
  accounted := .refl _

section

variable (hi : s.QueueInv)
include hi

/-- A change that concerns no queue and no list of messages. -/
theorem QueueInv.frame (hsteer : s'.harness.steerQueue = s.harness.steerQueue)
    (hfollow : s'.harness.followUpQueue = s.harness.followUpQueue)
    (hnext : s'.harness.nextArray = s.harness.nextArray)
    (hacc : s'.harness.accounted = s.harness.accounted) (htaken : s'.taken = s.taken)
    (hcleared : s'.cleared = s.cleared) (hreturned : s'.returned = s.returned)
    (hqueued : s'.queued = s.queued) : s'.QueueInv where
  arrays := by
    refine ⟨?_, ?_, ?_⟩
    · rw [hsteer, hfollow]; exact hi.arrays.distinct
    · rw [hsteer, hnext]; exact hi.arrays.steer
    · rw [hfollow, hnext]; exact hi.arrays.followUp
  accounted := by
    unfold Accounted
    rw [hacc, htaken, hcleared, hreturned, hqueued]
    exact hi.accounted

theorem QueueInv.push {queue : Nat} (hq : s.harness.Live queue) (message : AgentMessage) :
    (s.push queue message).QueueInv := by
  have hm : Moves s.harness (s.push queue message).harness [message] [] :=
    Moves.setArray hi.arrays hq (by rw [List.append_nil])
  refine ⟨hm.arrays hi.arrays, List.perm_iff_count.mpr fun m => ?_⟩
  have hold := List.perm_iff_count.mp hi.accounted m
  have hnew := List.perm_iff_count.mp hm.perm m
  simp only [HarnessState.push, taken, cleared, List.count_append, List.count_nil] at hold hnew ⊢
  omega

theorem QueueInv.startAbort : s.startAbort.QueueInv := by
  have hsteer := hi.arrays.steer
  have hfollow := hi.arrays.followUp
  refine ⟨⟨?_, ?_, ?_⟩, List.perm_iff_count.mpr fun m => ?_⟩
  · exact Nat.ne_of_lt (Nat.lt_succ_self _)
  · exact Nat.lt_add_of_pos_right Nat.zero_lt_two
  · exact Nat.lt_succ_self _
  · have hold := List.perm_iff_count.mp hi.accounted m
    simp [HarnessState.startAbort, AgentHarness.accounted, AgentHarness.steering,
      AgentHarness.followUps, taken, cleared, Abort.cleared] at hold ⊢
    omega

theorem QueueInv.call {c : HarnessCall} (hcall : s.Calls c s') :
    s'.QueueInv := by
  cases hcall with
  | run invocation hidle =>
    exact hi.frame rfl rfl rfl rfl (by simp [taken, Operation.taken, RunPoint.taken]) rfl rfl rfl
  | edit c phase hc hidle hphase =>
    exact hi.frame rfl rfl rfl rfl (by simp [taken, Operation.taken]) rfl rfl rfl
  | push c queue message hq => exact hi.push hq message
  | nextTurn c message =>
    refine ⟨⟨hi.arrays.distinct, hi.arrays.steer, hi.arrays.followUp⟩,
      List.perm_iff_count.mpr fun m => ?_⟩
    have hold := List.perm_iff_count.mp hi.accounted m
    simp only [AgentHarness.accounted, AgentHarness.steering, AgentHarness.followUps, taken,
      cleared, List.count_append] at hold ⊢
    omega
  | write request w update hidle => exact hi.frame rfl rfl rfl rfl rfl rfl rfl rfl
  | pend request w update hbusy => exact hi.frame rfl rfl rfl rfl rfl rfl rfl rfl
  | modes c steering followUp => exact hi.frame rfl rfl rfl rfl rfl rfl rfl rfl
  | abort => exact hi.startAbort
  | wait => exact hi.frame rfl rfl rfl rfl rfl rfl rfl rfl

theorem QueueInv.resume {index : Nat} {op : Operation} {h' : AgentHarness} {next : Option Operation}
    (hop : s.operations[index]? = some op)
    (hm : Moves s.harness h' op.taken (next.toList.flatMap Operation.taken)) :
    QueueInv { s with harness := h', operations := replaceAt s.operations index next } := by
  refine ⟨hm.arrays hi.arrays, List.perm_iff_count.mpr fun m => ?_⟩
  have hold := List.perm_iff_count.mp hi.accounted m
  have hsplit := count_flatMap_replaceAt Operation.taken hop next m
  have hnew := List.perm_iff_count.mp hm.perm m
  simp only [List.count_append, taken, cleared] at hold hnew hsplit ⊢
  omega

theorem QueueInv.aborting {index : Nat} {a : Abort} (ha : s.aborts[index]? = some a)
    (point : AbortPoint) (threw : Bool) :
    QueueInv { s with aborts := replaceAt s.aborts index (some { a with point, threw }) } := by
  refine ⟨hi.arrays, List.perm_iff_count.mpr fun m => ?_⟩
  have hold := List.perm_iff_count.mp hi.accounted m
  have hsplit := count_flatMap_replaceAt Abort.cleared ha (some { a with point, threw }) m
  have hsame : Abort.cleared { a with point, threw } = a.cleared := rfl
  simp only [Option.toList, List.flatMap_cons, List.flatMap_nil, List.append_nil, hsame] at hsplit
  simp only [List.count_append, taken, cleared] at hold ⊢
  omega

theorem QueueInv.aborted {index : Nat} {a : Abort} {done : Bool} (ha : s.aborts[index]? = some a)
    (hkeep : a.cleared = [] ∨ (done = true ∧ a.threw = false)) :
    QueueInv { s with
      aborts := replaceAt s.aborts index none
      returned := if done && !a.threw then s.returned ++ a.clearedSteer ++ a.clearedFollowUp
        else s.returned } := by
  refine ⟨hi.arrays, List.perm_iff_count.mpr fun m => ?_⟩
  have hold := List.perm_iff_count.mp hi.accounted m
  have hsplit := count_flatMap_replaceAt Abort.cleared ha none m
  have hreturned : (if done && !a.threw then s.returned ++ a.clearedSteer ++ a.clearedFollowUp
      else s.returned).count m = s.returned.count m + a.cleared.count m := by
    unfold Abort.cleared
    rcases hkeep with hnil | ⟨rfl, hthrew⟩
    · obtain ⟨hs, hf⟩ := List.append_eq_nil_iff.mp hnil
      rw [hs, hf]
      split <;> simp
    · simp [hthrew]
  simp only [Option.toList, List.flatMap_nil, List.count_nil] at hsplit
  simp only [List.count_append, taken, cleared] at hold ⊢
  rw [hreturned]
  omega

end

variable {a : HarnessAction}

theorem QueueInv.step (hi : s.QueueInv) (hkeep : s.Keeps a) (hstep : s.step a = some s') :
    s'.QueueInv := by
  cases steps_of_step hstep with
  | refused c => exact hi
  | called c s' hc => exact hi.call hc
  | resumed index now outcome op h' next hop hr =>
    refine hi.resume hop ((Operation.goes_of_resume hr).moves hi.arrays fun error hout => ?_)
    subst hout
    exact hkeep op hop
  | wrote index w done hw =>
    cases done
    · exact hi.frame rfl rfl rfl rfl rfl rfl rfl rfl
    · exact hi.frame rfl rfl rfl rfl rfl rfl rfl rfl
  | aborting index a done ha point threw hne => exact hi.aborting ha point threw
  | aborted index a done ha hp => exact hi.aborted ha (hkeep a ha hp)
  | waited index => exact hi.frame rfl rfl rfl rfl rfl rfl rfl rfl

/-- A drain whose notification throws puts its messages back at the front
of the live queue, in their order. -/
def PutsBack (s : HarnessState) (a : HarnessAction) (s' : HarnessState) : Prop :=
  ∀ index now error, a = .resume index now (.failed error) →
    ∀ op ∈ s.operations[index]?, ∀ r ∈ op.run?,
      (∀ queue messages, r.point = .draining queue messages →
        queue = s.harness.steerQueue ∧ s'.harness.steering = messages ++ s.harness.steering ∨
        queue = s.harness.followUpQueue ∧
          s'.harness.followUps = messages ++ s.harness.followUps) ∧
      ∀ queued message, r.point = .notifyingNextTurn queued message →
        s'.harness.nextTurnQueue = queued ++ s.harness.nextTurnQueue

theorem putsBack (hkeep : s.Keeps a) (hstep : s.step a = some s') :
    s.PutsBack a s' := by
  rintro index now error rfl op hop r hr
  have hlive := hkeep op hop r hr
  obtain ⟨op', hop', hstep⟩ := Option.bind_eq_some_iff.mp hstep
  obtain rfl : op' = op := Option.some.inj (hop'.symm.trans hop)
  obtain ⟨⟨h', next⟩, hresume, hstep⟩ := Option.bind_eq_some_iff.mp hstep
  obtain ⟨id, state⟩ := op'
  cases state with
  | edit point => cases hr
  | run r' =>
    obtain rfl : r' = r := Option.some.inj hr
    obtain ⟨⟨h₁, next₁⟩, hrun, heq⟩ := Option.map_eq_some_iff.mp hresume
    refine ⟨fun queue messages hp => ?_, fun queued message hp => ?_⟩
    · rw [hp] at hlive
      simp only [Run.resume, hp] at hrun
      cases hrun
      cases heq
      cases hstep
      rcases hlive with rfl | rfl
      · exact .inl ⟨rfl, if_pos rfl⟩
      · exact .inr ⟨rfl, if_pos rfl⟩
    · simp only [Run.resume, hp] at hrun
      cases hrun
      cases heq
      cases hstep
      rfl

def IsAbort : HarnessAction → Prop
  | .call .abort | .resumeAbort _ _ => True
  | _ => False

theorem nextTurnQueue_abort (ha : IsAbort a) (hstep : s.step a = some s') :
    s'.harness.nextTurnQueue = s.harness.nextTurnQueue := by
  cases steps_of_step hstep with
  | refused c => rfl
  | called c s' hc =>
    cases c with
    | abort => cases hstep; rfl
    | _ => cases ha
  | resumed | wrote | waited => cases ha
  | aborting | aborted => rfl

/-! ## Nothing is lost -/

/-- While no step drops messages, every queued message is in exactly one
place, a failed drain restores its queue, and an abort keeps the messages
for the next turn. -/
theorem queues_lose_nothing {config : HarnessConfig} {steeringMode followUpMode : QueueMode}
    {session : List TreeEntryBody}
    (h : Reaches step Keeps (new config steeringMode followUpMode session) s) :
    s.Accounted ∧ ∀ a s', s.Keeps a → s.step a = some s' →
      s.PutsBack a s' ∧
        (IsAbort a → s'.harness.nextTurnQueue = s.harness.nextTurnQueue) := by
  have hi : s.QueueInv := h.invariant (QueueInv.new config steeringMode followUpMode session)
    fun _ _ _ hi hkeep hstep => hi.step hkeep hstep
  exact ⟨hi.accounted, fun a s' hkeep hstep =>
    ⟨putsBack hkeep hstep, fun ha => nextTurnQueue_abort ha hstep⟩⟩

def steeredActions : List HarnessAction :=
  [.call (.invoke (.prompt "go" [])), .call (.steer "left" [] 1),
    .resume 0 2 (.created none), .resume 0 2 (.messages []),
    .resume 0 2 (.emits .agentStart), .resume 0 2 .ok,
    .resume 0 2 (.emits .turnStart), .resume 0 2 .ok,
    .resume 0 2 (.emits (.messageStart (createUserMessage "go" [] 2))), .resume 0 2 .ok,
    .resume 0 2 (.emits (.messageEnd (createUserMessage "go" [] 2))), .resume 0 2 .ok,
    .resume 0 2 .ok, .resume 0 2 .getsSteeringMessages]

theorem queues_lose_nothing_failed_drain : ∃ s a s', Reaches step Keeps quietHarness s ∧
    s.Keeps a ∧ s.step a = some s' ∧ s.taken = [createUserMessage "left" [] 1] ∧
    s.PutsBack a s' := by
  have hrun : (Machine.run step Keeps quietHarness steeredActions).any (fun s =>
      decide (s.Keeps (.resume 0 3 (.failed "listener")) ∧
        (s.step (.resume 0 3 (.failed "listener"))).isSome ∧
        s.taken = [createUserMessage "left" [] 1])) = true := by
    decide +kernel
  obtain ⟨s, hs, hfacts⟩ := (Option.any_eq_true ..).mp hrun
  obtain ⟨hkeep, hsome, htaken⟩ := of_decide_eq_true hfacts
  obtain ⟨s', hs'⟩ := Option.isSome_iff_exists.mp hsome
  have hreach := Machine.reaches_of_run hs
  exact ⟨s, _, s', hreach, hkeep, hs', htaken,
    ((queues_lose_nothing hreach).2 _ s' hkeep hs').1⟩

/-- An abort between a drain and the failure of its notification: the
message goes back to an array nobody reads. -/
theorem rolled_back_message_lost : ∃ s, Reaches step (fun _ _ => True) quietHarness s ∧
    ¬ s.Accounted := by
  have hrun : (Machine.run step (fun _ _ => True) quietHarness
      (steeredActions ++ [.call .abort, .resume 0 3 (.failed "listener")])).any (fun s =>
        decide (¬ s.Accounted)) = true := by
    decide +kernel
  obtain ⟨s, hs, hfacts⟩ := (Option.any_eq_true ..).mp hrun
  exact ⟨s, Machine.reaches_of_run hs, of_decide_eq_true hfacts⟩

end HarnessState

end Eagent
