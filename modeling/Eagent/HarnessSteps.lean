import Eagent.AgentHarness

/-!
# What one step of a run does

`Run.Goes` sorts the steps of a run by what they do to the harness. Most of
them only move the run from one point of the loop to another; the others
touch the queues, the session, the pending writes, the phase, the run
promise or the abort controller, one constructor each.
-/

namespace Eagent

/-! ## Points -/

/-- The points whose step can be one inside the loop or its failure report
that leaves the harness as it is. -/
def RunPoint.Working : RunPoint → Prop
  | .running | .saving .. | .emitting _ | .emittingTurnEnd _ | .emittingAgentEnd _
  | .creatingNext | .returned => True
  | .appending _ caller => ∀ threw, caller ≠ .cleanup threw
  | .flushed caller =>
      (∀ threw, caller ≠ .cleanup threw) ∧ ∀ eventCaller, caller ≠ .agentEnd eventCaller
  | _ => False

/-- The points of the loop and its failure report at which the run holds no
message and no pending write. -/
def RunPoint.Quiet : RunPoint → Prop
  | .running | .saving .. | .emitting _ | .emittingTurnEnd _ | .emittingAgentEnd _
  | .creatingNext | .returned => True
  | _ => False

/-- The run throws before it has started: `prompt` ends without a flush. -/
def RunPoint.ThrowsEarly (point : RunPoint) (outcome : Awaited) : Prop :=
  match point, outcome with
  | .creating _, .failed _ | .notifyingNextTurn _ _, .failed _ | .startingHook _ _, .failed _ => True
  | .creating invocation, .created resource => (invocation.text resource).toOption = none
  | _, _ => False

/-- The step calls `flushPendingSessionWrites`: for `agent_end`, after
`turn_end`, in `prepareNextTurn`, or to clean up. -/
def RunPoint.CallsFlush (point : RunPoint) (outcome : Awaited) : Prop :=
  match point, outcome with
  | .running, .emits event | .emitting (.failure (event :: _)), .ok => event.isAgentEnd = true
  | .running, .preparesNextTurn | .emittingTurnEnd _, _ | .returned, _ => True
  | .saving _ (.failure _), .failed _ | .emitting (.failure _), .failed _
  | .emittingAgentEnd (.failure _), .failed _ | .appending _ (.turnEnd (.failure _) _), .failed _
  | .appending _ (.agentEnd (.failure _)), .failed _
  | .flushed (.turnEnd (.failure _) (some _)), .ok => True
  | _, _ => False

/-! ## The kinds of steps -/

/-- A step of the run `r` with abort controller `id`, by what it does to
the harness `h`. -/
inductive Run.Goes (h : AgentHarness) (id : Nat) (r : Run) (outcome : Awaited) :
    AgentHarness → Option Run → Prop
  | refused (invocation : Invocation) (hp : r.point = .creating invocation)
      (hout : r.point.ThrowsEarly outcome) :
      Goes h id r outcome h.promptThrew none
  | skipped (invocation : Invocation) (model : LoopModel) (message : AgentMessage)
      (hp : r.point = .creating invocation) :
      Goes h id r outcome h (some { r with point := .startingHook [] message, model })
  | took (invocation : Invocation) (model : LoopModel) (message : AgentMessage)
      (hp : r.point = .creating invocation) :
      Goes h id r outcome { h with nextTurnQueue := [] }
        (some { r with point := .notifyingNextTurn h.nextTurnQueue message, model })
  | notified (queued : List AgentMessage) (message : AgentMessage)
      (hp : r.point = .notifyingNextTurn queued message) :
      Goes h id r outcome h (some (r.atPoint (.startingHook queued message)))
  | putBack (queued : List AgentMessage) (message : AgentMessage) (error : String)
      (hp : r.point = .notifyingNextTurn queued message) (hout : outcome = .failed error) :
      Goes h id r outcome { h with nextTurnQueue := queued ++ h.nextTurnQueue }
        (some (r.atPoint (.turnSettled true)))
  | hookThrew (queued : List AgentMessage) (message : AgentMessage) (error : String)
      (hp : r.point = .startingHook queued message) (hout : outcome = .failed error) :
      Goes h id r outcome h (some (r.atPoint (.turnSettled true)))
  | began (queued : List AgentMessage) (message : AgentMessage) (prompts : List AgentMessage)
      (hp : r.point = .startingHook queued message) :
      Goes h id r outcome
        { h with runAbortController := some id, delivered := h.delivered ++ queued }
        (some { r with point := .running, prompts })
  | worked (point : RunPoint) (model : LoopModel) (hp : r.point.Working) (hnext : point.Quiet) :
      Goes h id r outcome h (some { r with point, model })
  | flushes (caller : FlushCaller) (hp : r.point.Working) (hcalls : r.point.CallsFlush outcome) :
      Goes h id r outcome h (some (r.atPoint (h.flushPendingSessionWrites caller)))
  | drained (queue : Nat) (mode : QueueMode) (hp : r.point = .running)
      (hq : queue = h.steerQueue ∨ queue = h.followUpQueue) :
      Goes h id r outcome (h.setArray queue (mode.splice (h.arrays queue)).2)
        (some (r.atPoint (.draining queue (mode.splice (h.arrays queue)).1)))
  | handedOn (queue : Nat) (messages : List AgentMessage)
      (hp : r.point = .draining queue messages) :
      Goes h id r outcome { h with delivered := h.delivered ++ messages }
        (some (r.atPoint .running))
  | drainThrew (queue : Nat) (messages : List AgentMessage) (error : String) (point : RunPoint)
      (hp : r.point = .draining queue messages) (hout : outcome = .failed error)
      (hnext : point.Quiet) :
      Goes h id r outcome (h.setArray queue (messages ++ h.arrays queue))
        (some (r.atPoint point))
  | saved (message : AgentMessage) (caller : EventCaller)
      (hp : r.point = .saving message caller) :
      Goes h id r outcome
        { h with session := h.session ++ [.own (.entry (.message message))] }
        (some (r.atPoint (.emitting caller)))
  | wrote (write : PendingSessionWrite) (caller : FlushCaller)
      (hp : r.point = .appending write caller) (hout : outcome = .ok) :
      Goes h id r outcome { h with session := h.session ++ [.requested write] }
        (some (r.atPoint (.appended write caller)))
  | shifted (write : PendingSessionWrite) (caller : FlushCaller)
      (hp : r.point = .appended write caller) :
      Goes h id r outcome { h with pendingSessionWrites := h.pendingSessionWrites.tail }
        (some (r.atPoint ({ h with
          pendingSessionWrites := h.pendingSessionWrites.tail }.flushPendingSessionWrites caller)))
  | released (caller : EventCaller) (hp : r.point = .flushed (.agentEnd caller)) :
      Goes h id r outcome { h with phase := .idle }
        (some { r with point := .emittingAgentEnd caller, released := true })
  | cleaned (threw : Bool) (hp : r.point = .flushed (.cleanup threw)) :
      Goes h id r outcome { h with runAbortController := none }
        (some (r.atPoint (.turnSettled threw)))
  | cleanupThrew (write : PendingSessionWrite) (threw : Bool) (error : String)
      (hp : r.point = .appending write (.cleanup threw)) (hout : outcome = .failed error) :
      Goes h id r outcome { h with runAbortController := none }
        (some (r.atPoint (.turnSettled true)))
  | threw (hp : r.point = .turnSettled true) : Goes h id r outcome h.promptThrew none
  | ended (hp : r.point = .turnSettled false) : Goes h id r outcome h.promptReturned none

namespace Run

variable {h h' : AgentHarness} {id now : Nat} {r : Run} {outcome : Awaited}

/-- A call of `handleAgentEvent` is a flush for `agent_end`, and a point of
its own for the other events. -/
theorem goes_event (hp : r.point.Working) (caller : EventCaller) (e : AgentEvent)
    (hcalls : e.isAgentEnd = true → r.point.CallsFlush outcome) :
    Goes h id r outcome h (some (r.atPoint (h.handleAgentEvent caller e))) := by
  cases e with
  | agentEnd messages => exact .flushes _ hp (hcalls rfl)
  | _ => exact .worked _ r.model hp trivial

theorem goes_loopThrew (hp : r.point.Working) (error : String) :
    Goes h id r outcome h (some (r.loopThrew h id now error)) := goes_event hp _ _ nofun

theorem goes_handled {caller : EventCaller} (hp : r.point = .emitting caller) :
    Goes h id r .ok h (some (r.handled h caller)) := by
  have hw : r.point.Working := by rw [hp]; trivial
  match caller with
  | .loop false | .loop true | .failure [] => exact .worked _ r.model hw trivial
  | .failure (event :: rest) => exact goes_event hw _ _ fun hend => by rw [hp]; exact hend

theorem goes_handlerThrew (hp : r.point.Working) (error : String) (caller : EventCaller)
    (hcalls : ∀ rest, caller = .failure rest → r.point.CallsFlush outcome) :
    Goes h id r outcome h (some (r.handlerThrew h id now error caller)) := by
  cases caller with
  | loop last => exact goes_loopThrew hp error
  | failure rest => exact .flushes _ hp (hcalls rest rfl)

theorem goes_executeTurn {invocation : Invocation} (hp : r.point = .creating invocation)
    (model : LoopModel) (message : AgentMessage) :
    Goes h id r outcome ({ r with model }.executeTurn h message).1
      (some ({ r with model }.executeTurn h message).2) := by
  unfold executeTurn
  split
  · exact .skipped invocation model message hp
  · rename_i queued hq
    exact .took invocation model message hp

theorem goes_drain (hp : r.point = .running) {queue : Nat} (mode : QueueMode)
    (hq : queue = h.steerQueue ∨ queue = h.followUpQueue) :
    Goes h id r outcome (r.drainQueuedMessages h queue mode).1
      (some (r.drainQueuedMessages h queue mode).2) := by
  have hw : r.point.Working := by rw [hp]; trivial
  unfold drainQueuedMessages
  split
  · exact .worked r.point r.model hw (by rw [hp]; trivial)
  · rename_i messages rest hne heq
    have hdrained : Goes h id r outcome _ _ := .drained queue mode hp hq
    rwa [heq] at hdrained

theorem goes_flushed {caller : FlushCaller} (hp : r.point = .flushed caller) :
    Goes h id r .ok (r.flushed h id now caller).1 (some (r.flushed h id now caller).2) := by
  match caller with
  | .turnEnd eventCaller (some error) =>
    refine goes_handlerThrew (by rw [hp]; exact ⟨nofun, nofun⟩) error eventCaller ?_
    rintro rest rfl
    rw [hp]
    trivial
  | .turnEnd eventCaller none =>
    exact .worked _ r.model (by rw [hp]; exact ⟨nofun, nofun⟩) trivial
  | .agentEnd eventCaller => exact .released eventCaller hp
  | .prepareNextTurn => exact .worked _ r.model (by rw [hp]; exact ⟨nofun, nofun⟩) trivial
  | .cleanup threw => exact .cleaned threw hp

theorem goes_flushThrew {write : PendingSessionWrite} {caller : FlushCaller} {error : String}
    (hp : r.point = .appending write caller) :
    Goes h id r (.failed error) (r.flushThrew h id now error caller).1
      (some (r.flushThrew h id now error caller).2) := by
  match caller with
  | .turnEnd eventCaller _ | .agentEnd eventCaller =>
    refine goes_handlerThrew (by rw [hp]; exact nofun) error eventCaller ?_
    rintro rest rfl
    rw [hp]
    trivial
  | .prepareNextTurn => exact goes_loopThrew (by rw [hp]; exact nofun) error
  | .cleanup threw => exact .cleanupThrew write threw error hp rfl

theorem goes_of_resume {next : Option Run} (hr : r.resume h id now outcome = some (h', next)) :
    Goes h id r outcome h' next := by
  unfold resume at hr
  split at hr
  all_goals rename_i hp
  case h_1 => cases hr; exact .refused _ hp (by rw [hp]; trivial)
  case h_2 =>
      split at hr
      · rename_i htext
        cases hr
        exact .refused _ hp (by rw [hp]; exact congrArg Except.toOption htext)
      · cases hr; exact goes_executeTurn hp _ _
  case h_3 => cases hr; exact .notified _ _ hp
  case h_4 => cases hr; exact .putBack _ _ _ hp rfl
  case h_5 => cases hr; exact .hookThrew _ _ _ hp rfl
  case h_6 => cases hr; exact .began _ _ _ hp
  case h_7 => cases hr; exact goes_event (by rw [hp]; trivial) _ _ fun hend => by rw [hp]; exact hend
  case h_8 => cases hr; exact goes_drain hp _ (.inl rfl)
  case h_9 => cases hr; exact goes_drain hp _ (.inr rfl)
  case h_10 => cases hr; exact .flushes _ (by rw [hp]; trivial) (by rw [hp]; trivial)
  case h_11 => cases hr; exact goes_loopThrew (by rw [hp]; trivial) _
  case h_12 => cases hr; exact .handedOn _ _ hp
  case h_13 => cases hr; exact .drainThrew _ _ _ _ hp rfl trivial
  case h_14 => cases hr; exact .saved _ _ hp
  case h_15 =>
      cases hr
      exact goes_handlerThrew (by rw [hp]; trivial) _ _ fun rest hc => by rw [hp, hc]; trivial
  case h_16 => cases hr; exact goes_handled hp
  case h_17 =>
      cases hr
      refine goes_handlerThrew (by rw [hp]; trivial) _ _ fun rest hc => ?_
      rw [hp, hc]
      cases rest <;> trivial
  case h_18 | h_19 => cases hr; exact .flushes _ (by rw [hp]; trivial) (by rw [hp]; trivial)
  case h_20 => cases hr; exact .worked _ r.model (by rw [hp]; trivial) trivial
  case h_21 =>
      cases hr
      exact goes_handlerThrew (by rw [hp]; trivial) _ _ fun rest hc => by rw [hp, hc]; trivial
  case h_22 => cases hr; exact .wrote _ _ hp rfl
  case h_23 => cases hr; exact goes_flushThrew hp
  case h_24 => cases hr; exact .shifted _ _ hp
  case h_25 => cases hr; exact goes_flushed hp
  case h_26 => cases hr; exact .worked _ h.config.model (by rw [hp]; trivial) trivial
  case h_27 => cases hr; exact goes_loopThrew (by rw [hp]; trivial) _
  case h_28 => cases hr; exact .flushes _ (by rw [hp]; trivial) (by rw [hp]; trivial)
  case h_29 => cases hr; exact .threw hp
  case h_30 => cases hr; exact .ended hp
  case h_31 => cases hr

end Run

/-- The step ends a `compact` or `navigateTree`, with a result or an error. -/
def EditPoint.Ends (point : EditPoint) (outcome : Awaited) : Prop :=
  match point, outcome with
  | .preparing, .entries [] | .preparing, .failed _ | .saving _ _, .failed _
  | .announcing, .ok | .announcing, .failed _ => True
  | _, _ => False

/-- A step of a `compact` or `navigateTree`. -/
inductive EditPoint.Goes (h : AgentHarness) (point : EditPoint) (outcome : Awaited) :
    AgentHarness → Option EditPoint → Prop
  | worked (next : EditPoint) : Goes h point outcome h (some next)
  | saved (entry : TreeEntryBody) (next : EditPoint) :
      Goes h point outcome { h with session := h.session ++ [.own entry] } (some next)
  | ended (hout : point.Ends outcome) : Goes h point outcome { h with phase := .idle } none

theorem EditPoint.goes_of_resume {h h' : AgentHarness} {point : EditPoint} {outcome : Awaited}
    {next : Option EditPoint} (hr : point.resume h outcome = some (h', next)) :
    point.Goes h outcome h' next := by
  unfold EditPoint.resume at hr
  split at hr
  all_goals cases hr
  all_goals first | exact .worked _ | exact .saved _ _ | exact .ended trivial

/-- A step of a structural operation. -/
inductive Operation.Goes (h : AgentHarness) (op : Operation) (outcome : Awaited) :
    AgentHarness → Option Operation → Prop
  | run (r : Run) (hs : op.state = .run r) (h' : AgentHarness) (next : Option Run)
      (hg : r.Goes h op.id outcome h' next) :
      Goes h op outcome h' (next.map fun r => ⟨op.id, .run r⟩)
  | edit (point : EditPoint) (hs : op.state = .edit point) (h' : AgentHarness)
      (next : Option EditPoint) (hg : point.Goes h outcome h' next) :
      Goes h op outcome h' (next.map fun point => ⟨op.id, .edit point⟩)

theorem Operation.goes_of_resume {h h' : AgentHarness} {op : Operation} {now : Nat}
    {outcome : Awaited} {next : Option Operation}
    (hr : op.resume h now outcome = some (h', next)) : op.Goes h outcome h' next := by
  unfold Operation.resume at hr
  split at hr
  · rename_i r hs
    obtain ⟨⟨h₁, next₁⟩, hrun, heq⟩ := Option.map_eq_some_iff.mp hr
    cases heq
    exact .run r hs _ _ (Run.goes_of_resume hrun)
  · rename_i point hs
    obtain ⟨⟨h₁, next₁⟩, hedit, heq⟩ := Option.map_eq_some_iff.mp hr
    cases heq
    exact .edit point hs _ _ (EditPoint.goes_of_resume hedit)

/-! ## The kinds of calls -/

/-- A call of the harness that is not refused, up to its first `await`. -/
inductive HarnessState.Calls (s : HarnessState) : HarnessCall → HarnessState → Prop
  | run (invocation : Invocation) (hidle : s.harness.phase = .idle) :
      Calls s (.invoke invocation) { s with
        harness := { s.harness with phase := .turn, runPromise := some s.nextId }
        operations := s.operations ++
          [⟨s.nextId, .run { point := .creating invocation, model := s.harness.config.model }⟩]
        nextId := s.nextId + 1 }
  | edit (c : HarnessCall) (phase : AgentHarnessPhase) (hc : c = .compact ∨ c = .navigateTree)
      (hidle : s.harness.phase = .idle) (hphase : phase = .compaction ∨ phase = .branchSummary) :
      Calls s c { s with
        harness := { s.harness with phase }
        operations := s.operations ++ [⟨s.nextId, .edit .preparing⟩]
        nextId := s.nextId + 1 }
  | push (c : HarnessCall) (queue : Nat) (message : AgentMessage)
      (hq : queue = s.harness.steerQueue ∨ queue = s.harness.followUpQueue) :
      Calls s c (s.push queue message)
  | nextTurn (c : HarnessCall) (message : AgentMessage) :
      Calls s c { s with
        harness := { s.harness with nextTurnQueue := s.harness.nextTurnQueue ++ [message] }
        queued := s.queued ++ [message] }
  | write (request : WriteRequest) (w : PendingSessionWrite) (update : ConfigUpdate)
      (hidle : s.harness.phase = .idle) :
      Calls s (.request request) { s with
        requested := s.requested ++ [w], writes := s.writes ++ [⟨w, update⟩] }
  | pend (request : WriteRequest) (w : PendingSessionWrite) (update : ConfigUpdate)
      (hbusy : s.harness.phase ≠ .idle) :
      Calls s (.request request) { s with
        requested := s.requested ++ [w]
        harness := { s.harness with
          pendingSessionWrites := s.harness.pendingSessionWrites ++ [w]
          config := s.harness.config.update update } }
  | modes (c : HarnessCall) (steering followUp : QueueMode) :
      Calls s c { s with
        harness := { s.harness with
          steeringQueueMode := steering
          followUpQueueMode := followUp } }
  | abort : Calls s .abort s.startAbort
  | wait : Calls s .waitForIdle { s with waiters := s.waiters ++ [s.harness.runPromise] }

namespace HarnessState

variable {s s' : HarnessState}

theorem calls_request {request : WriteRequest} (h : s.request request = .ok s') :
    s.Calls (.request request) s' := by
  unfold HarnessState.request at h
  cases hw : request.write s.harness.config with
  | error e => rw [hw] at h; cases h
  | ok p =>
    obtain ⟨w, update⟩ := p
    rw [hw] at h
    by_cases hidle : s.harness.phase = .idle
    · simp only [bind, Except.bind, hidle, if_true, pure, Except.pure] at h
      cases h
      exact .write request w update hidle
    · simp only [bind, Except.bind, hidle, if_false, pure, Except.pure] at h
      cases h
      exact .pend request w update hidle

theorem calls_of_call {c : HarnessCall} (h : s.call c = .ok s') : s.Calls c s' := by
  cases c with
  | invoke invocation =>
    by_cases hidle : s.harness.phase = .idle
    · simp only [call, startRun, hidle, ne_eq, not_true_eq_false, if_false] at h
      cases h
      exact .run invocation hidle
    · simp [call, startRun, hidle] at h
  | compact =>
    by_cases hidle : s.harness.phase = .idle
    · simp only [call, startEdit, hidle, ne_eq, not_true_eq_false, if_false] at h
      cases h
      exact .edit _ _ (.inl rfl) hidle (.inl rfl)
    · simp [call, startEdit, hidle] at h
  | navigateTree =>
    by_cases hidle : s.harness.phase = .idle
    · simp only [call, startEdit, hidle, ne_eq, not_true_eq_false, if_false] at h
      cases h
      exact .edit _ _ (.inr rfl) hidle (.inr rfl)
    · simp [call, startEdit, hidle] at h
  | steer text images now =>
    by_cases hidle : s.harness.phase = .idle
    · simp [call, hidle] at h
    · simp only [call, hidle, if_false] at h
      cases h
      exact .push _ _ _ (.inl rfl)
  | followUp text images now =>
    by_cases hidle : s.harness.phase = .idle
    · simp [call, hidle] at h
    · simp only [call, hidle, if_false] at h
      cases h
      exact .push _ _ _ (.inr rfl)
  | nextTurn text images now => cases h; exact .nextTurn _ _
  | request request => exact calls_request h
  | setSteeringMode mode | setFollowUpMode mode => cases h; exact .modes _ _ _
  | abort => cases h; exact .abort
  | waitForIdle => cases h; exact .wait

/-- A step of the harness, by its kind. -/
inductive Steps (s : HarnessState) : HarnessAction → HarnessState → Prop
  | refused (c : HarnessCall) : Steps s (.call c) s
  | called (c : HarnessCall) (s' : HarnessState) (hc : s.Calls c s') : Steps s (.call c) s'
  | resumed (index now : Nat) (outcome : Awaited) (op : Operation) (h' : AgentHarness)
      (next : Option Operation) (hop : s.operations[index]? = some op)
      (hr : op.resume s.harness now outcome = some (h', next)) :
      Steps s (.resume index now outcome)
        { s with harness := h', operations := replaceAt s.operations index next }
  | wrote (index : Nat) (w : DirectWrite) (done : Bool) (hw : s.writes[index]? = some w) :
      Steps s (.resumeWrite index done) (s.resumeWrite index w done)
  | aborting (index : Nat) (a : Abort) (done : Bool) (ha : s.aborts[index]? = some a)
      (point : AbortPoint) (threw : Bool) (hne : a.point ≠ .emitting) :
      Steps s (.resumeAbort index done)
        { s with aborts := replaceAt s.aborts index (some { a with point, threw }) }
  | aborted (index : Nat) (a : Abort) (done : Bool) (ha : s.aborts[index]? = some a)
      (hp : a.point = .emitting) :
      Steps s (.resumeAbort index done) { s with
        aborts := replaceAt s.aborts index none
        returned := if done && !a.threw then s.returned ++ a.clearedSteer ++ a.clearedFollowUp
          else s.returned }
  | waited (index : Nat) :
      Steps s (.resumeWaiter index) { s with waiters := replaceAt s.waiters index none }

theorem steps_of_step {a : HarnessAction} (h : s.step a = some s') : s.Steps a s' := by
  cases a with
  | call c =>
    unfold step at h
    cases hc : s.call c with
    | error e => simp only [hc] at h; cases h; exact .refused c
    | ok s₁ => simp only [hc] at h; cases h; exact .called c _ (calls_of_call hc)
  | resume index now outcome =>
    obtain ⟨op, hop, h⟩ := Option.bind_eq_some_iff.mp h
    obtain ⟨⟨h', next⟩, hr, h⟩ := Option.bind_eq_some_iff.mp h
    cases h
    exact .resumed index now outcome op h' next hop hr
  | resumeWrite index done =>
    obtain ⟨w, hw, h⟩ := Option.bind_eq_some_iff.mp h
    cases h
    exact .wrote index w done hw
  | resumeAbort index done =>
    obtain ⟨a, ha, h⟩ := Option.bind_eq_some_iff.mp h
    unfold HarnessState.resumeAbort at h
    split at h
    · rename_i hp
      cases h
      exact .aborting index a done ha _ _ (by rw [hp]; nofun)
    · rename_i promise hp
      split at h
      · cases h
        exact .aborting index a done ha _ a.threw (by rw [hp]; nofun)
      · cases h
    · rename_i hp
      cases h
      exact .aborted index a done ha hp
  | resumeWaiter index =>
    obtain ⟨promise, hp, h⟩ := Option.bind_eq_some_iff.mp h
    split at h
    · cases h; exact .waited index
    · cases h

end HarnessState

end Eagent
