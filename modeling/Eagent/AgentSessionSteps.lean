import Eagent.AgentSession

/-!
# What one step of a session does

`SessionGoes` sorts the steps by what they do to the session, one
constructor each; a step that builds the messages of a prompt does so after
something else. `Stepped` is a step of the session together with the list of
calls: one call goes on, begins or ends, and the others stay as they are.
-/

namespace Eagent

/-! ## Points -/

/-- Where a step begins: a call is made, or goes on. -/
inductive SessionOrigin where
  | command (command : SessionCommand)
  | point (point : SessionPoint)

def SessionOrigin.point? : SessionOrigin → Option SessionPoint
  | .command _ => none
  | .point p => some p

/-- The points of `_runAgentPrompt` before it settles, and whether its agent
run is active there. -/
def SessionPoint.runs : SessionPoint → Option Bool
  | .running _ | .handling .. => some true
  | .returned | .rejected | .retrying | .compacting _ | .checked | .decided _ => some false
  | _ => none

def SessionPoint.held : SessionPoint → List AgentMessage
  | .startingHook _ queued => queued
  | .running pending => pending
  | .handling _ pending => pending
  | _ => []

def SessionPoint.handled : SessionPoint → List AgentMessage
  | .handling message _ => [message]
  | _ => []

def SessionPoint.isSettling : SessionPoint → Bool
  | .settling => true
  | _ => false

/-- Outside `_runAgentPrompt`, with no message in hand. -/
def SessionPoint.Outside : SessionPoint → Prop
  | .intercepting _ | .checkingAuth _ | .checking .. | .aborting _ | .summarizing | .announcing
  | .executing | .waiting _ => True
  | _ => False

def SessionOrigin.Outside : SessionOrigin → Prop
  | .command _ => True
  | .point p => p.Outside

/-- In `_runAgentPrompt`, between two runs or after the last. -/
def SessionPoint.AfterRun (p : SessionPoint) : Prop := p.runs = some false

def SessionOrigin.AfterRun : SessionOrigin → Prop
  | .command _ => False
  | .point p => p.AfterRun

/-- A compaction, manual or before a prompt, drops or replaces messages of
the transcript. -/
def SessionPoint.EditsTranscript (p : SessionPoint) (outcome : SessionAwaited) : Prop :=
  match p, outcome with
  | .checking _ .deciding, .checks (.overflow true) | .checking _ (.summarizing _), .compacted _
  | .checking _ (.announcing true), .ok | .summarizing, .compacted _ => True
  | _, _ => False

def SessionOrigin.EditsTranscript (o : SessionOrigin) (outcome : SessionAwaited) : Prop :=
  match o with
  | .command _ => False
  | .point p => p.EditsTranscript outcome

/-- `_runAgentPrompt` is left. -/
def SessionPoint.leavesRun : SessionPoint → SessionAwaited → Bool
  | .decided false, .ok | .rejected, .ok => true
  | _, _ => false

def SessionOrigin.leavesRun (o : SessionOrigin) (outcome : SessionAwaited) : Bool :=
  match o with
  | .command _ => false
  | .point p => p.leavesRun outcome

/-- What is handed to the session for the agent. -/
def AgentMessage.isInput : AgentMessage → Bool
  | .user _ | .custom _ => true
  | _ => false

/-- A step from a point outside to another one or to the end, or from one
point after a run to another one. -/
inductive Beside : SessionOrigin → Option SessionPoint → Prop
  | ended {o : SessionOrigin} (ho : o.Outside) : Beside o none
  | outside {o : SessionOrigin} {p : SessionPoint} (ho : o.Outside) (hp : p.Outside) :
      Beside o (some p)
  | afterRun {o : SessionOrigin} {p : SessionPoint} (ho : o.AfterRun) (hp : p.AfterRun) :
      Beside o (some p)

/-! ## What the functions leave alone -/

namespace AgentSession

variable (s : AgentSession) (env : Env)

theorem foldl_appendDirectly_eq (ms : List BashExecutionMessage) :
    ∃ messages sessionManager,
      ms.foldl (fun s m => s.appendDirectly env (.bashExecution m)) s =
        { s with messages, sessionManager } := by
  induction ms generalizing s with
  | nil => exact ⟨s.messages, s.sessionManager, rfl⟩
  | cons m ms ih =>
    obtain ⟨messages, sessionManager, h⟩ := ih (s.appendDirectly env (.bashExecution m))
    exact ⟨messages, sessionManager, h⟩

theorem flushPendingBashMessages_eq :
    ∃ messages sessionManager, s.flushPendingBashMessages env =
      { s with messages, sessionManager, pendingBashMessages := [] } := by
  obtain ⟨messages, sessionManager, h⟩ := foldl_appendDirectly_eq s env s.pendingBashMessages
  refine ⟨messages, sessionManager, ?_⟩
  rw [flushPendingBashMessages, h]

theorem recordBashResult_eq (result : BashExecutionMessage) :
    ∃ messages sessionManager pendingBashMessages, s.recordBashResult env result =
      { s with messages, sessionManager, pendingBashMessages } := by
  unfold recordBashResult
  split
  · exact ⟨s.messages, s.sessionManager, _, rfl⟩
  · exact ⟨_, _, s.pendingBashMessages, rfl⟩

theorem removeLastAssistant_eq :
    ∃ messages removed, s.removeLastAssistant =
      { s with messages, history := { s.history with removed } } := by
  unfold removeLastAssistant
  split
  · exact ⟨_, _, rfl⟩
  · exact ⟨s.messages, s.history.removed, rfl⟩

theorem removeLastError_eq :
    s.removeLastError = s ∨ s.removeLastError = s.removeLastAssistant := by
  unfold removeLastError
  split
  · split
    · exact .inr rfl
    · exact .inl rfl
  · exact .inl rfl

variable {s env} in
theorem installCompaction_eq {c : CompactionData} {s' : AgentSession}
    (h : s.installCompaction env c = some s') :
    ∃ messages sessionManager, s' = { s with messages, sessionManager } := by
  obtain ⟨context, -, rfl⟩ := Option.map_eq_some_iff.mp h
  exact ⟨_, _, rfl⟩

theorem persist_eq (m : AgentMessage) :
    ∃ lastAssistantMessage sessionManager saves, s.persist env m =
      { s with lastAssistantMessage, sessionManager, history := { s.history with saves } } := by
  unfold persist
  cases m with
  | assistant m =>
    dsimp only
    split
    · exact ⟨some m, s.sessionManager, s.history.saves, rfl⟩
    · exact ⟨some m, _, _, rfl⟩
  | _ =>
    dsimp only
    split
    · exact ⟨s.lastAssistantMessage, s.sessionManager, s.history.saves, rfl⟩
    · exact ⟨s.lastAssistantMessage, _, _, rfl⟩

theorem waitForIdle_eq :
    (s.isAgentRunActive = false ∧ s.waitForIdle.1 = s.notice .idle) ∨
      ∃ idleWaitPromise nextPromise,
        s.waitForIdle.1 = { s with idleWaitPromise, nextPromise } := by
  unfold waitForIdle
  split
  · rename_i hactive
    exact .inl ⟨by simpa using hactive, rfl⟩
  · split
    · exact .inr ⟨s.idleWaitPromise, s.nextPromise, rfl⟩
    · exact .inr ⟨_, _, rfl⟩

theorem resolveIdleWaitIfIdle_eq :
    s.resolveIdleWaitIfIdle = s ∨
      s.isAgentRunActive = false ∧
        s.resolveIdleWaitIfIdle = { s.notice .idle with idleWaitPromise := none } := by
  unfold resolveIdleWaitIfIdle
  split
  · exact .inl rfl
  · rename_i hactive
    split
    · exact .inl rfl
    · exact .inr ⟨by simpa using hactive, rfl⟩

end AgentSession

/-! ## The kinds of steps -/

/-- A step of the call `id`, by what it does to the session. -/
inductive SessionGoes (s : AgentSession) (id : Nat) (origin : SessionOrigin)
    (outcome : SessionAwaited) : AgentSession → Option SessionPoint → Prop
  | waits (next : Option SessionPoint) (hb : Beside origin next) :
      SessionGoes s id origin outcome s next
  | queued (behavior : StreamingBehavior) (m : AgentMessage) (ho : origin.Outside)
      (hm : m.isInput = true) :
      SessionGoes s id origin outcome (s.enqueue behavior m) none
  | accepted (behavior : StreamingBehavior) (m : AgentMessage) (ho : origin.Outside)
      (hm : m.isInput = true) :
      SessionGoes s id origin outcome ((s.enqueue behavior m).accept m) none
  | nextTurn (m : AgentMessage) (ho : origin.Outside) (hm : m.isInput = true) :
      SessionGoes s id origin outcome
        { s.give [m] with pendingNextTurnMessages := s.pendingNextTurnMessages ++ [m] } none
  | flushed (env : FreshEnv) (next : Option SessionPoint) (hidle : s.isAgentRunActive = false)
      (ho : origin.Outside) (hb : Beside origin next) :
      SessionGoes s id origin outcome (s.flushPendingBashMessages env.env) next
  | built (s₀ : AgentSession) (p : SessionPoint) (m : AgentMessage) (hp : p.Outside)
      (hm : m.isInput = true)
      (h : SessionGoes s id origin outcome s₀ (some p)) :
      SessionGoes s id origin outcome { s₀ with pendingNextTurnMessages := [] }
        (some (.startingHook m s₀.pendingNextTurnMessages))
  | started (m : AgentMessage) (queued messages : List AgentMessage)
      (ho : origin = .point (.startingHook m queued))
      (hms : ∀ x ∈ messages, x.isInput = true) :
      SessionGoes s id origin outcome
        ((((s.accept m).give (m :: messages)).runAgentPrompt id (m :: queued ++ messages)).1)
        (some (((s.accept m).give (m :: messages)).runAgentPrompt id (m :: queued ++ messages)).2)
  | triggered (m : CustomMessage) (deliverAs : Option DeliverAs)
      (ho : origin = .command (.sendCustomMessage m deliverAs true))
      (hidle : s.isAgentRunActive = false) :
      SessionGoes s id origin outcome ((s.give [.custom m]).runAgentPrompt id [.custom m]).1
        (some ((s.give [.custom m]).runAgentPrompt id [.custom m]).2)
  | reported (m : AgentMessage) (pending : List AgentMessage)
      (ho : origin = .point (.running (m :: pending))) (hout : outcome = .reports) :
      SessionGoes s id origin outcome
        ({ s with history := { s.history with
          entered := s.history.entered ++ [m] } }.messageEnd m pending).1
        (some (s.messageEnd m pending).2)
  | emitted (m : AgentMessage) (hm : m.isResponse = true) (ho : origin = .point (.running []))
      (hout : outcome = .emits m) :
      SessionGoes s id origin outcome (s.messageEnd m []).1 (some (s.messageEnd m []).2)
  | polled (queue : QueueKind) (ho : origin = .point (.running [])) :
      SessionGoes s id origin outcome (s.pollQueue queue).1
        (some (.running (s.pollQueue queue).2))
  | ended (ho : origin = .point (.running [])) :
      SessionGoes s id origin outcome { s with activeRun := none } (some .returned)
  | persisted (env : FreshEnv) (m : AgentMessage) (pending : List AgentMessage)
      (ho : origin = .point (.handling m pending)) :
      SessionGoes s id origin outcome (s.persist env.env m) (some (.running pending))
  | retried (ho : origin = .point .returned) :
      SessionGoes s id origin outcome { s.removeLastAssistant with lastAssistantMessage := none }
        (some .retrying)
  | forgot (next : Option SessionPoint) (hb : Beside origin next) :
      SessionGoes s id origin outcome { s with lastAssistantMessage := none } next
  | resumed (ho : origin.AfterRun) (hrun : s.activeRun = none) :
      SessionGoes s id origin outcome { s with activeRun := some id } (some (.running []))
  | resumedQueued (queue : QueueKind) (ho : origin.AfterRun) (hrun : s.activeRun = none) :
      SessionGoes s id origin outcome { (s.pollQueue queue).1 with activeRun := some id }
        (some (.running (s.pollQueue queue).2))
  | settles (env : FreshEnv) (ho : origin.AfterRun) (hl : origin.leavesRun outcome = true) :
      SessionGoes s id origin outcome (s.settle env.env) (some .settling)
  | settled (ho : origin = .point .settling) : SessionGoes s id origin outcome s.settled none
  | removed (next : Option SessionPoint) (hb : Beside origin next)
      (he : origin.AfterRun ∨ origin.EditsTranscript outcome) :
      SessionGoes s id origin outcome s.removeLastAssistant next
  | removedError (next : Option SessionPoint) (hb : Beside origin next)
      (he : origin.AfterRun ∨ origin.EditsTranscript outcome) :
      SessionGoes s id origin outcome s.removeLastError next
  | installed (env : FreshEnv) (c : CompactionData) (s' : AgentSession)
      (next : Option SessionPoint) (hb : Beside origin next)
      (he : origin.AfterRun ∨ origin.EditsTranscript outcome)
      (hi : s.installCompaction env.env c = some s') (hc : outcome = .compacted c) :
      SessionGoes s id origin outcome s' next
  | reconnected (ho : origin.Outside) :
      SessionGoes s id origin outcome { s with connected := true } none
  | waitsIdle (connected : Bool) (next : Option SessionPoint) (hb : Beside origin next) :
      SessionGoes s id origin outcome { s with connected }.waitForIdle.1 next
  | bash (env : FreshEnv) (result : BashExecutionMessage) (ho : origin.Outside) :
      SessionGoes s id origin outcome (s.recordBashResult env.env result) none
  | custom (env : FreshEnv) (m : CustomMessage) (ho : origin.Outside)
      (hidle : s.isAgentRunActive = false) :
      SessionGoes s id origin outcome (s.appendCustom env.env m) none

/-! ## Every step is of one of the kinds -/

section Goes

variable {s s' : AgentSession} {env : FreshEnv} {now id : Nat} {origin : SessionOrigin}
  {outcome : SessionAwaited} {next : Option SessionPoint}

/-- A prompt past its authorization, after `h` has led to `s₀`. -/
theorem goes_promptAuthorized {s₀ : AgentSession} {r : PromptRequest}
    (h : ∀ p : SessionPoint, p.Outside → SessionGoes s id origin outcome s₀ (some p)) :
    SessionGoes s id origin outcome (s₀.promptAuthorized r now).1
      (some (s₀.promptAuthorized r now).2) := by
  unfold AgentSession.promptAuthorized
  split
  · exact h _ trivial
  · exact .built s₀ .executing (r.message now) trivial rfl (h _ trivial)

theorem goes_promptExpanded {r : PromptRequest} (ho : origin.Outside) :
    SessionGoes s id origin outcome (s.promptExpanded env.env r now).1
      (s.promptExpanded env.env r now).2 := by
  unfold AgentSession.promptExpanded
  split
  · split
    · exact .waits none (.ended ho)
    · exact .accepted _ _ ho rfl
  · rename_i hactive
    have hidle : s.isAgentRunActive = false := by simpa using hactive
    dsimp only
    split
    · exact .flushed env none hidle ho (.ended ho)
    · split
      · exact goes_promptAuthorized fun p hp => .flushed env (some p) hidle ho (.outside ho hp)
      · exact .flushed env _ hidle ho (.outside ho trivial)

/-- `_checkCompaction` before a prompt, after a run. -/
theorem goes_resumeCompaction {point : CompactionPoint} {result : CompactionPoint ⊕ Bool}
    (h : s.resumeCompaction env.env point outcome = some (s', result))
    (hb : Beside origin next)
    (he : origin.AfterRun ∨ ∃ r, origin = .point (.checking r point)) :
    SessionGoes s id origin outcome s' next := by
  unfold AgentSession.resumeCompaction at h
  split at h
  · cases h; exact .waits next hb
  · cases h; exact .waits next hb
  · cases h; exact .waits next hb
  · cases h
    refine .removed next hb (he.imp_right ?_)
    rintro ⟨r, rfl⟩
    trivial
  · cases h; exact .waits next hb
  · obtain ⟨s₁, hi, heq⟩ := Option.map_eq_some_iff.mp h
    cases heq
    refine .installed env _ _ next hb (he.imp_right ?_) hi rfl
    rintro ⟨r, rfl⟩
    trivial
  · cases h
    refine .removedError next hb (he.imp_right ?_)
    rintro ⟨r, rfl⟩
    trivial
  · cases h; exact .waits next hb
  · cases h

theorem goes_continueRun (ho : origin.AfterRun) :
    SessionGoes s id origin outcome (s.continueRun id).1 (some (s.continueRun id).2) := by
  have hrejected : SessionGoes s id origin outcome s (some .rejected) :=
    .waits _ (.afterRun ho rfl)
  unfold AgentSession.continueRun
  split
  · exact hrejected
  · rename_i hrun
    have hnone : s.activeRun = none := by simpa using hrun
    split
    · exact hrejected
    · split
      · exact .resumed ho hnone
      · split
        · rename_i m ms queue hdrain
          have h : SessionGoes s id origin outcome _ _ := .resumedQueued .steering ho hnone
          simp only [AgentSession.pollQueue, hdrain] at h
          exact h
        · split
          · rename_i m ms queue hdrain
            have h : SessionGoes s id origin outcome _ _ := .resumedQueued .followUp ho hnone
            simp only [AgentSession.pollQueue, hdrain] at h
            exact h
          · exact hrejected

theorem goes_of_resume {point : SessionPoint}
    (h : point.resume s env.env now id outcome = some (s', next)) :
    SessionGoes s id (.point point) outcome s' next := by
  unfold SessionPoint.resume at h
  split at h
  · cases h; exact .waits none (.ended trivial)
  · obtain rfl : _ = s' := congrArg Prod.fst (Option.some.inj h)
    obtain rfl : _ = next := congrArg Prod.snd (Option.some.inj h)
    exact goes_promptExpanded trivial
  · cases h; exact .waits none (.ended trivial)
  · cases h; exact goes_promptAuthorized fun p hp => .waits _ (.outside trivial hp)
  · rename_i r point
    obtain ⟨⟨s₁, result⟩, hc, heq⟩ := Option.map_eq_some_iff.mp h
    cases result with
    | inl point' =>
      cases heq
      exact goes_resumeCompaction hc (.outside trivial trivial) (.inr ⟨r, rfl⟩)
    | inr continues =>
      cases heq
      exact .built s₁ .executing (r.message now) trivial rfl
        (goes_resumeCompaction hc (.outside trivial trivial) (.inr ⟨r, rfl⟩))
  · cases h
    refine .started _ _ _ rfl fun x hx => ?_
    obtain ⟨m, -, rfl⟩ := List.mem_map.mp hx
    rfl
  · cases h; exact .reported _ _ rfl rfl
  · split at h
    · rename_i hm
      cases h
      exact .emitted _ hm rfl rfl
    · cases h
  · cases h; exact .polled _ rfl
  · cases h; exact .ended rfl
  · cases h; exact .persisted env _ _ rfl
  · split at h
    · cases h
    · split at h
      · cases h; exact .retried rfl
      · cases h
  · split at h
    · cases h; exact .waits _ (.afterRun rfl rfl)
    · cases h; exact .forgot _ (.afterRun rfl rfl)
  · cases h; exact .waits _ (.afterRun rfl rfl)
  · cases h; exact .waits _ (.afterRun rfl rfl)
  · obtain ⟨⟨s₁, result⟩, hc, heq⟩ := Option.map_eq_some_iff.mp h
    match result with
    | .inl point' => cases heq; exact goes_resumeCompaction hc (.afterRun rfl rfl) (.inl rfl)
    | .inr true => cases heq; exact goes_resumeCompaction hc (.afterRun rfl rfl) (.inl rfl)
    | .inr false => cases heq; exact goes_resumeCompaction hc (.afterRun rfl rfl) (.inl rfl)
  · cases h; exact .waits _ (.afterRun rfl rfl)
  · cases h; exact goes_continueRun rfl
  · cases h; exact .settles env rfl rfl
  · cases h; exact .settles env rfl rfl
  · cases h; exact .settled rfl
  · split at h
    · cases h
    · cases h; exact .waits _ (.outside trivial trivial)
  · cases h; exact .reconnected trivial
  · obtain ⟨s₁, hi, heq⟩ := Option.map_eq_some_iff.mp h
    cases heq
    exact .installed env _ _ _ (.outside trivial trivial) (.inr trivial) hi rfl
  · cases h; exact .reconnected trivial
  · cases h; exact .bash env _ trivial
  · cases h; exact .waits none (.ended trivial)
  · split at h
    · cases h
    · cases h; exact .waits none (.ended trivial)
  · cases h

theorem goes_sendCustomMessage {m : CustomMessage} {deliverAs : Option DeliverAs}
    {triggerTurn : Bool} :
    SessionGoes s id (.command (.sendCustomMessage m deliverAs triggerTurn)) outcome
      (s.sendCustomMessage env.env id m deliverAs triggerTurn).1
      (s.sendCustomMessage env.env id m deliverAs triggerTurn).2 := by
  have ho : (SessionOrigin.command (.sendCustomMessage m deliverAs triggerTurn)).Outside := trivial
  unfold AgentSession.sendCustomMessage
  split
  · exact .nextTurn _ ho rfl
  · split
    · split
      · exact .queued .followUp (.custom m) ho rfl
      · exact .queued .steer (.custom m) ho rfl
    · rename_i hactive
      have hidle : s.isAgentRunActive = false := by simpa using hactive
      split
      · rename_i htrigger
        subst htrigger
        exact .triggered m _ rfl hidle
      · exact .custom env m ho hidle

theorem beside_waiting (ho : origin.Outside) {promise : Option Nat} :
    Beside origin (promise.map .waiting) := by
  cases promise with
  | none => exact .ended ho
  | some promise => exact .outside ho trivial

/-- What a call does first. -/
theorem goes_of_begin (command : SessionCommand) :
    SessionGoes s id (.command command) outcome (s.begin env.env now id command).1
      (s.begin env.env now id command).2 := by
  cases command with
  | prompt r =>
    unfold AgentSession.begin
    dsimp only
    split
    · exact .waits _ (.outside trivial trivial)
    · exact goes_promptExpanded trivial
  | queue behavior text images => exact .queued behavior _ trivial rfl
  | sendCustomMessage m deliverAs triggerTurn => exact goes_sendCustomMessage
  | executeBash => exact .waits _ (.outside trivial trivial)
  | compact => exact .waitsIdle false _ (.outside trivial trivial)
  | abort | waitForIdle =>
    have ho : ∀ c, (SessionOrigin.command c).Outside := fun _ => trivial
    exact .waitsIdle s.connected _ (beside_waiting (ho _))

end Goes

/-! ## Steps with the calls -/

def AgentSessionAction.outcome : AgentSessionAction → SessionAwaited
  | .call .. => .ok
  | .resume _ _ _ outcome => outcome

def AgentSessionState.Begins (s : AgentSessionState) : AgentSessionAction → SessionOrigin → Prop
  | .call _ _ command, origin => origin = .command command
  | .resume _ _ index _, origin => ∃ call, s.calls[index]? = some call ∧ origin = .point call.point

/-- One call begins, goes on or ends, the others stay. -/
structure Stepped (s s' : AgentSessionState) (id : Nat) (origin : SessionOrigin)
    (outcome : SessionAwaited) (next : Option SessionPoint)
    (before after : List SessionCall) : Prop where
  calls : s.calls = before ++ (origin.point?.map (SessionCall.mk id)).toList ++ after
  calls' : s'.calls = before ++ (next.map (SessionCall.mk id)).toList ++ after
  goes : SessionGoes s.session id origin outcome s'.session next

theorem stepped_of_step {s s' : AgentSessionState} {a : AgentSessionAction}
    (h : s.step a = some s') :
    ∃ id origin next before after, s.Begins a origin ∧
      Stepped s s' id origin a.outcome next before after := by
  cases a with
  | call env now command =>
    obtain rfl := Option.some.inj h
    exact ⟨s.nextId, .command command, _, s.calls, [], rfl,
      ⟨by simp [SessionOrigin.point?], by simp, goes_of_begin command⟩⟩
  | resume env now index outcome =>
    obtain ⟨call, hcall, h⟩ := Option.bind_eq_some_iff.mp h
    obtain ⟨⟨session', next⟩, hresume, h⟩ := Option.bind_eq_some_iff.mp h
    obtain rfl := Option.some.inj h
    refine ⟨call.id, .point call.point, next, s.calls.take index, s.calls.drop (index + 1),
      ⟨call, hcall, rfl⟩, ?_, rfl, goes_of_resume hresume⟩
    have hsplit := take_cons_drop hcall
    simpa [SessionOrigin.point?] using hsplit.symm

end Eagent
