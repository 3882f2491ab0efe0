import Eagent.AgentQueues
import Eagent.AgentSessionSteps
import Eagent.SessionInvariant

/-!
# A session settles

`prompt` tests for a run before it waits for the authorization, a compaction
and the `before_agent_start` handlers, and `_runAgentPrompt` sets the flag
after them without a second test; `_emitAgentSettled` clears the flag before
it waits for the extensions, and tells the listeners after that. As long as
no run is active when either of them goes on, one call at a time runs the
agent, nothing is told while it does, and every message given to the session
is in one place.
-/

namespace Eagent

open Machine

/-! ## Runs and messages -/

/-- The call in `_runAgentPrompt`, and whether its agent run is active. -/
def SessionCall.runs (c : SessionCall) : List (Nat × Bool) :=
  (c.point.runs.map (c.id, ·)).toList

/-- What says who runs the agent, what was told to the outside, and where
the messages given to the session are. -/
structure SessionTraffic where
  isAgentRunActive : Bool
  activeRun : Option Nat
  steeringQueue : PendingMessageQueue
  followUpQueue : PendingMessageQueue
  pendingNextTurnMessages : List AgentMessage
  notices : List SessionNotice
  accepted : List AgentMessage
  given : List AgentMessage
  entered : List AgentMessage
  emitted : List AgentMessage

def AgentSession.traffic (s : AgentSession) : SessionTraffic where
  isAgentRunActive := s.isAgentRunActive
  activeRun := s.activeRun
  steeringQueue := s.steeringQueue
  followUpQueue := s.followUpQueue
  pendingNextTurnMessages := s.pendingNextTurnMessages
  notices := s.history.notices
  accepted := s.history.accepted
  given := s.history.given
  entered := s.history.entered
  emitted := s.history.emitted

/-- Reported by a loop, or in a queue. -/
def SessionTraffic.owned (t : SessionTraffic) : List AgentMessage :=
  t.entered ++ t.steeringQueue.messages ++ t.followUpQueue.messages ++ t.pendingNextTurnMessages

namespace AgentSessionState

def runs (s : AgentSessionState) : List (Nat × Bool) := s.calls.flatMap SessionCall.runs

/-- Messages in the hands of a call: next-turn messages a prompt has taken,
and what a loop has still to report. -/
def held (s : AgentSessionState) : List AgentMessage := s.calls.flatMap fun c => c.point.held

/-- One call at a time runs the agent, and the active run is its own; nothing
is told while it does; a message given to the session was reported once, is
in one queue once or in the hands of one call; what was accepted was given,
and what was reported went into the transcript. -/
structure Settles (s : AgentSessionState) : Prop where
  alone : s.runs.length ≤ 1
  active : ∀ id, s.session.activeRun = some id ↔ (id, true) ∈ s.runs
  streaming : s.session.isAgentRunActive = false ↔ s.runs = []
  notices : ∀ n ∈ s.session.history.notices, n.runActive = false
  given : s.session.history.given.Perm (s.session.traffic.owned ++ s.held)
  accepted : s.session.history.accepted.Subperm s.session.history.given
  entered : s.session.history.entered.Subperm s.session.history.emitted

end AgentSessionState

/-! ## The condition -/

/-- Where a call goes on without a test for a run of another call: from the
`before_agent_start` handlers to the run, and from the `agent_settled`
handlers to the listeners. -/
def SessionPoint.untested : SessionPoint → Bool
  | .startingHook .. | .settling => true
  | _ => false

def AgentSessionState.FindsIdle (s : AgentSessionState) : AgentSessionAction → Prop
  | .call .. => True
  | .resume _ _ index _ => ∀ call ∈ s.calls[index]?,
      call.point.untested = true → s.session.isAgentRunActive = false

instance (s : AgentSessionState) (a : AgentSessionAction) : Decidable (s.FindsIdle a) :=
  match a with
  | .call .. => isTrue trivial
  | .resume _ _ index _ => inferInstanceAs (Decidable (∀ call ∈ s.calls[index]?, _))

/-! ## Who runs the agent -/

/-- Nobody runs the agent, or one call does. -/
inductive RunLock (t : SessionTraffic) : List (Nat × Bool) → Prop
  | free (hflag : t.isAgentRunActive = false) (hrun : t.activeRun = none) : RunLock t []
  | held (id : Nat) (active : Bool) (hflag : t.isAgentRunActive = true)
      (hrun : t.activeRun = if active then some id else none) : RunLock t [(id, active)]

/-- What a step of the call `id` does to the lock, from whether it is in
`_runAgentPrompt` and with an active run, to whether it is after. -/
inductive RunMoves (t t' : SessionTraffic) (id : Nat) : Option Bool → Option Bool → Prop
  | keeps (r : Option Bool) (hflag : t'.isAgentRunActive = t.isAgentRunActive)
      (hrun : t'.activeRun = t.activeRun) : RunMoves t t' id r r
  | enters (hidle : t.isAgentRunActive = false) (hflag : t'.isAgentRunActive = true)
      (hrun : t'.activeRun = some id) : RunMoves t t' id none (some true)
  | switches (active active' : Bool) (hflag : t'.isAgentRunActive = t.isAgentRunActive)
      (hrun : t'.activeRun = if active' then some id else none) :
      RunMoves t t' id (some active) (some active')
  | leaves (hflag : t'.isAgentRunActive = false) (hrun : t'.activeRun = t.activeRun) :
      RunMoves t t' id (some false) none

theorem RunMoves.congr {t t' t'' : SessionTraffic} {id : Nat} {r r' : Option Bool}
    (h : RunMoves t t' id r r') (hflag : t''.isAgentRunActive = t'.isAgentRunActive)
    (hrun : t''.activeRun = t'.activeRun) : RunMoves t t'' id r r' := by
  cases h with
  | keeps _ hflag' hrun' => exact .keeps _ (hflag.trans hflag') (hrun.trans hrun')
  | enters hidle hflag' hrun' => exact .enters hidle (hflag.trans hflag') (hrun.trans hrun')
  | switches _ _ hflag' hrun' => exact .switches _ _ (hflag.trans hflag') (hrun.trans hrun')
  | leaves hflag' hrun' => exact .leaves (hflag.trans hflag') (hrun.trans hrun')

namespace RunLock

variable {t t' : SessionTraffic} {id : Nat} {l l₁ l₂ : List (Nat × Bool)} {r r' : Option Bool}
  {active : Bool}

theorem idle (h : RunLock t l) (hflag : t.isAgentRunActive = false) :
    l = [] ∧ t.activeRun = none := by
  cases h with
  | free _ hrun => exact ⟨rfl, hrun⟩
  | held id active hbusy _ =>
    rw [hflag] at hbusy
    cases hbusy

theorem length_le (h : RunLock t l) : l.length ≤ 1 := by
  cases h with
  | free => exact Nat.zero_le 1
  | held => exact Nat.le_refl 1

theorem idle_iff (h : RunLock t l) : t.isAgentRunActive = false ↔ l = [] := by
  refine ⟨fun hflag => (h.idle hflag).1, ?_⟩
  rintro rfl
  cases h with
  | free hflag _ => exact hflag

theorem active_iff (h : RunLock t l) (id : Nat) : t.activeRun = some id ↔ (id, true) ∈ l := by
  cases h with
  | free _ hrun => simp [hrun]
  | held id' active _ hrun =>
    rw [hrun]
    cases active with
    | true => simp [eq_comm]
    | false => simp

theorem single (h : RunLock t (l₁ ++ (id, active) :: l₂)) :
    l₁ = [] ∧ l₂ = [] ∧ t.isAgentRunActive = true ∧
      t.activeRun = if active then some id else none := by
  generalize hl : l₁ ++ (id, active) :: l₂ = l at h
  cases h with
  | free => simp at hl
  | held id' active' hflag hrun =>
    rcases List.append_eq_singleton_iff.mp hl with ⟨rfl, heq⟩ | ⟨-, heq⟩
    · cases heq
      exact ⟨rfl, rfl, hflag, hrun⟩
    · cases heq

theorem moves (h : RunLock t (l₁ ++ (r.map (id, ·)).toList ++ l₂)) (hm : RunMoves t t' id r r') :
    RunLock t' (l₁ ++ (r'.map (id, ·)).toList ++ l₂) := by
  cases hm with
  | keeps _ hflag hrun =>
    generalize l₁ ++ (r.map (id, ·)).toList ++ l₂ = l at h
    cases h with
    | free hfree hnone => exact .free (hflag.trans hfree) (hrun.trans hnone)
    | held id' active hbusy hactive =>
      exact .held id' active (hflag.trans hbusy) (hrun.trans hactive)
  | enters hidle hflag hrun =>
    obtain ⟨hnil, -⟩ := h.idle hidle
    obtain ⟨rfl, rfl⟩ : l₁ = [] ∧ l₂ = [] := by simpa using hnil
    exact .held id true hflag hrun
  | switches active active' hflag hrun =>
    obtain ⟨rfl, rfl, hbusy, -⟩ := single (by simpa using h)
    exact .held id active' (hflag.trans hbusy) hrun
  | leaves hflag hrun =>
    obtain ⟨rfl, rfl, -, hnone⟩ := single (by simpa using h)
    exact .free hflag (hrun.trans hnone)

end RunLock

/-! ## What one step conveys -/

def heldAt (next : Option SessionPoint) : List AgentMessage := next.elim [] SessionPoint.held

/-- A step of the call `id` from one point to another: the lock, the
notices, and for each message how often it was given and where it is. -/
structure Conveys (t t' : SessionTraffic) (id : Nat) (point next : Option SessionPoint) :
    Prop where
  moves : RunMoves t t' id (point.bind SessionPoint.runs) (next.bind SessionPoint.runs)
  notices : ∀ n ∈ t'.notices, n ∈ t.notices ∨ n.runActive = false
  owned : ∀ m, (t'.owned ++ heldAt next).count m + t.given.count m =
    (t.owned ++ heldAt point).count m + t'.given.count m
  accepted : ∀ m, t'.accepted.count m + t.given.count m ≤ t.accepted.count m + t'.given.count m
  entered : ∀ m, t'.entered.count m + t.emitted.count m ≤ t.entered.count m + t'.emitted.count m

section Conveys

variable {s s' : AgentSession} {t t' : SessionTraffic} {id : Nat} {origin : SessionOrigin}
  {outcome : SessionAwaited} {next : Option SessionPoint}

variable {p : SessionPoint}

theorem SessionPoint.Outside.runs (h : p.Outside) : p.runs = none := by
  cases p <;> first | rfl | cases h

theorem SessionPoint.Outside.held (h : p.Outside) : p.held = [] := by
  cases p <;> first | rfl | cases h

theorem SessionPoint.AfterRun.held (h : p.AfterRun) : p.held = [] := by
  cases p <;> first | rfl | cases h

theorem SessionOrigin.Outside.runs (h : origin.Outside) :
    origin.point?.bind SessionPoint.runs = none := by
  cases origin with
  | command c => rfl
  | point p => exact SessionPoint.Outside.runs h

theorem SessionOrigin.Outside.held (h : origin.Outside) : heldAt origin.point? = [] := by
  cases origin with
  | command c => rfl
  | point p => exact SessionPoint.Outside.held h

theorem SessionOrigin.AfterRun.runs (h : origin.AfterRun) :
    origin.point?.bind SessionPoint.runs = some false := by
  cases origin with
  | command c => cases h
  | point p => exact h

theorem SessionOrigin.AfterRun.held (h : origin.AfterRun) : heldAt origin.point? = [] := by
  cases origin with
  | command c => rfl
  | point p => exact SessionPoint.AfterRun.held h

theorem Beside.runs (h : Beside origin next) :
    origin.point?.bind SessionPoint.runs = next.bind SessionPoint.runs := by
  cases h with
  | ended ho => exact ho.runs
  | outside ho hp => exact ho.runs.trans hp.runs.symm
  | afterRun ho hp => exact ho.runs.trans (Eq.symm hp)

theorem Beside.held (h : Beside origin next) : heldAt origin.point? = heldAt next := by
  cases h with
  | ended ho => exact ho.held
  | outside ho hp => exact ho.held.trans hp.held.symm
  | afterRun ho hp => exact ho.held.trans hp.held.symm

theorem Conveys.tells {notices : List SessionNotice}
    (hruns : origin.point?.bind SessionPoint.runs = next.bind SessionPoint.runs)
    (hheld : heldAt origin.point? = heldAt next)
    (hn : ∀ n ∈ notices, n ∈ t.notices ∨ n.runActive = false) :
    Conveys t { t with notices } id origin.point? next where
  moves := by rw [hruns]; exact .keeps _ rfl rfl
  notices := hn
  owned m := by rw [hheld]; rfl
  accepted m := Nat.le_refl _
  entered m := Nat.le_refl _

theorem Conveys.same (hb : Beside origin next) : Conveys t t id origin.point? next :=
  .tells hb.runs hb.held fun _ hn => .inl hn

/-! ### The functions of the session -/

section Traffic

variable (s)

@[simp] theorem traffic_flushPendingBashMessages (env : Env) :
    (s.flushPendingBashMessages env).traffic = s.traffic := by
  obtain ⟨messages, sessionManager, h⟩ := s.flushPendingBashMessages_eq env
  rw [h]
  rfl

@[simp] theorem traffic_recordBashResult (env : Env) (result : BashExecutionMessage) :
    (s.recordBashResult env result).traffic = s.traffic := by
  obtain ⟨messages, sessionManager, pending, h⟩ := s.recordBashResult_eq env result
  rw [h]
  rfl

@[simp] theorem traffic_removeLastAssistant : s.removeLastAssistant.traffic = s.traffic := by
  obtain ⟨messages, removed, h⟩ := s.removeLastAssistant_eq
  rw [h]
  rfl

@[simp] theorem traffic_removeLastError : s.removeLastError.traffic = s.traffic := by
  rcases s.removeLastError_eq with h | h
  · rw [h]
  · rw [h, traffic_removeLastAssistant]

@[simp] theorem traffic_persist (env : Env) (m : AgentMessage) :
    (s.persist env m).traffic = s.traffic := by
  obtain ⟨last, sessionManager, saves, h⟩ := s.persist_eq env m
  rw [h]
  rfl

theorem traffic_installCompaction {env : Env} {c : CompactionData}
    (h : s.installCompaction env c = some s') : s'.traffic = s.traffic := by
  obtain ⟨messages, sessionManager, rfl⟩ := AgentSession.installCompaction_eq h
  rfl

theorem mem_notices (kind : NoticeKind) (hflag : s.isAgentRunActive = false)
    (hrun : s.activeRun = none) :
    ∀ n ∈ (s.notice kind).history.notices, n ∈ s.history.notices ∨ n.runActive = false := by
  intro n hn
  rcases List.mem_append.mp hn with hn | hn
  · exact .inl hn
  · obtain rfl := List.mem_singleton.mp hn
    exact .inr (by simp [hflag, hrun])

theorem messageEnd_runs (m : AgentMessage) (pending : List AgentMessage) :
    (s.messageEnd m pending).2.runs = some true := by
  unfold AgentSession.messageEnd
  dsimp only
  split <;> rfl

theorem messageEnd_held (m : AgentMessage) (pending : List AgentMessage) :
    (s.messageEnd m pending).2.held = pending := by
  unfold AgentSession.messageEnd
  dsimp only
  split <;> rfl

theorem traffic_settle (env : Env) : (s.settle env).traffic =
    { s.traffic with
      isAgentRunActive := false
      notices := s.history.notices ++ [⟨.agentSettledToExtensions, s.activeRun.isSome⟩] } := by
  obtain ⟨messages, sessionManager, h⟩ := s.flushPendingBashMessages_eq env
  unfold AgentSession.settle
  rw [h]
  rfl

theorem traffic_settled (hflag : s.isAgentRunActive = false) (hrun : s.activeRun = none) :
    ∃ notices, s.settled.traffic = { s.traffic with notices } ∧
      ∀ n ∈ notices, n ∈ s.history.notices ∨ n.runActive = false := by
  have hlisteners := mem_notices s .agentSettled hflag hrun
  unfold AgentSession.settled
  rcases (s.notice .agentSettled).resolveIdleWaitIfIdle_eq with h | ⟨-, h⟩
  · rw [h]
    exact ⟨_, rfl, hlisteners⟩
  · rw [h]
    refine ⟨_, rfl, fun n hn => ?_⟩
    rcases mem_notices (s.notice .agentSettled) .idle hflag hrun n hn with hn | hn
    · exact hlisteners n hn
    · exact .inr hn

theorem traffic_waitForIdle (hfree : s.isAgentRunActive = false → s.activeRun = none) :
    ∃ notices, s.waitForIdle.1.traffic = { s.traffic with notices } ∧
      ∀ n ∈ notices, n ∈ s.history.notices ∨ n.runActive = false := by
  rcases s.waitForIdle_eq with ⟨hflag, h⟩ | ⟨promise, nextPromise, h⟩
  · rw [h]
    exact ⟨_, rfl, mem_notices s .idle hflag (hfree hflag)⟩
  · rw [h]
    exact ⟨_, rfl, fun n hn => .inl hn⟩

theorem runAgentPrompt_eq (messages : List AgentMessage) (hrun : s.activeRun = none) :
    s.runAgentPrompt id messages =
      ({ s with isAgentRunActive := true, activeRun := some id }, .running messages) := by
  simp [AgentSession.runAgentPrompt, hrun]

theorem pollQueue_owned (queue : QueueKind) (m : AgentMessage) :
    ((s.pollQueue queue).1.traffic.owned ++ (s.pollQueue queue).2).count m =
      s.traffic.owned.count m := by
  cases queue with
  | steering =>
    have hdrain := congrArg (List.count m) s.steeringQueue.drain_append
    simp only [List.count_append] at hdrain
    simp only [AgentSession.pollQueue, AgentSession.traffic, SessionTraffic.owned,
      List.count_append]
    omega
  | followUp =>
    have hdrain := congrArg (List.count m) s.followUpQueue.drain_append
    simp only [List.count_append] at hdrain
    simp only [AgentSession.pollQueue, AgentSession.traffic, SessionTraffic.owned,
      List.count_append]
    omega

theorem pollQueue_eq (queue : QueueKind) :
    ∃ steeringQueue followUpQueue, (s.pollQueue queue).1 =
      { s with steeringQueue, followUpQueue } := by
  cases queue with
  | steering => exact ⟨_, s.followUpQueue, rfl⟩
  | followUp => exact ⟨s.steeringQueue, _, rfl⟩

end Traffic

/-! ### Every kind of step -/

/-- A message handed to the session goes into a queue. -/
theorem conveys_enqueue (behavior : StreamingBehavior) (m : AgentMessage) (ho : origin.Outside) :
    Conveys s.traffic (s.enqueue behavior m).traffic id origin.point? none where
  moves := by
    rw [ho.runs]
    cases behavior <;> exact .keeps none rfl rfl
  notices n hn := by cases behavior <;> exact .inl hn
  owned a := by
    rw [ho.held]
    cases behavior <;>
      · simp only [AgentSession.enqueue, AgentSession.give, AgentSession.traffic,
          SessionTraffic.owned, PendingMessageQueue.enqueue, heldAt, Option.elim_none,
          List.count_append, List.count_nil]
        omega
  accepted a := by
    cases behavior <;>
      · simp only [AgentSession.enqueue, AgentSession.give, AgentSession.traffic,
          List.count_append]
        omega
  entered a := by cases behavior <;> exact Nat.le_refl _

/-- A run begins with a message from outside, what the call holds and more
messages. -/
theorem conveys_runAgentPrompt (accepted given queued : List AgentMessage)
    (haccepted : ∀ a, accepted.count a ≤ given.count a)
    (hruns : origin.point?.bind SessionPoint.runs = none) (hheld : heldAt origin.point? = queued)
    (hflag : s.isAgentRunActive = false) {messages : List AgentMessage}
    (hmessages : messages.Perm (queued ++ given)) :
    Conveys s.traffic
      { s.traffic with
        isAgentRunActive := true
        activeRun := some id
        accepted := s.history.accepted ++ accepted
        given := s.history.given ++ given }
      id origin.point? (some (.running messages)) where
  moves := by
    rw [hruns]
    exact .enters hflag rfl rfl
  notices n hn := .inl hn
  owned a := by
    have := hmessages.count_eq a
    rw [List.count_append] at this
    rw [hheld]
    simp only [AgentSession.traffic, SessionTraffic.owned, heldAt, Option.elim_some,
      SessionPoint.held, List.count_append]
    omega
  accepted a := by
    have := haccepted a
    simp only [AgentSession.traffic, List.count_append]
    omega
  entered a := Nat.le_refl _

theorem conveys_of_goes (h : SessionGoes s id origin outcome s' next)
    (hfree : s.isAgentRunActive = false → s.activeRun = none)
    (hafter : origin.AfterRun → s.activeRun = none)
    (huntested : ∀ p, origin = .point p → p.untested = true → s.isAgentRunActive = false) :
    Conveys s.traffic s'.traffic id origin.point? next := by
  induction h with
  | waits next hb => exact .same hb
  | queued behavior m ho hm => exact conveys_enqueue behavior m ho
  | accepted behavior m ho hm =>
    have h : Conveys s.traffic _ id origin.point? none := conveys_enqueue behavior m ho
    refine ⟨h.moves.congr rfl rfl, h.notices, h.owned, fun a => ?_, h.entered⟩
    cases behavior <;>
      · simp only [AgentSession.enqueue, AgentSession.give, AgentSession.accept,
          AgentSession.traffic, List.count_append]
        omega
  | nextTurn m ho hm =>
    refine ⟨?_, fun n hn => .inl hn, fun a => ?_, fun a => ?_, fun a => Nat.le_refl _⟩
    · rw [ho.runs]
      exact .keeps none rfl rfl
    · rw [ho.held]
      simp only [AgentSession.give, AgentSession.traffic, SessionTraffic.owned, heldAt,
        Option.elim_none, List.count_append, List.count_nil]
      omega
    · simp only [AgentSession.give, AgentSession.traffic, List.count_append]
      omega
  | flushed env next hidle ho hb =>
    rw [traffic_flushPendingBashMessages]
    exact .same hb
  | built s₀ p m hp hm h ih =>
    refine ⟨?_, ih.notices, fun a => ?_, ih.accepted, ih.entered⟩
    · have hmoves := ih.moves
      rw [Option.bind_some, hp.runs] at hmoves
      exact hmoves.congr rfl rfl
    · have howned := ih.owned a
      rw [show heldAt (some p) = [] from hp.held] at howned
      simp only [AgentSession.traffic, SessionTraffic.owned, heldAt, Option.elim_some,
        SessionPoint.held, List.count_append, List.count_nil] at howned ⊢
      omega
  | started m queued messages ho hms =>
    subst ho
    have hflag := huntested _ rfl rfl
    have hrun : ((s.accept m).give (m :: messages)).activeRun = none := hfree hflag
    rw [runAgentPrompt_eq _ _ hrun]
    refine conveys_runAgentPrompt [m] (m :: messages) queued (fun a => ?_) rfl rfl hflag ?_
    · exact (List.singleton_sublist.mpr List.mem_cons_self).count_le a
    · exact List.perm_middle.symm
  | triggered m deliverAs ho hidle =>
    subst ho
    have hrun : (s.give [.custom m]).activeRun = none := hfree hidle
    rw [runAgentPrompt_eq _ _ hrun]
    have h : Conveys s.traffic _ id (SessionOrigin.point? (.command (.sendCustomMessage m
        deliverAs true))) (some (.running [.custom m])) :=
      conveys_runAgentPrompt [] [.custom m] [] (fun a => Nat.zero_le _) rfl rfl hidle (.refl _)
    rw [List.append_nil] at h
    exact h
  | reported m pending ho hout =>
    subst ho
    refine ⟨?_, fun n hn => .inl hn, fun a => ?_, fun a => Nat.le_refl _, fun a => ?_⟩
    · rw [Option.bind_some, messageEnd_runs]
      exact .keeps _ rfl rfl
    · simp only [heldAt, Option.elim_some, messageEnd_held]
      simp only [SessionOrigin.point?, Option.elim_some, SessionPoint.held, AgentSession.traffic,
        AgentSession.messageEnd, SessionTraffic.owned, List.count_append, List.count_cons,
        List.count_nil]
      omega
    · simp only [AgentSession.traffic, AgentSession.messageEnd, List.count_append]
      omega
  | emitted m hm ho hout =>
    subst ho
    refine ⟨?_, fun n hn => .inl hn, fun a => ?_, fun a => Nat.le_refl _, fun a => ?_⟩
    · rw [Option.bind_some, messageEnd_runs]
      exact .keeps _ rfl rfl
    · simp only [heldAt, Option.elim_some, messageEnd_held]
      rfl
    · simp only [AgentSession.traffic, AgentSession.messageEnd, List.count_append]
      omega
  | polled queue ho =>
    subst ho
    obtain ⟨steeringQueue, followUpQueue, heq⟩ := pollQueue_eq s queue
    have howned := pollQueue_owned s queue
    generalize (s.pollQueue queue).2 = messages at howned ⊢
    rw [heq] at howned ⊢
    refine ⟨.keeps _ rfl rfl, fun n hn => .inl hn, fun a => ?_, fun a => Nat.le_refl _,
      fun a => Nat.le_refl _⟩
    refine congrArg (· + _) ((howned a).trans ?_)
    rw [show heldAt (SessionOrigin.point (.running [])).point? = [] from rfl, List.append_nil]
  | ended ho =>
    subst ho
    exact ⟨.switches true false rfl rfl, fun n hn => .inl hn, fun a => rfl,
      fun a => Nat.le_refl _, fun a => Nat.le_refl _⟩
  | persisted env m pending ho =>
    subst ho
    rw [traffic_persist]
    exact ⟨.keeps _ rfl rfl, fun n hn => .inl hn, fun a => rfl, fun a => Nat.le_refl _,
      fun a => Nat.le_refl _⟩
  | retried ho =>
    subst ho
    have hb : Beside (.point .returned) (some .retrying) := .afterRun rfl rfl
    have htraffic : ({ s.removeLastAssistant with lastAssistantMessage := none } :
        AgentSession).traffic = s.traffic := traffic_removeLastAssistant s
    rw [htraffic]
    exact .same hb
  | forgot next hb => exact .same hb
  | resumed ho hrun =>
    refine ⟨?_, fun n hn => .inl hn, fun a => ?_, fun a => Nat.le_refl _, fun a => Nat.le_refl _⟩
    · rw [ho.runs]
      exact .switches false true rfl rfl
    · rw [ho.held]
      rfl
  | resumedQueued queue ho hrun =>
    obtain ⟨steeringQueue, followUpQueue, heq⟩ := pollQueue_eq s queue
    have howned := pollQueue_owned s queue
    generalize (s.pollQueue queue).2 = messages at howned ⊢
    rw [heq] at howned ⊢
    refine ⟨?_, fun n hn => .inl hn, fun a => ?_, fun a => Nat.le_refl _, fun a => Nat.le_refl _⟩
    · rw [ho.runs]
      exact .switches false true rfl rfl
    · rw [ho.held, List.append_nil]
      exact congrArg (· + _) (howned a)
  | settles env ho hl =>
    rw [traffic_settle]
    refine ⟨?_, fun n hn => ?_, fun a => ?_, fun a => Nat.le_refl _, fun a => Nat.le_refl _⟩
    · rw [ho.runs]
      exact .leaves rfl rfl
    · rcases List.mem_append.mp hn with hn | hn
      · exact .inl hn
      · obtain rfl := List.mem_singleton.mp hn
        exact .inr (by simp [hafter ho])
    · rw [ho.held]
      rfl
  | settled ho =>
    subst ho
    have hflag := huntested _ rfl rfl
    obtain ⟨notices, h, hn⟩ := traffic_settled s hflag (hfree hflag)
    rw [h]
    exact .tells rfl rfl hn
  | removed next hb he =>
    rw [traffic_removeLastAssistant]
    exact .same hb
  | removedError next hb he =>
    rw [traffic_removeLastError]
    exact .same hb
  | installed env c s' next hb he hi hc =>
    rw [traffic_installCompaction s hi]
    exact .same hb
  | reconnected ho => exact .same (.ended ho)
  | waitsIdle connected next hb =>
    obtain ⟨notices, h, hn⟩ := traffic_waitForIdle { s with connected } hfree
    rw [h]
    exact .tells hb.runs hb.held hn
  | bash env result ho =>
    rw [traffic_recordBashResult]
    exact .same (.ended ho)
  | custom env m ho hidle => exact .same (.ended ho)

end Conveys

/-! ## Every run -/

namespace AgentSessionState

variable {s s' : AgentSessionState}

/-- What every step keeps. -/
structure SettleInv (s : AgentSessionState) : Prop where
  lock : RunLock s.session.traffic s.runs
  notices : ∀ n ∈ s.session.history.notices, n.runActive = false
  given : ∀ m, s.session.history.given.count m = (s.session.traffic.owned ++ s.held).count m
  accepted : ∀ m, s.session.history.accepted.count m ≤ s.session.history.given.count m
  entered : ∀ m, s.session.history.entered.count m ≤ s.session.history.emitted.count m

section Calls

variable {id : Nat} {p : Option SessionPoint} {before after : List SessionCall}

theorem runs_of_calls (h : s.calls = before ++ (p.map (SessionCall.mk id)).toList ++ after) :
    s.runs = before.flatMap SessionCall.runs ++ ((p.bind SessionPoint.runs).map (id, ·)).toList ++
      after.flatMap SessionCall.runs := by
  unfold runs
  rw [h, List.flatMap_append, List.flatMap_append]
  cases p with
  | none => rfl
  | some p =>
    congr 2
    exact List.append_nil _

theorem held_of_calls (h : s.calls = before ++ (p.map (SessionCall.mk id)).toList ++ after) :
    s.held = before.flatMap (fun c => c.point.held) ++ heldAt p ++
      after.flatMap fun c => c.point.held := by
  unfold held
  rw [h, List.flatMap_append, List.flatMap_append]
  cases p with
  | none => rfl
  | some p =>
    congr 2
    exact List.append_nil _

end Calls

theorem SettleInv.step {a : AgentSessionAction} (hi : s.SettleInv) (hok : s.FindsIdle a)
    (h : s.step a = some s') : s'.SettleInv := by
  obtain ⟨id, origin, next, before, after, hbegins, hcalls, hcalls', hgoes⟩ := stepped_of_step h
  have hlock := hi.lock
  rw [runs_of_calls hcalls] at hlock
  have hafter (ho : origin.AfterRun) : s.session.activeRun = none := by
    rw [ho.runs] at hlock
    exact (RunLock.single (by simpa using hlock)).2.2.2
  have huntested (p : SessionPoint) (ho : origin = .point p) (hp : p.untested = true) :
      s.session.isAgentRunActive = false := by
    cases a with
    | call env now command => exact absurd (hbegins.symm.trans ho) nofun
    | resume env now index outcome =>
      obtain ⟨call, hcall, rfl⟩ := hbegins
      cases ho
      exact hok call hcall hp
  have hc := conveys_of_goes hgoes (fun hflag => (hi.lock.idle hflag).2) hafter huntested
  refine ⟨?_, fun n hn => ?_, fun m => ?_, fun m => ?_, fun m => ?_⟩
  · rw [runs_of_calls hcalls']
    exact hlock.moves hc.moves
  · rcases hc.notices n hn with hn | hn
    · exact hi.notices n hn
    · exact hn
  · have hgiven := hi.given m
    have howned := hc.owned m
    rw [held_of_calls hcalls] at hgiven
    rw [held_of_calls hcalls']
    simp only [AgentSession.traffic, List.count_append] at hgiven howned ⊢
    omega
  · have haccepted := hc.accepted m
    have := hi.accepted m
    simp only [AgentSession.traffic] at haccepted
    omega
  · have hentered := hc.entered m
    have := hi.entered m
    simp only [AgentSession.traffic] at hentered
    omega

theorem SettleInv.settles (hi : s.SettleInv) : s.Settles where
  alone := hi.lock.length_le
  active := hi.lock.active_iff
  streaming := hi.lock.idle_iff
  notices := hi.notices
  given := List.perm_iff_count.mpr hi.given
  accepted := List.subperm_ext_iff.mpr fun m _ => hi.accepted m
  entered := List.subperm_ext_iff.mpr fun m _ => hi.entered m

/-- A session before its first call. -/
def new (config : SessionConfig) (steeringMode followUpMode : QueueMode)
    (sessionManager : SessionManager) (messages : List AgentMessage) : AgentSessionState where
  session := .new config steeringMode followUpMode sessionManager messages

theorem SettleInv.new (config : SessionConfig) (steeringMode followUpMode : QueueMode)
    (sessionManager : SessionManager) (messages : List AgentMessage) :
    (new config steeringMode followUpMode sessionManager messages).SettleInv where
  lock := .free rfl rfl
  notices _ h := nomatch h
  given _ := rfl
  accepted _ := Nat.le_refl 0
  entered _ := Nat.le_refl 0

/-- In every run in which a prompt comes out of its `before_agent_start`
handlers, and a call out of its `agent_settled` handlers, only while the
session is idle. -/
theorem settled_means_settled {config : SessionConfig} {steeringMode followUpMode : QueueMode}
    {sessionManager : SessionManager} {messages : List AgentMessage}
    (h : Reaches step FindsIdle
      (new config steeringMode followUpMode sessionManager messages) s) : s.Settles :=
  (h.invariant (SettleInv.new config steeringMode followUpMode sessionManager messages)
    fun _ _ _ hi hok hstep => hi.step hok hstep).settles

/-! ### Two runs -/

def quietManager : SessionManager :=
  { SessionManager.blank "/" "" false with
    sessionId := "0"
    fileEntries := [.session ⟨some 3, "0", "1970-01-01T00:00:00.000Z", "/", none⟩] }

/-- An idle session with a model and its credentials. -/
def quietSession : AgentSessionState :=
  new ⟨some ⟨"p", "m"⟩, true, id, fun _ => rfl⟩ .oneAtATime .oneAtATime quietManager []

def anyEnv : FreshEnv := ⟨drawing "a", drawing_fresh rfl⟩

def ask (text : String) : PromptRequest := ⟨text, [], none, false⟩

def note : CustomMessage := ⟨"note", .string "text", false, none, 0⟩

def replied (stopReason : StopReason) : AgentMessage :=
  .assistant
    { content := some [.text "text"], provider := "p", model := "m", usage := none, stopReason
      timestamp := 0 }

def promptActions : List AgentSessionAction :=
  [.call anyEnv 0 (.sendCustomMessage note (some .nextTurn) false),
    .call anyEnv 0 (.prompt (ask "go")), .resume anyEnv 0 0 (.messages []),
    .resume anyEnv 0 0 .reports, .resume anyEnv 0 0 .ok, .resume anyEnv 0 0 .reports,
    .resume anyEnv 0 0 .ok, .resume anyEnv 0 0 (.emits (replied .stop)), .resume anyEnv 0 0 .ok,
    .resume anyEnv 0 0 .ends, .resume anyEnv 0 0 .ok, .resume anyEnv 0 0 (.checks .skip),
    .resume anyEnv 0 0 .ok, .resume anyEnv 0 0 .ok, .resume anyEnv 0 0 .ok]

theorem settled_means_settled_prompt : ∃ s, Reaches step FindsIdle quietSession s ∧
    s.calls = [] ∧ s.session.history.entered = [(ask "go").message 0, .custom note] ∧
    s.Settles := by
  have hrun : (Machine.run step FindsIdle quietSession promptActions).any (fun s =>
      decide (s.calls = [] ∧
        s.session.history.entered = [(ask "go").message 0, .custom note])) = true := by
    decide +kernel
  obtain ⟨s, hs, hfacts⟩ := (Option.any_eq_true ..).mp hrun
  obtain ⟨hcalls, hentered⟩ := of_decide_eq_true hfacts
  have hreach := Machine.reaches_of_run hs
  exact ⟨s, hreach, hcalls, hentered, settled_means_settled hreach⟩

/-- Two prompts pass the test for a run together. The one that took the
next-turn message comes out of its `before_agent_start` handlers second: it
is accepted, its run is rejected, and it settles while the other one runs;
its message and the next-turn message are nowhere. -/
theorem settles_during_run : ∃ s, Reaches step (fun _ _ => True) quietSession s ∧
    s.session.isAgentRunActive = false ∧ s.session.activeRun = some 2 ∧
    s.session.history.notices =
      [⟨.agentSettledToExtensions, true⟩, ⟨.agentSettled, true⟩, ⟨.idle, true⟩] ∧
    (ask "lost").message 0 ∈ s.session.history.accepted ∧
    (ask "lost").message 0 ∉ s.session.messages ++ s.session.traffic.owned ++ s.held ∧
    .custom note ∈ s.session.history.given ∧
    .custom note ∉ s.session.messages ++ s.session.traffic.owned ++ s.held ∧ ¬ s.Settles := by
  have hrun : (Machine.run step (fun _ _ => True) quietSession
      [.call anyEnv 0 (.sendCustomMessage note (some .nextTurn) false),
        .call anyEnv 0 (.prompt (ask "lost")), .call anyEnv 0 (.prompt (ask "go")),
        .resume anyEnv 0 1 (.messages []), .resume anyEnv 0 0 (.messages []),
        .resume anyEnv 0 0 .ok, .resume anyEnv 0 0 .ok, .call anyEnv 0 .waitForIdle]).any
      (fun s => decide (s.session.isAgentRunActive = false ∧ s.session.activeRun = some 2 ∧
        s.session.history.notices =
          [⟨.agentSettledToExtensions, true⟩, ⟨.agentSettled, true⟩, ⟨.idle, true⟩] ∧
        (ask "lost").message 0 ∈ s.session.history.accepted ∧
        (ask "lost").message 0 ∉ s.session.messages ++ s.session.traffic.owned ++ s.held ∧
        .custom note ∈ s.session.history.given ∧
        .custom note ∉ s.session.messages ++ s.session.traffic.owned ++ s.held)) = true := by
    decide +kernel
  obtain ⟨s, hs, hfacts⟩ := (Option.any_eq_true ..).mp hrun
  obtain ⟨hflag, hactive, hnotices, haccepted, hlost, hgiven, hnote⟩ := of_decide_eq_true hfacts
  refine ⟨s, Machine.reaches_of_run hs, hflag, hactive, hnotices, haccepted, hlost, hgiven, hnote,
    fun hsettles => ?_⟩
  have hquiet := hsettles.notices ⟨.idle, true⟩ (by simp [hnotices])
  cases hquiet

end AgentSessionState

end Eagent
