import Eagent.AppendedContext
import Eagent.SessionSettling

/-!
# The session and the transcript

The handler of a `message_end` appends the message to the session, unless
the session is disconnected; bash results, custom messages and compactions
join the transcript and the session at once. The two agree, up to redaction
and up to the messages removed for a retry, as long as a loop emits only
while the session is subscribed to it and marked as running, and no
compaction arrives and no run is left while a message is in the transcript
and not yet in the session.
-/

namespace Eagent

open Machine

/-! ## Transcript and context -/

/-- A message as its entry gives it back: a custom message has the time of
the entry, and content that is absent is empty. -/
def AgentMessage.recorded : AgentMessage → AgentMessage
  | .custom m => .custom { m with timestamp := 0 }
  | m => normalizeContent m

/-- A message of the transcript and one of the context are the same, or the
second is the redacted first. -/
def Records (redact : AgentMessage → AgentMessage) (m c : AgentMessage) : Prop :=
  c.recorded = m.recorded ∨ c.recorded = (redact m).recorded

/-- The messages of the transcript and those of the context, one for one,
but for those removed from the transcript. -/
inductive Matches (redact : AgentMessage → AgentMessage) :
    List AssistantMessage → List AgentMessage → List AgentMessage → Prop
  | nil : Matches redact [] [] []
  | keep {removed : List AssistantMessage} {messages context : List AgentMessage}
      {m c : AgentMessage} (hm : Records redact m c) (h : Matches redact removed messages context) :
      Matches redact removed (m :: messages) (c :: context)
  | skip {removed : List AssistantMessage} {messages context : List AgentMessage}
      {a : AssistantMessage} {c : AgentMessage} (ha : Records redact (.assistant a) c)
      (h : Matches redact removed messages context) :
      Matches redact (a :: removed) messages (c :: context)

namespace Matches

variable {redact : AgentMessage → AgentMessage} {removed : List AssistantMessage}
  {messages context context' : List AgentMessage}

theorem refl (messages : List AgentMessage) : Matches redact [] messages messages := by
  induction messages with
  | nil => exact .nil
  | cons m messages ih => exact .keep (.inl rfl) ih

theorem congr (h : Matches redact removed messages context)
    (hc : context.map AgentMessage.recorded = context'.map AgentMessage.recorded) :
    Matches redact removed messages context' := by
  induction h generalizing context' with
  | nil =>
    obtain rfl := List.map_eq_nil_iff.mp hc.symm
    exact .nil
  | @keep _ _ _ m c hm _ ih =>
    obtain ⟨c', rest, rfl, hc', hrest⟩ := List.map_eq_cons_iff.mp hc.symm
    refine .keep ?_ (ih hrest.symm)
    unfold Records
    rw [hc']
    exact hm
  | @skip _ _ _ a c ha _ ih =>
    obtain ⟨c', rest, rfl, hc', hrest⟩ := List.map_eq_cons_iff.mp hc.symm
    refine .skip ?_ (ih hrest.symm)
    unfold Records
    rw [hc']
    exact ha

theorem append {m c : AgentMessage} (h : Matches redact removed messages context)
    (hm : Records redact m c) : Matches redact removed (messages ++ [m]) (context ++ [c]) := by
  induction h with
  | nil => exact .keep hm .nil
  | keep hk _ ih => exact .keep hk ih
  | skip ha _ ih => exact .skip ha ih

theorem dropLast {a : AssistantMessage}
    (h : Matches redact removed (messages ++ [.assistant a]) context) :
    ∃ removed', removed'.Perm (a :: removed) ∧ Matches redact removed' messages context := by
  generalize hlast : messages ++ [.assistant a] = transcript at h
  induction h generalizing messages with
  | nil => simp at hlast
  | @keep removed ts cs m c hm h ih =>
    cases messages with
    | nil =>
      obtain ⟨rfl, rfl⟩ := List.cons.inj hlast
      exact ⟨_, .refl _, .skip hm h⟩
    | cons m' rest =>
      obtain ⟨rfl, hrest⟩ := List.cons.inj hlast
      obtain ⟨removed', hperm, hmatch⟩ := ih hrest
      exact ⟨removed', hperm, .keep hm hmatch⟩
  | @skip removed ts cs b c hb h ih =>
    obtain ⟨removed', hperm, hmatch⟩ := ih hlast
    exact ⟨b :: removed', (hperm.cons b).trans (.swap a b removed), .skip hb hmatch⟩

end Matches

/-! ## What an entry gives back -/

/-- Users', assistants' and custom messages and tool results have an entry. -/
def AgentMessage.isPersisted (m : AgentMessage) : Bool := m.persistedBody.isSome

variable {m : AgentMessage}

theorem AgentMessage.isPersisted_of_isInput (h : m.isInput = true) :
    m.isPersisted = true := by
  cases m <;> first | rfl | cases h

theorem AgentMessage.isPersisted_of_isResponse (h : m.isResponse = true) :
    m.isPersisted = true := by
  cases m <;> first | rfl | cases h

/-- The body of a message that enters the context as it is. -/
structure Conveyed (m : AgentMessage) (body : EntryBody) : Prop where
  projects : ∀ id parentId timestamp, ∃ c,
    sessionEntryToContextMessages ⟨id, parentId, timestamp, body⟩ = [c] ∧ c.recorded = m.recorded
  label : ∀ id parentId timestamp, (SessionEntry.mk id parentId timestamp body).isLabel = false
  compaction : ∀ id parentId timestamp,
    (SessionEntry.mk id parentId timestamp body).isCompaction = false

theorem conveyed_message (m : AgentMessage) (h : (normalizeContent m).recorded = m.recorded) :
    Conveyed m (.message m) :=
  ⟨fun _ _ _ => ⟨_, rfl, h⟩, fun _ _ _ => rfl, fun _ _ _ => rfl⟩

theorem conveyed_of_persistedBody {body : EntryBody} (h : m.persistedBody = some body) :
    Conveyed m body := by
  cases m with
  | custom m =>
    cases h
    exact ⟨fun _ _ _ => ⟨_, rfl, rfl⟩, fun _ _ _ => rfl, fun _ _ _ => rfl⟩
  | user m => cases h; exact conveyed_message _ rfl
  | assistant m => cases h; exact conveyed_message _ rfl
  | toolResult m => cases h; exact conveyed_message _ rfl
  | bashExecution | branchSummary | compactionSummary => cases h

/-! ## The record of a session -/

/-- What the handler and the direct appends write, and the flag. -/
structure SessionRecord where
  redact : AgentMessage → AgentMessage
  messages : List AgentMessage
  sessionManager : SessionManager
  isAgentRunActive : Bool
  emitted : List AgentMessage
  saves : List (AgentMessage × SessionEntry)
  removed : List AssistantMessage

def AgentSession.record (s : AgentSession) : SessionRecord where
  redact := s.config.redactBeforePersist
  messages := s.messages
  sessionManager := s.sessionManager
  isAgentRunActive := s.isAgentRunActive
  emitted := s.history.emitted
  saves := s.history.saves
  removed := s.history.removed

/-- What was emitted was saved, in this order, but for what is `handled`
now, and the transcript is the context and what is handled. -/
structure SessionRecord.Agrees (t : SessionRecord) (handled : List AgentMessage) : Prop where
  tree : SessionInvariant t.sessionManager
  emitted : t.emitted = t.saves.map Prod.fst ++ handled
  saved : (t.saves.map Prod.snd).Sublist t.sessionManager.getEntries
  bodies : ∀ x ∈ t.saves, (t.redact x.1).persistedBody = some x.2.body
  busy : handled ≠ [] → t.isAgentRunActive = true
  transcript : ∃ context removed, t.sessionManager.buildSessionContext = some context ∧
    removed.Subperm t.removed ∧
    Matches t.redact removed t.messages (context.messages ++ handled.map t.redact)

namespace SessionRecord.Agrees

variable {t : SessionRecord} {handled : List AgentMessage}

/-- Nothing is handled while the flag is down. -/
theorem idle (h : t.Agrees handled) (hidle : t.isAgentRunActive = false) : handled = [] := by
  by_contra hne
  exact absurd (hidle.symm.trans (h.busy hne)) nofun

theorem runs (h : t.Agrees handled) : { t with isAgentRunActive := true }.Agrees handled :=
  ⟨h.tree, h.emitted, h.saved, h.bodies, fun _ => rfl, h.transcript⟩

theorem rests (h : t.Agrees []) : { t with isAgentRunActive := false }.Agrees [] :=
  ⟨h.tree, h.emitted, h.saved, h.bodies, fun hne => absurd rfl hne, h.transcript⟩

theorem emits (h : t.Agrees []) (hflag : t.isAgentRunActive = true) (m : AgentMessage) :
    { t with messages := t.messages ++ [m], emitted := t.emitted ++ [m] }.Agrees [m] := by
  obtain ⟨context, removed, hcontext, hremoved, hmatches⟩ := h.transcript
  refine ⟨h.tree, ?_, h.saved, h.bodies, fun _ => hflag, context, removed, hcontext, hremoved, ?_⟩
  · rw [h.emitted, List.append_nil]
  · rw [List.map_nil, List.append_nil] at hmatches
    exact hmatches.append (.inr rfl)

variable {body : EntryBody}

theorem joins (h : t.Agrees []) {env : Env} (hfresh : env.Fresh) {m : AgentMessage}
    (hm : Conveyed m body) :
    { t with
      messages := t.messages ++ [m]
      sessionManager := (t.sessionManager.appendEntry
        (t.sessionManager.nextEntry env body)).manager }.Agrees [] := by
  obtain ⟨context, removed, hcontext, hremoved, hmatches⟩ := h.transcript
  obtain ⟨context', hcontext', hmessages⟩ :=
    h.tree.context_appendNext hfresh (hm.label _ _ _) (hm.compaction _ _ _) hcontext
  obtain ⟨c, hc, hrecorded⟩ := hm.projects (t.sessionManager.nextEntry env body).id
    (t.sessionManager.nextEntry env body).parentId (t.sessionManager.nextEntry env body).timestamp
  refine ⟨h.tree.appendNext hfresh (hm.label _ _ _), h.emitted, ?_, h.bodies, h.busy, context',
    removed, hcontext', hremoved, ?_⟩
  · rw [SessionManager.getEntries_appendEntry]
    exact h.saved.trans (List.sublist_append_left _ _)
  · rw [hmessages]
    rw [List.map_nil, List.append_nil] at hmatches ⊢
    change Matches t.redact removed (t.messages ++ [m])
      (context.messages ++ sessionEntryToContextMessages _)
    rw [show sessionEntryToContextMessages (t.sessionManager.nextEntry env body) = [c] from hc]
    exact hmatches.append (.inl hrecorded)

theorem persists {m : AgentMessage} (h : t.Agrees [m]) {env : Env} (hfresh : env.Fresh)
    (hbody : (t.redact m).persistedBody = some body) :
    { t with
      sessionManager := (t.sessionManager.appendEntry
        (t.sessionManager.nextEntry env body)).manager
      saves := t.saves ++ [(m, t.sessionManager.nextEntry env body)] }.Agrees [] := by
  obtain ⟨context, removed, hcontext, hremoved, hmatches⟩ := h.transcript
  have hm := conveyed_of_persistedBody hbody
  obtain ⟨context', hcontext', hmessages⟩ :=
    h.tree.context_appendNext hfresh (hm.label _ _ _) (hm.compaction _ _ _) hcontext
  obtain ⟨c, hc, hrecorded⟩ := hm.projects (t.sessionManager.nextEntry env body).id
    (t.sessionManager.nextEntry env body).parentId (t.sessionManager.nextEntry env body).timestamp
  refine ⟨h.tree.appendNext hfresh (hm.label _ _ _), ?_, ?_, ?_, fun hne => absurd rfl hne,
    context', removed, hcontext', hremoved, ?_⟩
  · rw [h.emitted]
    simp
  · rw [SessionManager.getEntries_appendEntry, List.map_append]
    exact h.saved.append (.refl _)
  · intro x hx
    rcases List.mem_append.mp hx with hx | hx
    · exact h.bodies x hx
    · obtain rfl := List.mem_singleton.mp hx
      exact hbody
  · rw [hmessages, show sessionEntryToContextMessages (t.sessionManager.nextEntry env body) = [c]
      from hc, List.map_nil, List.append_nil]
    refine hmatches.congr ?_
    simp only [List.map_append, List.map_cons, List.map_nil, hrecorded]

/-- The last message leaves the transcript. -/
theorem removes (h : t.Agrees handled) {messages : List AgentMessage} {a : AssistantMessage}
    (hlast : t.messages = messages ++ [.assistant a]) :
    { t with messages, removed := t.removed ++ [a] }.Agrees handled := by
  obtain ⟨context, removed, hcontext, hremoved, hmatches⟩ := h.transcript
  rw [hlast] at hmatches
  obtain ⟨removed', hperm, hmatches'⟩ := hmatches.dropLast
  refine ⟨h.tree, h.emitted, h.saved, h.bodies, h.busy, context, removed', hcontext, ?_, hmatches'⟩
  exact hperm.subperm.trans
    (((List.subperm_cons a).mpr hremoved).trans (List.perm_append_singleton a t.removed).symm.subperm)

theorem compacts (h : t.Agrees []) {env : Env} (hfresh : env.Fresh)
    (hlabel : (t.sessionManager.nextEntry env body).isLabel = false) {context : SessionContext}
    (hcontext : (t.sessionManager.appendEntry
      (t.sessionManager.nextEntry env body)).manager.buildSessionContext = some context) :
    { t with
      messages := context.messages
      sessionManager := (t.sessionManager.appendEntry
        (t.sessionManager.nextEntry env body)).manager }.Agrees [] := by
  refine ⟨h.tree.appendNext hfresh hlabel, h.emitted, ?_, h.bodies, h.busy, context, [], hcontext,
    List.nil_subperm, ?_⟩
  · rw [SessionManager.getEntries_appendEntry]
    exact h.saved.trans (List.sublist_append_left _ _)
  · rw [List.map_nil, List.append_nil]
    exact .refl _

end SessionRecord.Agrees

/-! ## What one step records -/

def handledAt (next : Option SessionPoint) : List AgentMessage := next.elim [] SessionPoint.handled

def activeAt (id : Nat) (next : Option SessionPoint) : List Nat :=
  if next.bind SessionPoint.runs = some true then [id] else []

def SessionPoint.carried : SessionPoint → List AgentMessage
  | .startingHook message queued => message :: queued
  | .running pending => pending
  | .handling message pending => message :: pending
  | _ => []

def carriedAt (next : Option SessionPoint) : List AgentMessage := next.elim [] SessionPoint.carried

def SessionTraffic.waiting (t : SessionTraffic) : List AgentMessage :=
  t.steeringQueue.messages ++ t.followUpQueue.messages ++ t.pendingNextTurnMessages

section Steps

variable {s s' : AgentSession} {id : Nat} {origin : SessionOrigin} {outcome : SessionAwaited}
  {next : Option SessionPoint} {p : SessionPoint}

theorem SessionPoint.Outside.carried (h : p.Outside) : p.carried = [] := by
  cases p <;> first | rfl | cases h

theorem SessionPoint.AfterRun.carried (h : p.AfterRun) : p.carried = [] := by
  cases p <;> first | rfl | cases h

theorem SessionPoint.Outside.handled (h : p.Outside) : p.handled = [] := by
  cases p <;> first | rfl | cases h

theorem SessionPoint.AfterRun.handled (h : p.AfterRun) : p.handled = [] := by
  cases p <;> first | rfl | cases h

theorem SessionOrigin.Outside.handled (h : origin.Outside) : handledAt origin.point? = [] := by
  cases origin with
  | command c => rfl
  | point p => exact SessionPoint.Outside.handled h

theorem SessionOrigin.AfterRun.handled (h : origin.AfterRun) : handledAt origin.point? = [] := by
  cases origin with
  | command c => rfl
  | point p => exact SessionPoint.AfterRun.handled h

theorem Beside.carried (h : Beside origin next) : carriedAt next = [] := by
  cases h with
  | ended ho => rfl
  | outside ho hp => exact hp.carried
  | afterRun ho hp => exact hp.carried

theorem Beside.handled (h : Beside origin next) :
    handledAt origin.point? = [] ∧ handledAt next = [] := by
  cases h with
  | ended ho => exact ⟨ho.handled, rfl⟩
  | outside ho hp => exact ⟨ho.handled, hp.handled⟩
  | afterRun ho hp => exact ⟨ho.handled, hp.handled⟩

/-! ### Who has an active run -/

theorem runAgentPrompt_cases (s : AgentSession) (id : Nat) (messages : List AgentMessage) :
    (s.activeRun.isSome = true ∧
      s.runAgentPrompt id messages = ({ s with isAgentRunActive := true }, .rejected)) ∨
    (s.activeRun = none ∧ s.runAgentPrompt id messages =
      ({ s with isAgentRunActive := true, activeRun := some id }, .running messages)) := by
  cases hrun : s.activeRun with
  | none => exact .inr ⟨rfl, runAgentPrompt_eq s messages hrun⟩
  | some id' =>
    refine .inl ⟨rfl, ?_⟩
    rw [AgentSession.runAgentPrompt, hrun]
    rfl

theorem settled_eq (s : AgentSession) : ∃ history idleWaitPromise,
    s.settled = { s with history, idleWaitPromise } ∧ history.emitted = s.history.emitted ∧
      history.saves = s.history.saves ∧ history.removed = s.history.removed := by
  unfold AgentSession.settled
  rcases (s.notice .agentSettled).resolveIdleWaitIfIdle_eq with h | ⟨-, h⟩
  · rw [h]
    exact ⟨_, s.idleWaitPromise, rfl, rfl, rfl, rfl⟩
  · rw [h]
    exact ⟨_, _, rfl, rfl, rfl, rfl⟩

theorem active_same {l₁ l₂ : List Nat} (hl : l₁ ++ activeAt id origin.point? ++ l₂ =
    s.activeRun.toList) (hruns : origin.point?.bind SessionPoint.runs = next.bind SessionPoint.runs)
    (hrun : s'.activeRun = s.activeRun) :
    l₁ ++ activeAt id next ++ l₂ = s'.activeRun.toList := by
  rw [hrun, ← hl, activeAt, activeAt, hruns]

theorem active_begins {l₁ l₂ : List Nat} (hl : l₁ ++ activeAt id origin.point? ++ l₂ =
    s.activeRun.toList) (hnone : s.activeRun = none)
    (hruns : next.bind SessionPoint.runs = some true) (hrun : s'.activeRun = some id) :
    l₁ ++ activeAt id next ++ l₂ = s'.activeRun.toList := by
  rw [hnone] at hl
  obtain ⟨rfl, -, rfl⟩ : l₁ = [] ∧ activeAt id origin.point? = [] ∧ l₂ = [] := by
    simpa using hl
  rw [hrun, activeAt, if_pos hruns]
  rfl

theorem active_runAgentPrompt (s' : AgentSession) (messages : List AgentMessage)
    {l₁ l₂ : List Nat} (hl : l₁ ++ activeAt id origin.point? ++ l₂ = s.activeRun.toList)
    (hruns : origin.point?.bind SessionPoint.runs = none)
    (hrun : s'.activeRun = s.activeRun) : l₁ ++ activeAt id (some (s'.runAgentPrompt id
      messages).2) ++ l₂ =
      (s'.runAgentPrompt id messages).1.activeRun.toList := by
  rcases runAgentPrompt_cases s' id messages with ⟨-, h⟩ | ⟨hnone, h⟩
  · rw [h]
    dsimp only
    rw [hrun, ← hl, activeAt, activeAt, hruns]
    rfl
  · rw [h]
    exact active_begins hl (hrun.symm.trans hnone) rfl rfl

theorem active_of_goes (h : SessionGoes s id origin outcome s' next) {l₁ l₂ : List Nat}
    (hl : l₁ ++ activeAt id origin.point? ++ l₂ = s.activeRun.toList) :
    l₁ ++ activeAt id next ++ l₂ = s'.activeRun.toList := by
  induction h with
  | waits next hb => exact active_same hl hb.runs rfl
  | queued behavior m ho hm => exact active_same hl ho.runs (by cases behavior <;> rfl)
  | accepted behavior m ho hm => exact active_same hl ho.runs (by cases behavior <;> rfl)
  | nextTurn m ho hm => exact active_same hl ho.runs rfl
  | flushed env next hidle ho hb =>
    exact active_same hl hb.runs
      (congrArg SessionTraffic.activeRun (traffic_flushPendingBashMessages s env.env))
  | built s₀ p m hp hm h ih =>
    rw [← ih, activeAt, activeAt]
    congr 2
    rw [Option.bind_some, Option.bind_some, hp.runs]
    rfl
  | started m queued messages ho hms =>
    subst ho
    exact active_runAgentPrompt ((s.accept m).give (m :: messages)) _ hl rfl rfl
  | triggered m deliverAs ho hidle =>
    subst ho
    exact active_runAgentPrompt (s.give [.custom m]) _ hl rfl rfl
  | reported m pending ho hout =>
    subst ho
    exact active_same hl (messageEnd_runs s m pending).symm rfl
  | emitted m hm ho hout =>
    subst ho
    exact active_same hl (messageEnd_runs s m []).symm rfl
  | polled queue ho =>
    subst ho
    obtain ⟨steeringQueue, followUpQueue, heq⟩ := pollQueue_eq s queue
    exact active_same hl rfl (by rw [heq])
  | ended ho =>
    subst ho
    have hlen := congrArg List.length hl
    have hle : s.activeRun.toList.length ≤ 1 := by cases s.activeRun <;> simp
    rw [List.length_append, List.length_append] at hlen
    have hone : (activeAt id (SessionOrigin.point (.running [])).point?).length = 1 := rfl
    obtain rfl : l₁ = [] := List.length_eq_zero_iff.mp (by omega)
    obtain rfl : l₂ = [] := List.length_eq_zero_iff.mp (by omega)
    rfl
  | persisted env m pending ho =>
    subst ho
    exact active_same hl rfl (congrArg SessionTraffic.activeRun (traffic_persist s env.env m))
  | retried ho =>
    subst ho
    exact active_same hl rfl
      (congrArg SessionTraffic.activeRun (traffic_removeLastAssistant s))
  | forgot next hb => exact active_same hl hb.runs rfl
  | resumed ho hrun => exact active_begins hl hrun rfl rfl
  | resumedQueued queue ho hrun => exact active_begins hl hrun rfl rfl
  | settles env ho hout =>
    have hrun := congrArg SessionTraffic.activeRun (traffic_settle s env.env)
    rw [activeAt, if_neg (by rw [ho.runs]; nofun)] at hl
    exact hl.trans (congrArg Option.toList hrun).symm
  | settled ho =>
    subst ho
    exact active_same hl rfl (by
      obtain ⟨history, promise, h, -⟩ := settled_eq s
      rw [h])
  | removed next hb he =>
    exact active_same hl hb.runs
      (congrArg SessionTraffic.activeRun (traffic_removeLastAssistant s))
  | removedError next hb he =>
    exact active_same hl hb.runs (congrArg SessionTraffic.activeRun (traffic_removeLastError s))
  | installed env c s' next hb he hi hc =>
    exact active_same hl hb.runs (congrArg SessionTraffic.activeRun (traffic_installCompaction s hi))
  | reconnected ho => exact active_same hl ho.runs rfl
  | waitsIdle connected next hb => 
    refine active_same hl hb.runs ?_
    rcases AgentSession.waitForIdle_eq { s with connected } with ⟨-, h⟩ | ⟨_, _, h⟩
    · rw [h]
      rfl
    · rw [h]
  | bash env result ho =>
    exact active_same hl ho.runs
      (congrArg SessionTraffic.activeRun (traffic_recordBashResult s env.env result))
  | custom env m ho hidle => exact active_same hl ho.runs rfl

/-! ### Only messages with an entry are reported -/

/-- Messages with an entry, in the session and in the hands of a call. -/
def Carries (t : SessionTraffic) (point : Option SessionPoint) : Prop :=
  (∀ m ∈ t.waiting, m.isPersisted = true) ∧ ∀ m ∈ carriedAt point, m.isPersisted = true

variable {point : Option SessionPoint}

theorem Carries.rest {t : SessionTraffic} (h : ∀ m ∈ t.waiting, m.isPersisted = true)
    (hpoint : carriedAt point = []) :
    Carries t point :=
  ⟨h, fun _ hm => absurd (hpoint ▸ hm) List.not_mem_nil⟩

theorem Carries.moves {t t' : SessionTraffic} (h : Carries t point) (hb : Beside origin next)
    (ht : t'.waiting = t.waiting) :
    Carries t' next := by
  refine ⟨ht ▸ h.1, ?_⟩
  rw [hb.carried]
  nofun

variable {m : AgentMessage}

theorem Carries.enqueue (h : Carries s.traffic point) (behavior : StreamingBehavior)
    (hm : m.isInput = true) :
    Carries (s.enqueue behavior m).traffic none := by
  refine ⟨fun x hx => ?_, nofun⟩
  suffices hmem : x ∈ s.traffic.waiting ∨ x = m by
    rcases hmem with hmem | rfl
    · exact h.1 x hmem
    · exact AgentMessage.isPersisted_of_isInput hm
  cases behavior <;>
    · simp only [AgentSession.enqueue, AgentSession.give, AgentSession.traffic,
        SessionTraffic.waiting, PendingMessageQueue.enqueue, List.mem_append,
        List.mem_singleton] at hx ⊢
      tauto

theorem carries_pollQueue (h : Carries s.traffic point) (queue : QueueKind) :
    Carries (s.pollQueue queue).1.traffic (some (.running (s.pollQueue queue).2)) := by
  have hmem : ∀ m, m ∈ (s.pollQueue queue).1.traffic.waiting ∨ m ∈ (s.pollQueue queue).2 →
      m ∈ s.traffic.waiting := by
    intro m hm
    cases queue with
    | steering =>
      have hdrain := congrArg (m ∈ ·) s.steeringQueue.drain_append
      simp only [List.mem_append, eq_iff_iff] at hdrain
      simp only [AgentSession.pollQueue, AgentSession.traffic, SessionTraffic.waiting,
        List.mem_append] at hm ⊢
      tauto
    | followUp =>
      have hdrain := congrArg (m ∈ ·) s.followUpQueue.drain_append
      simp only [List.mem_append, eq_iff_iff] at hdrain
      simp only [AgentSession.pollQueue, AgentSession.traffic, SessionTraffic.waiting,
        List.mem_append] at hm ⊢
      tauto
  exact ⟨fun m hm => h.1 m (hmem m (.inl hm)), fun m hm => h.1 m (hmem m (.inr hm))⟩

theorem carries_runAgentPrompt (s' : AgentSession) {messages : List AgentMessage}
    (h : Carries s.traffic point) (hs : s'.traffic.waiting = s.traffic.waiting)
    (hmessages : ∀ m ∈ messages, m.isPersisted = true) :
    Carries (s'.runAgentPrompt id messages).1.traffic (some (s'.runAgentPrompt id messages).2) := by
  rcases runAgentPrompt_cases s' id messages with ⟨-, heq⟩ | ⟨-, heq⟩
  · rw [heq]
    exact ⟨hs ▸ h.1, nofun⟩
  · rw [heq]
    exact ⟨hs ▸ h.1, hmessages⟩

theorem carries_messageEnd {pending : List AgentMessage}
    (hs : ∀ x ∈ s.traffic.waiting, x.isPersisted = true)
    (hpending : ∀ x ∈ m :: pending, x.isPersisted = true) :
    Carries (s.messageEnd m pending).1.traffic (some (s.messageEnd m pending).2) := by
  refine ⟨hs, fun x hx => ?_⟩
  unfold AgentSession.messageEnd at hx
  dsimp only at hx
  split at hx
  · exact hpending x hx
  · exact hpending x (List.mem_cons_of_mem m hx)

theorem carries_of_goes (h : SessionGoes s id origin outcome s' next)
    (hc : Carries s.traffic origin.point?) : Carries s'.traffic next := by
  induction h with
  | waits next hb => exact hc.moves hb rfl
  | queued behavior m ho hm => exact hc.enqueue behavior hm
  | accepted behavior m ho hm =>
    have h := hc.enqueue behavior hm
    cases behavior <;> exact h
  | nextTurn m ho hm =>
    refine .rest (fun x hx => ?_) rfl
    rcases List.mem_append.mp hx with hx | hx
    · exact hc.1 x (List.mem_append_left _ hx)
    · rcases List.mem_append.mp hx with hx | hx
      · exact hc.1 x (List.mem_append_right _ hx)
      · obtain rfl := List.mem_singleton.mp hx
        exact AgentMessage.isPersisted_of_isInput hm
  | flushed env next hidle ho hb =>
    rw [traffic_flushPendingBashMessages]
    exact hc.moves hb rfl
  | built s₀ p m hp hm h ih =>
    refine ⟨fun x hx => ih.1 x ?_, fun x hx => ?_⟩
    · refine List.mem_append_left _ ?_
      simpa [AgentSession.traffic, SessionTraffic.waiting] using hx
    · rcases List.mem_cons.mp hx with rfl | hx
      · exact AgentMessage.isPersisted_of_isInput hm
      · exact ih.1 x (List.mem_append_right _ hx)
  | started m queued messages ho hms =>
    subst ho
    refine carries_runAgentPrompt ((s.accept m).give (m :: messages)) hc rfl fun x hx => ?_
    rcases List.mem_append.mp hx with hx | hx
    · exact hc.2 x hx
    · exact AgentMessage.isPersisted_of_isInput (hms x hx)
  | triggered m deliverAs ho hidle =>
    refine carries_runAgentPrompt (s.give [.custom m]) hc rfl fun x hx => ?_
    obtain rfl := List.mem_singleton.mp hx
    rfl
  | reported m pending ho hout =>
    subst ho
    exact carries_messageEnd hc.1 hc.2
  | emitted m hm ho hout =>
    refine carries_messageEnd hc.1 fun x hx => ?_
    obtain rfl := List.mem_singleton.mp hx
    exact AgentMessage.isPersisted_of_isResponse hm
  | polled queue ho => exact carries_pollQueue hc queue
  | ended ho => exact .rest hc.1 rfl
  | persisted env m pending ho =>
    subst ho
    rw [traffic_persist]
    exact ⟨hc.1, fun x hx => hc.2 x (List.mem_cons_of_mem m hx)⟩
  | retried ho =>
    have htraffic : ({ s.removeLastAssistant with lastAssistantMessage := none } :
        AgentSession).traffic = s.traffic := traffic_removeLastAssistant s
    rw [htraffic]
    exact .rest hc.1 rfl
  | forgot next hb => exact hc.moves hb rfl
  | resumed ho hrun => exact .rest hc.1 rfl
  | resumedQueued queue ho hrun => exact carries_pollQueue hc queue
  | settles env ho hout =>
    rw [traffic_settle]
    exact .rest hc.1 rfl
  | settled ho =>
    obtain ⟨history, promise, h, -⟩ := settled_eq s
    rw [h]
    exact .rest hc.1 rfl
  | removed next hb he =>
    rw [traffic_removeLastAssistant]
    exact hc.moves hb rfl
  | removedError next hb he =>
    rw [traffic_removeLastError]
    exact hc.moves hb rfl
  | installed env c s' next hb he hi hcompacted =>
    rw [traffic_installCompaction s hi]
    exact hc.moves hb rfl
  | reconnected ho => exact .rest hc.1 rfl
  | waitsIdle connected next hb =>
    refine hc.moves hb ?_
    rcases AgentSession.waitForIdle_eq { s with connected } with ⟨-, h⟩ | ⟨_, _, h⟩
    · rw [h]
      rfl
    · rw [h]
      rfl
  | bash env result ho =>
    rw [traffic_recordBashResult]
    exact .rest hc.1 rfl
  | custom env m ho hidle => exact .rest hc.1 rfl

/-! ### The transcript and the session -/

theorem agrees_foldl_appendDirectly {env : Env} (hfresh : env.Fresh)
    (ms : List BashExecutionMessage) (h : s.record.Agrees []) :
    (ms.foldl (fun s m => s.appendDirectly env (.bashExecution m)) s).record.Agrees [] := by
  induction ms generalizing s with
  | nil => exact h
  | cons m ms ih => exact ih (h.joins hfresh (conveyed_message (.bashExecution m) rfl))

theorem agrees_flushPendingBashMessages {env : Env} (hfresh : env.Fresh)
    (h : s.record.Agrees []) : (s.flushPendingBashMessages env).record.Agrees [] :=
  agrees_foldl_appendDirectly hfresh s.pendingBashMessages h

theorem agrees_removeLastAssistant {handled : List AgentMessage} (h : s.record.Agrees handled) :
    s.removeLastAssistant.record.Agrees handled := by
  unfold AgentSession.removeLastAssistant
  split
  · rename_i m hlast
    obtain ⟨messages, hmessages⟩ := List.getLast?_eq_some_iff.mp hlast
    have h' := h.removes hmessages
    rw [hmessages, List.dropLast_concat]
    exact h'
  · exact h

theorem agrees_runAgentPrompt {handled : List AgentMessage} (s' : AgentSession)
    (messages : List AgentMessage) (h : s'.record.Agrees handled) :
    (s'.runAgentPrompt id messages).1.record.Agrees handled ∧
      handledAt (some (s'.runAgentPrompt id messages).2) = [] := by
  rcases runAgentPrompt_cases s' id messages with ⟨-, heq⟩ | ⟨-, heq⟩
  · rw [heq]
    exact ⟨h.runs, rfl⟩
  · rw [heq]
    exact ⟨h.runs, rfl⟩

theorem agrees_messageEnd {pending : List AgentMessage} (h : s.record.Agrees [])
    (hconnected : s.connected = true) (hflag : s.isAgentRunActive = true) :
    (s.messageEnd m pending).1.record.Agrees (handledAt (some (s.messageEnd m pending).2)) := by
  have hat : handledAt (some (s.messageEnd m pending).2) = [m] := by
    rw [AgentSession.messageEnd, hconnected]
    rfl
  rw [hat]
  exact h.emits hflag m

theorem agrees_persist {env : Env} (hfresh : env.Fresh) (hm : m.isPersisted = true)
    (h : s.record.Agrees [m]) :
    (s.persist env m).record.Agrees [] := by
  have hsome : (s.config.redactBeforePersist m).persistedBody.isSome = true :=
    (s.config.keepsRole m).trans hm
  obtain ⟨body, hbody⟩ := Option.isSome_iff_exists.mp hsome
  have h' := h.persists hfresh hbody
  unfold AgentSession.persist
  cases m with
  | assistant a =>
    dsimp only
    rw [hbody]
    exact h'
  | _ =>
    dsimp only
    rw [hbody]
    exact h'

/-- What a step keeps of the agreement, where a loop emits only while the
session is subscribed and marked as running, and no compaction arrives and no
run is left while a message is handled. -/
theorem agrees_of_goes (h : SessionGoes s id origin outcome s' next) {l₁ l₂ : List AgentMessage}
    (ha : s.record.Agrees (l₁ ++ handledAt origin.point? ++ l₂))
    (halone : origin.point?.bind SessionPoint.runs = some true → l₁ = [] ∧ l₂ = [])
    (hpersisted : ∀ m ∈ carriedAt origin.point?, m.isPersisted = true)
    (hemits : ∀ pending, origin = .point (.running pending) →
      (outcome = .reports ∨ ∃ m, outcome = .emits m) →
        s.connected = true ∧ s.isAgentRunActive = true)
    (hquiet : (origin.leavesRun outcome = true ∨ ∃ c, outcome = .compacted c) →
      l₁ ++ handledAt origin.point? ++ l₂ = []) :
    s'.record.Agrees (l₁ ++ handledAt next ++ l₂) := by
  have hnone (hempty : l₁ ++ handledAt origin.point? ++ l₂ = []) : l₁ = [] ∧ l₂ = [] := by
    simp only [List.append_eq_nil_iff] at hempty
    exact ⟨hempty.1.1, hempty.2⟩
  have hkeeps (next : Option SessionPoint) (hat : handledAt origin.point? = [])
      (hnext : handledAt next = []) : s.record.Agrees (l₁ ++ handledAt next ++ l₂) := by
    rwa [hat, ← hnext] at ha
  -- a step that writes to the session, with nothing handled
  have hwrites (next : Option SessionPoint) (hempty : l₁ ++ handledAt origin.point? ++ l₂ = [])
      (hnext : handledAt next = []) (t : SessionRecord) (ht : t.Agrees []) :
      t.Agrees (l₁ ++ handledAt next ++ l₂) := by
    obtain ⟨rfl, rfl⟩ := hnone hempty
    rw [hnext]
    exact ht
  induction h with
  | waits next hb => exact hkeeps next hb.handled.1 hb.handled.2
  | queued behavior m ho hm =>
    have h := hkeeps none ho.handled rfl
    cases behavior <;> exact h
  | accepted behavior m ho hm =>
    have h := hkeeps none ho.handled rfl
    cases behavior <;> exact h
  | nextTurn m ho hm => exact hkeeps none ho.handled rfl
  | flushed env next hidle ho hb =>
    have hempty := ha.idle hidle
    rw [hempty] at ha
    exact hwrites next hempty hb.handled.2 _ (agrees_flushPendingBashMessages env.fresh ha)
  | built s₀ p m hp hm h ih =>
    rw [show handledAt (some p) = [] from hp.handled] at ih
    exact ih
  | started m queued messages ho hms =>
    subst ho
    obtain ⟨h, hnext⟩ := agrees_runAgentPrompt ((s.accept m).give (m :: messages))
      (m :: queued ++ messages) ha
    rw [hnext]
    exact h
  | triggered m deliverAs ho hidle =>
    subst ho
    obtain ⟨h, hnext⟩ := agrees_runAgentPrompt (s.give [.custom m]) [.custom m] ha
    rw [hnext]
    exact h
  | reported m pending ho hout =>
    obtain ⟨hconnected, hflag⟩ := hemits _ ho (.inl hout)
    subst ho
    obtain ⟨rfl, rfl⟩ := halone rfl
    rw [List.nil_append, List.append_nil]
    exact agrees_messageEnd ha hconnected hflag
  | emitted m hm ho hout =>
    obtain ⟨hconnected, hflag⟩ := hemits _ ho (.inr ⟨m, hout⟩)
    subst ho
    obtain ⟨rfl, rfl⟩ := halone rfl
    rw [List.nil_append, List.append_nil]
    exact agrees_messageEnd ha hconnected hflag
  | polled queue ho =>
    subst ho
    obtain ⟨steeringQueue, followUpQueue, heq⟩ := pollQueue_eq s queue
    rw [heq]
    exact ha
  | ended ho =>
    subst ho
    exact ha
  | persisted env m pending ho =>
    subst ho
    obtain ⟨rfl, rfl⟩ := halone rfl
    exact agrees_persist env.fresh (hpersisted m List.mem_cons_self) ha
  | retried ho =>
    subst ho
    exact agrees_removeLastAssistant ha
  | forgot next hb => exact hkeeps next hb.handled.1 hb.handled.2
  | resumed ho hrun => exact hkeeps (some (.running [])) ho.handled rfl
  | resumedQueued queue ho hrun =>
    obtain ⟨steeringQueue, followUpQueue, heq⟩ := pollQueue_eq s queue
    have h := hkeeps (some (.running (s.pollQueue queue).2)) ho.handled rfl
    rw [heq]
    exact h
  | settles env ho hl =>
    have hempty := hquiet (.inl hl)
    rw [hempty] at ha
    exact hwrites _ hempty rfl _ (agrees_flushPendingBashMessages env.fresh ha).rests
  | settled ho =>
    subst ho
    obtain ⟨history, promise, h, hemitted, hsaves, hremoved⟩ := settled_eq s
    have hrecord : s.settled.record = s.record := by
      rw [h]
      simp only [AgentSession.record, hemitted, hsaves, hremoved]
    rw [hrecord]
    exact ha
  | removed next hb he =>
    exact agrees_removeLastAssistant (hkeeps next hb.handled.1 hb.handled.2)
  | removedError next hb he =>
    have h := hkeeps next hb.handled.1 hb.handled.2
    rcases s.removeLastError_eq with heq | heq
    · rw [heq]
      exact h
    · rw [heq]
      exact agrees_removeLastAssistant h
  | installed env c s' next hb he hi hc =>
    have hempty := hquiet (.inr ⟨c, hc⟩)
    rw [hempty] at ha
    obtain ⟨context, hcontext, rfl⟩ := Option.map_eq_some_iff.mp hi
    exact hwrites next hempty hb.handled.2 _ (ha.compacts env.fresh rfl hcontext)
  | reconnected ho => exact hkeeps none ho.handled rfl
  | waitsIdle connected next hb =>
    have h := hkeeps next hb.handled.1 hb.handled.2
    rcases AgentSession.waitForIdle_eq { s with connected } with ⟨-, heq⟩ | ⟨_, _, heq⟩
    · rw [heq]
      exact h
    · rw [heq]
      exact h
  | bash env result ho =>
    unfold AgentSession.recordBashResult
    split
    · exact hkeeps none ho.handled rfl
    · rename_i hactive
      have hidle : s.isAgentRunActive = false := by simpa using hactive
      have hempty := ha.idle hidle
      rw [hempty] at ha
      exact hwrites none hempty rfl _
        (ha.joins env.fresh (conveyed_message (.bashExecution result) rfl))
  | custom env m ho hidle =>
    have hempty := ha.idle hidle
    rw [hempty] at ha
    exact hwrites none hempty rfl _
      (ha.joins env.fresh (conveyed_of_persistedBody (m := .custom m) rfl))

end Steps

/-! ## Every run -/

/-- The loop emits a message. -/
def SessionPoint.emits : SessionPoint → SessionAwaited → Bool
  | .running _, .reports | .running _, .emits _ => true
  | _, _ => false

def SessionPoint.replaces (p : SessionPoint) (outcome : SessionAwaited) : Bool :=
  match outcome with
  | .compacted _ => true
  | _ => p.leavesRun outcome

namespace AgentSessionState

def handled (s : AgentSessionState) : List AgentMessage := s.calls.flatMap fun c => c.point.handled

/-- A loop emits a message only while the session is subscribed to it and
marked as running; a compaction arrives, and a run is left, only while no
message is handled. -/
def InOrder (s : AgentSessionState) : AgentSessionAction → Prop
  | .call .. => True
  | .resume _ _ index outcome => ∀ call ∈ s.calls[index]?,
      (call.point.emits outcome = true →
        s.session.connected = true ∧ s.session.isAgentRunActive = true) ∧
      (call.point.replaces outcome = true → s.handled = [])

instance (s : AgentSessionState) (a : AgentSessionAction) : Decidable (s.InOrder a) :=
  match a with
  | .call .. => isTrue trivial
  | .resume _ _ index _ => inferInstanceAs (Decidable (∀ call ∈ s.calls[index]?, _))

/-- Every emitted message has an entry of its own, in the order of the
emissions, but for the one that is handled; and an idle session has the
transcript as its context, up to redaction and to messages removed for a
retry, each of which accounts for one message of the context. -/
structure Agrees (s : AgentSessionState) : Prop where
  emitted : s.session.history.emitted = s.session.history.saves.map Prod.fst ++ s.handled
  saved : (s.session.history.saves.map Prod.snd).Sublist s.session.sessionManager.getEntries
  distinct : (entryIds s.session.sessionManager.getEntries).Nodup
  bodies : ∀ x ∈ s.session.history.saves,
    (s.session.config.redactBeforePersist x.1).persistedBody = some x.2.body
  idle : s.session.isAgentRunActive = false → s.handled = [] ∧ ∃ context removed,
    s.session.sessionManager.buildSessionContext = some context ∧
      removed.Subperm s.session.history.removed ∧
      Matches s.session.config.redactBeforePersist removed s.session.messages context.messages

/-- What every step keeps: the call with an active run is that of the
session, every message on its way has an entry, and transcript and session
agree. -/
structure TranscriptInv (s : AgentSessionState) : Prop where
  active : (s.calls.flatMap fun c => activeAt c.id (some c.point)) = s.session.activeRun.toList
  waiting : ∀ m ∈ s.session.traffic.waiting, m.isPersisted = true
  carried : ∀ c ∈ s.calls, ∀ m ∈ c.point.carried, m.isPersisted = true
  agrees : s.session.record.Agrees s.handled

variable {s s' : AgentSessionState}

theorem TranscriptInv.meets (hi : s.TranscriptInv) : s.Agrees where
  emitted := hi.agrees.emitted
  saved := hi.agrees.saved
  distinct := hi.agrees.tree.tree.nodup
  bodies := hi.agrees.bodies
  idle hidle := by
    have hempty := hi.agrees.idle hidle
    obtain ⟨context, removed, hcontext, hremoved, hmatches⟩ := hi.agrees.transcript
    rw [hempty, List.map_nil, List.append_nil] at hmatches
    exact ⟨hempty, context, removed, hcontext, hremoved, hmatches⟩

theorem flatMap_of_calls {β : Type} (f : SessionCall → List β) {calls : List SessionCall} {id : Nat}
    {p : Option SessionPoint} {before after : List SessionCall}
    (h : calls = before ++ (p.map (SessionCall.mk id)).toList ++ after) :
    calls.flatMap f = before.flatMap f ++ p.elim [] (fun p => f ⟨id, p⟩) ++ after.flatMap f := by
  rw [h, List.flatMap_append, List.flatMap_append]
  cases p with
  | none => rfl
  | some p =>
    congr 2
    exact List.append_nil _

theorem handled_of_active {calls : List SessionCall}
    (h : (calls.flatMap fun c => activeAt c.id (some c.point)) = []) :
    (calls.flatMap fun c => c.point.handled) = [] := by
  rw [List.flatMap_eq_nil_iff] at h ⊢
  intro c hc
  have hactive := h c hc
  generalize c.point = p at hactive ⊢
  cases p with
  | handling m pending => cases hactive
  | _ => rfl

theorem TranscriptInv.step {a : AgentSessionAction} (hi : s.TranscriptInv) (hok : s.InOrder a)
    (h : s.step a = some s') : s'.TranscriptInv := by
  obtain ⟨id, origin, next, before, after, hbegins, hcalls, hcalls', hgoes⟩ := stepped_of_step h
  have hactiveAt (p : Option SessionPoint) :
      p.elim [] (fun p => activeAt id (some p)) = activeAt id p := by
    cases p <;> rfl
  have hactive := hi.active
  rw [flatMap_of_calls _ hcalls, hactiveAt] at hactive
  have hhandled : s.handled = before.flatMap (fun c => c.point.handled) ++
      handledAt origin.point? ++ after.flatMap fun c => c.point.handled :=
    flatMap_of_calls (fun c => c.point.handled) hcalls
  have hcarries : Carries s.session.traffic origin.point? := by
    refine ⟨hi.waiting, fun m hm => ?_⟩
    cases hp : origin.point? with
    | none =>
      rw [hp] at hm
      cases hm
    | some p =>
      rw [hp] at hm
      refine hi.carried ⟨id, p⟩ ?_ m hm
      rw [hcalls, hp]
      simp
  have hcarries' := carries_of_goes hgoes hcarries
  refine ⟨?_, hcarries'.1, fun c hc => ?_, ?_⟩
  · rw [flatMap_of_calls _ hcalls', hactiveAt]
    exact active_of_goes hgoes hactive
  · rw [hcalls'] at hc
    have hold : c ∈ before ∨ c ∈ after → c ∈ s.calls := by
      rw [hcalls]
      simp only [List.mem_append]
      tauto
    rcases List.mem_append.mp hc with hc | hc
    · rcases List.mem_append.mp hc with hc | hc
      · exact hi.carried c (hold (.inl hc))
      · obtain ⟨p, hp, rfl⟩ := Option.map_eq_some_iff.mp (Option.mem_toList.mp hc)
        intro m hm
        refine hcarries'.2 m ?_
        rw [hp]
        exact hm
    · exact hi.carried c (hold (.inr hc))
  · have hnext : s'.handled = before.flatMap (fun c => c.point.handled) ++ handledAt next ++
        after.flatMap fun c => c.point.handled :=
      flatMap_of_calls (fun c => c.point.handled) hcalls'
    rw [hnext]
    refine agrees_of_goes hgoes (hhandled ▸ hi.agrees) (fun hruns => ?_) hcarries.2
      (fun pending ho hout => ?_) fun hquiet => ?_
    · -- the run is that of this call, so that the others handle nothing
      rw [activeAt, if_pos hruns] at hactive
      have hlen := congrArg List.length hactive
      have hle : s.session.activeRun.toList.length ≤ 1 := by
        cases s.session.activeRun <;> simp
      simp only [List.length_append, List.length_singleton] at hlen
      exact ⟨handled_of_active (List.length_eq_zero_iff.mp (by omega)),
        handled_of_active (List.length_eq_zero_iff.mp (by omega))⟩
    · cases a with
      | call env now command => exact absurd (hbegins.symm.trans ho) nofun
      | resume env now index outcome =>
        obtain ⟨call, hcall, rfl⟩ := hbegins
        refine (hok call hcall).1 ?_
        rw [SessionOrigin.point.inj ho]
        rcases hout with hout | ⟨m, hout⟩
        · rw [show outcome = .reports from hout]
          rfl
        · rw [show outcome = .emits m from hout]
          rfl
    · rw [← hhandled]
      cases a with
      | call env now command =>
        obtain rfl := hbegins
        rcases hquiet with hleaves | ⟨c, hout⟩
        · cases hleaves
        · cases hout
      | resume env now index outcome =>
        obtain ⟨call, hcall, rfl⟩ := hbegins
        refine (hok call hcall).2 ?_
        rcases hquiet with hleaves | ⟨c, hout⟩
        · cases outcome with
          | compacted c => rfl
          | _ => exact hleaves
        · rw [show outcome = .compacted c from hout]
          rfl

theorem TranscriptInv.new {config : SessionConfig} {steeringMode followUpMode : QueueMode}
    {sessionManager : SessionManager} {context : SessionContext}
    (htree : SessionInvariant sessionManager)
    (hcontext : sessionManager.buildSessionContext = some context) :
    (new config steeringMode followUpMode sessionManager context.messages).TranscriptInv where
  active := rfl
  waiting _ hm := nomatch hm
  carried _ hc := nomatch hc
  agrees := by
    refine ⟨htree, rfl, List.nil_sublist _, (fun _ hx => nomatch hx),
      fun hne => absurd rfl hne, context, [], hcontext, List.nil_subperm, ?_⟩
    change Matches _ [] context.messages (context.messages ++ [])
    rw [List.append_nil]
    exact .refl _

/-- In every run of a session over a session file and its context whose
steps are in order. -/
theorem transcript_agrees {config : SessionConfig} {steeringMode followUpMode : QueueMode}
    {sessionManager : SessionManager} {context : SessionContext}
    (htree : SessionInvariant sessionManager)
    (hcontext : sessionManager.buildSessionContext = some context)
    (h : Reaches step InOrder
      (new config steeringMode followUpMode sessionManager context.messages) s) : s.Agrees :=
  (h.invariant (TranscriptInv.new htree hcontext)
    fun _ _ _ hi hok hstep => hi.step hok hstep).meets

/-! ### Two runs -/

theorem quietManager_invariant : SessionInvariant quietManager :=
  ⟨⟨_, rfl⟩, EntryTree.nil, nofun, rfl, rfl, rfl⟩

/-- A bash result that arrives during a run, and one of an idle session. -/
def listed : BashExecutionMessage :=
  { command := "ls", output := "", exitCode := some 0, cancelled := false, truncated := false
    timestamp := 0 }

theorem transcript_agrees_bash : ∃ s, Reaches step InOrder quietSession s ∧ s.calls = [] ∧
    s.session.messages = [(ask "go").message 0, replied .stop, .bashExecution listed] ∧
    s.Agrees := by
  have hrun : (Machine.run step InOrder quietSession
      [.call anyEnv 0 (.prompt (ask "go")), .call anyEnv 0 .executeBash,
        .resume anyEnv 0 0 (.messages []), .resume anyEnv 0 0 .reports,
        .resume anyEnv 0 1 (.finished listed), .resume anyEnv 0 0 .ok,
        .resume anyEnv 0 0 (.emits (replied .stop)), .resume anyEnv 0 0 .ok,
        .resume anyEnv 0 0 .ends, .resume anyEnv 0 0 .ok, .resume anyEnv 0 0 (.checks .skip),
        .resume anyEnv 0 0 .ok, .resume anyEnv 0 0 .ok, .resume anyEnv 0 0 .ok]).any (fun s =>
      decide (s.calls = [] ∧ s.session.messages =
        [(ask "go").message 0, replied .stop, .bashExecution listed])) = true := by
    decide +kernel
  obtain ⟨s, hs, hfacts⟩ := (Option.any_eq_true ..).mp hrun
  obtain ⟨hcalls, hmessages⟩ := of_decide_eq_true hfacts
  have hcontext : quietManager.buildSessionContext = some ⟨[], "off", none⟩ := rfl
  have hreach := Machine.reaches_of_run hs
  exact ⟨s, hreach, hcalls, hmessages, transcript_agrees quietManager_invariant hcontext hreach⟩

/-- A compaction called during a run disconnects the session; what the loop
emits until it ends is not appended, and the compaction fails. -/
theorem aborted_message_lost : ∃ s, Reaches step (fun _ _ => True) quietSession s ∧
    s.calls = [] ∧ s.session.isAgentRunActive = false ∧ s.session.connected = true ∧
    s.session.history.removed = [] ∧
    s.session.history.emitted = [(ask "go").message 0, replied .aborted] ∧
    s.session.history.saves.map Prod.fst = [(ask "go").message 0] ∧
    s.session.messages = [(ask "go").message 0, replied .aborted] ∧
    s.session.sessionManager.buildSessionContext.map SessionContext.messages =
      some [(ask "go").message 0] ∧ ¬ s.Agrees := by
  have hrun : (Machine.run step (fun _ _ => True) quietSession
      [.call anyEnv 0 (.prompt (ask "go")), .resume anyEnv 0 0 (.messages []),
        .resume anyEnv 0 0 .reports, .resume anyEnv 0 0 .ok, .call anyEnv 0 .compact,
        .resume anyEnv 0 0 (.emits (replied .aborted)), .resume anyEnv 0 0 .ends,
        .resume anyEnv 0 0 .ok, .resume anyEnv 0 0 .ok, .resume anyEnv 0 0 .ok,
        .resume anyEnv 0 0 .ok, .resume anyEnv 0 0 .failed]).any (fun s =>
      decide (s.calls = [] ∧ s.session.isAgentRunActive = false ∧ s.session.connected = true ∧
        s.session.history.removed = [] ∧
        s.session.history.emitted = [(ask "go").message 0, replied .aborted] ∧
        s.session.history.saves.map Prod.fst = [(ask "go").message 0] ∧
        s.session.messages = [(ask "go").message 0, replied .aborted] ∧
        s.session.sessionManager.buildSessionContext.map SessionContext.messages =
          some [(ask "go").message 0])) = true := by
    decide +kernel
  obtain ⟨s, hs, hfacts⟩ := (Option.any_eq_true ..).mp hrun
  obtain ⟨hcalls, hidle, hconnected, hremoved, hemitted, hsaves, hmessages, hcontext⟩ :=
    of_decide_eq_true hfacts
  refine ⟨s, Machine.reaches_of_run hs, hcalls, hidle, hconnected, hremoved, hemitted, hsaves,
    hmessages, hcontext, fun h => ?_⟩
  have heq := h.emitted
  rw [hemitted, hsaves, handled, hcalls] at heq
  cases heq

end AgentSessionState

end Eagent
