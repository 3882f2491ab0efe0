import Eagent.AgentSession
import Eagent.ContextShape

/-!
# Sessions that differ in what redaction replaces

Two sessions are alike when they hold messages that the redaction does not
tell apart, times aside, and have written the same. Every function of the
session takes alike sessions and alike messages to alike sessions, as long as
what it appends has passed the redaction: an entry is written from the
redacted message (`persist`), or from a message that the redaction leaves as
it is (`appendDirectly`, `appendCustom`).
-/

namespace Eagent

/-! ## Messages and what is written of them -/

/-- What the redaction leaves of a message, times aside, and its kind. -/
def AgentMessage.seen (r : AgentMessage → AgentMessage) (m : AgentMessage) :
    AgentMessage × Option StopReason :=
  ((r m).untimed, m.kind)

def AgentMessage.entryBody : AgentMessage → EntryBody
  | .custom m => .customMessage m.customType (some m.content) m.display m.details
  | m => .message m

theorem AgentMessage.entryBody_of_persistedBody {m : AgentMessage} {body : EntryBody}
    (h : m.persistedBody = some body) : body = m.entryBody := by
  cases m <;> cases h <;> rfl

theorem AgentMessage.persistedBody_untimed (m : AgentMessage) :
    m.untimed.persistedBody = m.persistedBody.map EntryBody.outline := by
  cases m <;> rfl

def EntryBody.Redacted (r : AgentMessage → AgentMessage) (body : EntryBody) : Prop :=
  match body with
  | .message _ | .customMessage .. => ∃ m, body = (r m).entryBody
  | _ => True

theorem EntryBody.redacted_entryBody (r : AgentMessage → AgentMessage) (m : AgentMessage) :
    (r m).entryBody.Redacted r := by
  unfold EntryBody.Redacted
  split
  · exact ⟨m, rfl⟩
  · exact ⟨m, rfl⟩
  · trivial

def SessionEntry.messageBody? (e : SessionEntry) : Option EntryBody :=
  match e.body with
  | .message m => some (.message m.untimed)
  | .customMessage customType content display details =>
      some (.customMessage customType content display details)
  | _ => none

/-- The message entries and custom-message entries of a session, in order,
ids and times aside. -/
def SessionManager.messageBodies (m : SessionManager) : List EntryBody :=
  m.getEntries.filterMap SessionEntry.messageBody?

theorem SessionManager.SameOutline.messageBodies {m m' : SessionManager}
    (h : SameOutline m m') : m.messageBodies = m'.messageBodies := by
  have hbody : ∀ e : SessionEntry, e.outline.messageBody? = e.messageBody? := by
    intro e
    obtain ⟨id, parentId, timestamp, body⟩ := e
    cases body with
    | message m => cases m <;> rfl
    | _ => rfl
  have key : ∀ m : SessionManager, m.messageBodies =
      (m.getEntries.map SessionEntry.outline).filterMap SessionEntry.messageBody? := by
    intro m
    rw [List.filterMap_map]
    exact List.filterMap_congr fun e _ => (hbody e).symm
  rw [key, key, h.entries]

/-- The session had `entries` at the start, and all it has written since is
redacted. -/
def SessionManager.WritesRedacted (r : AgentMessage → AgentMessage) (entries : List SessionEntry)
    (m : SessionManager) : Prop :=
  ∃ new, m.getEntries = entries ++ new ∧ ∀ e ∈ new, e.body.Redacted r

theorem SessionManager.WritesRedacted.appendEntry {r : AgentMessage → AgentMessage}
    {entries : List SessionEntry} {m : SessionManager} (h : WritesRedacted r entries m)
    {entry : SessionEntry} (hentry : entry.body.Redacted r) :
    WritesRedacted r entries (m.appendEntry entry).manager := by
  obtain ⟨new, hnew, hred⟩ := h
  refine ⟨new ++ [entry], ?_, ?_⟩
  · rw [getEntries_appendEntry, hnew, List.append_assoc]
  · intro e he
    rcases List.mem_append.mp he with he | he
    · exact hred e he
    · obtain rfl := List.mem_singleton.mp he
      exact hentry

/-! ## Points, outcomes and calls -/

section Alike

variable (r : AgentMessage → AgentMessage) (clock : Nat → Nat → Prop)

/-- Two texts with images, as user messages, at any two times that the two
sessions may read together. -/
def TextAlike (text : String) (images : List ContentBlock) (text' : String)
    (images' : List ContentBlock) : Prop :=
  ∀ now now', clock now now' →
    AgentMessage.seen r (.user ⟨some (.blocks (.text text :: images)), now⟩) =
    AgentMessage.seen r (.user ⟨some (.blocks (.text text' :: images')), now'⟩)

structure RequestAlike (q q' : PromptRequest) : Prop where
  streamingBehavior : q.streamingBehavior = q'.streamingBehavior
  intercepted : q.intercepted = q'.intercepted
  text : TextAlike r clock q.text q.images q'.text q'.images

/-- The points at which a call holds no message. -/
def SessionPoint.Bare : SessionPoint → Prop
  | .intercepting _ | .checkingAuth _ | .checking .. | .startingHook .. | .running _
  | .handling .. => False
  | _ => True

inductive PointAlike : SessionPoint → SessionPoint → Prop
  | bare (p : SessionPoint) (hp : p.Bare) : PointAlike p p
  | intercepting {q q' : PromptRequest} (h : RequestAlike r clock q q') :
      PointAlike (.intercepting q) (.intercepting q')
  | checkingAuth {q q' : PromptRequest} (h : RequestAlike r clock q q') :
      PointAlike (.checkingAuth q) (.checkingAuth q')
  | checking {q q' : PromptRequest} (h : RequestAlike r clock q q') (point : CompactionPoint) :
      PointAlike (.checking q point) (.checking q' point)
  | startingHook {m m' : AgentMessage} {queued queued' : List AgentMessage}
      (hm : m.seen r = m'.seen r)
      (hqueued : queued.map (AgentMessage.seen r) = queued'.map (AgentMessage.seen r)) :
      PointAlike (.startingHook m queued) (.startingHook m' queued')
  | running {pending pending' : List AgentMessage}
      (h : pending.map (AgentMessage.seen r) = pending'.map (AgentMessage.seen r)) :
      PointAlike (.running pending) (.running pending')
  | handling {m m' : AgentMessage} {pending pending' : List AgentMessage}
      (hm : m.seen r = m'.seen r)
      (h : pending.map (AgentMessage.seen r) = pending'.map (AgentMessage.seen r)) :
      PointAlike (.handling m pending) (.handling m' pending')

def SessionAwaited.Bare : SessionAwaited → Prop
  | .continued .. | .messages _ | .emits _ | .compacted _ | .finished _ => False
  | _ => True

/-- Two compactions keep the entries from the same one on; what they say may
differ. -/
inductive OutcomeAlike : SessionAwaited → SessionAwaited → Prop
  | bare (o : SessionAwaited) (ho : o.Bare) : OutcomeAlike o o
  | continued {text text' : String} {images images' : List ContentBlock}
      (h : TextAlike r clock text images text' images') :
      OutcomeAlike (.continued text images) (.continued text' images')
  | messages {ms ms' : List CustomMessage}
      (h : ms.map (fun m => AgentMessage.seen r (.custom m)) =
        ms'.map (fun m => AgentMessage.seen r (.custom m))) :
      OutcomeAlike (.messages ms) (.messages ms')
  | emits {m m' : AgentMessage} (h : m.seen r = m'.seen r) : OutcomeAlike (.emits m) (.emits m')
  | compacted {c c' : CompactionData} (h : c.firstKeptEntryId = c'.firstKeptEntryId) :
      OutcomeAlike (.compacted c) (.compacted c')
  | finished {b b' : BashExecutionMessage}
      (h : AgentMessage.seen r (.bashExecution b) = AgentMessage.seen r (.bashExecution b')) :
      OutcomeAlike (.finished b) (.finished b')

inductive CommandAlike : SessionCommand → SessionCommand → Prop
  | prompt {q q' : PromptRequest} (h : RequestAlike r clock q q') :
      CommandAlike (.prompt q) (.prompt q')
  | queue (behavior : StreamingBehavior) {text text' : String}
      {images images' : List ContentBlock} (h : TextAlike r clock text images text' images') :
      CommandAlike (.queue behavior text images) (.queue behavior text' images')
  | sendCustomMessage {m m' : CustomMessage} (deliverAs : Option DeliverAs) (triggerTurn : Bool)
      (h : AgentMessage.seen r (.custom m) = AgentMessage.seen r (.custom m')) :
      CommandAlike (.sendCustomMessage m deliverAs triggerTurn)
        (.sendCustomMessage m' deliverAs triggerTurn)
  | executeBash : CommandAlike .executeBash .executeBash
  | compact : CommandAlike .compact .compact
  | abort : CommandAlike .abort .abort
  | waitForIdle : CommandAlike .waitForIdle .waitForIdle

end Alike

/-! ## Sessions -/

structure QueueAlike (r : AgentMessage → AgentMessage) (q q' : PendingMessageQueue) : Prop where
  messages : q.messages.map (AgentMessage.seen r) = q'.messages.map (AgentMessage.seen r)
  mode : q.mode = q'.mode

/-- Of the transcript only the kinds of its messages matter: they are not
written again. A deferred bash result is written as it is. -/
structure AgentSession.Alike (c : SessionConfig) (entries : List SessionEntry)
    (s s' : AgentSession) : Prop where
  config : s.config = c
  config' : s'.config = c
  messages : s.messages.map AgentMessage.kind = s'.messages.map AgentMessage.kind
  steering : QueueAlike c.redactBeforePersist s.steeringQueue s'.steeringQueue
  followUp : QueueAlike c.redactBeforePersist s.followUpQueue s'.followUpQueue
  activeRun : s.activeRun = s'.activeRun
  isAgentRunActive : s.isAgentRunActive = s'.isAgentRunActive
  idleWaitPromise : s.idleWaitPromise = s'.idleWaitPromise
  nextPromise : s.nextPromise = s'.nextPromise
  nextTurn : s.pendingNextTurnMessages.map (AgentMessage.seen c.redactBeforePersist) =
    s'.pendingNextTurnMessages.map (AgentMessage.seen c.redactBeforePersist)
  bash : s.pendingBashMessages.map (fun b => (AgentMessage.bashExecution b).untimed) =
    s'.pendingBashMessages.map (fun b => (AgentMessage.bashExecution b).untimed)
  bashPasses : ∀ b ∈ s.pendingBashMessages,
    c.redactBeforePersist (.bashExecution b) = .bashExecution b
  connected : s.connected = s'.connected
  last : s.lastAssistantMessage.map (·.stopReason) = s'.lastAssistantMessage.map (·.stopReason)
  manager : s.sessionManager.SameOutline s'.sessionManager
  writes : s.sessionManager.WritesRedacted c.redactBeforePersist entries

/-! ## Queues -/

section Queues

variable {r : AgentMessage → AgentMessage} {q q' : PendingMessageQueue}

theorem QueueAlike.enqueue (h : QueueAlike r q q') {m m' : AgentMessage}
    (hm : m.seen r = m'.seen r) : QueueAlike r (q.enqueue m) (q'.enqueue m') := by
  refine ⟨?_, h.mode⟩
  simp only [PendingMessageQueue.enqueue, List.map_append, List.map_cons, List.map_nil,
    h.messages, hm]

theorem QueueAlike.hasItems (h : QueueAlike r q q') : q.hasItems = q'.hasItems := by
  have hempty : q.messages.isEmpty = q'.messages.isEmpty := by
    rw [← List.isEmpty_map (f := AgentMessage.seen r), h.messages, List.isEmpty_map]
  rw [PendingMessageQueue.hasItems, PendingMessageQueue.hasItems, hempty]

theorem QueueAlike.drain (h : QueueAlike r q q') :
    q.drain.1.map (AgentMessage.seen r) = q'.drain.1.map (AgentMessage.seen r) ∧
      QueueAlike r q.drain.2 q'.drain.2 := by
  have hms := h.messages
  unfold PendingMessageQueue.drain
  rw [← h.mode]
  split
  · exact ⟨hms, rfl, rfl⟩
  · match hq : q.messages, hq' : q'.messages with
    | [], [] => exact ⟨rfl, h⟩
    | [], _ :: _ => rw [hq, hq'] at hms; cases hms
    | _ :: _, [] => rw [hq, hq'] at hms; cases hms
    | m :: ms, m' :: ms' =>
      rw [hq, hq'] at hms
      obtain ⟨hm, hrest⟩ := List.cons.inj hms
      exact ⟨by rw [List.map_singleton, List.map_singleton, hm], hrest, rfl⟩

end Queues

namespace AgentSession

/-! ## What the functions keep -/

variable {c : SessionConfig} {clock : Nat → Nat → Prop} {entries : List SessionEntry}
  {s s' : AgentSession} {env env' : Env} {m m' : AgentMessage}

def NextAlike (c : SessionConfig) (clock : Nat → Nat → Prop) (entries : List SessionEntry)
    (x x' : AgentSession × Option SessionPoint) : Prop :=
  x.1.Alike c entries x'.1 ∧ Option.Rel (PointAlike c.redactBeforePersist clock) x.2 x'.2

/-- Alike messages that both pass the redaction unchanged are the same, times
aside. -/
theorem untimed_eq_of_seen {r : AgentMessage → AgentMessage} (h : m.seen r = m'.seen r)
    (hm : r m = m) (hm' : r m' = m') : m.untimed = m'.untimed := by
  have := congrArg Prod.fst h
  rwa [AgentMessage.seen, AgentMessage.seen, hm, hm'] at this

theorem kind_eq_of_seen {r : AgentMessage → AgentMessage} (h : m.seen r = m'.seen r) :
    m.kind = m'.kind :=
  congrArg Prod.snd h

theorem Alike.refl (hc : s.config = c)
    (hbash : ∀ b ∈ s.pendingBashMessages,
      c.redactBeforePersist (.bashExecution b) = .bashExecution b) :
    s.Alike c s.sessionManager.getEntries s where
  config := hc
  config' := hc
  messages := rfl
  steering := ⟨rfl, rfl⟩
  followUp := ⟨rfl, rfl⟩
  activeRun := rfl
  isAgentRunActive := rfl
  idleWaitPromise := rfl
  nextPromise := rfl
  nextTurn := rfl
  bash := rfl
  bashPasses := hbash
  connected := rfl
  last := rfl
  manager := .refl _
  writes := ⟨[], (List.append_nil _).symm, fun _ h => absurd h List.not_mem_nil⟩

namespace Alike

section

variable (h : s.Alike c entries s')
include h

/-- An entry is written, and the transcript may change. -/
theorem record (henv : env.randomUUID = env'.randomUUID) {body body' : EntryBody}
    (hbody : body.outline = body'.outline) (hred : body.Redacted c.redactBeforePersist)
    {ms ms' : List AgentMessage} (hms : ms.map AgentMessage.kind = ms'.map AgentMessage.kind) :
    Alike c entries
      { s with
        messages := ms
        sessionManager :=
          (s.sessionManager.appendEntry (s.sessionManager.nextEntry env body)).manager }
      { s' with
        messages := ms'
        sessionManager :=
          (s'.sessionManager.appendEntry (s'.sessionManager.nextEntry env' body')).manager } :=
  { h with
    messages := hms
    manager := h.manager.appendEntry (h.manager.nextEntry henv hbody)
    writes := h.writes.appendEntry hred }

theorem notice (kind : NoticeKind) :
    (s.notice kind).Alike c entries (s'.notice kind) :=
  { h with }

theorem accept (m m' : AgentMessage) :
    (s.accept m).Alike c entries (s'.accept m') :=
  { h with }

theorem give (ms ms' : List AgentMessage) :
    (s.give ms).Alike c entries (s'.give ms') :=
  { h with }

theorem messagesAppend (hm : m.kind = m'.kind) :
    (s.messages ++ [m]).map AgentMessage.kind = (s'.messages ++ [m']).map AgentMessage.kind := by
  rw [List.map_append, List.map_append, h.messages, List.map_singleton, List.map_singleton, hm]

end

/-! ### Queues -/

theorem enqueue (h : s.Alike c entries s') (behavior : StreamingBehavior)
    (hm : m.seen c.redactBeforePersist = m'.seen c.redactBeforePersist) :
    (s.enqueue behavior m).Alike c entries (s'.enqueue behavior m') := by
  cases behavior with
  | steer => exact { h.give [m] [m'] with steering := h.steering.enqueue hm }
  | followUp => exact { h.give [m] [m'] with followUp := h.followUp.enqueue hm }

theorem pollQueue (h : s.Alike c entries s') (queue : QueueKind) :
    (s.pollQueue queue).1.Alike c entries (s'.pollQueue queue).1 ∧
      (s.pollQueue queue).2.map (AgentMessage.seen c.redactBeforePersist) =
        (s'.pollQueue queue).2.map (AgentMessage.seen c.redactBeforePersist) := by
  cases queue with
  | steering => exact ⟨{ h with steering := h.steering.drain.2 }, h.steering.drain.1⟩
  | followUp => exact ⟨{ h with followUp := h.followUp.drain.2 }, h.followUp.drain.1⟩

theorem hasQueuedMessages (h : s.Alike c entries s') :
    s.hasQueuedMessages = s'.hasQueuedMessages := by
  rw [AgentSession.hasQueuedMessages, AgentSession.hasQueuedMessages, h.steering.hasItems,
    h.followUp.hasItems]

/-! ### Direct appends -/

theorem appendDirectly (h : s.Alike c entries s') (henv : env.randomUUID = env'.randomUUID)
    {b b' : BashExecutionMessage}
    (hb : (AgentMessage.bashExecution b).untimed = (AgentMessage.bashExecution b').untimed)
    (hpass : c.redactBeforePersist (.bashExecution b) = .bashExecution b) :
    (s.appendDirectly env (.bashExecution b)).Alike c entries
      (s'.appendDirectly env' (.bashExecution b')) := by
  have hbody : (EntryBody.message (.bashExecution b)).outline =
      (EntryBody.message (.bashExecution b')).outline := congrArg EntryBody.message hb
  refine h.record henv hbody ?_ (h.messagesAppend rfl)
  exact ⟨.bashExecution b, by rw [hpass]; rfl⟩

theorem appendCustom (h : s.Alike c entries s') (henv : env.randomUUID = env'.randomUUID)
    {m m' : CustomMessage} (hm : (AgentMessage.custom m).untimed = (AgentMessage.custom m').untimed)
    (hpass : c.redactBeforePersist (.custom m) = .custom m) :
    (s.appendCustom env m).Alike c entries (s'.appendCustom env' m') := by
  obtain ⟨htype, hcontent, hdisplay, hdetails, -⟩ :=
    CustomMessage.mk.inj (AgentMessage.custom.inj hm)
  have hbody : (AgentMessage.custom m).entryBody.outline =
      (AgentMessage.custom m').entryBody.outline := by
    rw [AgentMessage.entryBody, AgentMessage.entryBody, htype, hcontent, hdisplay, hdetails]
  refine h.record henv hbody ?_ (h.messagesAppend rfl)
  exact ⟨.custom m, by rw [hpass]⟩

theorem foldl_appendDirectly (henv : env.randomUUID = env'.randomUUID) :
    ∀ {s s' : AgentSession} {bs bs' : List BashExecutionMessage}, s.Alike c entries s' →
      bs.map (fun b => (AgentMessage.bashExecution b).untimed) =
        bs'.map (fun b => (AgentMessage.bashExecution b).untimed) →
      (∀ b ∈ bs, c.redactBeforePersist (.bashExecution b) = .bashExecution b) →
      (bs.foldl (fun s b => s.appendDirectly env (.bashExecution b)) s).Alike c entries
        (bs'.foldl (fun s b => s.appendDirectly env' (.bashExecution b)) s')
  | _, _, [], [], h, _, _ => h
  | _, _, [], _ :: _, _, hbs, _ => by cases hbs
  | _, _, _ :: _, [], _, hbs, _ => by cases hbs
  | _, _, b :: bs, b' :: bs', h, hbs, hpass => by
    obtain ⟨hb, hrest⟩ := List.cons.inj hbs
    rw [List.foldl_cons, List.foldl_cons]
    exact foldl_appendDirectly henv (h.appendDirectly henv hb (hpass b List.mem_cons_self))
      hrest fun x hx => hpass x (List.mem_cons_of_mem _ hx)

theorem flushPendingBashMessages (h : s.Alike c entries s')
    (henv : env.randomUUID = env'.randomUUID) :
    (s.flushPendingBashMessages env).Alike c entries (s'.flushPendingBashMessages env') :=
  { foldl_appendDirectly henv h h.bash h.bashPasses with
    bash := rfl
    bashPasses := fun _ h => absurd h List.not_mem_nil }

theorem recordBashResult (h : s.Alike c entries s') (henv : env.randomUUID = env'.randomUUID)
    {b b' : BashExecutionMessage}
    (hb : (AgentMessage.bashExecution b).untimed = (AgentMessage.bashExecution b').untimed)
    (hpass : c.redactBeforePersist (.bashExecution b) = .bashExecution b) :
    (s.recordBashResult env b).Alike c entries (s'.recordBashResult env' b') := by
  unfold AgentSession.recordBashResult
  rw [← h.isAgentRunActive]
  split
  · refine { h with isAgentRunActive := rfl, bash := ?_, bashPasses := ?_ }
    · rw [List.map_append, List.map_append, h.bash, List.map_singleton, List.map_singleton, hb]
    · intro x hx
      rcases List.mem_append.mp hx with hx | hx
      · exact h.bashPasses x hx
      · obtain rfl := List.mem_singleton.mp hx
        exact hpass
  · exact h.appendDirectly henv hb hpass

/-! ### Settling -/

section

variable (h : s.Alike c entries s')
include h

theorem resolveIdleWaitIfIdle :
    s.resolveIdleWaitIfIdle.Alike c entries s'.resolveIdleWaitIfIdle := by
  unfold AgentSession.resolveIdleWaitIfIdle
  rw [← h.isAgentRunActive, ← h.idleWaitPromise]
  split
  · exact h
  · split
    · exact h
    · exact { h with isAgentRunActive := h.isAgentRunActive, idleWaitPromise := rfl }

theorem settle (henv : env.randomUUID = env'.randomUUID) :
    (s.settle env).Alike c entries (s'.settle env') := by
  have hdown : Alike c entries
      { s.flushPendingBashMessages env with isAgentRunActive := false }
      { s'.flushPendingBashMessages env' with isAgentRunActive := false } :=
    { h.flushPendingBashMessages henv with isAgentRunActive := rfl }
  exact hdown.notice _

theorem settled : s.settled.Alike c entries s'.settled :=
  (h.notice _).resolveIdleWaitIfIdle

theorem waitForIdle :
    s.waitForIdle.1.Alike c entries s'.waitForIdle.1 ∧ s.waitForIdle.2 = s'.waitForIdle.2 := by
  unfold AgentSession.waitForIdle
  rw [← h.isAgentRunActive, ← h.idleWaitPromise, ← h.nextPromise]
  split
  · exact ⟨h.notice _, rfl⟩
  · split
    · exact ⟨h, rfl⟩
    · refine ⟨?_, rfl⟩
      exact { h with isAgentRunActive := rfl, idleWaitPromise := rfl, nextPromise := rfl }

end

/-! ### Running the agent -/

variable (clock) in
theorem runAgentPrompt (h : s.Alike c entries s') (id : Nat) {ms ms' : List AgentMessage}
    (hms : ms.map (AgentMessage.seen c.redactBeforePersist) =
      ms'.map (AgentMessage.seen c.redactBeforePersist)) :
    (s.runAgentPrompt id ms).1.Alike c entries (s'.runAgentPrompt id ms').1 ∧
      PointAlike c.redactBeforePersist clock (s.runAgentPrompt id ms).2
        (s'.runAgentPrompt id ms').2 := by
  unfold AgentSession.runAgentPrompt
  rw [← h.activeRun]
  split
  · exact ⟨{ h with isAgentRunActive := rfl, activeRun := rfl }, .bare _ trivial⟩
  · exact ⟨{ h with isAgentRunActive := rfl, activeRun := rfl }, .running hms⟩

theorem getLast?_kind (h : s.Alike c entries s') :
    s.messages.getLast?.map AgentMessage.kind = s'.messages.getLast?.map AgentMessage.kind := by
  rw [← List.getLast?_map, ← List.getLast?_map, h.messages]

variable (clock) in
theorem continueRun (h : s.Alike c entries s') (id : Nat) :
    (s.continueRun id).1.Alike c entries (s'.continueRun id).1 ∧
      PointAlike c.redactBeforePersist clock (s.continueRun id).2 (s'.continueRun id).2 := by
  have hlast := h.getLast?_kind
  have hsteering := h.steering.drain
  have hfollowUp := h.followUp.drain
  unfold AgentSession.continueRun
  rw [← h.activeRun]
  split
  · exact ⟨h, .bare _ trivial⟩
  · match hm : s.messages.getLast?, hm' : s'.messages.getLast? with
    | none, none => exact ⟨h, .bare _ trivial⟩
    | none, some _ => rw [hm, hm'] at hlast; cases hlast
    | some _, none => rw [hm, hm'] at hlast; cases hlast
    | some last, some last' =>
      rw [hm, hm'] at hlast
      have hkind : last.isAssistant = last'.isAssistant := by
        rw [last.isAssistant_eq, last'.isAssistant_eq, Option.some.inj hlast]
      dsimp only
      rw [← hkind]
      split
      · exact ⟨{ h with activeRun := rfl }, .running rfl⟩
      · match hd : s.steeringQueue.drain, hd' : s'.steeringQueue.drain with
        | (m :: ms, queue), (m' :: ms', queue') =>
          rw [hd, hd'] at hsteering
          exact ⟨{ h with steering := hsteering.2, activeRun := rfl }, .running hsteering.1⟩
        | (_ :: _, _), ([], _) => rw [hd, hd'] at hsteering; cases hsteering.1
        | ([], _), (_ :: _, _) => rw [hd, hd'] at hsteering; cases hsteering.1
        | ([], _), ([], _) =>
          dsimp only
          match hf : s.followUpQueue.drain, hf' : s'.followUpQueue.drain with
          | (m :: ms, queue), (m' :: ms', queue') =>
            rw [hf, hf'] at hfollowUp
            refine ⟨?_, .running hfollowUp.1⟩
            exact { h with followUp := hfollowUp.2, activeRun := rfl }
          | (_ :: _, _), ([], _) => rw [hf, hf'] at hfollowUp; cases hfollowUp.1
          | ([], _), (_ :: _, _) => rw [hf, hf'] at hfollowUp; cases hfollowUp.1
          | ([], _), ([], _) => exact ⟨h, .bare _ trivial⟩

variable (clock) in
theorem messageEnd (h : s.Alike c entries s')
    (hm : m.seen c.redactBeforePersist = m'.seen c.redactBeforePersist)
    {pending pending' : List AgentMessage}
    (hpending : pending.map (AgentMessage.seen c.redactBeforePersist) =
      pending'.map (AgentMessage.seen c.redactBeforePersist)) :
    (s.messageEnd m pending).1.Alike c entries (s'.messageEnd m' pending').1 ∧
      PointAlike c.redactBeforePersist clock (s.messageEnd m pending).2
        (s'.messageEnd m' pending').2 := by
  refine ⟨{ h with messages := h.messagesAppend (kind_eq_of_seen hm) }, ?_⟩
  unfold AgentSession.messageEnd
  dsimp only
  rw [← h.connected]
  split
  · exact .handling hm hpending
  · exact .running hpending

theorem written (h : s.Alike c entries s') (henv : env.randomUUID = env'.randomUUID)
    (hbody : (c.redactBeforePersist m).persistedBody.map EntryBody.outline =
      (c.redactBeforePersist m').persistedBody.map EntryBody.outline) :
    Alike c entries
      (match (s.config.redactBeforePersist m).persistedBody with
        | none => s
        | some body =>
          { s with
            sessionManager :=
              (s.sessionManager.appendEntry (s.sessionManager.nextEntry env body)).manager
            history := { s.history with
              saves := s.history.saves ++ [(m, s.sessionManager.nextEntry env body)] } })
      (match (s'.config.redactBeforePersist m').persistedBody with
        | none => s'
        | some body =>
          { s' with
            sessionManager :=
              (s'.sessionManager.appendEntry (s'.sessionManager.nextEntry env' body)).manager
            history := { s'.history with
              saves := s'.history.saves ++
                [(m', s'.sessionManager.nextEntry env' body)] } }) := by
  rw [h.config, h.config']
  cases hb : (c.redactBeforePersist m).persistedBody with
  | none =>
    cases hb' : (c.redactBeforePersist m').persistedBody with
    | none => exact h
    | some _ => rw [hb, hb'] at hbody; cases hbody
  | some body =>
    cases hb' : (c.redactBeforePersist m').persistedBody with
    | none => rw [hb, hb'] at hbody; cases hbody
    | some body' =>
      rw [hb, hb'] at hbody
      have hred : body.Redacted c.redactBeforePersist := by
        rw [AgentMessage.entryBody_of_persistedBody hb]
        exact EntryBody.redacted_entryBody _ m
      exact { h.record henv (Option.some.inj hbody) hred h.messages with
        config := rfl, config' := rfl }

/-- The one place where a message is redacted before it is written. -/
theorem persist (h : s.Alike c entries s') (henv : env.randomUUID = env'.randomUUID)
    (hm : m.seen c.redactBeforePersist = m'.seen c.redactBeforePersist) :
    (s.persist env m).Alike c entries (s'.persist env' m') := by
  have hbody : (c.redactBeforePersist m).persistedBody.map EntryBody.outline =
      (c.redactBeforePersist m').persistedBody.map EntryBody.outline := by
    rw [← AgentMessage.persistedBody_untimed, ← AgentMessage.persistedBody_untimed]
    exact congrArg (fun seen => seen.1.persistedBody) hm
  have hkind := kind_eq_of_seen hm
  -- the entry is written after the stop reason of an assistant message is noted
  cases m with
  | assistant m =>
    cases m' with
    | assistant m' =>
      have hnoted : Alike c entries { s with lastAssistantMessage := some m }
          { s' with lastAssistantMessage := some m' } := { h with last := hkind }
      exact hnoted.written henv hbody
    | _ => cases hkind
  | _ =>
    cases m' with
    | assistant m' => cases hkind
    | _ => exact h.written henv hbody

/-! ### Compaction -/

section

variable (h : s.Alike c entries s')
include h

theorem removeLastAssistant :
    s.removeLastAssistant.Alike c entries s'.removeLastAssistant := by
  have hlast := h.getLast?_kind
  have hdrop : s.messages.dropLast.map AgentMessage.kind =
      s'.messages.dropLast.map AgentMessage.kind := by
    rw [List.map_dropLast, List.map_dropLast, h.messages]
  unfold AgentSession.removeLastAssistant
  match hm : s.messages.getLast?, hm' : s'.messages.getLast? with
  | none, none => exact h
  | none, some _ => rw [hm, hm'] at hlast; cases hlast
  | some _, none => rw [hm, hm'] at hlast; cases hlast
  | some last, some last' =>
    rw [hm, hm'] at hlast
    have hkind := Option.some.inj hlast
    cases last with
    | assistant m =>
      cases last' with
      | assistant m' => exact { h with messages := hdrop }
      | _ => cases hkind
    | _ =>
      cases last' with
      | assistant m' => cases hkind
      | _ => exact h

theorem removeLastError :
    s.removeLastError.Alike c entries s'.removeLastError := by
  have hlast := h.getLast?_kind
  have hremoved := h.removeLastAssistant
  unfold AgentSession.removeLastError
  match hm : s.messages.getLast?, hm' : s'.messages.getLast? with
  | none, none => exact h
  | none, some _ => rw [hm, hm'] at hlast; cases hlast
  | some _, none => rw [hm, hm'] at hlast; cases hlast
  | some last, some last' =>
    rw [hm, hm'] at hlast
    have hkind := Option.some.inj hlast
    cases last with
    | assistant m =>
      cases last' with
      | assistant m' =>
        dsimp only
        rw [Option.some.inj hkind]
        split
        · exact hremoved
        · exact h
      | _ => cases hkind
    | _ =>
      cases last' with
      | assistant m' => cases hkind
      | _ => exact h

theorem installCompaction (henv : env.randomUUID = env'.randomUUID) {d d' : CompactionData}
    (hd : d.firstKeptEntryId = d'.firstKeptEntryId) {t t' : AgentSession}
    (ht : s.installCompaction env d = some t) (ht' : s'.installCompaction env' d' = some t') :
    t.Alike c entries t' := by
  obtain ⟨context, hcontext, rfl⟩ := Option.map_eq_some_iff.mp ht
  obtain ⟨context', hcontext', rfl⟩ := Option.map_eq_some_iff.mp ht'
  have hbody : (EntryBody.compaction d.summary d.firstKeptEntryId d.tokensBefore d.details
        (some d.fromExtension)).outline =
      (EntryBody.compaction d'.summary d'.firstKeptEntryId d'.tokensBefore d'.details
        (some d'.fromExtension)).outline := by
    rw [EntryBody.outline, EntryBody.outline, hd]
  have hwritten := h.record henv hbody trivial h.messages
  have hkinds := hwritten.manager.contextKinds
  unfold SessionManager.contextKinds at hkinds
  have hms : context.messages.map AgentMessage.kind = context'.messages.map AgentMessage.kind := by
    change (((s.sessionManager.appendCompaction env _ _ _ _ _).manager).buildSessionContext.map _) =
      (((s'.sessionManager.appendCompaction env' _ _ _ _ _).manager).buildSessionContext.map _)
      at hkinds
    rw [hcontext, hcontext'] at hkinds
    exact Option.some.inj hkinds
  exact { hwritten with messages := hms }

theorem resumeCompaction (henv : env.randomUUID = env'.randomUUID) {o o' : SessionAwaited}
    (ho : OutcomeAlike c.redactBeforePersist clock o o') {point : CompactionPoint}
    {x x' : AgentSession × (CompactionPoint ⊕ Bool)} (hx : s.resumeCompaction env point o = some x)
    (hx' : s'.resumeCompaction env' point o' = some x') :
    x.1.Alike c entries x'.1 ∧ x.2 = x'.2 := by
  unfold AgentSession.resumeCompaction at hx
  split at hx
  · cases ho; cases hx; cases hx'; exact ⟨h, rfl⟩
  · cases ho; cases hx; cases hx'; exact ⟨h, rfl⟩
  · cases ho; cases hx; cases hx'; exact ⟨h, rfl⟩
  · cases ho; cases hx; cases hx'; exact ⟨h.removeLastAssistant, rfl⟩
  · cases ho; cases hx; cases hx'; exact ⟨h, rfl⟩
  · obtain ⟨t, ht, rfl⟩ := Option.map_eq_some_iff.mp hx
    cases ho with
    | bare _ hbare => exact hbare.elim
    | compacted hd =>
      obtain ⟨t', ht', rfl⟩ := Option.map_eq_some_iff.mp hx'
      exact ⟨h.installCompaction henv hd ht ht', rfl⟩
  · cases ho; cases hx; cases hx'; exact ⟨h.removeLastError, rfl⟩
  · cases ho; cases hx; cases hx'; exact ⟨h, by rw [h.hasQueuedMessages]⟩
  · cases hx

end

/-! ### A prompt before its run -/

theorem buildMessages (h : s.Alike c entries s') {q q' : PromptRequest}
    (hq : RequestAlike c.redactBeforePersist clock q q') {now now' : Nat}
    (hnow : clock now now') :
    (s.buildMessages q now).1.Alike c entries (s'.buildMessages q' now').1 ∧
      PointAlike c.redactBeforePersist clock (s.buildMessages q now).2
        (s'.buildMessages q' now').2 :=
  ⟨{ h with nextTurn := rfl }, .startingHook (hq.text now now' hnow) h.nextTurn⟩

theorem promptAuthorized (h : s.Alike c entries s') {q q' : PromptRequest}
    (hq : RequestAlike c.redactBeforePersist clock q q') {now now' : Nat}
    (hnow : clock now now') :
    (s.promptAuthorized q now).1.Alike c entries (s'.promptAuthorized q' now').1 ∧
      PointAlike c.redactBeforePersist clock (s.promptAuthorized q now).2
        (s'.promptAuthorized q' now').2 := by
  have hany : s.messages.any AgentMessage.isAssistant =
      s'.messages.any AgentMessage.isAssistant := by
    have key : ∀ ms : List AgentMessage, ms.any AgentMessage.isAssistant =
        (ms.map AgentMessage.kind).any Option.isSome := by
      intro ms
      rw [List.any_map]
      congr 1
      exact funext AgentMessage.isAssistant_eq
    rw [key, key, h.messages]
  unfold AgentSession.promptAuthorized
  rw [← hany]
  split
  · exact ⟨h, .checking hq _⟩
  · exact h.buildMessages hq hnow

theorem promptExpanded (h : s.Alike c entries s') (henv : env.randomUUID = env'.randomUUID)
    {q q' : PromptRequest} (hq : RequestAlike c.redactBeforePersist clock q q')
    {now now' : Nat} (hnow : clock now now') :
    NextAlike c clock entries (s.promptExpanded env q now) (s'.promptExpanded env' q' now') := by
  unfold AgentSession.promptExpanded
  rw [← h.isAgentRunActive, ← hq.streamingBehavior]
  split
  · split
    · exact ⟨h, .none⟩
    · exact ⟨(h.enqueue _ (hq.text now now' hnow)).accept _ _, .none⟩
  · have hflush := h.flushPendingBashMessages henv
    dsimp only
    rw [hflush.config, hflush.config']
    split
    · exact ⟨hflush, .none⟩
    · split
      · have hnext := hflush.promptAuthorized hq hnow
        exact ⟨hnext.1, .some hnext.2⟩
      · exact ⟨hflush, .some (.checkingAuth hq)⟩

end Alike

end AgentSession

end Eagent
