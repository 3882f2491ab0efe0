import Eagent.Agent
import Eagent.PendingMessages
import Eagent.Transcripts

/-!
# Queued messages

A message given to `steer` or `followUp` is in its queue, taken by the
loop and pending, in the transcript, or was cleared; nothing else becomes
of it. The history of an agent's acts says which: `messageTrace` follows
the messages from where they were taken to the transcript.
-/

namespace Eagent

open Interaction

/-! ## The history of the messages -/

/-- Messages with the queue they were drained from, if from one. -/
abbrev Sourced := List (Option QueueKind × AgentMessage)

def fromQueue (queue : QueueKind) (l : Sourced) : List AgentMessage :=
  l.filterMap fun x => if x.1 = some queue then some x.2 else none

@[simp] theorem fromQueue_append (queue : QueueKind) (l m : Sourced) :
    fromQueue queue (l ++ m) = fromQueue queue l ++ fromQueue queue m := List.filterMap_append

@[simp] theorem fromQueue_nil (queue : QueueKind) : fromQueue queue [] = [] := rfl

theorem fromQueue_map_self (queue : QueueKind) (ms : List AgentMessage) :
    fromQueue queue (ms.map (some queue, ·)) = ms := by
  rw [fromQueue, List.filterMap_map]
  simp

theorem fromQueue_map_other {queue : QueueKind} {source : Option QueueKind}
    (h : source ≠ some queue) (ms : List AgentMessage) :
    fromQueue queue (ms.map (source, ·)) = [] := by
  rw [fromQueue, List.filterMap_map]
  simp [h]

/-- What was taken and has not reached the transcript, and the transcript. -/
structure MessageTrace where
  pending : Sourced
  transcript : Sourced
deriving Repr, DecidableEq

namespace MessageTrace

/-- A message enters the transcript: the first pending one, or one of the
loop's own. -/
def ended (t : MessageTrace) (m : AgentMessage) : MessageTrace :=
  match t.pending with
  | (source, first) :: rest =>
      if first = m then ⟨rest, t.transcript ++ [(source, m)]⟩
      else { t with transcript := t.transcript ++ [(none, m)] }
  | [] => { t with transcript := t.transcript ++ [(none, m)] }

def after (t : MessageTrace) : AgentAct → MessageTrace
  | .started queue prompts => { t with pending := prompts.map (queue, ·) }
  | .polled queue messages => { t with pending := messages.map (some queue, ·) }
  | .emitted (.messageEnd m) => t.ended m
  | _ => t

end MessageTrace

def messageTrace (messages : List AgentMessage) (acts : List AgentAct) : MessageTrace :=
  acts.foldl MessageTrace.after ⟨[], messages.map (none, ·)⟩

def AgentAct.enqueued? (queue : QueueKind) : AgentAct → Option AgentMessage
  | .enqueued queue' m => if queue' = queue then some m else none
  | _ => none

def AgentAct.cleared? (queue : QueueKind) : AgentAct → Option (List AgentMessage)
  | .cleared queue' ms => if queue' = queue then some ms else none
  | _ => none

def enqueuedBy (queue : QueueKind) (acts : List AgentAct) : List AgentMessage :=
  acts.filterMap (AgentAct.enqueued? queue)

def clearedBy (queue : QueueKind) (acts : List AgentAct) : List AgentMessage :=
  (acts.filterMap (AgentAct.cleared? queue)).flatten

theorem messageTrace_snoc (messages : List AgentMessage) (acts : List AgentAct)
    (act : AgentAct) :
    messageTrace messages (acts ++ [act]) = (messageTrace messages acts).after act := by
  rw [messageTrace, List.foldl_append]
  rfl

theorem enqueuedBy_snoc (queue : QueueKind) (acts : List AgentAct) (act : AgentAct) :
    enqueuedBy queue (acts ++ [act]) = enqueuedBy queue acts ++ (act.enqueued? queue).toList := by
  rw [enqueuedBy, List.filterMap_append]
  cases h : act.enqueued? queue with
  | none => simp [h, enqueuedBy]
  | some m => simp [h, enqueuedBy]

theorem clearedBy_snoc (queue : QueueKind) (acts : List AgentAct) (act : AgentAct) :
    clearedBy queue (acts ++ [act]) =
      clearedBy queue acts ++ ((act.cleared? queue).getD []) := by
  rw [clearedBy, List.filterMap_append, List.flatten_append]
  cases h : act.cleared? queue with
  | none => simp [h, clearedBy]
  | some ms => simp [h, clearedBy]

def Agent.queue (a : Agent) : QueueKind → PendingMessageQueue
  | .steering => a.steeringQueue
  | .followUp => a.followUpQueue

/-! ## One queue -/

/-- The queue holds the end of what was enqueued; the rest is, in order,
what reached the transcript and what is pending, interleaved with what was
cleared. -/
def Conserved (queue : QueueKind) (t : MessageTrace) (enqueued cleared queued : List AgentMessage) :
    Prop :=
  ∃ taken : List AgentMessage, enqueued = taken ++ queued ∧
    Shuffle [fromQueue queue t.transcript ++ fromQueue queue t.pending, cleared] taken

section Conserved

variable {queue : QueueKind} {t t' : MessageTrace} {enqueued cleared queued : List AgentMessage}

section

variable (h : Conserved queue t enqueued cleared queued)
include h

theorem Conserved.enqueue (m : AgentMessage) :
    Conserved queue t (enqueued ++ [m]) cleared (queued ++ [m]) := by
  obtain ⟨taken, rfl, hshuffle⟩ := h
  exact ⟨taken, List.append_assoc .., hshuffle⟩

theorem Conserved.clear :
    Conserved queue t enqueued (cleared ++ queued) [] := by
  obtain ⟨taken, rfl, hshuffle⟩ := h
  refine ⟨taken ++ queued, (List.append_nil _).symm, ?_⟩
  exact hshuffle.extend (i := 1) rfl queued

theorem Conserved.drain (hnone : t.pending = []) {drained rest : List AgentMessage}
    (hqueued : queued = drained ++ rest) :
    Conserved queue { t with pending := drained.map (some queue, ·) } enqueued cleared rest := by
  obtain ⟨taken, rfl, hshuffle⟩ := h
  refine ⟨taken ++ drained, by rw [hqueued, List.append_assoc], ?_⟩
  rw [hnone, fromQueue_nil, List.append_nil] at hshuffle
  rw [fromQueue_map_self]
  exact hshuffle.extend (i := 0) rfl drained

/-- What happens to the messages of the other queue, and to prompts. -/
theorem Conserved.other
    (hsame : fromQueue queue t'.transcript ++ fromQueue queue t'.pending = fromQueue queue t.transcript ++ fromQueue queue t.pending) :
    Conserved queue t' enqueued cleared queued := by
  obtain ⟨taken, henqueued, hshuffle⟩ := h
  exact ⟨taken, henqueued, hsame ▸ hshuffle⟩

end

end Conserved

/-! ## A message that ends -/

theorem MessageTrace.fromQueue_ended (queue : QueueKind) (t : MessageTrace) (m : AgentMessage) :
    fromQueue queue (t.ended m).transcript ++ fromQueue queue (t.ended m).pending =
      fromQueue queue t.transcript ++ fromQueue queue t.pending := by
  have hnone : fromQueue queue [(none, m)] = [] := rfl
  unfold ended
  split
  · rename_i source first rest hpending
    split
    · rename_i hfirst
      rw [hpending, hfirst, fromQueue_append, List.append_assoc, ← fromQueue_append]
      rfl
    · rw [fromQueue_append, hnone, List.append_nil]
  · rw [fromQueue_append, hnone, List.append_nil]

theorem MessageTrace.transcript_ended (t : MessageTrace) (m : AgentMessage) :
    (t.ended m).transcript.map (·.2) = t.transcript.map (·.2) ++ [m] := by
  unfold ended
  split
  · split
    · rw [List.map_append]
      rfl
    · rw [List.map_append]
      rfl
  · rw [List.map_append]
    rfl

theorem MessageTrace.pending_ended (t : MessageTrace) (m : AgentMessage) :
    (t.ended m).pending.map (·.2) = pendingAfterEnd (t.pending.map (·.2)) m := by
  unfold ended pendingAfterEnd
  split
  · rename_i source first rest hpending
    rw [hpending, List.map_cons]
    dsimp only
    split
    · rfl
    · rfl
  · rename_i hpending
    rw [hpending]
    rfl

theorem PendingMessageQueue.drain_append (q : PendingMessageQueue) :
    q.messages = q.drain.1 ++ q.drain.2.messages := by
  unfold drain
  split
  · exact (List.append_nil _).symm
  · split
    · rename_i h
      rw [h]
      rfl
    · rename_i h
      rw [h]
      rfl

theorem Conserved.drainQueue {queue : QueueKind} {t : MessageTrace}
    {enqueued cleared : List AgentMessage} {q : PendingMessageQueue}
    (h : Conserved queue t enqueued cleared q.messages) (hnone : t.pending = []) :
    Conserved queue { t with pending := q.drain.1.map (some queue, ·) } enqueued cleared
      q.drain.2.messages :=
  h.drain hnone q.drain_append

theorem Conserved.notDrained {queue : QueueKind} {t : MessageTrace} {source : Option QueueKind}
    {enqueued cleared queued : List AgentMessage} (h : Conserved queue t enqueued cleared queued)
    (hnone : t.pending = []) (hsource : source ≠ some queue) (ms : List AgentMessage) :
    Conserved queue { t with pending := ms.map (source, ·) } enqueued cleared queued := by
  refine h.other ?_
  show fromQueue queue t.transcript ++ fromQueue queue (ms.map (source, ·)) = _
  rw [fromQueue_map_other hsource, hnone, fromQueue_nil]

/-! ## The invariant -/

namespace Agent

def KeepsPending (pending : Sourced) (phase : RunPhase) : Prop :=
  match phase with
  | .running prog => Pends (pending.map (·.2)) prog fun _ pending' => pending' = []
  | .failing _ => pending = []

structure QueueInvariant (messages : List AgentMessage) (acts : List AgentAct) (a : Agent) :
    Prop where
  conserved : ∀ queue, Conserved queue (messageTrace messages acts) (enqueuedBy queue acts)
    (clearedBy queue acts) (a.queue queue).messages
  transcript : (messageTrace messages acts).transcript.map (·.2) = a.state.messages
  idle : a.activeRun = none → (messageTrace messages acts).pending = []
  active : ∀ run, a.activeRun = some run →
    KeepsPending (messageTrace messages acts).pending run.phase

section Steps

variable {messages : List AgentMessage} {acts : List AgentAct} {a a' : Agent}

theorem queueInvariant_new (options : AgentOptions) (state : AgentState)
    (steeringMode followUpMode : QueueMode) :
    QueueInvariant state.messages [] (new options state steeringMode followUpMode) where
  conserved := by
    intro queue
    refine ⟨[], ?_, ?_⟩
    · cases queue with
      | steering => rfl
      | followUp => rfl
    · have hnone : fromQueue queue (state.messages.map (none, ·)) = [] :=
        fromQueue_map_other (Option.some_ne_none queue).symm _
      refine .nil ?_
      intro l hl
      rcases List.mem_cons.mp hl with rfl | hl
      · show fromQueue queue (state.messages.map (none, ·)) ++ [] = []
        rw [hnone]
        rfl
      · rw [List.mem_singleton.mp hl]
        rfl
  transcript := by
    show (state.messages.map (none, ·)).map (·.2) = state.messages
    rw [List.map_map]
    exact List.map_id _
  idle := fun _ => rfl
  active := fun run hrun => nomatch hrun

variable {act : AgentAct}

section

variable (h : QueueInvariant messages acts a)
include h

/-- A call from outside that leaves the transcript and the run's phase. -/
theorem QueueInvariant.frame (htrace : ∀ t : MessageTrace, t.after act = t)
    (hconserved : ∀ queue, Conserved queue (messageTrace messages acts) (enqueuedBy queue acts ++ (act.enqueued? queue).toList) (clearedBy queue acts ++ ((act.cleared? queue).getD [])) (a'.queue queue).messages)
    (hmessages : a'.state.messages = a.state.messages)
    (hrun : a'.activeRun.map (·.phase) = a.activeRun.map (·.phase)) :
    QueueInvariant messages (acts ++ [act]) a' := by
  have htrace' : messageTrace messages (acts ++ [act]) = messageTrace messages acts := by
    rw [messageTrace_snoc, htrace]
  refine ⟨?_, ?_, ?_, ?_⟩
  · intro queue
    rw [htrace', enqueuedBy_snoc, clearedBy_snoc]
    exact hconserved queue
  · rw [htrace', hmessages]
    exact h.transcript
  · intro hidle
    rw [htrace']
    refine h.idle ?_
    rw [hidle] at hrun
    exact Option.map_eq_none_iff.mp hrun.symm
  · intro run' hactive
    rw [htrace']
    rw [hactive] at hrun
    obtain ⟨run, hrun', hphase⟩ := Option.map_eq_some_iff.mp hrun.symm
    have hsame : run'.phase = run.phase := hphase.symm
    rw [hsame]
    exact h.active run hrun'

theorem QueueInvariant.untouched (henqueued : ∀ queue, act.enqueued? queue = none)
    (hcleared : ∀ queue, act.cleared? queue = none)
    (hqueue : ∀ queue, (a'.queue queue).messages = (a.queue queue).messages) (queue : QueueKind) :
    Conserved queue (messageTrace messages acts)
      (enqueuedBy queue acts ++ (act.enqueued? queue).toList)
      (clearedBy queue acts ++ ((act.cleared? queue).getD [])) (a'.queue queue).messages := by
  rw [henqueued, hcleared, hqueue]
  simpa using h.conserved queue

theorem QueueInvariant.start {b : Agent} {source : Option QueueKind} {fuel : Nat} {c : LoopCall}
    {skip : Bool} (hmessages : b.state.messages = a.state.messages)
    (hqueues : ∀ queue, Conserved queue { messageTrace messages acts with pending := c.prompts.map (source, ·) }
      (enqueuedBy queue acts) (clearedBy queue acts) (b.queue queue).messages) :
    QueueInvariant messages (acts ++ [.started source c.prompts])
      (b.startRun fuel c skip) := by
  refine ⟨?_, ?_, ?_, ?_⟩
  · intro queue
    rw [messageTrace_snoc, enqueuedBy_snoc, clearedBy_snoc]
    have hb : ((b.startRun fuel c skip).queue queue).messages = (b.queue queue).messages := by
      cases queue with
      | steering => rfl
      | followUp => rfl
    rw [hb]
    have hacts : ((AgentAct.started source c.prompts).enqueued? queue).toList = [] ∧
        ((AgentAct.started source c.prompts).cleared? queue).getD [] = [] := ⟨rfl, rfl⟩
    rw [hacts.1, hacts.2, List.append_nil, List.append_nil]
    exact hqueues queue
  · rw [messageTrace_snoc]
    exact h.transcript.trans hmessages.symm
  · intro hnone
    cases hnone
  · intro run hrun
    obtain rfl := Option.some.inj hrun
    rw [messageTrace_snoc]
    show Pends ((c.prompts.map (source, ·)).map (·.2)) _ _
    rw [List.map_map]
    have hprompts : c.prompts.map ((·.2) ∘ (source, ·)) = c.prompts := List.map_id _
    rw [hprompts]
    exact pends_call fuel _ c

theorem QueueInvariant.prompt {fuel : Nat} {prompts : List AgentMessage}
    (hprompt : a.prompt fuel prompts = .ok (act, a')) :
    QueueInvariant messages (acts ++ [act]) a' := by
  obtain ⟨hidle, rfl, rfl⟩ := prompt_ok hprompt
  refine h.start (c := .prompt prompts) rfl fun queue => ?_
  exact (h.conserved queue).notDrained (h.idle hidle) (Option.some_ne_none queue).symm _

theorem QueueInvariant.continue {fuel : Nat} (hcontinue : a.continue fuel = .ok (act, a')) :
    QueueInvariant messages (acts ++ [act]) a' := by
  obtain ⟨hidle, ⟨rfl, rfl⟩ | ⟨rfl, rfl⟩ | ⟨rfl, rfl⟩⟩ := continue_ok hcontinue
  · refine h.start (c := .prompt _) rfl fun queue => ?_
    cases queue with
    | steering => exact (h.conserved .steering).drainQueue (h.idle hidle)
    | followUp => exact (h.conserved .followUp).notDrained (h.idle hidle) (by decide) _
  · refine h.start (c := .prompt _) rfl fun queue => ?_
    cases queue with
    | steering => exact (h.conserved .steering).notDrained (h.idle hidle) (by decide) _
    | followUp => exact (h.conserved .followUp).drainQueue (h.idle hidle)
  · refine h.start (c := .continuation) rfl fun queue => ?_
    exact (h.conserved queue).notDrained (h.idle hidle) (Option.some_ne_none queue).symm _

theorem QueueInvariant.emitted (event : AgentEvent) {run : ActiveRun}
    (hactive : KeepsPending (messageTrace messages (acts ++ [.emitted event])).pending run.phase) :
    QueueInvariant messages (acts ++ [.emitted event]) ((a.processEvents event).withRun run) := by
  have hqueue : ∀ queue, (((a.processEvents event).withRun run).queue queue).messages =
      (a.queue queue).messages := by
    intro queue
    cases queue with
    | steering => rfl
    | followUp => rfl
  have hended : ∀ t : MessageTrace, (t.after (.emitted event)).transcript.map (·.2) =
        t.transcript.map (·.2) ++ endedMessages [event] ∧
      ∀ queue, fromQueue queue (t.after (.emitted event)).transcript ++
          fromQueue queue (t.after (.emitted event)).pending =
        fromQueue queue t.transcript ++ fromQueue queue t.pending := by
    intro t
    cases event with
    | messageEnd m => exact ⟨t.transcript_ended m, fun queue => t.fromQueue_ended queue m⟩
    | _ => exact ⟨(List.append_nil _).symm, fun _ => rfl⟩
  refine ⟨?_, ?_, nofun, ?_⟩
  · intro queue
    have hsame := (h.conserved queue).other ((hended (messageTrace messages acts)).2 queue)
    rw [messageTrace_snoc, enqueuedBy_snoc, clearedBy_snoc, hqueue]
    simpa [AgentAct.enqueued?, AgentAct.cleared?] using hsame
  · rw [messageTrace_snoc, (hended _).1, h.transcript]
    exact (a.state.messages_reduce event).symm
  · intro run' hrun'
    obtain rfl := Option.some.inj hrun'
    exact hactive

/-- The loop's own steps other than its events. -/
theorem QueueInvariant.running {run : ActiveRun}
    (hactive : KeepsPending (messageTrace messages acts).pending run.phase) :
    QueueInvariant messages (acts ++ [.internal]) (a.withRun run) where
  conserved := by
    intro queue
    rw [messageTrace_snoc, enqueuedBy_snoc, clearedBy_snoc]
    exact h.untouched (fun _ => rfl) (fun _ => rfl) (fun queue => by cases queue <;> rfl) queue
  transcript := by
    rw [messageTrace_snoc]
    exact h.transcript
  idle := nofun
  active := by
    intro run' hrun'
    obtain rfl := Option.some.inj hrun'
    rw [messageTrace_snoc]
    exact hactive

theorem QueueInvariant.polled {queue : QueueKind} {run : ActiveRun} {b : Agent}
    (hnone : (messageTrace messages acts).pending = [])
    (hmessages : b.state.messages = a.state.messages)
    (hqueue : (b.queue queue).messages = (a.queue queue).drain.2.messages)
    (hother : ∀ queue', queue' ≠ queue → (b.queue queue').messages = (a.queue queue').messages)
    (hactive : KeepsPending ((a.queue queue).drain.1.map (some queue, ·)) run.phase) :
    QueueInvariant messages (acts ++ [.polled queue (a.queue queue).drain.1])
      (b.withRun run) where
  conserved := by
    intro queue'
    have hb : ((b.withRun run).queue queue').messages = (b.queue queue').messages := by
      cases queue' with
      | steering => rfl
      | followUp => rfl
    rw [messageTrace_snoc, enqueuedBy_snoc, clearedBy_snoc, hb]
    simp only [AgentAct.enqueued?, AgentAct.cleared?, Option.toList_none, Option.getD_none,
      List.append_nil]
    by_cases hsame : queue' = queue
    · rw [hsame, hqueue]
      exact (h.conserved queue).drainQueue hnone
    · rw [hother queue' hsame]
      refine (h.conserved queue').notDrained hnone ?_ _
      exact fun heq => hsame (Option.some.inj heq).symm
  transcript := by
    rw [messageTrace_snoc]
    exact h.transcript.trans hmessages.symm
  idle := nofun
  active := by
    intro run' hrun'
    obtain rfl := Option.some.inj hrun'
    rw [messageTrace_snoc]
    exact hactive

theorem QueueInvariant.ask {run run' : ActiveRun} {e : LoopEffect} {answer : LoopAnswer e}
    {k : LoopAnswer e → LoopM (List AgentMessage)} {w : LoopWorld} (hrun : a.activeRun = some run)
    (hphase : run.phase = .running (.ask e k)) (hagent : Interacts a run e answer act a' run') :
    QueueInvariant messages (acts ++ [act])
      (a'.withRun { run' with world := w, phase := .running (k answer) }) := by
  have hkeeps := h.active run hrun
  rw [hphase] at hkeeps
  obtain ⟨hpoll, hnext⟩ := hkeeps
  have hnone : e.IsPoll → (messageTrace messages acts).pending = [] := by
    intro he
    exact List.map_eq_nil_iff.mp (hpoll he)
  cases hagent with
  | emit event =>
    refine h.emitted event ?_
    show Pends _ _ _
    refine hnext () _ ?_
    rw [messageTrace_snoc]
    cases event with
    | messageEnd m => exact (messageTrace messages acts).pending_ended m
    | _ => rfl
  | skippedPoll hskip =>
    refine h.running ?_
    show Pends _ _ _
    refine hnext (Except.ok [] : Except String (List AgentMessage)) _ ?_
    rw [hnone trivial]
    rfl
  | steeringPoll hskip =>
    refine h.polled (hnone trivial) rfl rfl ?_ ?_
    · intro queue' hne
      cases queue' with
      | steering => exact absurd rfl hne
      | followUp => rfl
    · refine hnext (Except.ok a.steeringQueue.drain.1 : Except String (List AgentMessage)) _ ?_
      show List.map _ (List.map _ _) = _
      rw [List.map_map]
      exact List.map_id _
  | followUpPoll =>
    refine h.polled (hnone trivial) rfl rfl ?_ ?_
    · intro queue' hne
      cases queue' with
      | steering => rfl
      | followUp => exact absurd rfl hne
    · refine hnext (Except.ok a.followUpQueue.drain.1 : Except String (List AgentMessage)) _ ?_
      show List.map _ (List.map _ _) = _
      rw [List.map_map]
      exact List.map_id _
  | signal =>
    refine h.running ?_
    exact hnext run.aborted _ rfl
  | other he answer =>
    refine h.running ?_
    refine hnext answer _ ?_
    cases e with
    | emit event => exact False.elim he
    | getSteeringMessages => exact False.elim he
    | getFollowUpMessages => exact False.elim he
    | _ => rfl

theorem QueueInvariant.finish (hnone : (messageTrace messages acts).pending = []) :
    QueueInvariant messages (acts ++ [.finished]) a.finishRun where
  conserved := by
    intro queue
    rw [messageTrace_snoc, enqueuedBy_snoc, clearedBy_snoc]
    exact h.untouched (fun _ => rfl) (fun _ => rfl) (fun queue => by cases queue <;> rfl) queue
  transcript := by
    rw [messageTrace_snoc]
    exact h.transcript
  idle := by
    intro _
    rw [messageTrace_snoc]
    exact hnone
  active := fun run hrun => nomatch hrun

theorem QueueInvariant.step (hstep : Step a act a') :
    QueueInvariant messages (acts ++ [act]) a' := by
  cases hstep with
  | steer message =>
    refine h.frame (fun _ => rfl) (fun queue => ?_) rfl rfl
    have hq := h.conserved queue
    cases queue with
    | steering =>
      simpa [AgentAct.enqueued?, AgentAct.cleared?, queue, steer,
        PendingMessageQueue.enqueue] using hq.enqueue message
    | followUp => simpa [AgentAct.enqueued?, AgentAct.cleared?, queue, steer] using hq
  | followUp message =>
    refine h.frame (fun _ => rfl) (fun queue => ?_) rfl rfl
    have hq := h.conserved queue
    cases queue with
    | steering => simpa [AgentAct.enqueued?, AgentAct.cleared?, queue, followUp] using hq
    | followUp =>
      simpa [AgentAct.enqueued?, AgentAct.cleared?, queue, followUp,
        PendingMessageQueue.enqueue] using hq.enqueue message
  | clearSteeringQueue =>
    refine h.frame (fun _ => rfl) (fun queue => ?_) rfl rfl
    have hq := h.conserved queue
    cases queue with
    | steering =>
      simpa [AgentAct.enqueued?, AgentAct.cleared?, queue, clearSteeringQueue,
        PendingMessageQueue.clear] using hq.clear
    | followUp =>
      simpa [AgentAct.enqueued?, AgentAct.cleared?, queue, clearSteeringQueue] using hq
  | clearFollowUpQueue =>
    refine h.frame (fun _ => rfl) (fun queue => ?_) rfl rfl
    have hq := h.conserved queue
    cases queue with
    | steering =>
      simpa [AgentAct.enqueued?, AgentAct.cleared?, queue, clearFollowUpQueue] using hq
    | followUp =>
      simpa [AgentAct.enqueued?, AgentAct.cleared?, queue, clearFollowUpQueue,
        PendingMessageQueue.clear] using hq.clear
  | setSteeringMode mode =>
    refine h.frame (fun _ => rfl) (h.untouched (fun _ => rfl) (fun _ => rfl) ?_) rfl rfl
    intro queue
    cases queue <;> rfl
  | setFollowUpMode mode =>
    refine h.frame (fun _ => rfl) (h.untouched (fun _ => rfl) (fun _ => rfl) ?_) rfl rfl
    intro queue
    cases queue <;> rfl
  | abort =>
    refine h.frame (fun _ => rfl) (h.untouched (fun _ => rfl) (fun _ => rfl) ?_) rfl ?_
    · intro queue
      cases queue <;> rfl
    · show (a.activeRun.map _).map _ = _
      rw [Option.map_map]
      rfl
  | prompt hprompt => exact h.prompt hprompt
  | «continue» hcontinue => exact h.continue hcontinue
  | ask hrun hphase hworld hagent => exact h.ask hrun hphase hagent
  | choose hrun hphase i =>
    have hkeeps := h.active _ hrun
    rw [hphase] at hkeeps
    exact h.running (hkeeps i)
  | fail hrun hphase timestamp =>
    have hkeeps := h.active _ hrun
    rw [hphase] at hkeeps
    exact h.running (List.map_eq_nil_iff.mp hkeeps)
  | failing hrun hphase =>
    have hkeeps : (messageTrace messages acts).pending = [] := by
      have hkeeps := h.active _ hrun
      rwa [hphase] at hkeeps
    rename_i run event events
    refine h.emitted event ?_
    show (messageTrace messages (acts ++ [.emitted event])).pending = []
    rw [messageTrace_snoc]
    cases event with
    | messageEnd m =>
      show ((messageTrace messages acts).ended m).pending = []
      unfold MessageTrace.ended
      rw [hkeeps]
    | _ => exact hkeeps
  | returned hrun hphase =>
    have hkeeps := h.active _ hrun
    rw [hphase] at hkeeps
    exact h.finish (List.map_eq_nil_iff.mp hkeeps)
  | failed hrun hphase =>
    have hkeeps := h.active _ hrun
    rw [hphase] at hkeeps
    exact h.finish hkeeps

end

end Steps

theorem QueueInvariant.run {options : AgentOptions} {state : AgentState}
    {steeringMode followUpMode : QueueMode} {acts : List AgentAct} {a : Agent}
    (hrun : Run (new options state steeringMode followUpMode) acts a) :
    QueueInvariant state.messages acts a := by
  induction hrun with
  | nil => exact queueInvariant_new options state steeringMode followUpMode
  | snoc _ hstep ih => exact ih.step hstep

/-- At every moment of every run, for each queue: the queue holds the end
of what was enqueued, and what came before is, in order and interleaved
with what was cleared, what reached the transcript and then what the loop
has taken; and nothing is taken when no run is active. -/
theorem queues_conserved {options : AgentOptions} {state : AgentState}
    {steeringMode followUpMode : QueueMode} {acts : List AgentAct} {a : Agent}
    (hrun : Run (new options state steeringMode followUpMode) acts a) :
    (∀ queue, ∃ taken, enqueuedBy queue acts = taken ++ (a.queue queue).messages ∧
        Shuffle [fromQueue queue (messageTrace state.messages acts).transcript ++
          fromQueue queue (messageTrace state.messages acts).pending, clearedBy queue acts] taken) ∧
      (messageTrace state.messages acts).transcript.map (·.2) = a.state.messages ∧
        (a.activeRun = none → (messageTrace state.messages acts).pending = []) :=
  ⟨(QueueInvariant.run hrun).conserved, (QueueInvariant.run hrun).transcript,
    (QueueInvariant.run hrun).idle⟩

/-- One message waits while a run starts, another was cleared. -/
def queueActs : List AgentAct :=
  [.enqueued .steering greeting, .enqueued .followUp greeting, .cleared .followUp [greeting],
    .started none [greeting]]

theorem queues_conserved_started : ∃ a,
    Run (new plainOptions idleState .all .oneAtATime) queueActs a ∧
      a.steeringQueue.messages = [greeting] ∧
      (∀ queue, ∃ taken, enqueuedBy queue queueActs = taken ++ (a.queue queue).messages ∧
        Shuffle [fromQueue queue (messageTrace [] queueActs).transcript ++
          fromQueue queue (messageTrace [] queueActs).pending, clearedBy queue queueActs] taken) ∧
      (messageTrace [] queueActs).transcript.map (·.2) = a.state.messages ∧
        (a.activeRun = none → (messageTrace [] queueActs).pending = []) := by
  have h₁ := (Run.nil (a := new plainOptions idleState .all .oneAtATime)).snoc (.steer _ greeting)
  have h₂ := h₁.snoc (.followUp _ greeting)
  have h₃ := h₂.snoc (.clearFollowUpQueue _)
  have h₄ := h₃.snoc (@Step.prompt _ _ 9 [greeting] _ rfl)
  exact ⟨_, h₄, rfl, queues_conserved h₄⟩

end Agent

end Eagent
