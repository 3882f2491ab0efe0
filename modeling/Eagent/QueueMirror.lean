import Eagent.AgentQueues
import Eagent.AgentSession

/-!
# The queues a session displays

`AgentSession` keeps the texts of what it has queued with the agent, and takes
a text out when a user message starts. It goes by the text alone: an empty one
is not looked for, and an equal one of the other queue, or of a prompt that was
never queued, counts as the same.

The loop is left free within what it keeps to (`PendingMessages`): it polls
only when nothing is pending, and ends only then.
-/

namespace Eagent

/-! ## Texts -/

def ContentBlock.text? : ContentBlock → Option String
  | .text content => some content
  | .image _ _ => none

/-- `_getUserMessageText` -/
def getUserMessageText : AgentMessage → String
  | .user m =>
      match m.content with
      | some (.string text) => text
      | some (.blocks blocks) => String.join (blocks.filterMap ContentBlock.text?)
      | none => ""
  | _ => ""

def userTexts (messages : List AgentMessage) : List String :=
  messages.filterMap fun message =>
    match message with
    | .user m => some (getUserMessageText (.user m))
    | _ => none

/-! ## The session -/

/-- `_steeringMessages` and `_followUpMessages`, the queues of the agent, and
what its loop has taken and not yet started. -/
structure QueueMirror where
  steeringMessages : List String := []
  followUpMessages : List String := []
  steeringQueue : PendingMessageQueue
  followUpQueue : PendingMessageQueue
  activeRun : Bool := false
  pending : Sourced := []
deriving Repr, DecidableEq

inductive MirrorAction where
  /-- `steer`, `followUp`, and `prompt` with a streaming behaviour -/
  | queue (behavior : StreamingBehavior) (text : String) (images : List (String × String))
      (now : Nat)
  | sendCustomMessage (behavior : StreamingBehavior) (message : CustomMessage)
  | clearQueue
  | abort
  /-- `agent.prompt` -/
  | run (messages : List AgentMessage)
  /-- `agent.continue` -/
  | continueRun (lastIsAssistant : Bool)
  | polls (queue : QueueKind)
  /-- `message_start` of the next pending message -/
  | starts
  | ends
deriving Repr, DecidableEq

/-- The message of `_queueSteer` and `_queueFollowUp`. -/
def queuedMessage (text : String) (images : List (String × String)) (now : Nat) : AgentMessage :=
  .user ⟨some (.blocks (.text text :: images.map fun x => .image x.1 x.2)), now⟩

namespace QueueMirror

variable (s : QueueMirror)

def enqueue (behavior : StreamingBehavior) (message : AgentMessage) : QueueMirror :=
  match behavior with
  | .steer => { s with steeringQueue := s.steeringQueue.enqueue message }
  | .followUp => { s with followUpQueue := s.followUpQueue.enqueue message }

/-- `_queueSteer` and `_queueFollowUp` -/
def queueText (behavior : StreamingBehavior) (text : String) (images : List (String × String))
    (now : Nat) : QueueMirror :=
  match behavior with
  | .steer =>
      { s with steeringMessages := s.steeringMessages ++ [text] }.enqueue .steer
        (queuedMessage text images now)
  | .followUp =>
      { s with followUpMessages := s.followUpMessages ++ [text] }.enqueue .followUp
        (queuedMessage text images now)

def clearQueue : QueueMirror :=
  { s with
    steeringMessages := []
    followUpMessages := []
    steeringQueue := s.steeringQueue.clear
    followUpQueue := s.followUpQueue.clear }

/-- `_handleAgentEvent` when a user message with this text starts. -/
def removeStarted (messageText : String) : QueueMirror :=
  if messageText = "" then s
  else if messageText ∈ s.steeringMessages then
    { s with steeringMessages := s.steeringMessages.erase messageText }
  else if messageText ∈ s.followUpMessages then
    { s with followUpMessages := s.followUpMessages.erase messageText }
  else s

def drain : QueueKind → List AgentMessage × QueueMirror
  | .steering =>
      (s.steeringQueue.drain.1, { s with steeringQueue := s.steeringQueue.drain.2 })
  | .followUp =>
      (s.followUpQueue.drain.1, { s with followUpQueue := s.followUpQueue.drain.2 })

def takes (queue : QueueKind) : QueueMirror :=
  { (s.drain queue).2 with activeRun := true, pending := (s.drain queue).1.map (some queue, ·) }

def step (s : QueueMirror) : MirrorAction → Option QueueMirror
  | .queue behavior text images now => some (s.queueText behavior text images now)
  | .sendCustomMessage behavior message => some (s.enqueue behavior (.custom message))
  | .clearQueue => some s.clearQueue
  | .abort => some s
  | .run messages =>
      if s.activeRun then none
      else some { s with activeRun := true, pending := messages.map (none, ·) }
  | .continueRun lastIsAssistant =>
      if s.activeRun then none
      else if !lastIsAssistant then some { s with activeRun := true, pending := [] }
      else if (s.drain .steering).1 ≠ [] then some (s.takes .steering)
      else if (s.drain .followUp).1 ≠ [] then some (s.takes .followUp)
      else none
  | .polls queue => if s.activeRun ∧ s.pending = [] then some (s.takes queue) else none
  | .starts =>
      match s.pending with
      | [] => none
      | (_, message) :: rest =>
          let s := { s with pending := rest }
          match message with
          | .user m => some (s.removeStarted (getUserMessageText (.user m)))
          | _ => some s
  | .ends => if s.activeRun ∧ s.pending = [] then some { s with activeRun := false } else none

/-- A new session. -/
def start (steeringMode followUpMode : QueueMode) : QueueMirror :=
  { steeringQueue := ⟨[], steeringMode⟩, followUpQueue := ⟨[], followUpMode⟩ }

/-! ## The mirror -/

/-- The messages of a queue that have not started: those the loop has taken,
and those in the queue. -/
def unstarted : QueueKind → List AgentMessage
  | .steering => fromQueue .steering s.pending ++ s.steeringQueue.messages
  | .followUp => fromQueue .followUp s.pending ++ s.followUpQueue.messages

/-- What is displayed is what has not started. -/
structure Mirrors : Prop where
  steering : s.steeringMessages = userTexts (s.unstarted .steering)
  followUp : s.followUpMessages = userTexts (s.unstarted .followUp)

/-- The message that starts is found by its text: it has one, which no
displayed text in front of it equals. -/
def Found (source : Option QueueKind) (text : String) : Prop :=
  match source with
  | some .steering => text ≠ ""
  | some .followUp => text ≠ "" ∧ text ∉ s.steeringMessages
  | none => text = "" ∨ text ∉ s.steeringMessages ∧ text ∉ s.followUpMessages

/-- A user message that starts is found, and the queues are not cleared under
a loop that has still user messages of theirs to start. -/
def Keeps (s : QueueMirror) : MirrorAction → Prop
  | .starts =>
      match s.pending with
      | (source, .user m) :: _ => s.Found source (getUserMessageText (.user m))
      | _ => True
  | .clearQueue =>
      userTexts (fromQueue .steering s.pending) = [] ∧
        userTexts (fromQueue .followUp s.pending) = []
  | _ => True

/-! ## Queueing -/

variable {s} {s' : QueueMirror}

theorem getUserMessageText_queued (text : String) (images : List (String × String)) (now : Nat) :
    getUserMessageText (queuedMessage text images now) = text := by
  have himages : (images.map fun x => ContentBlock.image x.1 x.2).filterMap ContentBlock.text? =
      [] := by
    rw [List.filterMap_eq_nil_iff]
    intro block hblock
    obtain ⟨x, -, rfl⟩ := List.mem_map.mp hblock
    rfl
  unfold getUserMessageText queuedMessage
  dsimp only
  have htext : (ContentBlock.text text).text? = some text := rfl
  rw [List.filterMap_cons_some htext, himages]
  exact String.empty_append

theorem userTexts_append (messages more : List AgentMessage) :
    userTexts (messages ++ more) = userTexts messages ++ userTexts more :=
  List.filterMap_append

theorem userTexts_queued (text : String) (images : List (String × String)) (now : Nat) :
    userTexts [queuedMessage text images now] = [text] := by
  have htext := getUserMessageText_queued text images now
  exact congrArg (fun text => [text]) htext

theorem mirrors_queueText (h : s.Mirrors) (behavior : StreamingBehavior) (text : String)
    (images : List (String × String)) (now : Nat) :
    (s.queueText behavior text images now).Mirrors := by
  obtain ⟨hsteering, hfollowUp⟩ := h
  cases behavior with
  | steer =>
    refine ⟨?_, hfollowUp⟩
    have hnext : (s.queueText .steer text images now).unstarted .steering =
        s.unstarted .steering ++ [queuedMessage text images now] :=
      (List.append_assoc _ _ _).symm
    rw [hnext, userTexts_append, userTexts_queued, ← hsteering]
    rfl
  | followUp =>
    refine ⟨hsteering, ?_⟩
    have hnext : (s.queueText .followUp text images now).unstarted .followUp =
        s.unstarted .followUp ++ [queuedMessage text images now] :=
      (List.append_assoc _ _ _).symm
    rw [hnext, userTexts_append, userTexts_queued, ← hfollowUp]
    rfl

theorem mirrors_custom (h : s.Mirrors) (behavior : StreamingBehavior) (message : CustomMessage) :
    (s.enqueue behavior (.custom message)).Mirrors := by
  obtain ⟨hsteering, hfollowUp⟩ := h
  cases behavior with
  | steer =>
    refine ⟨?_, hfollowUp⟩
    have hnext : (s.enqueue .steer (.custom message)).unstarted .steering =
        s.unstarted .steering ++ [.custom message] := (List.append_assoc _ _ _).symm
    rw [hnext, userTexts_append]
    exact hsteering.trans (List.append_nil _).symm
  | followUp =>
    refine ⟨hsteering, ?_⟩
    have hnext : (s.enqueue .followUp (.custom message)).unstarted .followUp =
        s.unstarted .followUp ++ [.custom message] := (List.append_assoc _ _ _).symm
    rw [hnext, userTexts_append]
    exact hfollowUp.trans (List.append_nil _).symm

theorem mirrors_clearQueue : s.clearQueue.Mirrors ↔ s.Keeps .clearQueue := by
  have hsteering : s.clearQueue.unstarted .steering = fromQueue .steering s.pending :=
    List.append_nil _
  have hfollowUp : s.clearQueue.unstarted .followUp = fromQueue .followUp s.pending :=
    List.append_nil _
  constructor
  · rintro ⟨h, h'⟩
    rw [hsteering] at h
    rw [hfollowUp] at h'
    exact ⟨h.symm, h'.symm⟩
  · rintro ⟨h, h'⟩
    refine ⟨?_, ?_⟩
    · rw [hsteering, h]
      rfl
    · rw [hfollowUp, h']
      rfl

/-! ## Taking -/

/-- What is taken is still unstarted, in the same place. -/
theorem unstarted_takes (hpending : s.pending = []) (queue other : QueueKind) :
    (s.takes queue).unstarted other = s.unstarted other := by
  cases queue with
  | steering =>
    cases other with
    | steering =>
      dsimp only [unstarted, takes, drain]
      rw [hpending, fromQueue_map_self, ← PendingMessageQueue.drain_append]
      rfl
    | followUp =>
      dsimp only [unstarted, takes, drain]
      rw [hpending, fromQueue_map_other (by decide)]
      rfl
  | followUp =>
    cases other with
    | steering =>
      dsimp only [unstarted, takes, drain]
      rw [hpending, fromQueue_map_other (by decide)]
      rfl
    | followUp =>
      dsimp only [unstarted, takes, drain]
      rw [hpending, fromQueue_map_self, ← PendingMessageQueue.drain_append]
      rfl

theorem mirrors_takes (h : s.Mirrors) (hpending : s.pending = []) (queue : QueueKind) :
    (s.takes queue).Mirrors := by
  refine ⟨?_, ?_⟩
  · rw [unstarted_takes hpending, ← h.steering]
    cases queue <;> rfl
  · rw [unstarted_takes hpending, ← h.followUp]
    cases queue <;> rfl

/-! ## Starting -/

theorem unstarted_removeStarted (text : String) (queue : QueueKind) :
    (s.removeStarted text).unstarted queue = s.unstarted queue := by
  unfold removeStarted
  split_ifs <;> cases queue <;> rfl

theorem erase_ne_self {text : String} {texts : List String} (h : text ∈ texts) :
    texts.erase text ≠ texts := by
  intro heq
  have hlength := List.length_erase_of_mem h
  have hpos := List.length_pos_of_mem h
  rw [heq] at hlength
  omega

theorem mirrors_started_none (h : s.Mirrors) (text : String) :
    (s.removeStarted text).Mirrors ↔ s.Found none text := by
  have hunstarted := @unstarted_removeStarted s text
  constructor
  · rintro ⟨hsteering, hfollowUp⟩
    rw [hunstarted, ← h.steering] at hsteering
    rw [hunstarted, ← h.followUp] at hfollowUp
    by_cases hempty : text = ""
    · exact .inl hempty
    · refine .inr ⟨fun hmem => ?_, fun hmem => ?_⟩
      · rw [removeStarted, if_neg hempty, if_pos hmem] at hsteering
        exact erase_ne_self hmem hsteering
      · by_cases hfront : text ∈ s.steeringMessages
        · rw [removeStarted, if_neg hempty, if_pos hfront] at hsteering
          exact erase_ne_self hfront hsteering
        · rw [removeStarted, if_neg hempty, if_neg hfront, if_pos hmem] at hfollowUp
          exact erase_ne_self hmem hfollowUp
  · intro hfound
    have hsame : s.removeStarted text = s := by
      unfold removeStarted
      obtain hempty | ⟨hfront, hback⟩ := hfound
      · rw [if_pos hempty]
      · rw [if_neg hfront, if_neg hback, ite_self]
    rw [hsame]
    exact h

theorem mirrors_started_steering {text : String}
    (hsteering : s.steeringMessages = text :: userTexts (s.unstarted .steering))
    (hfollowUp : s.followUpMessages = userTexts (s.unstarted .followUp)) :
    (s.removeStarted text).Mirrors ↔ s.Found (some .steering) text := by
  have hunstarted := @unstarted_removeStarted s text
  have hmem : text ∈ s.steeringMessages := hsteering ▸ List.mem_cons_self
  constructor
  · rintro ⟨hrest, -⟩ rfl
    rw [hunstarted, removeStarted, if_pos rfl, hsteering] at hrest
    exact absurd (congrArg List.length hrest) (Nat.succ_ne_self _)
  · intro hne
    have hself : s.removeStarted text =
        { s with steeringMessages := s.steeringMessages.erase text } := by
      rw [removeStarted, if_neg hne, if_pos hmem]
    refine ⟨?_, ?_⟩
    · rw [hunstarted, hself]
      dsimp only
      rw [hsteering, List.erase_cons_head]
    · rw [hunstarted, hself]
      exact hfollowUp

/-- The first displayed follow-up text is the one that is removed, unless it is
displayed as a steering text too. -/
theorem mirrors_started_followUp {text : String}
    (hsteering : s.steeringMessages = userTexts (s.unstarted .steering))
    (hfollowUp : s.followUpMessages = text :: userTexts (s.unstarted .followUp)) :
    (s.removeStarted text).Mirrors ↔ s.Found (some .followUp) text := by
  have hunstarted := @unstarted_removeStarted s text
  have hmem : text ∈ s.followUpMessages := hfollowUp ▸ List.mem_cons_self
  constructor
  · rintro ⟨hfirst, hrest⟩
    rw [hunstarted, ← hsteering] at hfirst
    rw [hunstarted] at hrest
    by_cases hempty : text = ""
    · rw [removeStarted, if_pos hempty, hfollowUp] at hrest
      exact absurd (congrArg List.length hrest) (Nat.succ_ne_self _)
    · refine ⟨hempty, fun hfront => ?_⟩
      rw [removeStarted, if_neg hempty, if_pos hfront] at hfirst
      exact erase_ne_self hfront hfirst
  · rintro ⟨hempty, hfront⟩
    have hself : s.removeStarted text =
        { s with followUpMessages := s.followUpMessages.erase text } := by
      rw [removeStarted, if_neg hempty, if_neg hfront, if_pos hmem]
    refine ⟨?_, ?_⟩
    · rw [hunstarted, hself]
      exact hsteering
    · rw [hunstarted, hself]
      dsimp only
      rw [hfollowUp, List.erase_cons_head]

/-- The session when the first pending message has been taken off. -/
def started (s : QueueMirror) : QueueMirror := { s with pending := s.pending.tail }

theorem unstarted_started {source : Option QueueKind} {message : AgentMessage} {rest : Sourced}
    (hpending : s.pending = (source, message) :: rest) (queue : QueueKind) :
    s.unstarted queue = fromQueue queue [(source, message)] ++ s.started.unstarted queue := by
  have hfirst (queue : QueueKind) : fromQueue queue s.pending =
      fromQueue queue [(source, message)] ++ fromQueue queue s.started.pending := by
    rw [started, hpending, List.tail_cons, ← fromQueue_append, List.singleton_append]
  cases queue with
  | steering =>
    dsimp only [unstarted]
    rw [hfirst .steering, List.append_assoc]
    rfl
  | followUp =>
    dsimp only [unstarted]
    rw [hfirst .followUp, List.append_assoc]
    rfl

theorem mirrors_started_user (h : s.Mirrors) {source : Option QueueKind} {m : UserMessage}
    {rest : Sourced} (hpending : s.pending = (source, .user m) :: rest) :
    (s.started.removeStarted (getUserMessageText (.user m))).Mirrors ↔
      s.Found source (getUserMessageText (.user m)) := by
  have hsteering := h.steering
  have hfollowUp := h.followUp
  rw [unstarted_started hpending, userTexts_append] at hsteering hfollowUp
  cases source with
  | none => exact mirrors_started_none ⟨hsteering, hfollowUp⟩ _
  | some queue =>
    cases queue with
    | steering => exact mirrors_started_steering (s := s.started) hsteering hfollowUp
    | followUp => exact mirrors_started_followUp (s := s.started) hsteering hfollowUp

theorem mirrors_started_other (h : s.Mirrors) {source : Option QueueKind} {message : AgentMessage}
    {rest : Sourced} (hpending : s.pending = (source, message) :: rest)
    (hother : userTexts [message] = []) : s.started.Mirrors := by
  have hnone (queue : QueueKind) : userTexts (fromQueue queue [(source, message)]) = [] := by
    by_cases hsource : source = some queue
    · rw [hsource]
      exact (congrArg userTexts (fromQueue_map_self queue [message])).trans hother
    · exact congrArg userTexts (fromQueue_map_other hsource [message])
  refine ⟨?_, ?_⟩
  · have hsteering := h.steering
    rw [unstarted_started hpending, userTexts_append, hnone] at hsteering
    exact hsteering
  · have hfollowUp := h.followUp
    rw [unstarted_started hpending, userTexts_append, hnone] at hfollowUp
    exact hfollowUp

theorem mirrors_starts (h : s.Mirrors) (hstep : s.step .starts = some s') :
    s'.Mirrors ↔ s.Keeps .starts := by
  cases hpending : s.pending with
  | nil =>
    rw [step] at hstep
    rw [hpending] at hstep
    cases hstep
  | cons first rest =>
    obtain ⟨source, message⟩ := first
    have hrest : s.started = { s with pending := rest } := by
      rw [started, hpending, List.tail_cons]
    rw [step] at hstep
    unfold Keeps
    rw [hpending] at hstep ⊢
    dsimp only at hstep ⊢
    rw [← hrest] at hstep
    cases message with
    | user m =>
      obtain rfl := Option.some.inj hstep
      exact mirrors_started_user h hpending
    | _ =>
      obtain rfl := Option.some.inj hstep
      exact iff_of_true (mirrors_started_other h hpending rfl) trivial

/-! ## Runs -/

/-- Nothing is pending between two runs. -/
def Settled (s : QueueMirror) : Prop := s.activeRun = false → s.pending = []

theorem mirrors_run (h : s.Mirrors) (hsettled : s.Settled) {messages : List AgentMessage}
    (hstep : s.step (.run messages) = some s') : s'.Mirrors := by
  rw [step] at hstep
  split at hstep
  · cases hstep
  · next hidle =>
      obtain rfl := Option.some.inj hstep
      have hpending := hsettled (Bool.eq_false_iff.mpr hidle)
      have hnone (queue : QueueKind) : fromQueue queue (messages.map (none, ·)) =
          fromQueue queue s.pending := by
        rw [hpending, fromQueue_map_other (by simp), fromQueue_nil]
      refine ⟨?_, ?_⟩
      · rw [h.steering]
        dsimp only [unstarted]
        rw [hnone]
      · rw [h.followUp]
        dsimp only [unstarted]
        rw [hnone]

theorem mirrors_continueRun (h : s.Mirrors) (hsettled : s.Settled) {lastIsAssistant : Bool}
    (hstep : s.step (.continueRun lastIsAssistant) = some s') : s'.Mirrors := by
  rw [step] at hstep
  split at hstep
  · cases hstep
  · next hidle =>
      have hpending := hsettled (Bool.eq_false_iff.mpr hidle)
      split at hstep
      · obtain rfl := Option.some.inj hstep
        rw [← hpending]
        exact ⟨h.steering, h.followUp⟩
      · split at hstep
        · obtain rfl := Option.some.inj hstep
          exact mirrors_takes h hpending .steering
        · split at hstep
          · obtain rfl := Option.some.inj hstep
            exact mirrors_takes h hpending .followUp
          · cases hstep

/-- From a state in which the mirror is exact, a step keeps it so if and only if
the step meets the condition. -/
theorem mirrors_step (h : s.Mirrors) (hsettled : s.Settled) {a : MirrorAction}
    (hstep : s.step a = some s') : s'.Mirrors ↔ s.Keeps a := by
  cases a with
  | queue behavior text images now =>
    obtain rfl := Option.some.inj hstep
    exact iff_of_true (mirrors_queueText h behavior text images now) trivial
  | sendCustomMessage behavior message =>
    obtain rfl := Option.some.inj hstep
    exact iff_of_true (mirrors_custom h behavior message) trivial
  | clearQueue =>
    obtain rfl := Option.some.inj hstep
    exact mirrors_clearQueue
  | abort =>
    obtain rfl := Option.some.inj hstep
    exact iff_of_true h trivial
  | run messages => exact iff_of_true (mirrors_run h hsettled hstep) trivial
  | continueRun lastIsAssistant =>
    exact iff_of_true (mirrors_continueRun h hsettled hstep) trivial
  | polls queue =>
    rw [step] at hstep
    split at hstep
    · next hidle =>
        obtain rfl := Option.some.inj hstep
        exact iff_of_true (mirrors_takes h hidle.2 queue) trivial
    · cases hstep
  | starts => exact mirrors_starts h hstep
  | ends =>
    rw [step] at hstep
    split at hstep
    · obtain rfl := Option.some.inj hstep
      exact iff_of_true ⟨h.steering, h.followUp⟩ trivial
    · cases hstep

theorem removeStarted_run (text : String) :
    (s.removeStarted text).activeRun = s.activeRun ∧
      (s.removeStarted text).pending = s.pending := by
  unfold removeStarted
  split_ifs <;> exact ⟨rfl, rfl⟩

theorem settled_step (h : s.Settled) {a : MirrorAction} (hstep : s.step a = some s') :
    s'.Settled := by
  cases a with
  | queue behavior text images now =>
    obtain rfl := Option.some.inj hstep
    cases behavior <;> exact h
  | sendCustomMessage behavior message =>
    obtain rfl := Option.some.inj hstep
    cases behavior <;> exact h
  | clearQueue =>
    obtain rfl := Option.some.inj hstep
    exact h
  | abort =>
    obtain rfl := Option.some.inj hstep
    exact h
  | run messages =>
    rw [step] at hstep
    split at hstep
    · cases hstep
    · obtain rfl := Option.some.inj hstep
      exact fun hactive => by cases hactive
  | continueRun lastIsAssistant =>
    rw [step] at hstep
    split_ifs at hstep
    · obtain rfl := Option.some.inj hstep
      exact fun hactive => by cases hactive
    · obtain rfl := Option.some.inj hstep
      exact fun hactive => by cases hactive
    · obtain rfl := Option.some.inj hstep
      exact fun hactive => by cases hactive
  | polls queue =>
    rw [step] at hstep
    split at hstep
    · obtain rfl := Option.some.inj hstep
      exact fun hactive => by cases hactive
    · cases hstep
  | starts =>
    rw [step] at hstep
    cases hpending : s.pending with
    | nil =>
      rw [hpending] at hstep
      cases hstep
    | cons first rest =>
      have hactive : s.activeRun = true := by
        by_contra hidle
        have hnone := h (Bool.eq_false_iff.mpr hidle)
        rw [hpending] at hnone
        cases hnone
      have hsame : s'.activeRun = s.activeRun := by
        rw [hpending] at hstep
        dsimp only at hstep
        split at hstep
        · obtain rfl := Option.some.inj hstep
          exact removeStarted_run _ |>.1
        · obtain rfl := Option.some.inj hstep
          rfl
      intro hidle
      rw [hsame, hactive] at hidle
      cases hidle
  | ends =>
    rw [step] at hstep
    split at hstep
    · next hidle =>
        obtain rfl := Option.some.inj hstep
        exact fun _ => hidle.2
    · cases hstep

/-- As long as every message that starts is found and the queues are cleared with
nothing taken, the mirror is exact; the first step that is otherwise breaks it. -/
theorem mirror_exact (steeringMode followUpMode : QueueMode) {s : QueueMirror}
    (hrun : Machine.Reaches step Keeps (start steeringMode followUpMode) s) :
    s.Mirrors ∧ ∀ a s', s.step a = some s' → (s'.Mirrors ↔ s.Keeps a) := by
  have hboth : s.Mirrors ∧ s.Settled := by
    refine hrun.invariant (I := fun s => s.Mirrors ∧ s.Settled) ⟨⟨rfl, rfl⟩, fun _ => rfl⟩ ?_
    rintro s a s' ⟨h, hsettled⟩ hok hstep
    exact ⟨(mirrors_step h hsettled hstep).mpr hok, settled_step hsettled hstep⟩
  exact ⟨hboth.1, fun a s' hstep => mirrors_step hboth.1 hboth.2 hstep⟩

instance (s : QueueMirror) (source : Option QueueKind) (text : String) :
    Decidable (s.Found source text) := by
  unfold Found
  split <;> infer_instance

instance (s : QueueMirror) (a : MirrorAction) : Decidable (s.Keeps a) := by
  unfold Keeps
  split
  · split <;> infer_instance
  · infer_instance
  · infer_instance

theorem mirror_exact_steered : ∃ s, Machine.Reaches step Keeps (start .all .all) s ∧
    s.activeRun = true ∧ s.Mirrors ∧
      ∀ a s', s.step a = some s' → (s'.Mirrors ↔ s.Keeps a) := by
  obtain ⟨s, hs, hrun⟩ := @Machine.reaches_of_isSome _ _ step Keeps (start .all .all) _
    [.run [queuedMessage "go" [] 0], .starts, .queue .steer "stop" [] 1, .polls .steering, .starts]
    (by decide)
  have hactive : (Machine.run step Keeps (start .all .all)
      [.run [queuedMessage "go" [] 0], .starts, .queue .steer "stop" [] 1, .polls .steering,
        .starts]).map activeRun = some true := by
    decide
  rw [hs] at hactive
  exact ⟨s, hrun, Option.some.inj hactive, mirror_exact .all .all hrun⟩

/-- A queued image without a text stays displayed after it has started. -/
theorem image_stays_displayed : ∃ s, Machine.Reaches step (fun _ _ => True) (start .all .all) s ∧
    s.pending = [] ∧ s.steeringQueue.messages = [] ∧ s.steeringMessages = [""] ∧ ¬ s.Mirrors := by
  obtain ⟨s, hs, hrun⟩ := @Machine.reaches_of_isSome _ _ step (fun _ _ => True) (start .all .all) _
    [.run [queuedMessage "go" [] 0], .starts, .queue .steer "" [("AAAA", "image/png")] 1,
      .polls .steering, .starts]
    (by decide)
  have hstate : (Machine.run step (fun _ _ => True) (start .all .all)
      [.run [queuedMessage "go" [] 0], .starts, .queue .steer "" [("AAAA", "image/png")] 1,
        .polls .steering, .starts]).map (fun s =>
          (s.pending, s.steeringQueue.messages, s.steeringMessages)) = some ([], [], [""]) := by
    decide
  rw [hs] at hstate
  obtain ⟨hpending, hrest⟩ := Prod.mk.inj (Option.some.inj hstate)
  obtain ⟨hqueue, hdisplayed⟩ := Prod.mk.inj hrest
  refine ⟨s, hrun, hpending, hqueue, hdisplayed, fun h => ?_⟩
  have hsteering := h.steering
  dsimp only [unstarted] at hsteering
  rw [hdisplayed, hpending, hqueue] at hsteering
  cases hsteering

end QueueMirror

end Eagent
