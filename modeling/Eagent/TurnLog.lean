import Eagent.ToolBatch

/-!
# Turns

What one turn of the loop leaves in the log and in the transcripts: the
injected messages, the streamed assistant message, the results of its tool
calls (`TurnLog`); and what the rounds of a run leave, turn after turn
(`spec_loopRounds`), whether the run returns or a hook throws.
-/

namespace Eagent

open Interaction

/-! ## Message brackets -/

def AgentEvent.IsAssistantUpdate (e : AgentEvent) : Prop :=
  ∃ (message : AssistantMessage) (kind : StreamEventKind), e = .messageUpdate (.assistant message) kind

/-- The events of one message: its start and its end, and for a streamed
assistant message, which starts with a partial one, its updates. -/
inductive MessageBracket : AgentMessage → List AgentEvent → Prop
  | whole (m : AgentMessage) : MessageBracket m [.messageStart m, .messageEnd m]
  | streamed (partialMessage m : AssistantMessage) {updates : List AgentEvent}
      (h : ∀ u ∈ updates, u.IsAssistantUpdate) :
      MessageBracket (.assistant m)
        (.messageStart (.assistant partialMessage) :: (updates ++ [.messageEnd (.assistant m)]))

def MessageBrackets (ms : List AgentMessage) (evs : List AgentEvent) : Prop :=
  ∃ segs : List (List AgentEvent), List.Forall₂ MessageBracket ms segs ∧ evs = segs.flatten

variable {evs : List AgentEvent} {m : AgentMessage}

theorem MessageBracket.isMessage (h : MessageBracket m evs) : ∀ e ∈ evs, e.isMessage = true := by
  intro e he
  cases h with
  | whole m =>
    rcases List.mem_cons.mp he with rfl | he
    · rfl
    · rw [List.mem_singleton.mp he]
      rfl
  | streamed p m hupdates =>
    rcases List.mem_cons.mp he with rfl | he
    · rfl
    rcases List.mem_append.mp he with he | he
    · obtain ⟨q, kind, rfl⟩ := hupdates e he
      rfl
    · rw [List.mem_singleton.mp he]
      rfl

theorem endedMessages_updates {updates : List AgentEvent}
    (h : ∀ u ∈ updates, u.IsAssistantUpdate) : endedMessages updates = [] := by
  refine List.filterMap_eq_nil_iff.mpr ?_
  intro u hu
  obtain ⟨q, kind, rfl⟩ := h u hu
  rfl

theorem MessageBracket.endedMessages (h : MessageBracket m evs) : endedMessages evs = [m] := by
  cases h with
  | whole m => rfl
  | streamed p m hupdates =>
    show Eagent.endedMessages (_ ++ _) = _
    rw [endedMessages_append, endedMessages_updates hupdates]
    rfl

theorem MessageBrackets.nil : MessageBrackets [] [] := ⟨[], .nil, rfl⟩

theorem MessageBracket.brackets (h : MessageBracket m evs) : MessageBrackets [m] evs :=
  ⟨[evs], .cons h .nil, (List.append_nil evs).symm⟩

theorem MessageBrackets.append {ms ns : List AgentMessage} {es fs : List AgentEvent}
    (h : MessageBrackets ms es) (h' : MessageBrackets ns fs) :
    MessageBrackets (ms ++ ns) (es ++ fs) := by
  obtain ⟨segs, hsegs, rfl⟩ := h
  obtain ⟨segs', hsegs', rfl⟩ := h'
  exact ⟨segs ++ segs', List.rel_append hsegs hsegs', List.flatten_append.symm⟩

theorem MessageBrackets.endedMessages {ms : List AgentMessage} {es : List AgentEvent}
    (h : MessageBrackets ms es) : endedMessages es = ms := by
  obtain ⟨segs, hsegs, rfl⟩ := h
  induction hsegs with
  | nil => rfl
  | cons hm _ ih =>
    rw [List.flatten_cons, endedMessages_append, hm.endedMessages, ih]
    rfl

theorem MessageBrackets.filter_isMessage {ms : List AgentMessage} {es : List AgentEvent}
    (h : MessageBrackets ms es) : es.filter AgentEvent.isMessage = es := by
  obtain ⟨segs, hsegs, rfl⟩ := h
  refine List.filter_eq_self.mpr ?_
  intro e he
  obtain ⟨l, hl, hel⟩ := List.mem_flatten.mp he
  obtain ⟨i, hi, rfl⟩ := List.getElem_of_mem hl
  exact ((List.forall₂_iff_get.mp hsegs).2 i (hsegs.length_eq ▸ hi) hi).isMessage e hel

theorem brackets_flatMap_whole (ms : List AgentMessage) :
    MessageBrackets ms (ms.flatMap fun m => [.messageStart m, .messageEnd m]) := by
  induction ms with
  | nil => exact .nil
  | cons m ms ih =>
    rw [List.flatMap_cons]
    exact (MessageBracket.whole m).brackets.append ih

theorem brackets_resultEvents (rs : List ToolResultMessage) :
    MessageBrackets (rs.map .toolResult) (rs.flatMap resultEvents) := by
  have h := brackets_flatMap_whole (rs.map .toolResult)
  rwa [List.flatMap_map] at h

/-! ## The streamed message -/

namespace LoopWorld

def streamed (w : LoopWorld) : Option StreamEvent → LoopWorld
  | some (.start _) =>
      { w with streamStarted := true, startsOnce := w.startsOnce && !w.streamStarted }
  | _ => w

theorem extends_streamed (w : LoopWorld) (event : Option StreamEvent) :
    Extends w (w.streamed event) [] := by
  refine ⟨?_, ?_, ?_, ?_⟩
  all_goals unfold streamed; split
  · exact (List.append_nil _).symm
  · exact (List.append_nil _).symm
  · exact (List.append_nil _).symm
  · exact (List.append_nil _).symm
  · exact fun h => (Bool.and_eq_true_iff.mp h).1
  · exact id
  · exact id
  · exact id

end LoopWorld

section Stream

variable {base : List AgentMessage} {w : LoopWorld}

theorem spec_nextStreamEvent :
    Spec base (attempt LoopEffect.nextStreamEvent fun a => a) w
      (fun event w' => w' = w.streamed event) fun w' => w' = w := by
  refine ⟨trivial, ?_⟩
  rintro (a : Except String (Option StreamEvent)) w' ⟨-, rfl⟩
  match a with
  | .ok (some (.start p)) => exact rfl
  | .ok (some (.update kind p)) => exact rfl
  | .ok (some .done) => exact rfl
  | .ok (some .error) => exact rfl
  | .ok none => exact rfl
  | .error message => exact rfl

/-- Events of messages only: what a stream leaves in the log however it
goes. -/
def LoopWorld.Streams (w w' : LoopWorld) (evs : List AgentEvent) : Prop :=
  w.Extends w' (evs.map .event) ∧ ∀ e ∈ evs, e.isMessage = true

theorem LoopWorld.Streams.refl (w : LoopWorld) : Streams w w [] := ⟨.refl w, by simp⟩

theorem LoopWorld.Streams.trans {w₁ w₂ w₃ : LoopWorld} {s t : List AgentEvent}
    (h₁ : Streams w₁ w₂ s) (h₂ : Streams w₂ w₃ t) : Streams w₁ w₃ (s ++ t) := by
  refine ⟨List.map_append ▸ h₁.1.trans h₂.1, ?_⟩
  intro e he
  rcases List.mem_append.mp he with he | he
  · exact h₁.2 e he
  · exact h₂.2 e he

theorem LoopWorld.streams_record (w : LoopWorld) {e : AgentEvent} (he : e.isMessage = true) :
    Streams w (w.record (.event e)) [e] := by
  refine ⟨w.extends_event e, ?_⟩
  intro e' he'
  rwa [List.mem_singleton.mp he']

theorem LoopWorld.streams_setMessages (w : LoopWorld) (ms : List AgentMessage) :
    Streams w (w.setMessages ms) [] := ⟨w.extends_setMessages ms, by simp⟩

theorem LoopWorld.streams_streamed (w : LoopWorld) (event : Option StreamEvent) :
    Streams w (w.streamed event) [] := ⟨w.extends_streamed event, by simp⟩

variable {context : List AgentMessage}

theorem spec_finishStream_added
    (hcontext : w.startsOnce = true → ∃ x, w.context.messages = context ++ [x]) :
    Spec base (finishStream true) w
      (fun final w' => w.Streams w' [.messageEnd (.assistant final)] ∧
        (w'.startsOnce = true → w'.context.messages = context ++ [AgentMessage.assistant final]))
      fun w' => w.Streams w' [] := by
  refine Spec.bind (Q := fun _ w' => w' = w)
    (Spec.attempt trivial (fun _ => rfl) (fun _ => rfl) (.refl w)) ?_
  intro final w' h
  rw [h]
  refine Spec.bind (Spec.replaceLastContext (Q := fun _ w' => w.Streams w' [] ∧
    (w'.startsOnce = true → w'.context.messages = context ++ [AgentMessage.assistant final]))
    ⟨w.streams_setMessages _, ?_⟩) ?_
  · intro honce
    obtain ⟨x, hx⟩ := hcontext honce
    show w.context.messages.dropLast ++ [_] = _
    rw [hx, List.dropLast_concat]
  · intro _ w₁ h₁
    refine Spec.bind (Spec.emit (Q := fun _ w' => w.Streams w' [.messageEnd (.assistant final)] ∧
      (w'.startsOnce = true → w'.context.messages = context ++ [AgentMessage.assistant final]))
      ⟨h₁.1.trans (w₁.streams_record rfl), h₁.2⟩) ?_
    intro _ w₂ h₂
    exact Spec.pure h₂

/-- Without one, it is added and gets its own `message_start`. -/
theorem spec_finishStream_fresh :
    Spec base (finishStream false) w
      (fun final w' => w.Streams w'
          [.messageStart (.assistant final), .messageEnd (.assistant final)] ∧
        w'.context.messages = w.context.messages ++ [AgentMessage.assistant final])
      fun w' => w.Streams w' [] := by
  refine Spec.bind (Q := fun _ w' => w' = w)
    (Spec.attempt trivial (fun _ => rfl) (fun _ => rfl) (.refl w)) ?_
  intro final w' h
  rw [h]
  refine Spec.bind (Spec.pushContext (Q := fun _ w' => w.Streams w' [] ∧
    w'.context.messages = w.context.messages ++ [AgentMessage.assistant final])
    ⟨w.streams_setMessages _, rfl⟩) ?_
  intro _ w₁ h₁
  refine Spec.bind (Spec.emit (Q := fun _ w' => w.Streams w' [.messageStart (.assistant final)] ∧
    w'.context.messages = w.context.messages ++ [AgentMessage.assistant final])
    ⟨h₁.1.trans (w₁.streams_record rfl), h₁.2⟩) ?_
  intro _ w₂ h₂
  refine Spec.bind (Spec.emit (Q := fun _ w' => w.Streams w'
      [.messageStart (.assistant final), .messageEnd (.assistant final)] ∧
    w'.context.messages = w.context.messages ++ [AgentMessage.assistant final])
    ⟨h₂.1.trans (w₂.streams_record rfl), h₂.2⟩) ?_
  intro _ w₃ h₃
  exact Spec.pure h₃

def StreamsOn (context : List AgentMessage) (w : LoopWorld) (final : AssistantMessage)
    (w' : LoopWorld) : Prop :=
  ∃ evs, w.Streams w' evs ∧
    (w'.startsOnce = true → w'.context.messages = context ++ [AgentMessage.assistant final] ∧
      ∃ updates : List AgentEvent, evs = updates ++ [.messageEnd (.assistant final)] ∧
        ∀ u ∈ updates, u.IsAssistantUpdate)

theorem StreamsOn.prepend {w₁ w' : LoopWorld} {evs : List AgentEvent} {final : AssistantMessage}
    (h₁ : w.Streams w₁ evs) (hupdates : w₁.startsOnce = true → ∀ u ∈ evs, u.IsAssistantUpdate)
    (h : StreamsOn context w₁ final w') : StreamsOn context w final w' := by
  obtain ⟨evs', hstreams, honce⟩ := h
  refine ⟨evs ++ evs', h₁.trans hstreams, ?_⟩
  intro h'
  obtain ⟨hcontext, updates, rfl, hupdates'⟩ := honce h'
  refine ⟨hcontext, evs ++ updates, (List.append_assoc ..).symm, ?_⟩
  intro u hu
  rcases List.mem_append.mp hu with hu | hu
  · exact hupdates (hstreams.1.startsOnce h') u hu
  · exact hupdates' u hu

theorem spec_finishStream_on
    (hcontext : w.startsOnce = true → ∃ x, w.context.messages = context ++ [x]) :
    Spec base (finishStream true) w (StreamsOn context w) fun w' => ∃ evs, w.Streams w' evs := by
  refine (spec_finishStream_added hcontext).mono ?_ fun w' h => ⟨_, h⟩
  intro final w' h
  exact ⟨_, h.1, fun honce => ⟨h.2 honce, [], rfl, by simp⟩⟩

/-- Reading on after a `start`. A second `start` is what `startsOnce`
excludes. -/
theorem spec_readStream_added (fuel : Nat) (hstarted : w.streamStarted = true)
    (hcontext : w.startsOnce = true → ∃ x, w.context.messages = context ++ [x]) :
    Spec base (readStream fuel true) w (StreamsOn context w) fun w' => ∃ evs, w.Streams w' evs := by
  induction fuel generalizing w with
  | zero => exact Spec.outOfFuel
  | succ fuel ih =>
    refine Spec.bind (spec_nextStreamEvent.mono (fun _ _ h => h) fun w' h => ⟨[], ?_⟩) ?_
    · rw [h]
      exact .refl w
    intro event w' h
    rw [h]
    match event with
    | none => exact spec_finishStream_on hcontext
    | some .done => exact spec_finishStream_on hcontext
    | some .error => exact spec_finishStream_on hcontext
    | some (.start p) =>
      have honce : (w.streamed (some (.start p))).startsOnce = false := by
        simp [LoopWorld.streamed, hstarted]
      refine Spec.bind (Spec.pushContext (Q := fun _ w' => w.Streams w' [] ∧
        w'.startsOnce = false ∧ w'.streamStarted = true)
        ⟨(w.streams_streamed _).trans (LoopWorld.streams_setMessages _ _), honce, rfl⟩) ?_
      intro _ w₁ h₁
      refine Spec.bind (Spec.emit (Q := fun _ w' => w.Streams w' [_] ∧
        w'.startsOnce = false ∧ w'.streamStarted = true)
        ⟨h₁.1.trans (w₁.streams_record (e := .messageStart (.assistant p)) rfl), h₁.2⟩) ?_
      intro _ w₂ h₂
      have hnot : w₂.startsOnce ≠ true := h₂.2.1 ▸ Bool.false_ne_true
      refine (ih h₂.2.2 fun h => absurd h hnot).mono ?_ ?_
      · intro final w₃ h₃
        exact h₃.prepend h₂.1 fun h => absurd h hnot
      · intro w₃ h₃
        rcases h₃ with ⟨evs, h₃⟩
        exact ⟨_, h₂.1.trans h₃⟩
    | some (.update kind p) =>
      refine Spec.bind (Spec.replaceLastContext (Q := fun _ w' => w.Streams w' [] ∧
        (w'.startsOnce = true → w'.context.messages = context ++ [AgentMessage.assistant p]) ∧
        w'.streamStarted = true) ⟨w.streams_setMessages _, ?_, hstarted⟩) ?_
      · intro honce
        obtain ⟨x, hx⟩ := hcontext honce
        show w.context.messages.dropLast ++ [_] = _
        rw [hx, List.dropLast_concat]
      intro _ w₁ h₁
      refine Spec.bind (Spec.emit (Q := fun _ w' => w.Streams w' [_] ∧
        (w'.startsOnce = true → w'.context.messages = context ++ [AgentMessage.assistant p]) ∧
        w'.streamStarted = true)
        ⟨h₁.1.trans (w₁.streams_record (e := .messageUpdate (.assistant p) kind) rfl),
          h₁.2⟩) ?_
      intro _ w₂ h₂
      refine (ih h₂.2.2 fun honce => ⟨_, h₂.2.1 honce⟩).mono ?_ ?_
      · intro final w₃ h₃
        refine h₃.prepend h₂.1 fun _ u hu => ?_
        rw [List.mem_singleton.mp hu]
        exact ⟨p, kind, rfl⟩
      · intro w₃ h₃
        rcases h₃ with ⟨evs, h₃⟩
        exact ⟨_, h₂.1.trans h₃⟩

/-- A whole response: the final message joins the context, and its events
are a bracket. -/
def Responds (w : LoopWorld) (final : AssistantMessage) (w' : LoopWorld) : Prop :=
  ∃ evs, w.Streams w' evs ∧
    (w'.startsOnce = true →
      w'.context.messages = w.context.messages ++ [AgentMessage.assistant final] ∧
        MessageBracket (.assistant final) evs)

theorem spec_finishStream_responds :
    Spec base (finishStream false) w (Responds w) fun w' => ∃ evs, w.Streams w' evs := by
  refine spec_finishStream_fresh.mono ?_ fun w' h => ⟨_, h⟩
  intro final w' h
  exact ⟨_, h.1, fun _ => ⟨h.2, .whole _⟩⟩

theorem spec_readStream_fresh (fuel : Nat) (hstarted : w.streamStarted = false) :
    Spec base (readStream fuel false) w (Responds w) fun w' => ∃ evs, w.Streams w' evs := by
  induction fuel generalizing w with
  | zero => exact Spec.outOfFuel
  | succ fuel ih =>
    refine Spec.bind (spec_nextStreamEvent.mono (fun _ _ h => h) fun w' h => ⟨[], ?_⟩) ?_
    · rw [h]
      exact .refl w
    intro event w' h
    rw [h]
    match event with
    | none => exact spec_finishStream_responds
    | some .done => exact spec_finishStream_responds
    | some .error => exact spec_finishStream_responds
    | some (.start p) =>
      refine Spec.bind (Spec.pushContext (Q := fun _ w' => w.Streams w' [] ∧
        w'.context.messages = w.context.messages ++ [AgentMessage.assistant p] ∧
        w'.streamStarted = true)
        ⟨(w.streams_streamed _).trans (LoopWorld.streams_setMessages _ _), rfl, rfl⟩) ?_
      intro _ w₁ h₁
      refine Spec.bind (Spec.emit (Q := fun _ w' =>
        w.Streams w' [.messageStart (.assistant p)] ∧
        w'.context.messages = w.context.messages ++ [AgentMessage.assistant p] ∧
        w'.streamStarted = true)
        ⟨h₁.1.trans (w₁.streams_record (e := .messageStart (.assistant p)) rfl), h₁.2⟩) ?_
      intro _ w₂ h₂
      refine (spec_readStream_added fuel h₂.2.2 fun _ => ⟨_, h₂.2.1⟩).mono ?_ ?_
      · intro final w₃ h₃
        rcases h₃ with ⟨evs, h₃, honce⟩
        refine ⟨_, h₂.1.trans h₃, ?_⟩
        intro h
        obtain ⟨hcontext, updates, rfl, hupdates⟩ := honce h
        exact ⟨hcontext, .streamed p final hupdates⟩
      · intro w₃ h₃
        rcases h₃ with ⟨evs, h₃⟩
        exact ⟨_, h₂.1.trans h₃⟩
    | some (.update kind p) => exact ih hstarted

theorem spec_streamAssistantResponse (fuel : Nat) (config : AgentLoopConfig)
    (hagrees : Agrees base w) :
    Spec base (streamAssistantResponse fuel config) w (Responds w)
      fun w' => ∃ evs, w.Streams w' evs := by
  refine Spec.bind (Q := fun _ w' => w' = w) (Spec.readContext rfl) ?_
  intro context w' h
  rw [h]
  refine Spec.bind (Q := fun _ w' => w' = w) ?_ ?_
  · unfold transformMessages
    split
    · exact Spec.attempt trivial (fun _ => rfl) (fun _ => rfl) ⟨[], .refl w⟩
    · exact Spec.pure rfl
  intro messages w' h
  rw [h]
  refine Spec.bind (Q := fun _ w' => w' = w)
    (Spec.attempt hagrees (fun _ => rfl) (fun _ => rfl) ⟨[], .refl w⟩) ?_
  intro llmMessages w' h
  rw [h]
  refine Spec.bind (Q := fun _ w' => w' = w) ?_ ?_
  · unfold resolveApiKey
    split
    · refine Spec.bind (Q := fun _ w' => w' = w)
        (Spec.attempt trivial (fun _ => rfl) (fun _ => rfl) ⟨[], .refl w⟩) ?_
      intro key w' h
      exact Spec.pure h
    · exact Spec.pure rfl
  intro apiKey w' h
  rw [h]
  have hstreams : w.Streams { w with streamStarted := false } [] :=
    ⟨⟨(List.append_nil _).symm, (List.append_nil _).symm, id, id⟩, by simp⟩
  refine Spec.bind (Q := fun _ w' => w' = { w with streamStarted := false }) ?_ ?_
  · refine ⟨trivial, ?_⟩
    rintro (a : Except String Unit) w' ⟨-, rfl⟩
    exact Spec.ofExcept (fun _ _ => rfl) ⟨[], hstreams⟩
  intro _ w' h
  rw [h]
  refine (spec_readStream_fresh fuel rfl).mono ?_ ?_
  · intro final w₁ h₁
    rcases h₁ with ⟨evs, h₁, honce⟩
    exact ⟨_, hstreams.trans h₁, honce⟩
  · intro w₁ h₁
    rcases h₁ with ⟨evs, h₁⟩
    exact ⟨_, hstreams.trans h₁⟩

end Stream

/-! ## Turns -/

/-- A turn: the messages injected before the response, the response, the
results of its calls, what was logged between `turn_start` and `turn_end`,
and the polls made after it. -/
structure Turn where
  injected : List AgentMessage
  message : AssistantMessage
  results : List ToolResultMessage
  log : List Observation
  polls : List (List AgentMessage)

def AssistantMessage.Failed (m : AssistantMessage) : Prop :=
  m.stopReason = .error ∨ m.stopReason = .aborted

namespace Turn

/-- What the turn appends to `newMessages`. -/
def messages (t : Turn) : List AgentMessage :=
  t.injected ++ .assistant t.message :: t.results.map .toolResult

def observations (t : Turn) : List Observation :=
  t.log ++ .event (.turnEnd t.message t.results) :: t.polls.map .polled

end Turn

/-- What is known of a turn; `once` stands for a stream protocol kept. -/
structure TurnLog (once : Prop) (t : Turn) : Prop where
  appended : appended t.log = t.messages
  polled : polled t.log = []
  pairing : t.results.map (·.idAndName) <+: t.message.toolCalls.map (·.idAndName)
  complete : (t.message.Failed ∧ t.results = []) ∨
    (¬ t.message.Failed ∧ (t.results.length = t.message.toolCalls.length ∨ .aborted ∈ t.log))
  messages : once → MessageBrackets t.messages ((eventsOf t.log).filter AgentEvent.isMessage)
  lifecycles : ∃ segs : List (List AgentEvent),
    List.Forall₂ Lifecycle (t.message.toolCalls.take t.results.length) segs ∧
      Shuffle segs ((eventsOf t.log).filter fun e => !e.isMessage)

theorem TurnLog.mono {once once' : Prop} {t : Turn} (h : TurnLog once t) (himp : once' → once) :
    TurnLog once' t :=
  ⟨h.appended, h.polled, h.pairing, h.complete, fun ho => h.messages (himp ho), h.lifecycles⟩

theorem TurnLog.withPolls {once : Prop} {t : Turn} (h : TurnLog once t)
    (polls : List (List AgentMessage)) : TurnLog once { t with polls } :=
  ⟨h.appended, h.polled, h.pairing, h.complete, h.messages, h.lifecycles⟩

def injectLog (m : AgentMessage) : List Observation :=
  [.event (.messageStart m), .event (.messageEnd m), .append m]

theorem eventsOf_inject (ms : List AgentMessage) : eventsOf (ms.flatMap injectLog) =
    ms.flatMap fun m => [AgentEvent.messageStart m, .messageEnd m] := by
  induction ms with
  | nil => rfl
  | cons m ms ih =>
    rw [List.flatMap_cons, List.flatMap_cons, eventsOf_append, ih]
    rfl

theorem appended_inject (ms : List AgentMessage) : appended (ms.flatMap injectLog) = ms := by
  induction ms with
  | nil => rfl
  | cons m ms ih =>
    rw [List.flatMap_cons, appended_append, ih]
    rfl

theorem polled_inject (ms : List AgentMessage) : polled (ms.flatMap injectLog) = [] := by
  induction ms with
  | nil => rfl
  | cons m ms ih =>
    rw [List.flatMap_cons, polled_append, ih]
    rfl

/-- Handing a batch's results over to the transcripts. -/
def pushLog (results : List ToolResultMessage) : List Observation :=
  results.map fun r => .append (.toolResult r)

theorem eventsOf_pushLog (rs : List ToolResultMessage) : eventsOf (pushLog rs) = [] := by
  induction rs with
  | nil => rfl
  | cons r rs ih => exact ih

theorem appended_pushLog (rs : List ToolResultMessage) :
    appended (pushLog rs) = rs.map .toolResult := by
  induction rs with
  | nil => rfl
  | cons r rs ih =>
    show AgentMessage.toolResult r :: appended (pushLog rs) = _
    rw [ih, List.map_cons]

theorem polled_pushLog (rs : List ToolResultMessage) : polled (pushLog rs) = [] := by
  induction rs with
  | nil => rfl
  | cons r rs ih => exact ih

theorem filter_isMessage_inject (ms : List AgentMessage) :
    ((ms.flatMap fun m => [AgentEvent.messageStart m, .messageEnd m]).filter fun e =>
      !e.isMessage) = [] := by
  induction ms with
  | nil => rfl
  | cons m ms ih => exact ih

def Turn.assemble (injected : List AgentMessage) (message : AssistantMessage)
    (evs : List AgentEvent) (seg : List Observation) (results : List ToolResultMessage) : Turn where
  injected := injected
  message := message
  results := results
  log := injected.flatMap injectLog ++ evs.map .event ++ [.append (.assistant message)] ++
    (seg ++ pushLog results)
  polls := []

section Assemble

variable {once : Prop} {injected : List AgentMessage} {message : AssistantMessage}
  {evs : List AgentEvent} {seg : List Observation} {results : List ToolResultMessage}

theorem eventsOf_assemble : eventsOf (Turn.assemble injected message evs seg results).log =
    (injected.flatMap fun m => [AgentEvent.messageStart m, .messageEnd m]) ++ evs ++
      eventsOf seg := by
  simp [Turn.assemble, eventsOf_inject, eventsOf_pushLog]

theorem TurnLog.of_batch (hevs : ∀ e ∈ evs, e.isMessage = true)
    (hbracket : once → MessageBracket (.assistant message) evs)
    (hfailed : ¬ message.Failed)
    (hbatch : BatchLog message.toolCalls results seg) :
    TurnLog once (Turn.assemble injected message evs seg results) where
  appended := by
    simp [Turn.assemble, appended_inject, appended_pushLog, hbatch.appended, Turn.messages]
  polled := by simp [Turn.assemble, polled_inject, polled_pushLog, hbatch.polled]
  pairing := hbatch.pairing
  complete := by
    rcases hbatch.complete with hlen | haborted
    · exact .inr ⟨hfailed, .inl hlen⟩
    · exact .inr ⟨hfailed, .inr (List.mem_append_right _ (List.mem_append_left _ haborted))⟩
  messages := by
    intro honce
    have hinjected := brackets_flatMap_whole injected
    have hresponse := (hbracket honce).brackets
    rw [eventsOf_assemble, List.filter_append, List.filter_append, hinjected.filter_isMessage,
      hresponse.filter_isMessage, hbatch.messages, List.append_assoc]
    exact hinjected.append (hresponse.append (brackets_resultEvents results))
  lifecycles := by
    rw [eventsOf_assemble, List.filter_append, List.filter_append, filter_isMessage_inject,
      List.filter_eq_nil_iff.mpr (by simpa using hevs)]
    exact hbatch.lifecycles

/-- A failed response: its calls are not looked at. -/
theorem TurnLog.of_failed (hevs : ∀ e ∈ evs, e.isMessage = true)
    (hbracket : once → MessageBracket (.assistant message) evs)
    (hfailed : message.Failed) :
    TurnLog once (Turn.assemble injected message evs [] []) where
  appended := by
    simp [Turn.assemble, appended_inject, appended_pushLog, Turn.messages]
  polled := by simp [Turn.assemble, polled_inject, polled_pushLog]
  pairing := List.nil_prefix
  complete := .inl ⟨hfailed, rfl⟩
  messages := by
    intro honce
    have hinjected := brackets_flatMap_whole injected
    have hresponse := (hbracket honce).brackets
    rw [eventsOf_assemble, List.filter_append, List.filter_append, hinjected.filter_isMessage,
      hresponse.filter_isMessage]
    simpa [Turn.messages, Turn.assemble] using hinjected.append hresponse
  lifecycles := by
    rw [eventsOf_assemble, List.filter_append, List.filter_append, filter_isMessage_inject,
      List.filter_eq_nil_iff.mpr (by simpa using hevs)]
    exact ⟨[], .nil, .nil (by simp)⟩

end Assemble

/-! ## The steps of a round -/

section Round

variable {base : List AgentMessage} {w : LoopWorld} {thrown : LoopWorld → Prop}

theorem Agrees.extend {w' : LoopWorld} {seg : List Observation} (h : Agrees base w)
    (hext : w.Extends w' seg)
    (hcontext : w'.startsOnce = true → w'.contextKept = true →
      w'.context.messages = w.context.messages ++ endedMessages (eventsOf seg)) :
    Agrees base w' := by
  intro honce hkept
  have hw := h (hext.startsOnce honce) (hext.contextKept hkept)
  rw [hcontext honce hkept, hw, LoopWorld.events, LoopWorld.events, hext.log, eventsOf_append,
    endedMessages_append, List.append_assoc]

/-- `turn_start`, which the first turn has outside the loop. -/
def startLog (firstTurn : Bool) : List Observation :=
  if firstTurn then [] else [.event .turnStart]

theorem spec_startTurn (firstTurn : Bool) :
    Spec base (startTurn firstTurn) w
      (fun _ w' => w.Extends w' (startLog firstTurn) ∧ w'.context = w.context) thrown := by
  cases firstTurn with
  | true => exact Spec.pure ⟨.refl w, rfl⟩
  | false => exact Spec.emit ⟨w.extends_event _, rfl⟩

theorem LoopWorld.extends_push (w : LoopWorld) (m : AgentMessage) :
    Extends w { w.record (.append m) with newMessages := w.newMessages ++ [m] } [.append m] :=
  ⟨rfl, rfl, id, id⟩

theorem spec_injectPending (ms : List AgentMessage) :
    Spec base (injectPending ms) w
      (fun _ w' => w.Extends w' (ms.flatMap injectLog) ∧
        w'.context.messages = w.context.messages ++ ms) thrown := by
  induction ms generalizing w with
  | nil => exact Spec.pure ⟨.refl w, (List.append_nil _).symm⟩
  | cons m ms ih =>
    refine Spec.bind (Spec.emit (Q := fun _ w' => w.Extends w' [_] ∧ w'.context = w.context)
      ⟨w.extends_event (.messageStart m), rfl⟩) ?_
    intro _ w₁ h₁
    refine Spec.bind (Spec.emit (Q := fun _ w' => w.Extends w' [_, _] ∧
      w'.context = w.context) ⟨h₁.1.trans (w₁.extends_event (.messageEnd m)), h₁.2⟩) ?_
    intro _ w₂ h₂
    refine Spec.bind (Spec.pushContext (Q := fun _ w' => w.Extends w' [_, _] ∧
      w'.context.messages = w.context.messages ++ [m])
      ⟨h₂.1.trans (w₂.extends_setMessages _), congrArg (fun c : AgentContext => c.messages ++ [m]) h₂.2⟩) ?_
    intro _ w₃ h₃
    refine Spec.bind (Spec.pushNewMessage (Q := fun _ w' => w.Extends w' (injectLog m) ∧
      w'.context.messages = w.context.messages ++ [m])
      ⟨h₃.1.trans (w₃.extends_push m), h₃.2⟩) ?_
    intro _ w₄ h₄
    refine ih.mono ?_ fun w' h => h
    intro _ w₅ h₅
    refine ⟨?_, ?_⟩
    · rw [List.flatMap_cons]
      exact h₄.1.trans h₅.1
    · rw [h₅.2, h₄.2, List.append_assoc]
      rfl

theorem spec_pushToolResults (rs : List ToolResultMessage) :
    Spec base (pushToolResults rs) w
      (fun _ w' => w.Extends w' (pushLog rs) ∧
        w'.context.messages = w.context.messages ++ rs.map .toolResult) thrown := by
  induction rs generalizing w with
  | nil => exact Spec.pure ⟨.refl w, (List.append_nil _).symm⟩
  | cons r rs ih =>
    refine Spec.bind (Spec.pushContext (Q := fun _ w' => w.Extends w' [] ∧
      w'.context.messages = w.context.messages ++ [AgentMessage.toolResult r])
      ⟨w.extends_setMessages _, rfl⟩) ?_
    intro _ w₁ h₁
    refine Spec.bind (Spec.pushNewMessage (Q := fun _ w' =>
      w.Extends w' [.append (.toolResult r)] ∧
      w'.context.messages = w.context.messages ++ [AgentMessage.toolResult r])
      ⟨h₁.1.trans (w₁.extends_push _), h₁.2⟩) ?_
    intro _ w₂ h₂
    refine ih.mono ?_ fun w' h => h
    intro _ w₃ h₃
    refine ⟨h₂.1.trans h₃.1, ?_⟩
    rw [h₃.2, h₂.2, List.append_assoc]
    rfl

/-- The results of a response: a batch, handed over to both transcripts. -/
theorem spec_runToolBatch (fuel : Nat) (message : AssistantMessage) (config : AgentLoopConfig) :
    Spec base (runToolBatch fuel message config) w
      (fun r w' => ∃ seg, w.Extends w' (seg ++ pushLog r.1) ∧
        BatchLog message.toolCalls r.1 seg ∧
        w'.context.messages = w.context.messages ++ r.1.map .toolResult) thrown := by
  unfold runToolBatch
  split
  · rename_i hnone
    refine Spec.pure ⟨[], .refl w, ?_, (List.append_nil _).symm⟩
    rw [List.isEmpty_iff.mp hnone]
    exact .nil
  · refine Spec.bind (spec_executeToolBatch fuel message config) ?_
    intro batch w₁ h₁
    rcases h₁ with ⟨seg, h₁, hbatch⟩
    refine Spec.bind (spec_pushToolResults batch.messages) ?_
    intro _ w₂ h₂
    refine Spec.pure ⟨seg, (h₁.extends hbatch.appended).trans h₂.1, hbatch, ?_⟩
    rw [h₂.2, h₁.context]

theorem Agrees.silent {w' : LoopWorld} {seg : List Observation} (h : Agrees base w)
    (hext : w.Extends w' seg) (hnone : endedMessages (eventsOf seg) = [])
    (hcontext : w'.contextKept = true → w'.context = w.context) : Agrees base w' := by
  refine h.extend hext fun _ hkept => ?_
  rw [hcontext hkept, hnone, List.append_nil]

theorem spec_endRun :
    Spec base endRun w
      (fun _ w' => w.Extends w' [.event (.agentEnd w'.newMessages)] ∧
        w'.context = w.context) thrown := by
  refine Spec.bind (Spec.readNewMessages (Q := fun ms w' => ms = w.newMessages ∧ w' = w)
    ⟨rfl, rfl⟩) ?_
  intro ms w' h
  rcases h with ⟨rfl, rfl⟩
  exact Spec.emit ⟨w'.extends_event _, rfl⟩

/-- Whatever `prepareNextTurn` returned; a replaced context is remembered. -/
theorem spec_prepareNextTurn {β : Type} (config : AgentLoopConfig) (message : AssistantMessage)
    (results : List ToolResultMessage) {f : AgentLoopConfig → LoopM β}
    {Q : β → LoopWorld → Prop} (hthrown : thrown w)
    (hf : ∀ config' w', w.Extends w' [] → (w'.contextKept = true → w'.context = w.context) →
      Spec base (f config') w' Q thrown) :
    Spec base (do
      let update ← attempt (LoopEffect.prepareNextTurn message results) fun a => a
      let config ← applyTurnUpdate config update
      f config) w Q thrown := by
  refine Spec.bind (Q := fun update w' => w.Extends w' [] ∧ w'.context = w.context ∧
    (w'.contextKept = true → ∀ u ∈ update, u.context = none)) ?_ ?_
  · refine ⟨trivial, ?_⟩
    rintro (a : Except String (Option AgentLoopTurnUpdate)) w' ⟨-, rfl⟩
    match a with
    | .ok (some update) =>
      refine ⟨⟨(List.append_nil _).symm, (List.append_nil _).symm, id, ?_⟩, rfl, ?_⟩
      · exact fun h => (Bool.and_eq_true_iff.mp h).1
      · intro h u hu
        obtain rfl := Option.some.inj hu
        exact Option.isNone_iff_eq_none.mp (Bool.and_eq_true_iff.mp h).2
    | .ok none => exact ⟨.refl w, rfl, fun _ u hu => nomatch hu⟩
    | .error message => exact hthrown
  · intro update w₁ h₁
    rcases h₁ with ⟨h₁, hcontext, hkept⟩
    refine Spec.bind (Q := fun _ w' => w.Extends w' [] ∧
      (w'.contextKept = true → w'.context = w.context)) ?_ ?_
    · cases update with
      | none => exact Spec.pure ⟨h₁, fun _ => hcontext⟩
      | some update =>
        unfold applyTurnUpdate
        dsimp only
        split
        · exact Spec.pure ⟨h₁, fun _ => hcontext⟩
        · rename_i context hupdate
          refine Spec.bind (Spec.setContext (Q := fun _ w' => w.Extends w' [] ∧
            (w'.contextKept = true → w'.context = w.context)) ⟨?_, ?_⟩) ?_
          · exact ⟨h₁.log, h₁.newMessages, h₁.startsOnce, h₁.contextKept⟩
          · intro h
            exact nomatch hupdate.symm.trans (hkept h update rfl)
          · intro _ w₂ h₂
            exact Spec.pure h₂
    · intro config' w₂ h₂
      exact hf config' w₂ h₂.1 h₂.2

/-- The first half of a round, up to the response in `newMessages`; the
stream function or a hook before it may throw. -/
theorem spec_respond {β : Type} (fuel : Nat) (firstTurn : Bool) (pending : List AgentMessage)
    (config : AgentLoopConfig) {f : AssistantMessage → LoopM β} {Q : β → LoopWorld → Prop}
    (hagrees : Agrees base w)
    (hthrown : ∀ (w' : LoopWorld) (evs : List AgentEvent), w.Extends w' (startLog firstTurn
      ++ pending.flatMap injectLog ++ evs.map .event) → thrown w')
    (hf : ∀ (message : AssistantMessage) (w' : LoopWorld) (evs : List AgentEvent),
      w.Extends w' (startLog firstTurn ++ (pending.flatMap injectLog
        ++ evs.map .event ++ [.append (.assistant message)])) →
      (∀ e ∈ evs, e.isMessage = true) →
      (w'.startsOnce = true → MessageBracket (.assistant message) evs) → Agrees base w' →
      Spec base (f message) w' Q thrown) :
    Spec base (do
      startTurn firstTurn
      injectPending pending
      let message ← streamAssistantResponse fuel config
      pushNewMessage (.assistant message)
      f message) w Q thrown := by
  refine Spec.bind (spec_startTurn firstTurn) ?_
  intro _ w₁ h₁
  refine Spec.bind (spec_injectPending pending) ?_
  intro _ w₂ h₂
  have hstart : endedMessages (eventsOf (startLog firstTurn)) = [] := by
    cases firstTurn with
    | true => rfl
    | false => rfl
  have hinject : endedMessages (eventsOf (pending.flatMap injectLog)) = pending := by
    rw [eventsOf_inject]
    exact (brackets_flatMap_whole pending).endedMessages
  have hagrees₂ : Agrees base w₂ := by
    refine hagrees.extend (h₁.1.trans h₂.1) fun _ _ => ?_
    rw [h₂.2, h₁.2, eventsOf_append, endedMessages_append, hstart, hinject]
    rfl
  have h₁₂ := h₁.1.trans h₂.1
  refine Spec.bind ((spec_streamAssistantResponse fuel config hagrees₂).mono (fun _ _ h => h) ?_) ?_
  · intro w' h
    rcases h with ⟨evs, h⟩
    exact hthrown w' evs (h₁₂.trans h.1)
  intro message w₃ h₃
  rcases h₃ with ⟨evs, h₃, honce⟩
  have hagrees₃ : Agrees base w₃ := by
    refine hagrees₂.extend h₃.1 fun ho _ => ?_
    rw [(honce ho).1, eventsOf_map_event, (honce ho).2.endedMessages]
  refine Spec.bind (Spec.pushNewMessage (Q := fun _ w' =>
    w₃.Extends w' [.append (.assistant message)] ∧ w'.context = w₃.context)
    ⟨w₃.extends_push _, rfl⟩) ?_
  intro _ w₄ h₄
  refine hf message w₄ evs ?_ h₃.2 ?_ ?_
  · have h := (h₁₂.trans h₃.1).trans h₄.1
    simpa only [List.append_assoc] using h
  · exact fun ho => (honce (h₄.1.startsOnce ho)).2
  · refine hagrees₃.extend h₄.1 fun _ _ => ?_
    rw [h₄.2]
    exact (List.append_nil _).symm

end Round

/-! ## Rounds -/

/-- Turn after turn; each begins with `turn_start`, but for the first one of
a run. -/
def roundsLog : Bool → List Turn → List Observation
  | _, [] => []
  | firstTurn, t :: ts => startLog firstTurn ++ t.observations ++ roundsLog false ts

/-- From `w` to `w'` the loop completed `turns` and then left `tail`. What
was pending or polled is what was injected, in the same order. -/
structure Rounds (firstTurn : Bool) (pending : List AgentMessage) (w w' : LoopWorld)
    (turns : List Turn) (tail : List Observation) : Prop where
  log : ∃ polls : List (List AgentMessage),
    w.Extends w' (polls.map .polled ++ roundsLog firstTurn turns ++ tail) ∧
      pending ++ polls.flatten ++ turns.flatMap (·.polls.flatten) =
        turns.flatMap (·.injected) ++ appended tail
  turns : ∀ t ∈ turns, TurnLog (w'.startsOnce = true) t
  tail : polled tail = []

section Rounds

variable {firstTurn : Bool} {pending : List AgentMessage} {w w₁ w' : LoopWorld}
  {turns : List Turn} {tail : List Observation}

theorem Rounds.nil (h : w.Extends w' tail) (hpolled : polled tail = [])
    (happended : appended tail = pending) : Rounds firstTurn pending w w' [] tail where
  log := ⟨[], h, by simp [happended]⟩
  turns := by simp
  tail := hpolled

theorem Rounds.poll {ms : List AgentMessage} (h : w.Extends w₁ [.polled ms])
    (hrest : Rounds firstTurn ms w₁ w' turns tail) : Rounds firstTurn [] w w' turns tail := by
  obtain ⟨⟨polls, hext, hinjected⟩, hturns, htail⟩ := hrest
  refine ⟨⟨ms :: polls, ?_, hinjected⟩, hturns, htail⟩
  exact h.trans hext

theorem Rounds.cons {t : Turn}
    (h : w.Extends w₁ (startLog firstTurn ++ t.log ++ [.event (.turnEnd t.message t.results)]))
    (ht : TurnLog (w₁.startsOnce = true) t) (hrest : Rounds false [] w₁ w' turns tail) :
    ∃ polls, Rounds firstTurn t.injected w w' ({ t with polls } :: turns) tail := by
  obtain ⟨⟨polls, hext, hinjected⟩, hturns, htail⟩ := hrest
  refine ⟨polls, ⟨[], ?_, ?_⟩, ?_, htail⟩
  · have hall := h.trans hext
    simpa [roundsLog, Turn.observations, List.append_assoc] using hall
  · simpa using hinjected
  · intro t' ht'
    rcases List.mem_cons.mp ht' with rfl | ht'
    · exact (ht.mono hext.startsOnce).withPolls polls
    · exact hturns t' ht'

end Rounds

theorem appended_roundsLog {once : Prop} {firstTurn : Bool} {turns : List Turn}
    (h : ∀ t ∈ turns, TurnLog once t) :
    appended (roundsLog firstTurn turns) = turns.flatMap Turn.messages := by
  induction turns generalizing firstTurn with
  | nil => rfl
  | cons t ts ih =>
    have hstart : appended (startLog firstTurn) = [] := by
      cases firstTurn with
      | true => rfl
      | false => rfl
    rw [roundsLog, appended_append, appended_append, hstart, List.flatMap_cons,
      Turn.observations, appended_append, (h t (List.mem_cons_self ..)).appended,
      appended_event, appended_map_polled, ih fun t' ht' => h t' (List.mem_cons_of_mem _ ht'),
      List.append_nil]
    rfl

theorem polled_roundsLog {once : Prop} {firstTurn : Bool} {turns : List Turn}
    (h : ∀ t ∈ turns, TurnLog once t) :
    polled (roundsLog firstTurn turns) = turns.flatMap (·.polls.flatten) := by
  induction turns generalizing firstTurn with
  | nil => rfl
  | cons t ts ih =>
    have hstart : polled (startLog firstTurn) = [] := by
      cases firstTurn with
      | true => rfl
      | false => rfl
    rw [roundsLog, polled_append, polled_append, hstart, List.flatMap_cons,
      Turn.observations, polled_append, (h t (List.mem_cons_self ..)).polled,
      polled_event, polled_map_polled, ih fun t' ht' => h t' (List.mem_cons_of_mem _ ht')]
    rfl

section LoopRounds

variable {base : List AgentMessage}

/-- Whether it returns or throws, the loop leaves complete turns; when it
throws, the turn it was in has injected its messages and nothing else. -/
theorem spec_loopRounds (fuel : Nat) {firstTurn : Bool} {config : AgentLoopConfig}
    {hasMoreToolCalls : Bool} {pending : List AgentMessage} {w : LoopWorld}
    (hagrees : Agrees base w) :
    Spec base (loopRounds fuel firstTurn config hasMoreToolCalls pending) w
      (fun _ w' => ∃ turns, Rounds firstTurn pending w w' turns
          [.event (.agentEnd w'.newMessages)] ∧
        (hasMoreToolCalls = true → turns ≠ []) ∧ Agrees base w')
      fun w' => ∃ turns tail, Rounds firstTurn pending w w' turns tail := by
  induction fuel generalizing firstTurn config hasMoreToolCalls pending w with
  | zero => exact Spec.outOfFuel
  | succ fuel ih =>
    unfold loopRounds
    split
    · refine spec_respond fuel firstTurn pending config hagrees ?_ ?_
      · intro w' evs h
        refine ⟨[], _, .nil h ?_ ?_⟩
        · cases firstTurn <;> simp [startLog, polled_inject]
        · cases firstTurn <;> simp [startLog, appended_inject]
      intro message w₁ evs h₁ hevs hbracket hagrees₁
      split
      · rename_i hfailed
        have hstop : message.Failed := by
          simpa [AssistantMessage.Failed] using hfailed
        have hturn : TurnLog (w₁.startsOnce = true) (.assemble pending message evs [] []) :=
          .of_failed hevs hbracket hstop
        refine Spec.bind (Spec.emit (Q := fun _ w' =>
          w₁.Extends w' [.event (.turnEnd message [])] ∧ w'.context = w₁.context)
          ⟨w₁.extends_event _, rfl⟩) ?_
        intro _ w₂ h₂
        refine spec_endRun.mono ?_ fun w' h => h
        intro _ w₃ h₃
        have hend : w.Extends w₂ (startLog firstTurn ++
            (Turn.assemble pending message evs [] []).log ++ [.event (.turnEnd message [])]) :=
          by simpa [Turn.assemble, pushLog, List.append_assoc] using h₁.trans h₂.1
        obtain ⟨polls, hrounds⟩ :=
          Rounds.cons hend (hturn.mono h₂.1.startsOnce) (.nil h₃.1 rfl rfl)
        refine ⟨_, hrounds, by simp, (hagrees₁.silent h₂.1 rfl fun _ => h₂.2).silent h₃.1 rfl
          fun _ => h₃.2⟩
      · rename_i hok
        have hstop : ¬ message.Failed := by
          simpa [AssistantMessage.Failed] using hok
        refine Spec.bind (spec_runToolBatch fuel message config) ?_
        intro r w₂ h₂
        rcases h₂ with ⟨seg, h₂, hbatch, hcontext⟩
        have hturn : TurnLog (w₁.startsOnce = true) (.assemble pending message evs seg r.1) :=
          .of_batch hevs hbracket hstop hbatch
        have hbatchEnded : endedMessages (eventsOf (seg ++ pushLog r.1)) =
            r.1.map .toolResult := by
          rw [eventsOf_append, eventsOf_pushLog, List.append_nil, ← endedMessages_filter,
            hbatch.messages]
          exact (brackets_resultEvents r.1).endedMessages
        have hagrees₂ : Agrees base w₂ :=
          hagrees₁.extend h₂ fun _ _ => by rw [hcontext, hbatchEnded]
        refine Spec.bind (Spec.emit (Q := fun _ w' =>
          w₂.Extends w' [.event (.turnEnd message r.1)] ∧ w'.context = w₂.context)
          ⟨w₂.extends_event _, rfl⟩) ?_
        intro _ w₃ h₃
        have hagrees₃ : Agrees base w₃ := hagrees₂.silent h₃.1 rfl fun _ => h₃.2
        have hend : w.Extends w₃ (startLog firstTurn ++
            (Turn.assemble pending message evs seg r.1).log ++
            [.event (.turnEnd message r.1)]) := by
          simpa [Turn.assemble, List.append_assoc] using (h₁.trans h₂).trans h₃.1
        -- from here on the turn is complete, whatever stops the loop
        have hcomplete : ∀ {w' : LoopWorld} {turns : List Turn} {tail : List Observation},
            Rounds false [] w₃ w' turns tail →
              ∃ t, Rounds firstTurn pending w w' (t :: turns) tail := by
          intro w' turns tail hrest
          obtain ⟨polls, hrounds⟩ := Rounds.cons hend (hturn.mono (h₂.trans h₃.1).startsOnce) hrest
          exact ⟨_, hrounds⟩
        have hthrown : ∀ {w' : LoopWorld}, w₃.Extends w' [] →
            ∃ turns tail, Rounds firstTurn pending w w' turns tail := by
          intro w' h
          obtain ⟨t, hrounds⟩ := hcomplete (.nil h rfl rfl)
          exact ⟨_, _, hrounds⟩
        refine spec_prepareNextTurn config message r.1 (hthrown (.refl w₃)) ?_
        intro config' w₄ h₄ hkept
        have hagrees₄ : Agrees base w₄ := hagrees₃.silent h₄ rfl hkept
        refine Spec.bind (Q := fun _ w' => w' = w₄)
          (Spec.attempt trivial (fun _ => rfl) (fun _ => rfl) (hthrown h₄)) ?_
        intro stop w' h
        rw [h]
        split
        · refine spec_endRun.mono ?_ fun w' h => h
          intro _ w₅ h₅
          obtain ⟨t, hrounds⟩ := hcomplete (.nil (h₄.trans h₅.1) rfl rfl)
          exact ⟨_, hrounds, by simp, hagrees₄.silent h₅.1 rfl fun _ => h₅.2⟩
        · refine Spec.bind (Spec.getSteeringMessages (Q := fun ms w' =>
            w₄.Extends w' [.polled ms] ∧ w'.context = w₄.context)
            (fun ms => ⟨⟨rfl, (List.append_nil _).symm, id, id⟩, rfl⟩) (hthrown h₄)) ?_
          intro ms w₅ h₅
          refine (ih (hagrees₄.silent h₅.1 rfl fun _ => h₅.2)).mono ?_ ?_
          · intro _ w₆ h₆
            rcases h₆ with ⟨turns, hrounds, -, hagrees₆⟩
            obtain ⟨t, hrounds'⟩ := hcomplete (hrounds.poll (h₄.trans h₅.1))
            exact ⟨_, hrounds', by simp, hagrees₆⟩
          · intro w₆ h₆
            rcases h₆ with ⟨turns, tail, hrounds⟩
            obtain ⟨t, hrounds'⟩ := hcomplete (hrounds.poll (h₄.trans h₅.1))
            exact ⟨_, _, hrounds'⟩
    · rename_i hnone
      have hmore : hasMoreToolCalls = false ∧ pending = [] := by
        simpa using hnone
      rcases hmore with ⟨rfl, rfl⟩
      refine Spec.bind (Spec.getFollowUpMessages (Q := fun ms w' => w' = w.record (.polled ms))
        (fun _ => rfl) ⟨[], [], .nil (.refl w) rfl rfl⟩) ?_
      intro ms w₁ h₁
      have hpoll : w.Extends w₁ [.polled ms] := h₁ ▸ ⟨rfl, (List.append_nil _).symm, id, id⟩
      have hagrees₁ : Agrees base w₁ := hagrees.silent hpoll rfl fun _ => h₁ ▸ rfl
      split
      · rename_i hempty
        refine spec_endRun.mono ?_ fun w' h => h
        intro _ w₂ h₂
        exact ⟨[], .poll hpoll (.nil h₂.1 rfl (List.isEmpty_iff.mp hempty).symm), by simp,
          hagrees₁.silent h₂.1 rfl fun _ => h₂.2⟩
      · refine (ih hagrees₁).mono ?_ ?_
        · intro _ w₂ h₂
          rcases h₂ with ⟨turns, hrounds, -, hagrees₂⟩
          exact ⟨turns, hrounds.poll hpoll, by simp, hagrees₂⟩
        · intro w₂ h₂
          rcases h₂ with ⟨turns, tail, hrounds⟩
          exact ⟨turns, tail, hrounds.poll hpoll⟩

/-- A whole run: the first poll, then the rounds; at least one turn if it
returns. -/
theorem spec_runLoop (fuel : Nat) (config : AgentLoopConfig) {w : LoopWorld}
    (hagrees : Agrees base w) :
    Spec base (runLoop fuel config) w
      (fun _ w' => ∃ turns, Rounds true [] w w' turns [.event (.agentEnd w'.newMessages)] ∧
        turns ≠ [] ∧ Agrees base w')
      fun w' => ∃ turns tail, Rounds true [] w w' turns tail := by
  refine Spec.bind (Spec.getSteeringMessages (Q := fun ms w' =>
    w.Extends w' [.polled ms] ∧ w'.context = w.context)
    (fun ms => ⟨⟨rfl, (List.append_nil _).symm, id, id⟩, rfl⟩) ⟨[], [], .nil (.refl w) rfl rfl⟩) ?_
  intro ms w₁ h₁
  refine (spec_loopRounds fuel (hagrees.silent h₁.1 rfl fun _ => h₁.2)).mono ?_ ?_
  · intro _ w' h
    rcases h with ⟨turns, hrounds, hnonempty, hagrees'⟩
    exact ⟨turns, hrounds.poll h₁.1, hnonempty rfl, hagrees'⟩
  · intro w' h
    rcases h with ⟨turns, tail, hrounds⟩
    exact ⟨turns, tail, hrounds.poll h₁.1⟩

end LoopRounds

/-! ## A whole call -/

def promptEvents (prompts : List AgentMessage) : List AgentEvent :=
  prompts.flatMap fun m => [.messageStart m, .messageEnd m]

/-- A call that returned: its prompts, its turns, and what they left. -/
structure RunLog (context : AgentContext) (call : LoopCall) (w' : LoopWorld)
    (turns : List Turn) : Prop where
  nonempty : turns ≠ []
  turnLogs : ∀ t ∈ turns, TurnLog (w'.startsOnce = true) t
  events : w'.events = .agentStart :: .turnStart :: (promptEvents call.prompts ++
    eventsOf (roundsLog true turns) ++ [.agentEnd w'.newMessages])
  newMessages : w'.newMessages = call.prompts ++ turns.flatMap Turn.messages
  agrees : Agrees context.messages w'

/-- Nothing precedes a run. -/
theorem agrees_initial (context : AgentContext) (newMessages : List AgentMessage) :
    Agrees context.messages (.initial context newMessages) :=
  fun _ _ => (List.append_nil _).symm

section Call

variable {base : List AgentMessage} {w : LoopWorld} {thrown : LoopWorld → Prop}

theorem spec_pushPrompts (prompts : List AgentMessage) :
    Spec base (pushPrompts prompts) w
      (fun _ w' => w.Extends w' (prompts.map .append) ∧
        w'.context.messages = w.context.messages ++ prompts) thrown := by
  induction prompts generalizing w with
  | nil => exact Spec.pure ⟨.refl w, (List.append_nil _).symm⟩
  | cons m prompts ih =>
    refine Spec.bind (Spec.pushNewMessage (Q := fun _ w' => w.Extends w' [.append m] ∧
      w'.context = w.context) ⟨w.extends_push m, rfl⟩) ?_
    intro _ w₁ h₁
    refine Spec.bind (Spec.pushContext (Q := fun _ w' => w.Extends w' [.append m] ∧
      w'.context.messages = w.context.messages ++ [m])
      ⟨h₁.1.trans (w₁.extends_setMessages _),
        congrArg (fun c : AgentContext => c.messages ++ [m]) h₁.2⟩) ?_
    intro _ w₂ h₂
    refine ih.mono ?_ fun w' h => h
    intro _ w₃ h₃
    refine ⟨h₂.1.trans h₃.1, ?_⟩
    rw [h₃.2, h₂.2, List.append_assoc]
    rfl

theorem spec_emitPrompts (prompts : List AgentMessage) :
    Spec base (emitPrompts prompts) w
      (fun _ w' => w.Extends w' ((promptEvents prompts).map .event) ∧
        w'.context = w.context) thrown := by
  induction prompts generalizing w with
  | nil => exact Spec.pure ⟨.refl w, rfl⟩
  | cons m prompts ih =>
    refine Spec.bind (Spec.emit (Q := fun _ w' => w.Extends w' [_] ∧ w'.context = w.context)
      ⟨w.extends_event (.messageStart m), rfl⟩) ?_
    intro _ w₁ h₁
    refine Spec.bind (Spec.emit (Q := fun _ w' => w.Extends w' [_, _] ∧
      w'.context = w.context) ⟨h₁.1.trans (w₁.extends_event (.messageEnd m)), h₁.2⟩) ?_
    intro _ w₂ h₂
    refine ih.mono ?_ fun w' h => h
    intro _ w₃ h₃
    exact ⟨h₂.1.trans h₃.1, h₃.2.trans h₂.2⟩

/-- From the first event on, with the prompts in both transcripts. -/
theorem spec_startCall (fuel : Nat) (config : AgentLoopConfig) {context : AgentContext}
    (call : LoopCall)
    (hext : (LoopWorld.initial context []).Extends w (call.prompts.map .append))
    (hcontext : w.context.messages = context.messages ++ call.prompts) :
    Spec context.messages (do
      emit .agentStart
      emit .turnStart
      emitPrompts call.prompts
      runLoop fuel config
      readNewMessages) w
      (fun ms w' => ms = w'.newMessages ∧ ∃ turns, RunLog context call w' turns)
      fun _ => True := by
  refine Spec.bind (Spec.emit (Q := fun _ w' => w.Extends w' [.event .agentStart] ∧
    w'.context = w.context) ⟨w.extends_event _, rfl⟩) ?_
  intro _ w₁ h₁
  refine Spec.bind (Spec.emit (Q := fun _ w' =>
    w.Extends w' [.event .agentStart, .event .turnStart] ∧ w'.context = w.context)
    ⟨h₁.1.trans (w₁.extends_event .turnStart), h₁.2⟩) ?_
  intro _ w₂ h₂
  refine Spec.bind (spec_emitPrompts call.prompts) ?_
  intro _ w₃ h₃
  have hstart := (hext.trans h₂.1).trans h₃.1
  have hagrees : Agrees context.messages w₃ := by
    refine (agrees_initial context []).extend hstart fun _ _ => ?_
    have hprompts : endedMessages (promptEvents call.prompts) = call.prompts :=
      (brackets_flatMap_whole call.prompts).endedMessages
    rw [h₃.2, h₂.2, hcontext]
    simp only [eventsOf_append, endedMessages_append, eventsOf_map_event, hprompts]
    rw [eventsOf_map_append]
    rfl
  refine Spec.bind ((spec_runLoop fuel config hagrees).mono (fun _ _ h => h) fun _ _ => trivial) ?_
  intro _ w₄ h₄
  rcases h₄ with ⟨turns, ⟨⟨polls, hrounds, -⟩, hturns, -⟩, hnonempty, hagrees₄⟩
  have hall := hstart.trans hrounds
  refine Spec.readNewMessages ⟨rfl, turns, hnonempty, hturns, ?_, ?_, hagrees₄⟩
  · rw [LoopWorld.events, hall.log]
    simp [LoopWorld.initial, eventsOf_map_append]
  · rw [hall.newMessages]
    simp [LoopWorld.initial, appended_map_append, appended_roundsLog hturns]

theorem spec_loopCall (fuel : Nat) (config : AgentLoopConfig) (context : AgentContext)
    (call : LoopCall) :
    Spec context.messages (call.run fuel config) (.initial context [])
      (fun ms w' => ms = w'.newMessages ∧ ∃ turns, RunLog context call w' turns)
      fun _ => True := by
  cases call with
  | prompt prompts =>
    refine Spec.bind (spec_pushPrompts prompts) ?_
    intro _ w h
    exact spec_startCall fuel config (.prompt prompts) h.1 h.2
  | continuation =>
    refine Spec.bind (Q := fun _ w' => w' = .initial context []) (Spec.readContext rfl) ?_
    intro c w h
    rw [h]
    split
    · exact Spec.throw trivial
    · split
      · exact Spec.throw trivial
      · exact spec_startCall fuel config .continuation (.refl _)
          (List.append_nil _).symm

end Call

end Eagent
