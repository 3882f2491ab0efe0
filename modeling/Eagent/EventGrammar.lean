import Eagent.ToolPairing
import Mathlib.Data.List.Nodup

/-!
# The event grammar of a run

A run that returns emits `agent_start`, turns, `agent_end`. Within a turn
the messages come in brackets and each tool call has a lifecycle; the
lifecycles of a parallel batch interleave. The UI, the session writer and
the RPC clients read the events by this structure.
-/

namespace Eagent

open Interaction

/-! ## The grammar -/

def AgentEvent.isTurnEnd : AgentEvent → Bool
  | .turnEnd .. => true
  | _ => false

/-- The end, or an update, of the call `id`. -/
def AgentEvent.endsTool (id : String) : AgentEvent → Bool
  | .toolExecutionEnd id' _ _ _ => id' = id
  | _ => false

def AgentEvent.updatesTool (id : String) : AgentEvent → Bool
  | .toolExecutionUpdate id' _ _ _ => id' = id
  | _ => false

/-- Each start of a tool execution has exactly one later end with its id
before the turn ends. -/
def EndsOnce (evs : List AgentEvent) : Prop :=
  ∀ (pre post : List AgentEvent) (id name : String) (args : Json),
    evs = pre ++ .toolExecutionStart id name args :: post →
      ((post.takeWhile fun e => !e.isTurnEnd).filter (AgentEvent.endsTool id)).length = 1

def NoLateUpdate (evs : List AgentEvent) : Prop :=
  ∀ (pre post : List AgentEvent) (id name : String) (result : AgentToolResult) (isError : Bool),
    evs = pre ++ .toolExecutionEnd id name result isError :: post →
      ∀ e ∈ post.takeWhile fun e => !e.isTurnEnd, e.updatesTool id = false

/-- The events of a turn with these messages: between `turn_start` and
`turn_end` only message brackets and the lifecycles of calls. Where the
calls have distinct ids, an id identifies a lifecycle. -/
def TurnGrammar (messages : List AgentMessage) (evs : List AgentEvent) : Prop :=
  ∃ (message : AssistantMessage) (results : List ToolResultMessage) (body : List AgentEvent),
    evs = .turnStart :: (body ++ [.turnEnd message results]) ∧
      (∀ e ∈ body, e.isMessage = true ∨ e.toolCallId?.isSome = true) ∧
      MessageBrackets messages (body.filter AgentEvent.isMessage) ∧
      (∃ (calls : List ToolCall) (segs : List (List AgentEvent)), calls <+: message.toolCalls ∧
        List.Forall₂ Lifecycle calls segs ∧
          Shuffle segs (body.filter fun e => !e.isMessage)) ∧
      ((message.toolCalls.map (·.id)).Nodup → EndsOnce evs ∧ NoLateUpdate evs)

/-- The events of a run that returned `newMessages`. -/
def RunGrammar (newMessages : List AgentMessage) (evs : List AgentEvent) : Prop :=
  ∃ turns : List (List AgentMessage × List AgentEvent), turns ≠ [] ∧
    evs = .agentStart :: ((turns.map (·.2)).flatten ++ [.agentEnd newMessages]) ∧
      newMessages = (turns.map (·.1)).flatten ∧ ∀ t ∈ turns, TurnGrammar t.1 t.2

/-! ## One lifecycle for each id -/

theorem lifecycle_of_shuffle {calls : List ToolCall} {segs : List (List AgentEvent)}
    {tools : List AgentEvent} (hsegs : List.Forall₂ Lifecycle calls segs)
    (hshuffle : Shuffle segs tools) (hnodup : (calls.map (·.id)).Nodup) {e : AgentEvent}
    {id : String} (he : e ∈ tools) (hid : e.toolCallId? = some id) :
    ∃ call, call.id = id ∧ Lifecycle call (tools.filter fun e => e.toolCallId? = some id) := by
  obtain ⟨hlen, heach⟩ := List.forall₂_iff_get.mp hsegs
  obtain ⟨seg, hseg, hmem⟩ := hshuffle.mem he
  obtain ⟨i, hi, rfl⟩ := List.getElem_of_mem hseg
  have hic : i < calls.length := hlen ▸ hi
  have hlifecycle : Lifecycle calls[i] segs[i] := heach i hic hi
  have hcall : calls[i].id = id :=
    Option.some.inj ((hlifecycle.toolCallId e hmem).symm.trans hid)
  have hother : ∀ j lj, segs[j]? = some lj → j ≠ i →
      ∀ x ∈ lj, decide (x.toolCallId? = some id) = false := by
    intro j lj hj hji x hx
    obtain ⟨hjs, rfl⟩ := List.getElem?_eq_some_iff.mp hj
    have hjc : j < calls.length := hlen ▸ hjs
    have hxid := (heach j hjc hjs).toolCallId x hx
    refine decide_eq_false fun hx' => hji ?_
    have hsame : calls[j].id = calls[i].id :=
      (Option.some.inj (hxid.symm.trans hx')).trans hcall.symm
    have hji' : j < (calls.map (·.id)).length := by simpa using hjc
    have hii' : i < (calls.map (·.id)).length := by simpa using hic
    refine (@List.Nodup.getElem_inj_iff _ _ hnodup _ hji' _ hii').mp ?_
    rw [List.getElem_map, List.getElem_map, hsame]
  refine ⟨calls[i], hcall, ?_⟩
  rw [hshuffle.filter hother, List.getElem?_eq_getElem hi]
  show Lifecycle calls[i] (segs[i].filter _)
  rw [List.filter_eq_self.mpr]
  · exact hlifecycle
  · intro x hx
    rw [hlifecycle.toolCallId x hx, hcall]
    exact decide_eq_true rfl

theorem Lifecycle.endsTool_length {call : ToolCall} {name : String} {args : Json}
    {pre post : List AgentEvent}
    (h : Lifecycle call (pre ++ .toolExecutionStart call.id name args :: post)) :
    (post.filter (AgentEvent.endsTool call.id)).length = 1 := by
  obtain ⟨updates, result, isError, heq, hupdates⟩ := h
  have hnostart : ∀ e ∈ updates ++ [.toolExecutionEnd call.id call.name result isError],
      e.isToolStart = false := by
    intro e he
    rcases List.mem_append.mp he with he | he
    · have hu := hupdates e he
      cases e with
      | toolExecutionUpdate id name args partialResult => rfl
      | _ => exact False.elim hu
    · rw [List.mem_singleton.mp he]
      rfl
  cases pre with
  | cons e pre =>
    have hmem : AgentEvent.toolExecutionStart call.id name args ∈
        updates ++ [.toolExecutionEnd call.id call.name result isError] := by
      rw [← (List.cons.inj heq).2]
      exact List.mem_append_right _ (List.mem_cons_self ..)
    exact nomatch hnostart _ hmem
  | nil =>
    have hnoend : updates.filter (AgentEvent.endsTool call.id) = [] := by
      refine List.filter_eq_nil_iff.mpr ?_
      intro e he
      have hu := hupdates e he
      cases e with
      | toolExecutionUpdate id name args partialResult => exact Bool.false_ne_true
      | _ => exact False.elim hu
    rw [(List.cons.inj heq).2, List.filter_append, hnoend]
    simp [AgentEvent.endsTool]

theorem Lifecycle.updatesTool_after {call : ToolCall} {name : String} {result : AgentToolResult}
    {isError : Bool} {pre post : List AgentEvent}
    (h : Lifecycle call (pre ++ .toolExecutionEnd call.id name result isError :: post)) :
    post = [] := by
  obtain ⟨updates, result', isError', heq, hupdates⟩ := h
  cases pre with
  | nil => exact nomatch (List.cons.inj heq).1
  | cons e pre =>
    have htail : pre ++ AgentEvent.toolExecutionEnd call.id name result isError :: post =
        updates ++ [.toolExecutionEnd call.id call.name result' isError'] :=
      (List.cons.inj heq).2
    rcases List.eq_nil_or_concat post with rfl | ⟨post', last, rfl⟩
    · rfl
    · have hcut : pre ++ AgentEvent.toolExecutionEnd call.id name result isError :: post' =
          updates := by
        rw [List.concat_eq_append, ← List.cons_append, ← List.append_assoc] at htail
        exact (List.append_inj' htail rfl).1
      have hmem : AgentEvent.toolExecutionEnd call.id name result isError ∈ updates := by
        rw [← hcut]
        exact List.mem_append_right _ (List.mem_cons_self ..)
      exact False.elim (hupdates _ hmem)

/-! ## A turn with distinct ids -/

theorem turn_split {message : AssistantMessage} {results : List ToolResultMessage}
    {body pre post : List AgentEvent} {e : AgentEvent} {id : String}
    (heq : AgentEvent.turnStart :: (body ++ [.turnEnd message results]) = pre ++ e :: post)
    (hid : e.toolCallId? = some id) :
    ∃ pre' post', pre = .turnStart :: pre' ∧ post = post' ++ [.turnEnd message results] ∧
      body = pre' ++ e :: post' := by
  cases pre with
  | nil =>
    rw [← (List.cons.inj heq).1] at hid
    cases hid
  | cons p pre =>
    have htail : body ++ [AgentEvent.turnEnd message results] = pre ++ e :: post :=
      (List.cons.inj heq).2
    rcases List.eq_nil_or_concat post with rfl | ⟨post', last, rfl⟩
    · rw [← (List.cons.inj (List.append_inj' htail rfl).2).1] at hid
      cases hid
    · rw [List.concat_eq_append, ← List.cons_append, ← List.append_assoc] at htail
      have hcut := List.append_inj' htail rfl
      rw [List.concat_eq_append, ← hcut.2, ← (List.cons.inj heq).1]
      exact ⟨pre, post', rfl, rfl, hcut.1⟩

theorem takeWhile_turnEnd {message : AssistantMessage} {results : List ToolResultMessage}
    {post : List AgentEvent} (h : ∀ e ∈ post, e.isTurnEnd = false) :
    (post ++ [AgentEvent.turnEnd message results]).takeWhile (fun e => !e.isTurnEnd) = post := by
  induction post with
  | nil => rfl
  | cons e post ih =>
    rw [List.cons_append, List.takeWhile_cons, h e (List.mem_cons_self ..),
      ih fun e he => h e (List.mem_cons_of_mem _ he)]
    rfl

theorem isTurnEnd_of_mem_body {e : AgentEvent}
    (h : e.isMessage = true ∨ e.toolCallId?.isSome = true) : e.isTurnEnd = false := by
  cases e with
  | turnEnd message results => rcases h with h | h <;> cases h
  | _ => rfl

theorem filter_toolCallId (body : List AgentEvent) (id : String) :
    (body.filter fun e => !e.isMessage).filter (fun e => e.toolCallId? = some id) =
      body.filter fun e => e.toolCallId? = some id := by
  rw [List.filter_filter]
  refine List.filter_congr ?_
  intro e _
  cases e with
  | messageStart m => rfl
  | messageUpdate m kind => rfl
  | messageEnd m => rfl
  | _ => exact Bool.and_true _

section DistinctIds

variable {message : AssistantMessage} {results : List ToolResultMessage}
  {body : List AgentEvent} {calls : List ToolCall} {segs : List (List AgentEvent)}

theorem lifecycle_around (hsegs : List.Forall₂ Lifecycle calls segs)
    (hshuffle : Shuffle segs (body.filter fun e => !e.isMessage))
    (hnodup : (calls.map (·.id)).Nodup) {pre post : List AgentEvent} {e : AgentEvent}
    {id : String} (hbody : body = pre ++ e :: post) (hid : e.toolCallId? = some id) :
    ∃ call, call.id = id ∧ Lifecycle call ((pre.filter fun e => e.toolCallId? = some id) ++
      e :: post.filter fun e => e.toolCallId? = some id) := by
  have hmem : e ∈ body.filter fun e => !e.isMessage := by
    refine List.mem_filter.mpr ⟨hbody ▸ List.mem_append_right _ (List.mem_cons_self ..), ?_⟩
    rw [AgentEvent.not_isMessage_of_toolCallId hid]
    rfl
  obtain ⟨call, hcall, hlifecycle⟩ := lifecycle_of_shuffle hsegs hshuffle hnodup hmem hid
  refine ⟨call, hcall, ?_⟩
  rw [filter_toolCallId, hbody, List.filter_append, List.filter_cons_of_pos (by simpa using hid)]
    at hlifecycle
  exact hlifecycle

theorem endsOnce_of_lifecycles
    (hkinds : ∀ e ∈ body, e.isMessage = true ∨ e.toolCallId?.isSome = true)
    (hsegs : List.Forall₂ Lifecycle calls segs)
    (hshuffle : Shuffle segs (body.filter fun e => !e.isMessage))
    (hnodup : (calls.map (·.id)).Nodup) :
    EndsOnce (.turnStart :: (body ++ [.turnEnd message results])) := by
  intro pre post id name args heq
  obtain ⟨pre', post', rfl, rfl, hbody⟩ := turn_split heq rfl
  have hkinds' : ∀ e ∈ post', e.isTurnEnd = false := fun e he =>
    isTurnEnd_of_mem_body (hkinds e (hbody ▸ List.mem_append_right _ (List.mem_cons_of_mem _ he)))
  obtain ⟨call, rfl, hlifecycle⟩ := lifecycle_around hsegs hshuffle hnodup hbody rfl
  have hone := hlifecycle.endsTool_length
  rw [List.filter_filter] at hone
  rw [takeWhile_turnEnd hkinds', ← hone]
  congr 1
  refine List.filter_congr ?_
  intro e _
  cases e with
  | toolExecutionEnd id' name' result isError =>
    simp [AgentEvent.endsTool, AgentEvent.toolCallId?]
  | _ => rfl

theorem noLateUpdate_of_lifecycles (hsegs : List.Forall₂ Lifecycle calls segs)
    (hshuffle : Shuffle segs (body.filter fun e => !e.isMessage))
    (hnodup : (calls.map (·.id)).Nodup) :
    NoLateUpdate (.turnStart :: (body ++ [.turnEnd message results])) := by
  intro pre post id name result isError heq e he
  obtain ⟨pre', post', rfl, rfl, hbody⟩ := turn_split heq rfl
  obtain ⟨call, rfl, hlifecycle⟩ := lifecycle_around hsegs hshuffle hnodup hbody rfl
  have hnone := hlifecycle.updatesTool_after
  have hmem := (List.takeWhile_sublist _).subset he
  cases e with
  | toolExecutionUpdate id' name' args' partialResult =>
    refine decide_eq_false fun hid => ?_
    rcases List.mem_append.mp hmem with hmem | hmem
    · have hin : AgentEvent.toolExecutionUpdate id' name' args' partialResult ∈
          post'.filter fun e => e.toolCallId? = some call.id :=
        List.mem_filter.mpr ⟨hmem, decide_eq_true (congrArg some hid)⟩
      rw [hnone] at hin
      cases hin
    · cases List.mem_singleton.mp hmem
  | _ => rfl

end DistinctIds

/-! ## From the log of a run -/

theorem TurnLog.grammar {t : Turn} (h : TurnLog True t) (prompts : List AgentMessage) :
    TurnGrammar (prompts ++ t.messages)
      (.turnStart :: (promptEvents prompts ++ eventsOf t.log ++
        [.turnEnd t.message t.results])) := by
  obtain ⟨segs, hsegs, hshuffle⟩ := h.lifecycles
  have hprompts := brackets_flatMap_whole prompts
  have hmessages : MessageBrackets (prompts ++ t.messages)
      ((promptEvents prompts ++ eventsOf t.log).filter AgentEvent.isMessage) := by
    rw [List.filter_append, promptEvents, hprompts.filter_isMessage]
    exact hprompts.append (h.messages trivial)
  have htools : ((promptEvents prompts ++ eventsOf t.log).filter fun e => !e.isMessage) =
      (eventsOf t.log).filter fun e => !e.isMessage := by
    rw [List.filter_append, promptEvents, filter_isMessage_inject, List.nil_append]
  have hkinds : ∀ e ∈ promptEvents prompts ++ eventsOf t.log,
      e.isMessage = true ∨ e.toolCallId?.isSome = true := by
    intro e he
    cases hkind : e.isMessage with
    | true => exact .inl rfl
    | false =>
      have hmem : e ∈ (promptEvents prompts ++ eventsOf t.log).filter fun e => !e.isMessage :=
        List.mem_filter.mpr ⟨he, by rw [hkind]; rfl⟩
      rw [htools] at hmem
      obtain ⟨seg, hseg, hes⟩ := hshuffle.mem hmem
      obtain ⟨i, hi, rfl⟩ := List.getElem_of_mem hseg
      have hlifecycle := (List.forall₂_iff_get.mp hsegs).2 i (hsegs.length_eq ▸ hi) hi
      rw [hlifecycle.toolCallId e hes]
      exact .inr rfl
  refine ⟨t.message, t.results, _, rfl, hkinds, hmessages,
    ⟨_, segs, List.take_prefix _ _, hsegs, htools ▸ hshuffle⟩, ?_⟩
  intro hnodup
  have hnodup' : ((t.message.toolCalls.take t.results.length).map (·.id)).Nodup := by
    rw [List.map_take]
    exact hnodup.sublist (List.take_sublist _ _)
  exact ⟨endsOnce_of_lifecycles hkinds hsegs (htools ▸ hshuffle) hnodup',
    noLateUpdate_of_lifecycles hsegs (htools ▸ hshuffle) hnodup'⟩

def Turn.events (t : Turn) : List AgentEvent :=
  .turnStart :: (eventsOf t.log ++ [.turnEnd t.message t.results])

theorem eventsOf_roundsLog (turns : List Turn) :
    eventsOf (roundsLog false turns) = turns.flatMap Turn.events := by
  induction turns with
  | nil => rfl
  | cons t ts ih =>
    rw [roundsLog, eventsOf_append, ih, List.flatMap_cons]
    simp [startLog, Turn.observations, Turn.events]

theorem runGrammar_of_turns {prompts newMessages : List AgentMessage} {t : Turn}
    {turns : List Turn} (h : ∀ t' ∈ t :: turns, TurnLog True t')
    (hmessages : newMessages = prompts ++ (t :: turns).flatMap Turn.messages) :
    RunGrammar newMessages (.agentStart :: .turnStart :: (promptEvents prompts ++
      eventsOf (roundsLog true (t :: turns)) ++ [.agentEnd newMessages])) := by
  refine ⟨(prompts ++ t.messages, .turnStart :: (promptEvents prompts ++ eventsOf t.log ++
    [.turnEnd t.message t.results])) :: turns.map fun t' => (t'.messages, t'.events),
    by simp, ?_, ?_, ?_⟩
  · have hrest : (turns.map fun t' => (t'.messages, t'.events)).map (·.2) =
        turns.map Turn.events := by simp
    rw [roundsLog, eventsOf_append, eventsOf_roundsLog, List.map_cons, hrest]
    simp [startLog, Turn.observations, List.flatMap_def]
  · rw [hmessages, List.flatMap_cons, List.map_cons, List.map_map, List.flatten_cons,
      List.append_assoc]
    rfl
  · intro p hp
    rcases List.mem_cons.mp hp with rfl | hp
    · exact (h t (List.mem_cons_self ..)).grammar prompts
    · obtain ⟨t', ht', rfl⟩ := List.mem_map.mp hp
      exact (h t' (List.mem_cons_of_mem _ ht')).grammar []

theorem TurnGrammar.endedMessages {messages : List AgentMessage} {evs : List AgentEvent}
    (h : TurnGrammar messages evs) : endedMessages evs = messages := by
  obtain ⟨message, results, body, rfl, -, hbrackets, -, -⟩ := h
  have hbody := hbrackets.endedMessages
  rw [endedMessages_filter] at hbody
  show Eagent.endedMessages (body ++ [.turnEnd message results]) = messages
  rw [endedMessages_append, hbody]
  exact List.append_nil messages

theorem RunGrammar.endedMessages {newMessages : List AgentMessage} {evs : List AgentEvent}
    (h : RunGrammar newMessages evs) : endedMessages evs = newMessages := by
  obtain ⟨turns, -, hevs, hmessages, hturns⟩ := h
  have hall : Eagent.endedMessages (turns.map (·.2)).flatten = (turns.map (·.1)).flatten := by
    clear hevs hmessages
    induction turns with
    | nil => rfl
    | cons t ts ih =>
      rw [List.map_cons, List.map_cons, List.flatten_cons, List.flatten_cons,
        endedMessages_append, (hturns t (List.mem_cons_self ..)).endedMessages,
        ih fun t' ht' => hturns t' (List.mem_cons_of_mem _ ht')]
  rw [hevs, hmessages, ← hall]
  show Eagent.endedMessages (_ ++ [_]) = _
  rw [endedMessages_append]
  exact List.append_nil _

theorem RunLog.grammar {context : AgentContext} {call : LoopCall} {w' : LoopWorld}
    {turns : List Turn} (h : RunLog context call w' turns) (honce : w'.startsOnce = true) :
    RunGrammar w'.newMessages w'.events := by
  rw [h.events]
  cases turns with
  | nil => exact absurd rfl h.nonempty
  | cons t ts =>
    exact runGrammar_of_turns (fun t' ht' => (h.turnLogs t' ht').mono fun _ => honce)
      h.newMessages

/-- Every call that returns follows the grammar, provided no response stream
sent `start` twice. -/
theorem loopCall_grammar {context : AgentContext} {call : LoopCall} {fuel : Nat}
    {config : AgentLoopConfig} {w' : LoopWorld} {newMessages : List AgentMessage}
    (hrun : LoopReaches (.initial context []) (call.run fuel config) (w', .ret (.ok newMessages)))
    (honce : w'.startsOnce = true) :
    RunGrammar newMessages w'.events ∧ endedMessages w'.events = newMessages := by
  have hspec := (spec_loopCall fuel config context call).reaches hrun
  have hreturned : newMessages = w'.newMessages ∧ ∃ turns, RunLog context call w' turns := hspec
  obtain ⟨rfl, turns, hlog⟩ := hreturned
  exact ⟨hlog.grammar honce, (hlog.grammar honce).endedMessages⟩

def greeting : AgentMessage := .user ⟨some (.string "hi"), 0⟩

def sequentialConfig : AgentLoopConfig := { plainConfig with toolExecution := some .sequential }

def promptRun (calls : List ToolCall) : LoopWorld × Except Failure (List AgentMessage) :=
  driveLoop [responseWith calls .toolUse, responseWith [] .stop] readResult
    ((LoopCall.prompt [greeting]).run 9 sequentialConfig) (.initial (toolContext []) [])

theorem promptRun_reaches {calls : List ToolCall} {newMessages : List AgentMessage}
    (h : (promptRun calls).2 = .ok newMessages) :
    LoopReaches (.initial (toolContext []) []) ((LoopCall.prompt [greeting]).run 9 sequentialConfig)
      ((promptRun calls).1, .ret (.ok newMessages)) :=
  h ▸ driveLoop_reaches _ _ _ _

theorem loopCall_grammar_twoCalls :
    RunGrammar (promptRun [readCall "a", readCall "b"]).1.newMessages
        (promptRun [readCall "a", readCall "b"]).1.events ∧
      endedMessages (promptRun [readCall "a", readCall "b"]).1.events =
        (promptRun [readCall "a", readCall "b"]).1.newMessages :=
  loopCall_grammar (promptRun_reaches (by decide)) (by decide)

/-- Two calls of one id: the first start has two ends after it. -/
theorem duplicateIds_not_endsOnce :
    ¬ ∀ {context : AgentContext} {call : LoopCall} {fuel : Nat} {config : AgentLoopConfig}
      {w' : LoopWorld} {newMessages : List AgentMessage},
      LoopReaches (.initial context []) (call.run fuel config) (w', .ret (.ok newMessages)) →
      w'.startsOnce = true → EndsOnce w'.events := by
  intro h
  have hrun := h (@promptRun_reaches [readCall "a", readCall "a"]
    (promptRun [readCall "a", readCall "a"]).1.newMessages (by decide)) (by decide)
  have hends := hrun ((promptRun [readCall "a", readCall "a"]).1.events.take 6)
    ((promptRun [readCall "a", readCall "a"]).1.events.drop 7) "a" "read" (.obj []) (by decide)
  exact absurd hends (by decide)

end Eagent
