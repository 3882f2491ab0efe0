import Eagent.PolicyGuard
import Eagent.Redaction

/-!
# The final output and the tools

A finished assistant message is one object: the loop, the agent's state and
the `message_end` event all hold it. The session's handler of that event
writes the redacted message over the object, and the loop reads the tool
calls from it afterwards. So a tool is run with what its declaration makes
of the redacted arguments (`runs_respond`), which are the streamed ones only
where the tool overlooks the redaction (`runs_streamed_iff`).
-/

namespace Eagent

open Interaction

/-! ## The message objects -/

/-- The assistant messages of a session by their address. -/
structure MessageHeap where
  next : Nat
  object : Nat → AssistantMessage

namespace MessageHeap

def alloc (heap : MessageHeap) (message : AssistantMessage) : MessageHeap where
  next := heap.next + 1
  object := Function.update heap.object heap.next message

/-- `_replaceMessageInPlace`: every holder of `target` sees the replacement. -/
def replaceMessageInPlace (heap : MessageHeap) (target : Nat) (replacement : AssistantMessage) :
    MessageHeap :=
  { heap with object := Function.update heap.object target replacement }

@[simp] theorem alloc_object (heap : MessageHeap) (message : AssistantMessage) :
    (heap.alloc message).object heap.next = message := Function.update_self ..

@[simp] theorem replaceMessageInPlace_object (heap : MessageHeap) (target : Nat)
    (replacement : AssistantMessage) :
    (heap.replaceMessageInPlace target replacement).object target = replacement :=
  Function.update_self ..

end MessageHeap

/-- `PolicyRedactionHooks`, as far as the final output goes; a hook may
return nothing. -/
structure PolicyRedactionHooks where
  finalOutput : Option (AssistantMessage → Except String (Option AssistantMessage))

namespace PolicyRedactionHooks

def default : PolicyRedactionHooks where
  finalOutput := some fun message => .ok (some message.redact)

def redactFinalOutput (hooks : PolicyRedactionHooks) (message : AssistantMessage) :
    Except String AssistantMessage :=
  match hooks.finalOutput with
  | none => .ok message
  | some finalOutput => (finalOutput message).map (·.getD message)

end PolicyRedactionHooks

/-- What `_handleAgentEvent` does to the message of a `message_end` event. -/
def handleMessageEnd (hooks : PolicyRedactionHooks) (heap : MessageHeap) (message : Nat) :
    Except String MessageHeap :=
  (hooks.redactFinalOutput (heap.object message)).map (heap.replaceMessageInPlace message)

/-! ## From the end of the stream to the tools -/

def enterContext (addedPartial : Bool) (finalMessage : AssistantMessage) : LoopM Unit :=
  if addedPartial then replaceLastContext (.assistant finalMessage)
  else do
    pushContext (.assistant finalMessage)
    emit (.messageStart (.assistant finalMessage))

/-- The end of `streamAssistantResponse` under a session, which is the first
to hear of the event; the context holds the object. -/
def finishSharedStream (hooks : PolicyRedactionHooks) (heap : MessageHeap)
    (addedPartial : Bool) : LoopM (MessageHeap × Nat) := do
  let finalMessage ← attempt LoopEffect.streamResult fun a => a
  let message := heap.next
  enterContext addedPartial finalMessage
  let heap ← Act.ofExcept (handleMessageEnd hooks (heap.alloc finalMessage) message)
  replaceLastContext (.assistant (heap.object message))
  emit (.messageEnd (.assistant (heap.object message)))
  pure (heap, message)

/-- The rest of the round of `runLoop` up to its tool results; the loop
reads the stop reason and the tool calls from the object. -/
def respond (fuel : Nat) (hooks : PolicyRedactionHooks) (heap : MessageHeap)
    (addedPartial : Bool) (config : AgentLoopConfig) : LoopM (List ToolResultMessage × Bool) := do
  let (heap, ref) ← finishSharedStream hooks heap addedPartial
  let message := heap.object ref
  pushNewMessage (.assistant message)
  if message.stopReason = .error || message.stopReason = .aborted then pure ([], false)
  else runToolBatch fuel message config

/-! ## What a tool is run with -/

/-- What a tool makes of the arguments of a call: its compatibility shim,
where it has one, and then the validation. -/
def AgentTool.accepts (tool : AgentTool) (arguments : Json) : Except String Json :=
  match tool.prepareArguments with
  | none => tool.validate arguments
  | some prepare => (prepare arguments).bind tool.validate

/-- The hook has no reason to change the arguments: the decision is not a
rewrite, and no handler changes its input. -/
def PolicySession.LeavesArguments (session : PolicySession) (toolCall : ToolCall)
    (args : Json) : Prop :=
  session.KeepsInput ∧
    ∀ reason arguments, session.decide toolCall args ≠ .ok (.rewrite reason arguments)

/-- The stream delivers `streamed`, or fails; the hook answers as some
session that leaves the arguments alone; all else is free. -/
def Delivers (streamed : AssistantMessage) : (e : LoopEffect) → LoopAnswer e → Prop
  | .streamResult, (answer : Except String AssistantMessage) =>
      ∀ message, answer = .ok message → message = streamed
  | .beforeToolCall _ toolCall args,
      (answer : Except String (Option BeforeToolCallResult × Json)) =>
      ∃ session : PolicySession, session.LeavesArguments toolCall args ∧
        answer = session.beforeToolCall toolCall args
  | _, _ => True

/-- A tool is run for one of the calls, with what it accepts of that call's
arguments. -/
def LoopEffect.RunsOneOf (calls : List ToolCall) : LoopEffect → Prop
  | .execute tool toolCallId args => ∃ (i : Nat) (call : ToolCall), calls[i]? = some call ∧
      call.id = toolCallId ∧ tool.name = call.name ∧ tool.accepts call.arguments = .ok args
  | _ => True

def PreparedToolCall.Ready (calls : List ToolCall) (prepared : PreparedToolCall) : Prop :=
  ∃ (i : Nat) (call : ToolCall), calls[i]? = some call ∧ call.id = prepared.toolCall.id ∧
    prepared.tool.name = call.name ∧
    prepared.tool.accepts call.arguments = .ok prepared.args

def Preparation.Ready (calls : List ToolCall) : Preparation → Prop
  | .immediate _ => True
  | .prepared call => call.Ready calls

def FinalizedToolCallEntry.Ready (calls : List ToolCall) : FinalizedToolCallEntry → Prop
  | .done _ => True
  | .deferred call => call.Ready calls

/-- `p` runs tools only for `calls`, while the stream delivers `streamed`. -/
abbrev RunsFor (streamed : AssistantMessage) (calls : List ToolCall) {α : Type} (p : LoopM α)
    (Q : α → Prop) (thrown : Prop) : Prop :=
  Act.Within (Delivers streamed) (LoopEffect.RunsOneOf calls) p Q thrown

theorem accepts_of_prepared {tool : AgentTool} {toolCall prepared : ToolCall} {args : Json}
    (hprepared : prepareToolCallArguments tool toolCall = .ok prepared)
    (hargs : validateToolArguments tool prepared = .ok args) :
    tool.accepts toolCall.arguments = .ok args := by
  unfold prepareToolCallArguments at hprepared
  unfold AgentTool.accepts
  cases hprepare : tool.prepareArguments with
  | none =>
    rw [hprepare] at hprepared
    obtain rfl := Except.ok.inj hprepared
    exact hargs
  | some prepare =>
    rw [hprepare] at hprepared
    dsimp only at hprepared ⊢
    cases hres : prepare toolCall.arguments with
    | error message =>
      rw [hres] at hprepared
      cases hprepared
    | ok arguments =>
      rw [hres] at hprepared
      obtain rfl := Except.ok.inj hprepared
      exact hargs

theorem PolicySession.LeavesArguments.eq_of_runsWith {session : PolicySession}
    {toolCall : ToolCall} {args left executed : Json} {tool : AgentTool}
    {before : Option BeforeToolCallResult} (h : session.LeavesArguments toolCall args)
    (hbefore : session.beforeToolCall toolCall args = .ok (before, left))
    (hruns : PolicySession.RunsWith tool before left executed) : executed = args := by
  rcases h with ⟨hkeeps, hnot⟩
  rcases (PolicySession.approves_of_runsWith hbefore hruns).exactly hkeeps with
    (⟨reason, -, hexecuted⟩ | ⟨reason, arguments, hdecide, -⟩) | ⟨reason, hdecide, -⟩
  · exact hexecuted
  · exact absurd hdecide (hnot reason (some arguments))
  · exact absurd hdecide (hnot reason none)

/-! ## The executors -/

section Executors

variable {streamed : AssistantMessage} {calls : List ToolCall} {thrown : Prop}

theorem runs_emit (event : AgentEvent) :
    RunsFor streamed calls (emit event) (fun _ => True) thrown :=
  .perform trivial fun _ _ => trivial

theorem runs_isAborted : RunsFor streamed calls isAborted (fun _ => True) thrown :=
  .perform trivial fun _ _ => trivial

theorem runs_dateNow : RunsFor streamed calls dateNow (fun _ => True) thrown :=
  .perform trivial fun _ _ => trivial

theorem runs_readContext : RunsFor streamed calls readContext (fun _ => True) thrown :=
  .perform trivial fun _ _ => trivial

theorem runs_pushContext (message : AgentMessage) :
    RunsFor streamed calls (pushContext message) (fun _ => True) thrown :=
  .perform trivial fun _ _ => trivial

theorem runs_pushNewMessage (message : AgentMessage) :
    RunsFor streamed calls (pushNewMessage message) (fun _ => True) thrown :=
  .perform trivial fun _ _ => trivial

theorem runs_emitToolResultMessage (message : ToolResultMessage) :
    RunsFor streamed calls (emitToolResultMessage message) (fun _ => True) thrown :=
  (runs_emit _).bind fun _ _ => runs_emit _

theorem runs_createToolResultMessage (finalized : FinalizedToolCallOutcome) :
    RunsFor streamed calls (createToolResultMessage finalized) (fun _ => True) thrown :=
  runs_dateNow.bind fun _ _ => .pure trivial

theorem runs_preparedUnlessAborted {call : PreparedToolCall} (h : call.Ready calls) :
    RunsFor streamed calls (preparedUnlessAborted call) (Preparation.Ready calls) thrown := by
  refine runs_isAborted.bind ?_
  intro aborted _
  cases aborted with
  | true => exact .pure trivial
  | false => exact .pure h

/-- After the hook. -/
theorem runs_applyBeforeToolCall {toolCall prepared : ToolCall} {tool : AgentTool}
    {args left : Json} {before : Option BeforeToolCallResult} {session : PolicySession}
    (hleaves : session.LeavesArguments toolCall args)
    (hbefore : session.beforeToolCall toolCall args = .ok (before, left))
    (hready : ∀ call : ToolCall, call.id = prepared.id →
      (PreparedToolCall.mk call tool args).Ready calls) :
    RunsFor streamed calls (applyBeforeToolCall tool prepared before left)
      (Preparation.Ready calls) True := by
  have hexecuted : ∀ {executed : Json}, PolicySession.RunsWith tool before left executed →
      executed = args := fun hruns => hleaves.eq_of_runsWith hbefore hruns
  cases before with
  | none =>
    obtain rfl := hexecuted ⟨nofun, rfl⟩
    exact runs_preparedUnlessAborted (hready prepared rfl)
  | some before =>
    unfold applyBeforeToolCall
    dsimp only
    split
    · exact .pure trivial
    · rename_i hblock
      split
      · rename_i hargs
        have hruns : PolicySession.RunsWith tool (some before) left left := by
          refine ⟨hblock, ?_⟩
          simp only [Option.bind_some, hargs]
        obtain rfl := hexecuted hruns
        exact runs_preparedUnlessAborted (hready prepared rfl)
      · rename_i arguments hargs
        refine Act.Within.bind
          (Q := fun executed => tool.validate arguments = .ok executed)
          (.ofExcept (fun _ h => h) fun _ _ => trivial) ?_
        intro executed hvalidate
        have hruns : PolicySession.RunsWith tool (some before) left executed := by
          refine ⟨hblock, ?_⟩
          simp only [Option.bind_some, hargs, hvalidate]
        obtain rfl := hexecuted hruns
        exact runs_preparedUnlessAborted (hready { prepared with arguments } rfl)

variable {toolCall : ToolCall}

theorem runs_prepareKnownToolCall (assistantMessage : AssistantMessage) (config : AgentLoopConfig)
    {tool : AgentTool} (hname : tool.name = toolCall.name) {i : Nat}
    (hcall : calls[i]? = some toolCall) :
    RunsFor streamed calls (prepareKnownToolCall assistantMessage toolCall config tool)
      (Preparation.Ready calls) True := by
  refine Act.Within.bind
    (Q := fun prepared => prepareToolCallArguments tool toolCall = .ok prepared)
    (.ofExcept (fun _ h => h) fun _ _ => trivial) ?_
  intro prepared hprepared
  refine Act.Within.bind (Q := fun args => validateToolArguments tool prepared = .ok args)
    (.ofExcept (fun _ h => h) fun _ _ => trivial) ?_
  intro args hargs
  have hready : ∀ call : ToolCall, call.id = prepared.id →
      (PreparedToolCall.mk call tool args).Ready calls := by
    intro call hid
    refine ⟨i, toolCall, hcall, ?_, hname, accepts_of_prepared hprepared hargs⟩
    exact (prepareToolCallArguments_same hprepared).1.symm.trans hid.symm
  split
  · refine Act.Within.bind (Q := fun answer => ∃ session : PolicySession,
      session.LeavesArguments toolCall args ∧ session.beforeToolCall toolCall args = .ok answer)
      ?_ ?_
    · refine Act.Within.bind (Q := fun answer => ∃ session : PolicySession,
        session.LeavesArguments toolCall args ∧ answer = session.beforeToolCall toolCall args)
        (.perform trivial fun _ h => h) ?_
      rintro answer ⟨session, hleaves, rfl⟩
      exact .ofExcept (fun _ h => ⟨session, hleaves, h⟩) fun _ _ => trivial
    · rintro ⟨before, left⟩ ⟨session, hleaves, hbefore⟩
      refine runs_isAborted.bind ?_
      intro aborted _
      split
      · exact .pure trivial
      · exact runs_applyBeforeToolCall hleaves hbefore hready
  · exact runs_preparedUnlessAborted (hready prepared rfl)

theorem runs_prepareToolCall (assistantMessage : AssistantMessage) (config : AgentLoopConfig)
    {i : Nat} (hcall : calls[i]? = some toolCall) :
    RunsFor streamed calls (prepareToolCall assistantMessage toolCall config)
      (Preparation.Ready calls) thrown := by
  refine runs_readContext.bind ?_
  intro context _
  split
  · exact .pure trivial
  · rename_i tool htool
    have hname : tool.name = toolCall.name := by simpa using List.find?_some htool
    refine Act.Within.tryCatch
      (runs_prepareKnownToolCall assistantMessage config hname hcall) ?_
    exact fun message _ => .pure trivial

theorem runs_awaitTool (prepared : PreparedToolCall) (fuel : Nat) :
    RunsFor streamed calls (awaitTool prepared fuel) (fun _ => True) thrown := by
  induction fuel with
  | zero => exact .outOfFuel
  | succ fuel ih =>
    refine Act.Within.bind (Q := fun _ => True) (.perform trivial fun _ _ => trivial) ?_
    rintro (progress : ToolProgress) -
    cases progress with
    | update partialResult => exact (runs_emit _).bind fun _ _ => ih
    | returned result => exact .pure trivial
    | threw message => exact .pure trivial

theorem runs_runAfterToolCall (assistantMessage : AssistantMessage)
    (prepared : PreparedToolCall) (executed : ExecutedToolCallOutcome)
    (config : AgentLoopConfig) :
    RunsFor streamed calls (runAfterToolCall assistantMessage prepared executed config)
      (fun _ => True) thrown := by
  unfold runAfterToolCall
  split
  · refine Act.Within.tryCatch ?_ fun _ (_ : True) => .pure trivial
    refine Act.Within.bind (Q := fun _ => True) ?_ fun _ _ => .pure trivial
    refine Act.Within.bind (Q := fun _ => True) (.perform trivial fun _ _ => trivial) ?_
    exact fun _ _ => .ofExcept (fun _ _ => trivial) fun _ _ => trivial
  · exact .pure trivial

theorem runs_runPreparedToolCall (fuel : Nat) (assistantMessage : AssistantMessage)
    (config : AgentLoopConfig) {prepared : PreparedToolCall} (h : prepared.Ready calls) :
    RunsFor streamed calls (runPreparedToolCall fuel assistantMessage config prepared)
      (fun _ => True) thrown := by
  refine Act.Within.bind (Q := fun _ => True) ?_ ?_
  · refine Act.Within.bind (Q := fun _ => True) (.perform h fun _ _ => trivial) ?_
    exact fun _ _ => runs_awaitTool prepared fuel
  · intro executed _
    exact (runs_runAfterToolCall assistantMessage prepared executed config).bind
      fun _ _ => .pure trivial

theorem runs_finalizeToolCall (fuel : Nat) (assistantMessage : AssistantMessage)
    (config : AgentLoopConfig) (toolCall : ToolCall) {preparation : Preparation}
    (h : preparation.Ready calls) :
    RunsFor streamed calls (finalizeToolCall fuel assistantMessage config toolCall preparation)
      (fun _ => True) thrown := by
  cases preparation with
  | immediate outcome => exact .pure trivial
  | prepared call => exact runs_runPreparedToolCall fuel assistantMessage config h

theorem runs_failToolCalls (toolCalls : List ToolCall) :
    RunsFor streamed calls (failToolCalls toolCalls) (fun _ => True) thrown := by
  induction toolCalls with
  | nil => exact .pure trivial
  | cons toolCall rest ih =>
    refine (runs_emit _).bind fun _ _ => ?_
    refine (runs_emit _).bind fun _ _ => ?_
    refine (runs_createToolResultMessage _).bind fun message _ => ?_
    refine (runs_emitToolResultMessage message).bind fun _ _ => ?_
    exact ih.bind fun _ _ => .pure trivial

theorem runs_emitToolResults (finalizedCalls : List FinalizedToolCallOutcome) :
    RunsFor streamed calls (emitToolResults finalizedCalls) (fun _ => True) thrown := by
  induction finalizedCalls with
  | nil => exact .pure trivial
  | cons finalized rest ih =>
    refine (runs_createToolResultMessage _).bind fun message _ => ?_
    refine (runs_emitToolResultMessage message).bind fun _ _ => ?_
    exact ih.bind fun _ _ => .pure trivial

/-- The calls left are the end of the message's. -/
theorem getElem?_of_append {done rest : List ToolCall} (h : calls = done ++ toolCall :: rest) :
    calls[done.length]? = some toolCall := by
  rw [h]
  simp

theorem runs_executeSequentially (fuel : Nat) (assistantMessage : AssistantMessage)
    (config : AgentLoopConfig) {done rest : List ToolCall} (h : calls = done ++ rest) :
    RunsFor streamed calls (executeSequentially fuel assistantMessage config rest)
      (fun _ => True) thrown := by
  induction rest generalizing done with
  | nil => exact .pure trivial
  | cons toolCall rest ih =>
    refine (runs_emit _).bind fun _ _ => ?_
    refine (runs_prepareToolCall assistantMessage config (getElem?_of_append h)).bind ?_
    intro preparation hready
    refine (runs_finalizeToolCall fuel assistantMessage config toolCall hready).bind ?_
    intro finalized _
    refine (runs_emit _).bind fun _ _ => ?_
    refine (runs_createToolResultMessage finalized).bind fun message _ => ?_
    refine (runs_emitToolResultMessage message).bind fun _ _ => ?_
    refine runs_isAborted.bind ?_
    intro aborted _
    split
    · exact .pure trivial
    · have hrest : calls = (done ++ [toolCall]) ++ rest := by simp [h]
      exact (ih hrest).bind fun _ _ => .pure trivial

theorem runs_enterToolCall (toolCall : ToolCall) {preparation : Preparation}
    (h : preparation.Ready calls) :
    RunsFor streamed calls (enterToolCall toolCall preparation)
      (FinalizedToolCallEntry.Ready calls) thrown := by
  cases preparation with
  | immediate outcome => exact (runs_emit _).bind fun _ _ => .pure trivial
  | prepared call => exact .pure h

theorem runs_startToolCalls (assistantMessage : AssistantMessage) (config : AgentLoopConfig)
    {done rest : List ToolCall} (h : calls = done ++ rest) :
    RunsFor streamed calls (startToolCalls assistantMessage config rest)
      (fun entries => ∀ entry ∈ entries, entry.Ready calls) thrown := by
  induction rest generalizing done with
  | nil => exact .pure fun _ hmem => nomatch hmem
  | cons toolCall rest ih =>
    refine (runs_emit _).bind fun _ _ => ?_
    refine (runs_prepareToolCall assistantMessage config (getElem?_of_append h)).bind ?_
    intro preparation hready
    refine (runs_enterToolCall toolCall hready).bind ?_
    intro entry hentry
    refine runs_isAborted.bind ?_
    intro aborted _
    split
    · exact .pure (by simpa using hentry)
    · have hrest : calls = (done ++ [toolCall]) ++ rest := by simp [h]
      refine (ih hrest).bind ?_
      exact fun more hmore => .pure (List.forall_mem_cons.mpr ⟨hentry, hmore⟩)

theorem runs_settleEntry (fuel : Nat) (assistantMessage : AssistantMessage)
    (config : AgentLoopConfig) {entry : FinalizedToolCallEntry} (h : entry.Ready calls) :
    RunsFor streamed calls (settleEntry fuel assistantMessage config entry)
      (fun _ => True) thrown := by
  cases entry with
  | done finalized => exact .pure trivial
  | deferred prepared =>
    refine (runs_runPreparedToolCall fuel assistantMessage config h).bind ?_
    exact fun finalized _ => (runs_emit _).bind fun _ _ => .pure trivial

theorem runs_executeToolCallsParallel (fuel : Nat) (assistantMessage : AssistantMessage)
    (config : AgentLoopConfig) :
    RunsFor streamed calls (executeToolCallsParallel fuel assistantMessage calls config)
      (fun _ => True) thrown := by
  refine (runs_startToolCalls assistantMessage config (List.nil_append calls).symm).bind ?_
  intro entries hentries
  refine Act.Within.bind (Q := fun _ => True) ?_ ?_
  · refine (Act.Within.all (Q := fun _ => True) ?_).mono (fun _ _ => trivial) fun h => h
    intro p hp
    obtain ⟨entry, hmem, rfl⟩ := List.mem_map.mp hp
    exact runs_settleEntry fuel assistantMessage config (hentries entry hmem)
  · exact fun finalizedCalls _ => (runs_emitToolResults finalizedCalls).bind
      fun _ _ => .pure trivial

theorem runs_executeToolBatch (fuel : Nat) (message : AssistantMessage)
    (config : AgentLoopConfig) :
    RunsFor streamed message.toolCalls (executeToolBatch fuel message config)
      (fun _ => True) thrown := by
  unfold executeToolBatch
  split
  · exact (runs_failToolCalls message.toolCalls).bind fun _ _ => .pure trivial
  · refine runs_readContext.bind fun context _ => ?_
    dsimp only
    split
    · exact (runs_executeSequentially fuel message config (List.nil_append _).symm).bind
        fun _ _ => .pure trivial
    · exact runs_executeToolCallsParallel fuel message config

theorem runs_pushToolResults (results : List ToolResultMessage) :
    RunsFor streamed calls (pushToolResults results) (fun _ => True) thrown := by
  induction results with
  | nil => exact .pure trivial
  | cons result rest ih =>
    refine (runs_pushContext _).bind fun _ _ => ?_
    exact (runs_pushNewMessage _).bind fun _ _ => ih

theorem runs_runToolBatch (fuel : Nat) (message : AssistantMessage) (config : AgentLoopConfig) :
    RunsFor streamed message.toolCalls (runToolBatch fuel message config)
      (fun _ => True) thrown := by
  unfold runToolBatch
  split
  · exact .pure trivial
  · refine (runs_executeToolBatch fuel message config).bind ?_
    exact fun batch _ => (runs_pushToolResults batch.messages).bind fun _ _ => .pure trivial

end Executors

/-! ## Every run -/

section Respond

variable {streamed : AssistantMessage} {calls : List ToolCall}

theorem runs_finishSharedStream (hooks : PolicyRedactionHooks) (heap : MessageHeap)
    (addedPartial : Bool) :
    RunsFor streamed calls (finishSharedStream hooks heap addedPartial)
      (fun a => hooks.redactFinalOutput streamed = .ok (a.1.object a.2)) True := by
  refine Act.Within.bind (Q := fun message => message = streamed) ?_ ?_
  · refine Act.Within.bind (Q := fun answer : Except String AssistantMessage =>
      ∀ message, answer = .ok message → message = streamed) (.perform trivial fun _ h => h) ?_
    exact fun answer h => .ofExcept h fun _ _ => trivial
  · rintro message rfl
    refine Act.Within.bind (Q := fun _ => True) ?_ ?_
    · unfold enterContext
      split
      · exact .perform trivial fun _ _ => trivial
      · exact (runs_pushContext _).bind fun _ _ => runs_emit _
    · intro _ _
      refine Act.Within.bind (Q := fun heap' : MessageHeap =>
        hooks.redactFinalOutput message = .ok (heap'.object heap.next)) ?_ ?_
      · refine .ofExcept ?_ fun _ _ => trivial
        intro heap' hheap
        rw [handleMessageEnd, heap.alloc_object] at hheap
        cases hredact : hooks.redactFinalOutput message with
        | error error =>
          rw [hredact] at hheap
          cases hheap
        | ok final =>
          rw [hredact] at hheap
          obtain rfl := Except.ok.inj hheap
          simp
      · intro heap' hheap
        refine Act.Within.bind (Q := fun _ => True) (.perform trivial fun _ _ => trivial) ?_
        exact fun _ _ => (runs_emit _).bind fun _ _ => .pure hheap

theorem runs_respond (fuel : Nat) (hooks : PolicyRedactionHooks) (heap : MessageHeap)
    (addedPartial : Bool) (config : AgentLoopConfig)
    (hcalls : ∀ final, hooks.redactFinalOutput streamed = .ok final → final.toolCalls = calls) :
    RunsFor streamed calls (respond fuel hooks heap addedPartial config) (fun _ => True) True := by
  refine (runs_finishSharedStream hooks heap addedPartial).bind ?_
  rintro ⟨heap', message⟩ hmessage
  refine (runs_pushNewMessage _).bind fun _ _ => ?_
  split
  · exact .pure trivial
  · obtain rfl := hcalls _ hmessage
    exact runs_runToolBatch fuel _ config

/-- The model's own arguments: the `i`-th call of the streamed message, as
the tool takes its arguments. -/
def AgentTool.RunsStreamed (tool : AgentTool) (streamed : AssistantMessage) (i : Nat)
    (args : Json) : Prop :=
  ∃ original, streamed.toolCalls[i]? = some original ∧
    tool.accepts original.arguments = .ok args

/-- The tool takes the arguments of the `i`-th streamed call and those of
the redacted one alike. -/
def AgentTool.Overlooks (tool : AgentTool) (streamed : AssistantMessage) (i : Nat)
    (redacted : Json) : Prop :=
  ∃ original, streamed.toolCalls[i]? = some original ∧
    tool.accepts original.arguments = tool.accepts redacted

theorem AgentTool.overlooks_iff {tool : AgentTool} {streamed : AssistantMessage} {i : Nat}
    {original : ToolCall} {redacted args : Json} (hcall : streamed.toolCalls[i]? = some original)
    (haccepts : tool.accepts redacted = .ok args)
    (hseparates : ∀ a b x, tool.accepts a = .ok x → tool.accepts b = .ok x → a = b) :
    tool.Overlooks streamed i redacted ↔ redacted = original.arguments := by
  constructor
  · rintro ⟨original', hcall', heq⟩
    obtain rfl := Option.some.inj (hcall.symm.trans hcall')
    exact hseparates _ _ args haccepts (heq.trans haccepts)
  · rintro rfl
    exact ⟨original, hcall, rfl⟩

/-- In every run from the end of the stream to the tool results, whatever
the tools, the hooks, the signal and the scheduler do, as long as policy and
handlers leave the arguments alone: a tool is run for one call of the
redacted message, and with the arguments the model streamed if and only if
the tool overlooks the redaction. Under the default redaction the call is
the redaction of the streamed one, and a tool that tells arguments apart is
run with the streamed ones only if `redactSecrets` leaves them as they are. -/
theorem runs_streamed_iff {fuel : Nat} {hooks : PolicyRedactionHooks} {heap : MessageHeap}
    {addedPartial : Bool} {config : AgentLoopConfig} {trace : List LoopEffect}
    {p : Prog LoopEffect LoopAnswer (Except Failure (List ToolResultMessage × Bool))}
    {tool : AgentTool} {toolCallId : String} {args : Json}
    (hrun : Relation.ReflTransGen (Prog.Step (TraceEnv (Delivers streamed)))
      ([], respond fuel hooks heap addedPartial config) (trace, p))
    (hexecuted : LoopEffect.execute tool toolCallId args ∈ trace) :
    ∃ (final : AssistantMessage) (i : Nat) (call : ToolCall),
      hooks.redactFinalOutput streamed = .ok final ∧ final.toolCalls[i]? = some call ∧
      call.id = toolCallId ∧ tool.name = call.name ∧
      (tool.RunsStreamed streamed i args ↔ tool.Overlooks streamed i call.arguments) ∧
      (hooks = .default → ∃ original, streamed.toolCalls[i]? = some original ∧
        call = original.redact ∧
        (redactSecrets original.arguments = original.arguments →
          tool.RunsStreamed streamed i args) ∧
        ((∀ a b x, tool.accepts a = .ok x → tool.accepts b = .ok x → a = b) →
          tool.RunsStreamed streamed i args →
            redactSecrets original.arguments = original.arguments)) := by
  -- a redaction that throws ends the run before any tool
  have hwithin (calls : List ToolCall) (hcalls : ∀ final,
      hooks.redactFinalOutput streamed = .ok final → final.toolCalls = calls) :=
    (runs_respond fuel hooks heap addedPartial config hcalls).of_reaches hrun _ hexecuted
  cases hredact : hooks.redactFinalOutput streamed with
  | error error =>
      obtain ⟨i, call, hcall, -⟩ := hwithin [] fun final hfinal => by
        rw [hredact] at hfinal
        cases hfinal
      cases hcall
  | ok final =>
      obtain ⟨i, call, hcall, hid, hname, haccepts⟩ := hwithin final.toolCalls
        fun final' hfinal => by rw [Except.ok.inj (hredact.symm.trans hfinal)]
      have hiff : tool.RunsStreamed streamed i args ↔
          tool.Overlooks streamed i call.arguments := by
        unfold AgentTool.RunsStreamed AgentTool.Overlooks
        rw [haccepts]
      refine ⟨final, i, call, rfl, hcall, hid, hname, hiff, ?_⟩
      rintro rfl
      obtain rfl : streamed.redact = final := Except.ok.inj hredact
      rw [toolCalls_redact] at hcall
      rw [List.getElem?_map] at hcall
      obtain ⟨original, horiginal, rfl⟩ := Option.map_eq_some_iff.mp hcall
      refine ⟨original, horiginal, rfl, ?_, ?_⟩
      · intro hsame
        exact ⟨original, horiginal, hsame ▸ haccepts⟩
      · intro hseparates hstreamed
        exact (AgentTool.overlooks_iff horiginal haccepts hseparates).mp (hiff.mp hstreamed)

end Respond

/-! ## A bearer token -/

def bashTool : AgentTool := { readTool with name := "bash" }

/-- A session whose policy allows everything and that has no handlers. -/
theorem defaultSession_leavesArguments (toolCall : ToolCall) (args : Json) :
    (defaultSession []).LeavesArguments toolCall args := by
  constructor
  · intro handlers hmem handler hhandler
    rw [List.mem_singleton.mp hmem] at hhandler
    cases hhandler
  · intro reason arguments hdecide
    have hrisk : ((defaultSession []).descriptor toolCall.name).risk = .low := by
      by_cases hname : "read" = toolCall.name <;>
        simp [PolicySession.descriptor, defaultSession, hname]
    simp [PolicySession.decide, PolicyEngine.decide, defaultSession, PolicyEngine.create,
      defaultDecision, PolicySession.request] at hdecide hrisk
    simp [hrisk] at hdecide

def deliver (streamed : AssistantMessage) : (e : LoopEffect) → LoopAnswer e
  | .readContext => { toolContext [] with tools := [readTool, bashTool] }
  | .streamResult => .ok streamed
  | .beforeToolCall _ toolCall args => (defaultSession []).beforeToolCall toolCall args
  | e => (LoopWorld.initial (toolContext []) []).scripted [] readResult e

theorem delivers_deliver (streamed : AssistantMessage) (e : LoopEffect) :
    Delivers streamed e (deliver streamed e) := by
  cases e with
  | streamResult => exact fun message h => (Except.ok.inj h).symm
  | beforeToolCall message toolCall args =>
    exact ⟨defaultSession [], defaultSession_leavesArguments toolCall args, rfl⟩
  | _ => trivial

/-- The trace of the run in which `streamed` is delivered. -/
def respondTrace (streamed : AssistantMessage) : List LoopEffect :=
  (Prog.drive (fun _ e => deliver streamed e) (fun trace e _ => trace ++ [e])
    (respond 9 .default ⟨0, fun _ => responseWith [] .stop⟩ false hookedConfig) []).1

theorem respondTrace_reaches (streamed : AssistantMessage) :
    ∃ p, Relation.ReflTransGen (Prog.Step (TraceEnv (Delivers streamed)))
      ([], respond 9 .default ⟨0, fun _ => responseWith [] .stop⟩ false hookedConfig)
      (respondTrace streamed, p) :=
  ⟨_, Prog.drive_reaches (fun _ e => ⟨delivers_deliver streamed e, rfl⟩) _ _⟩

def LoopEffect.isExecution (P : AgentTool → String → Json → Bool) : LoopEffect → Bool
  | .execute tool toolCallId args => P tool toolCallId args
  | _ => false

theorem LoopEffect.of_any_isExecution {P : AgentTool → String → Json → Bool}
    (trace : List LoopEffect) (h : trace.any (LoopEffect.isExecution P) = true) :
    ∃ tool toolCallId args, LoopEffect.execute tool toolCallId args ∈ trace ∧
      P tool toolCallId args = true := by
  obtain ⟨e, hmem, he⟩ := List.any_eq_true.mp h
  cases e with
  | execute tool toolCallId args => exact ⟨tool, toolCallId, args, hmem, he⟩
  | _ => cases he

def listCall : ToolCall := ⟨"a", "bash", .obj [("command", .str "ls")]⟩

theorem runs_streamed_iff_list :
    ∃ tool toolCallId args,
      LoopEffect.execute tool toolCallId args ∈ respondTrace (responseWith [listCall] .toolUse) ∧
      tool.RunsStreamed (responseWith [listCall] .toolUse) 0 args := by
  obtain ⟨p, hreaches⟩ := respondTrace_reaches (responseWith [listCall] .toolUse)
  obtain ⟨tool, toolCallId, args, hmem, -⟩ := LoopEffect.of_any_isExecution
    (P := fun _ _ _ => true) (respondTrace (responseWith [listCall] .toolUse))
    (by decide +kernel)
  obtain ⟨final, i, call, -, hcall, -, -, -, hdefault⟩ := runs_streamed_iff hreaches hmem
  obtain ⟨original, horiginal, -, hruns, -⟩ := hdefault rfl
  obtain ⟨rfl, rfl⟩ : i = 0 ∧ listCall = original := by
    cases i with
    | zero => exact ⟨rfl, Option.some.inj horiginal⟩
    | succ i => cases horiginal
  exact ⟨tool, toolCallId, args, hmem, hruns (by decide +kernel)⟩

def curlCall : ToolCall :=
  ⟨"a", "bash", .obj [("command", .str "curl -H \"Authorization: Bearer abcdefghijklmnop\"")]⟩

/-- `bash` is run with the token replaced. -/
theorem bearer_token_replaced :
    ∃ (trace : List LoopEffect)
      (p : Prog LoopEffect LoopAnswer (Except Failure (List ToolResultMessage × Bool))),
      Relation.ReflTransGen (Prog.Step (TraceEnv (Delivers (responseWith [curlCall] .toolUse))))
        ([], respond 9 .default ⟨0, fun _ => responseWith [] .stop⟩ false hookedConfig)
        (trace, p) ∧
      ∃ tool toolCallId args, LoopEffect.execute tool toolCallId args ∈ trace ∧
        toolCallId = "a" ∧ args = .obj [("command",
          .str "curl -H \"Authorization: Bearer [REDACTED]\"")] ∧
        ∀ i, ¬ tool.RunsStreamed (responseWith [curlCall] .toolUse) i args := by
  obtain ⟨p, hreaches⟩ := respondTrace_reaches (responseWith [curlCall] .toolUse)
  obtain ⟨tool, toolCallId, args, hmem, hargs⟩ := LoopEffect.of_any_isExecution
    (P := fun tool toolCallId args => decide (toolCallId = "a" ∧ args = .obj [("command",
      .str "curl -H \"Authorization: Bearer [REDACTED]\"")] ∧
      tool.accepts curlCall.arguments ≠ .ok args))
    (respondTrace (responseWith [curlCall] .toolUse)) (by decide +kernel)
  obtain ⟨hid, hredacted, hne⟩ := of_decide_eq_true hargs
  refine ⟨_, p, hreaches, tool, toolCallId, args, hmem, hid, hredacted, ?_⟩
  rintro i ⟨original, horiginal, haccepts⟩
  obtain rfl : curlCall = original := by
    cases i with
    | zero => exact Option.some.inj horiginal
    | succ i => cases horiginal
  exact hne haccepts

end Eagent
