import Eagent.Policy
import Eagent.ToolPairing

/-!
# Only approved arguments are executed

A batch of tool calls under the session's hook. The state of a run is the
history of what the hook was asked and what was executed; the hook answers
as some session does, everything else is free. Each call leaves a history
of its own: none or one question and no execution, or a question that was
approved and then the execution (`CallGuard`). In a parallel batch the
questions are all asked before the first execution, so the history of the
batch is an interleaving.
-/

namespace Eagent

open Interaction

/-! ## The history of a batch -/

/-- The hook was asked, and answered for a session; or a tool was executed. -/
inductive PolicyRecord where
  | consulted (toolCall : ToolCall) (args : Json) (session : PolicySession)
  | executed (tool : AgentTool) (toolCallId : String) (args : Json)

/-- What an answered effect adds. The session may have changed since the
last question. -/
def PolicyRecorded : (e : LoopEffect) → LoopAnswer e → List PolicyRecord → Prop
  | .beforeToolCall _ toolCall args,
      (answer : Except String (Option BeforeToolCallResult × Json)), records =>
      ∃ session : PolicySession, answer = session.beforeToolCall toolCall args ∧
        records = [.consulted toolCall args session]
  | .execute tool toolCallId args, _, records => records = [.executed tool toolCallId args]
  | _, _, records => records = []

/-- Before a tool is executed, the hook has approved the arguments for one
of the calls. -/
def Cleared (calls : List ToolCall) (history : List PolicyRecord) : LoopEffect → Prop
  | .execute tool toolCallId args => ∃ call ∈ calls, ∃ (validated : Json) (session : PolicySession),
      .consulted call validated session ∈ history ∧ call.id = toolCallId ∧
        tool.name = call.name ∧ session.Approves tool call validated args
  | _ => True

/-- The configurations a program can reach under the hook. -/
def PolicyReaches {α : Type} (p : LoopM α)
    (c : List PolicyRecord × Prog LoopEffect LoopAnswer (Except Failure α)) : Prop :=
  Relation.ReflTransGen (Prog.Step (LogEnv PolicyRecorded)) ([], p) c

/-- From `history`, `p` executes only what was cleared. -/
abbrev Guarded (calls : List ToolCall) {α : Type} (p : LoopM α) (history : List PolicyRecord)
    (Q : α → List PolicyRecord → Prop) (thrown : List PolicyRecord → Prop) : Prop :=
  Act.Holds (LogEnv PolicyRecorded) (Cleared calls) p history Q thrown

/-- `p` neither asks the hook nor executes a tool. -/
abbrev Silent (calls : List ToolCall) {α : Type} (p : LoopM α) : Prop :=
  Act.Silent PolicyRecorded (Cleared calls) p

theorem Cleared.mono {calls : List ToolCall} (l l' : List PolicyRecord) (e : LoopEffect)
    (hsub : l ⊆ l') (h : Cleared calls l e) : Cleared calls l' e := by
  cases e with
  | execute tool toolCallId args =>
    obtain ⟨call, hcall, validated, session, hmem, hrest⟩ := h
    exact ⟨call, hcall, validated, session, hsub hmem, hrest⟩
  | _ => trivial

/-! ## The history of one call -/

/-- The hook was asked at most once, and nothing was executed. -/
def Unrun (call : ToolCall) (log : List PolicyRecord) : Prop :=
  log = [] ∨ ∃ args session, log = [.consulted call args session]

def Ran (call : ToolCall) (log : List PolicyRecord) : Prop :=
  ∃ (tool : AgentTool) (args : Json) (session : PolicySession) (executed : Json),
    log = [.consulted call args session, .executed tool call.id executed] ∧
      tool.name = call.name ∧ session.Approves tool call args executed

def CallGuard (call : ToolCall) (isError : Bool) (log : List PolicyRecord) : Prop :=
  (isError = true ∧ Unrun call log) ∨ Ran call log

def PreparedToolCall.Approved (call : ToolCall) (prepared : PreparedToolCall)
    (log : List PolicyRecord) : Prop :=
  ∃ (args : Json) (session : PolicySession), log = [.consulted call args session] ∧
    prepared.tool.name = call.name ∧ session.Approves prepared.tool call args prepared.args ∧
    prepared.toolCall.Same call

def Preparation.Guards (call : ToolCall) (preparation : Preparation)
    (log : List PolicyRecord) : Prop :=
  match preparation with
  | .immediate outcome => outcome.isError = true ∧ Unrun call log
  | .prepared ready => ready.Approved call log

def FinalizedToolCallOutcome.Guards (call : ToolCall) (finalized : FinalizedToolCallOutcome)
    (log : List PolicyRecord) : Prop :=
  finalized.toolCall.Same call ∧ CallGuard call finalized.isError log

def FinalizedToolCallEntry.Guards (call : ToolCall) (entry : FinalizedToolCallEntry)
    (log : List PolicyRecord) : Prop :=
  match entry with
  | .done finalized => finalized.Guards call log
  | .deferred prepared => prepared.Approved call log

def ToolResultMessage.Guards (call : ToolCall) (result : ToolResultMessage)
    (log : List PolicyRecord) : Prop :=
  result.idAndName = call.idAndName ∧ CallGuard call result.isError log

/-! ## Silent functions -/

section Silent

variable {calls : List ToolCall}

theorem silent_emit (event : AgentEvent) : Silent calls (emit event) :=
  .perform (fun _ => trivial) fun _ _ h => h

theorem silent_isAborted : Silent calls isAborted :=
  .perform (fun _ => trivial) fun _ _ h => h

theorem silent_dateNow : Silent calls dateNow :=
  .perform (fun _ => trivial) fun _ _ h => h

theorem silent_readContext : Silent calls readContext :=
  .perform (fun _ => trivial) fun _ _ h => h

theorem silent_awaitTool (prepared : PreparedToolCall) (fuel : Nat) :
    Silent calls (awaitTool prepared fuel) := by
  induction fuel with
  | zero => exact .outOfFuel
  | succ fuel ih =>
    refine .bind (.perform (fun _ => trivial) fun _ _ h => h) ?_
    intro (progress : ToolProgress)
    cases progress with
    | update partialResult => exact .bind (silent_emit _) fun _ => ih
    | returned result => exact .pure _
    | threw message => exact .pure _

theorem silent_runAfterToolCall (assistantMessage : AssistantMessage)
    (prepared : PreparedToolCall) (executed : ExecutedToolCallOutcome)
    (config : AgentLoopConfig) :
    Silent calls (runAfterToolCall assistantMessage prepared executed config) := by
  intro l
  unfold runAfterToolCall
  split
  · refine ⟨trivial, ?_⟩
    rintro (answer : Except String (Option AfterToolCallResult)) l' ⟨_, rfl, rfl⟩
    cases answer with
    | ok afterResult => exact List.append_nil l
    | error message => exact List.append_nil l
  · exact rfl

theorem silent_emitToolResultMessage (message : ToolResultMessage) :
    Silent calls (emitToolResultMessage message) :=
  .bind (silent_emit _) fun _ => silent_emit _

end Silent

/-! ## Preparing a call -/

section Prepare

variable {calls : List ToolCall} {toolCall : ToolCall} {log : List PolicyRecord}

theorem guarded_preparedUnlessAborted {prepared : PreparedToolCall}
    {thrown : List PolicyRecord → Prop} (h : prepared.Approved toolCall log) :
    Guarded calls (preparedUnlessAborted prepared) log (fun p l => p.Guards toolCall l) thrown := by
  refine silent_isAborted.andThen ?_
  intro aborted
  cases aborted with
  | true =>
    obtain ⟨args, session, hlog, -⟩ := h
    exact ⟨rfl, .inr ⟨args, session, hlog⟩⟩
  | false => exact h

theorem guarded_applyBeforeToolCall {tool : AgentTool} {prepared : ToolCall}
    {before : Option BeforeToolCallResult} {args left : Json} {session : PolicySession}
    (hsame : prepared.Same toolCall) (hname : tool.name = toolCall.name)
    (hbefore : session.beforeToolCall toolCall args = .ok (before, left)) :
    Guarded calls (applyBeforeToolCall tool prepared before left)
      [.consulted toolCall args session] (fun p l => p.Guards toolCall l)
      fun l => Unrun toolCall l := by
  -- the call is prepared with `executed` only where the hook let it run with that
  have happroved : ∀ {executed : Json} {call : ToolCall}, call.Same toolCall →
      PolicySession.RunsWith tool before left executed →
      (PreparedToolCall.mk call tool executed).Approved toolCall
        [.consulted toolCall args session] := fun hcall hruns =>
    ⟨args, session, rfl, hname, PolicySession.approves_of_runsWith hbefore hruns, hcall⟩
  cases before with
  | none => exact guarded_preparedUnlessAborted (happroved hsame ⟨nofun, rfl⟩)
  | some before =>
    unfold applyBeforeToolCall
    dsimp only
    split
    · exact ⟨rfl, .inr ⟨args, session, rfl⟩⟩
    · rename_i hblock
      split
      · rename_i hargs
        have hruns : PolicySession.RunsWith tool (some before) left left := by
          refine ⟨hblock, ?_⟩
          simp only [Option.bind_some, hargs]
        exact guarded_preparedUnlessAborted (happroved hsame hruns)
      · rename_i arguments hargs
        refine Act.Holds.bind (Q := fun executed l => tool.validate arguments = .ok executed ∧
          l = [.consulted toolCall args session]) ?_ ?_
        · exact Act.Holds.ofExcept (fun executed h => ⟨h, rfl⟩) fun _ _ =>
            .inr ⟨args, session, rfl⟩
        · rintro executed l ⟨hvalidate, rfl⟩
          have hruns : PolicySession.RunsWith tool (some before) left executed := by
            refine ⟨hblock, ?_⟩
            simp only [Option.bind_some, hargs, hvalidate]
          exact guarded_preparedUnlessAborted (happroved ⟨hsame.1, hsame.2⟩ hruns)

/-- Asking the hook. -/
theorem guarded_beforeToolCall (assistantMessage : AssistantMessage) (args : Json) :
    Guarded calls
      (attempt (LoopEffect.beforeToolCall assistantMessage toolCall args) fun a => a) []
      (fun a l => ∃ session : PolicySession, l = [.consulted toolCall args session] ∧
        session.beforeToolCall toolCall args = .ok a)
      fun l => Unrun toolCall l := by
  refine ⟨trivial, ?_⟩
  rintro answer l ⟨records, ⟨session, hanswer, rfl⟩, rfl⟩
  refine Act.Holds.ofExcept ?_ ?_
  · intro a ha
    exact ⟨session, rfl, hanswer.symm.trans ha⟩
  · intro message hmessage
    exact .inr ⟨args, session, rfl⟩

theorem guarded_prepareKnownToolCall (assistantMessage : AssistantMessage)
    {config : AgentLoopConfig} {tool : AgentTool} (hconfig : config.beforeToolCall = true)
    (hname : tool.name = toolCall.name) :
    Guarded calls (prepareKnownToolCall assistantMessage toolCall config tool) []
      (fun p l => p.Guards toolCall l) fun l => Unrun toolCall l := by
  refine Act.Holds.bind (Q := fun prepared l => prepared.Same toolCall ∧ l = [])
    (Act.Holds.ofExcept (fun _ h => ⟨prepareToolCallArguments_same h, rfl⟩)
      fun _ _ => .inl rfl) ?_
  rintro prepared l ⟨hsame, rfl⟩
  refine Act.Holds.bind (Q := fun _ l => l = [])
    (Act.Holds.ofExcept (fun _ _ => rfl) fun _ _ => .inl rfl) ?_
  rintro validatedArgs l rfl
  rw [if_pos hconfig]
  refine Act.Holds.bind (guarded_beforeToolCall assistantMessage validatedArgs) ?_
  rintro ⟨before, left⟩ l ⟨session, rfl, hbefore⟩
  refine silent_isAborted.andThen ?_
  intro aborted
  split
  · exact ⟨rfl, .inr ⟨validatedArgs, session, rfl⟩⟩
  · exact guarded_applyBeforeToolCall hsame hname hbefore

theorem guarded_prepareToolCall (assistantMessage : AssistantMessage) {config : AgentLoopConfig}
    (hconfig : config.beforeToolCall = true) :
    Guarded calls (prepareToolCall assistantMessage toolCall config) []
      (fun p l => p.Guards toolCall l) fun _ => False := by
  refine silent_readContext.andThen ?_
  intro context
  split
  · exact ⟨rfl, .inl rfl⟩
  · rename_i tool htool
    have hname : tool.name = toolCall.name := by simpa using List.find?_some htool
    refine Act.Holds.tryCatch (guarded_prepareKnownToolCall assistantMessage hconfig hname) ?_
    intro message l hunrun
    exact ⟨rfl, hunrun⟩

end Prepare

/-! ## Running a prepared call -/

section Run

variable {calls : List ToolCall} {toolCall : ToolCall} {log : List PolicyRecord}

theorem guarded_runPreparedToolCall (fuel : Nat) (assistantMessage : AssistantMessage)
    (config : AgentLoopConfig) {prepared : PreparedToolCall} (hmem : toolCall ∈ calls)
    (h : prepared.Approved toolCall log) :
    Guarded calls (runPreparedToolCall fuel assistantMessage config prepared) log
      (fun finalized l => finalized.Guards toolCall l) fun _ => False := by
  obtain ⟨args, session, rfl, hname, happroves, hsame⟩ := h
  refine Act.Holds.bind (Q := fun _ l => Ran toolCall l) ?_ ?_
  · refine Act.Holds.bind (Q := fun _ l => Ran toolCall l) ?_ ?_
    · refine Act.Holds.perform ?_ ?_
      · exact ⟨toolCall, hmem, args, session, List.mem_singleton_self _, hsame.1.symm, hname,
          happroves⟩
      · rintro _ l ⟨records, rfl, rfl⟩
        refine ⟨prepared.tool, args, session, prepared.args, ?_, hname, happroves⟩
        rw [hsame.1]
        rfl
    · intro _ l hran
      refine (silent_awaitTool prepared fuel l).mono ?_ fun _ h => h
      rintro _ l' rfl
      exact hran
  · intro executed l hran
    refine (silent_runAfterToolCall assistantMessage prepared executed config).andThen ?_
    intro outcome
    exact ⟨hsame, .inr hran⟩

theorem guarded_finalizeToolCall (fuel : Nat) (assistantMessage : AssistantMessage)
    (config : AgentLoopConfig) {preparation : Preparation} (hmem : toolCall ∈ calls)
    (h : preparation.Guards toolCall log) :
    Guarded calls (finalizeToolCall fuel assistantMessage config toolCall preparation) log
      (fun finalized l => finalized.Guards toolCall l) fun _ => False := by
  cases preparation with
  | immediate outcome => exact ⟨.refl toolCall, .inl h⟩
  | prepared prepared =>
    exact guarded_runPreparedToolCall fuel assistantMessage config hmem h

theorem guarded_createToolResultMessage {finalized : FinalizedToolCallOutcome}
    {thrown : List PolicyRecord → Prop} (h : finalized.Guards toolCall log) :
    Guarded calls (createToolResultMessage finalized) log
      (fun result l => result.Guards toolCall l) thrown := by
  refine silent_dateNow.andThen ?_
  intro timestamp
  exact ⟨h.1.idAndName, h.2⟩

end Run

/-! ## Batches -/

/-- One item for each of the first calls; the history is an interleaving of
one part for each, and each is guarded. -/
def Each {β : Type} (guard : ToolCall → β → List PolicyRecord → Prop) (calls : List ToolCall)
    (items : List β) (history : List PolicyRecord) : Prop :=
  ∃ logs : List (List PolicyRecord), Shuffle logs history ∧ logs.length = items.length ∧
    items.length ≤ calls.length ∧
    ∀ (i : Nat) (call : ToolCall) (item : β) (log : List PolicyRecord), calls[i]? = some call →
      items[i]? = some item → logs[i]? = some log → guard call item log

namespace Each

variable {β γ : Type} {guard : ToolCall → β → List PolicyRecord → Prop} {call : ToolCall}
  {calls : List ToolCall} {item : β} {items : List β} {log history : List PolicyRecord}

theorem nil (calls : List ToolCall) : Each guard calls [] [] :=
  ⟨[], .nil (by simp), rfl, Nat.zero_le _, by simp⟩

theorem cons (h : guard call item log) (hrest : Each guard calls items history) :
    Each guard (call :: calls) (item :: items) (log ++ history) := by
  obtain ⟨logs, hshuffle, hlen, hle, heach⟩ := hrest
  refine ⟨log :: logs, hshuffle.cons log, congrArg Nat.succ hlen, Nat.succ_le_succ hle, ?_⟩
  intro i c x l hc hx hl
  cases i with
  | zero =>
    obtain rfl := Option.some.inj hc
    obtain rfl := Option.some.inj hx
    obtain rfl := Option.some.inj hl
    exact h
  | succ i => exact heach i c x l hc hx hl

theorem one (calls : List ToolCall) (h : guard call item log) :
    Each guard (call :: calls) [item] log := by
  have hone := cons h (nil calls)
  rwa [List.append_nil] at hone

/-- Nothing was recorded. -/
theorem of_forall₂ (h : List.Forall₂ (fun call item => guard call item []) calls items) :
    Each guard calls items [] := by
  induction h with
  | nil => exact nil []
  | cons h _ ih => exact cons h ih

/-- Each item is turned into another. -/
theorem map {guard' : ToolCall → γ → List PolicyRecord → Prop} {items' : List γ}
    {R : β → γ → Prop} (h : Each guard calls items history) (hitems : List.Forall₂ R items items')
    (himp : ∀ call x y log, guard call x log → R x y → guard' call y log) :
    Each guard' calls items' history := by
  obtain ⟨logs, hshuffle, hlen, hle, heach⟩ := h
  have hlength := hitems.length_eq
  refine ⟨logs, hshuffle, hlen.trans hlength, hlength ▸ hle, ?_⟩
  intro i c y l hc hy hl
  obtain ⟨hi', rfl⟩ := List.getElem?_eq_some_iff.mp hy
  have hi : i < items.length := hlength ▸ hi'
  have hR : R items[i] items'[i] := (List.forall₂_iff_get.mp hitems).2 i hi hi'
  exact himp c items[i] items'[i] l (heach i c _ l hc (List.getElem?_eq_getElem hi) hl) hR

end Each

section Executors

variable {calls : List ToolCall}

variable {log : List PolicyRecord}

/-- After the first call the rest starts a history of its own. -/
theorem guarded_rest {α β : Type} {p : LoopM α} {f : α → LoopM β} {Q : α → List PolicyRecord → Prop}
    {Q' : β → List PolicyRecord → Prop} (h : Guarded calls p [] Q fun _ => False)
    (hf : ∀ a l, Q a l → Guarded calls (f a) (log ++ l) Q' fun _ => False) :
    Guarded calls (p >>= f) log Q' fun _ => False := by
  refine Act.Holds.bind ((h.shift Cleared.mono log).mono (fun _ _ h => h) ?_) ?_
  · rintro l ⟨t, -, ht⟩
    exact ht
  · rintro a l ⟨t, rfl, ha⟩
    exact hf a t ha

theorem silent_failToolCalls (toolCalls : List ToolCall) (log : List PolicyRecord) :
    Guarded calls (failToolCalls toolCalls) log
      (fun results l => l = log ∧ List.Forall₂ (fun (call : ToolCall) (r : ToolResultMessage) =>
        r.idAndName = call.idAndName ∧ r.isError = true) toolCalls results) fun _ => False := by
  induction toolCalls with
  | nil => exact ⟨rfl, .nil⟩
  | cons toolCall rest ih =>
    refine (silent_emit _).andThen fun _ => ?_
    refine (silent_emit _).andThen fun _ => ?_
    refine Act.Holds.bind (Q := fun (r : ToolResultMessage) l => l = log ∧
      r.idAndName = toolCall.idAndName ∧ r.isError = true) ?_ ?_
    · exact silent_dateNow.andThen fun _ => ⟨rfl, rfl, rfl⟩
    · rintro message l ⟨rfl, hmessage⟩
      refine (silent_emitToolResultMessage message).andThen fun _ => ?_
      refine Act.Holds.bind ih ?_
      rintro messages l' ⟨rfl, hmessages⟩
      exact ⟨rfl, .cons hmessage hmessages⟩

variable {config : AgentLoopConfig}

theorem guarded_executeSequentially (fuel : Nat) (assistantMessage : AssistantMessage)
    (hconfig : config.beforeToolCall = true) {toolCalls : List ToolCall}
    (hsub : toolCalls ⊆ calls) :
    Guarded calls (executeSequentially fuel assistantMessage config toolCalls) []
      (fun rs l => Each ToolResultMessage.Guards toolCalls (rs.map (·.2)) l) fun _ => False := by
  induction toolCalls with
  | nil => exact Each.nil []
  | cons toolCall rest ih =>
    have hmem : toolCall ∈ calls := hsub (List.mem_cons_self ..)
    refine (silent_emit _).andThen fun _ => ?_
    refine Act.Holds.bind (guarded_prepareToolCall assistantMessage hconfig) ?_
    intro preparation l hprepared
    refine Act.Holds.bind
      (guarded_finalizeToolCall fuel assistantMessage config hmem hprepared) ?_
    intro finalized l hfinalized
    refine (silent_emit _).andThen fun _ => ?_
    refine Act.Holds.bind (guarded_createToolResultMessage hfinalized) ?_
    intro message l hmessage
    refine (silent_emitToolResultMessage message).andThen fun _ => ?_
    refine silent_isAborted.andThen ?_
    intro aborted
    split
    · exact Each.one rest hmessage
    · refine guarded_rest (ih fun c hc => hsub (List.mem_cons_of_mem _ hc)) ?_
      intro more l' hmore
      exact Each.cons hmessage hmore

theorem guarded_enterToolCall {toolCall : ToolCall} {preparation : Preparation}
    (h : preparation.Guards toolCall log) :
    Guarded calls (enterToolCall toolCall preparation) log
      (fun entry l => entry.Guards toolCall l) fun _ => False := by
  cases preparation with
  | immediate outcome =>
    refine (silent_emit _).andThen fun _ => ?_
    exact ⟨.refl toolCall, .inl h⟩
  | prepared prepared => exact h

theorem guarded_startToolCalls (assistantMessage : AssistantMessage)
    (hconfig : config.beforeToolCall = true) (toolCalls : List ToolCall) :
    Guarded calls (startToolCalls assistantMessage config toolCalls) []
      (fun entries l => Each FinalizedToolCallEntry.Guards toolCalls entries l)
      fun _ => False := by
  induction toolCalls with
  | nil => exact Each.nil []
  | cons toolCall rest ih =>
    refine (silent_emit _).andThen fun _ => ?_
    refine Act.Holds.bind (guarded_prepareToolCall assistantMessage hconfig) ?_
    intro preparation l hprepared
    refine Act.Holds.bind (guarded_enterToolCall hprepared) ?_
    intro entry l hentry
    refine silent_isAborted.andThen ?_
    intro aborted
    split
    · exact Each.one rest hentry
    · refine guarded_rest ih ?_
      intro more l' hmore
      exact Each.cons hentry hmore

theorem guarded_settleEntry (fuel : Nat) (assistantMessage : AssistantMessage)
    (config : AgentLoopConfig) {toolCall : ToolCall} {entry : FinalizedToolCallEntry}
    (hmem : toolCall ∈ calls) (h : entry.Guards toolCall log) :
    Guarded calls (settleEntry fuel assistantMessage config entry) log
      (fun finalized l => finalized.Guards toolCall l) fun _ => False := by
  cases entry with
  | done finalized => exact h
  | deferred prepared =>
    refine Act.Holds.bind
      (guarded_runPreparedToolCall fuel assistantMessage config hmem h) ?_
    intro finalized l hfinalized
    exact (silent_emit _).andThen fun _ => hfinalized

theorem silent_emitToolResults (finalizedCalls : List FinalizedToolCallOutcome)
    (log : List PolicyRecord) :
    Guarded calls (emitToolResults finalizedCalls) log
      (fun results l => l = log ∧ List.Forall₂ (fun (f : FinalizedToolCallOutcome)
        (r : ToolResultMessage) => r.idAndName = f.toolCall.idAndName ∧ r.isError = f.isError)
        finalizedCalls results) fun _ => False := by
  induction finalizedCalls with
  | nil => exact ⟨rfl, .nil⟩
  | cons finalized rest ih =>
    refine Act.Holds.bind (Q := fun (r : ToolResultMessage) l => l = log ∧
      r.idAndName = finalized.toolCall.idAndName ∧ r.isError = finalized.isError) ?_ ?_
    · exact silent_dateNow.andThen fun _ => ⟨rfl, rfl, rfl⟩
    · rintro message l ⟨rfl, hmessage⟩
      refine (silent_emitToolResultMessage message).andThen fun _ => ?_
      refine Act.Holds.bind ih ?_
      rintro messages l' ⟨rfl, hmessages⟩
      exact ⟨rfl, .cons hmessage hmessages⟩

theorem guarded_executeToolCallsParallel (fuel : Nat) (assistantMessage : AssistantMessage)
    (hconfig : config.beforeToolCall = true) {toolCalls : List ToolCall}
    (hsub : toolCalls ⊆ calls) :
    Guarded calls (executeToolCallsParallel fuel assistantMessage toolCalls config) []
      (fun batch l => Each ToolResultMessage.Guards toolCalls batch.messages l)
      fun _ => False := by
  refine Act.Holds.bind (guarded_startToolCalls assistantMessage hconfig toolCalls) ?_
  rintro entries l ⟨logs, hshuffle, hlen, hle, heach⟩
  refine Act.Holds.bind (Q := fun fs l => Each FinalizedToolCallOutcome.Guards toolCalls fs l)
    ?_ ?_
  · refine Act.Holds.mono (Act.Holds.all
      (Q := fun i finalized l => ∀ call, toolCalls[i]? = some call →
        FinalizedToolCallOutcome.Guards call finalized l)
      Cleared.mono hshuffle (by rw [List.length_map, hlen]) ?_) ?_ fun _ h => h
    rotate_left
    · rintro fs l' ⟨hfs, logs', hshuffle', hlen', heach'⟩
      rw [List.length_map] at hfs hlen'
      refine ⟨logs', hshuffle', hlen'.trans hfs.symm, hfs ▸ hle, ?_⟩
      intro i call f log hcall hf hlog
      exact heach' i f log hf hlog call hcall
    · intro i p log hp hlog
      obtain ⟨entry, hentry, rfl⟩ := Option.map_eq_some_iff.mp (List.getElem?_map .. ▸ hp)
      have hi : i < toolCalls.length :=
        Nat.lt_of_lt_of_le (List.getElem?_eq_some_iff.mp hentry).1 hle
      have hcall : toolCalls[i]? = some toolCalls[i] := List.getElem?_eq_getElem hi
      refine (guarded_settleEntry fuel assistantMessage config (hsub (List.getElem_mem hi))
        (heach i _ entry log hcall hentry hlog)).mono ?_ fun _ h => h
      intro finalized l' hfinalized call hcall'
      obtain rfl := Option.some.inj (hcall.symm.trans hcall')
      exact hfinalized
  · intro fs l hfs
    refine Act.Holds.bind (silent_emitToolResults fs l) ?_
    rintro results l' ⟨rfl, hresults⟩
    refine hfs.map hresults ?_
    intro call f r log hf hr
    exact ⟨hr.1.trans hf.1.idAndName, hr.2 ▸ hf.2⟩

theorem guarded_executeToolBatch (fuel : Nat) (message : AssistantMessage)
    (hconfig : config.beforeToolCall = true) :
    Guarded message.toolCalls (executeToolBatch fuel message config) []
      (fun batch l => Each ToolResultMessage.Guards message.toolCalls batch.messages l)
      fun _ => False := by
  unfold executeToolBatch
  split
  · refine Act.Holds.bind (silent_failToolCalls message.toolCalls []) ?_
    rintro results l ⟨rfl, hresults⟩
    refine Each.of_forall₂ (hresults.imp ?_)
    intro call r h
    exact ⟨h.1, .inl ⟨h.2, .inl rfl⟩⟩
  · refine silent_readContext.andThen fun context => ?_
    dsimp only
    split
    · refine Act.Holds.bind
        (guarded_executeSequentially fuel message hconfig (List.Subset.refl _)) ?_
      intro rs l hrs
      exact hrs
    · exact guarded_executeToolCallsParallel fuel message hconfig (List.Subset.refl _)

end Executors

/-! ## Every run -/

theorem Ran.not_refused {call : ToolCall} {log : List PolicyRecord} (h : Ran call log)
    {validated : Json} {session : PolicySession} (hmem : .consulted call validated session ∈ log) :
    ¬ session.Refuses call validated := by
  obtain ⟨tool, args, session', executed, rfl, -, happroves⟩ := h
  have heq : PolicyRecord.consulted call validated session = .consulted call args session' := by
    simpa using hmem
  obtain ⟨-, rfl, rfl⟩ := PolicyRecord.consulted.inj heq
  exact fun hrefuses => hrefuses.not_approves tool executed happroves

theorem Unrun.not_executed {call : ToolCall} {log : List PolicyRecord} (h : Unrun call log)
    (tool : AgentTool) (toolCallId : String) (args : Json) :
    .executed tool toolCallId args ∉ log := by
  rcases h with rfl | ⟨args', session, rfl⟩
  · exact List.not_mem_nil
  · simp

def policyAnswer (session : PolicySession) : (e : LoopEffect) → LoopAnswer e
  | .beforeToolCall _ toolCall args => session.beforeToolCall toolCall args
  | e => (LoopWorld.initial (toolContext []) []).scripted [] readResult e

def policyRecords (session : PolicySession) : LoopEffect → List PolicyRecord
  | .beforeToolCall _ toolCall args => [.consulted toolCall args session]
  | .execute tool toolCallId args => [.executed tool toolCallId args]
  | _ => []

def drivePolicy {α : Type} (session : PolicySession) (p : LoopM α) :
    List PolicyRecord × Except Failure α :=
  Prog.drive (fun _ e => policyAnswer session e)
    (fun history e _ => history ++ policyRecords session e) p []

theorem drivePolicy_reaches {α : Type} (session : PolicySession) (p : LoopM α) :
    PolicyReaches p ((drivePolicy session p).1, .ret (drivePolicy session p).2) := by
  refine Prog.drive_reaches ?_ p []
  intro history e
  refine ⟨policyRecords session e, ?_, rfl⟩
  cases e with
  | beforeToolCall message toolCall args => exact ⟨session, rfl, rfl⟩
  | _ => exact rfl

def hookedConfig : AgentLoopConfig :=
  { plainConfig with toolExecution := some .sequential, beforeToolCall := true }

def defaultSession (handlers : List ToolCallHandler) : PolicySession where
  tools := [⟨"read", none⟩]
  policyEngine := .create {}
  printMode := true
  select := none
  handlers := [handlers]

def guardedRun : List PolicyRecord × Except Failure ExecutedToolCallBatch :=
  drivePolicy (defaultSession [])
    (executeToolBatch 9 (responseWith [readCall "a", ⟨"b", "write", .obj []⟩] .toolUse)
      hookedConfig)

def patchHandler : ToolCallHandler := fun _ => .ok (none, .obj [("path", .str "other")])

end Eagent
