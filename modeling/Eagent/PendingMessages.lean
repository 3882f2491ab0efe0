import Eagent.AgentLoop
import Eagent.ToolBatch

/-!
# Messages taken by the loop

Messages the loop has taken, its prompts or the answer of a poll, are
pending until their `message_end`. The loop polls only when nothing is
pending, and whether it returns or throws it leaves nothing pending. Most
of its functions never poll (`NeverPolls`); those keep "nothing pending"
whatever else they do.
-/

namespace Eagent

open Interaction

/-! ## The monitor -/

def LoopEffect.IsPoll : LoopEffect → Prop
  | .getSteeringMessages | .getFollowUpMessages => True
  | _ => False

/-- What is pending after `message_end` of `m`. -/
def pendingAfterEnd (pending : List AgentMessage) (m : AgentMessage) : List AgentMessage :=
  match pending with
  | [] => []
  | first :: rest => if first = m then rest else pending

def pendingAfter (pending : List AgentMessage) :
    (e : LoopEffect) → LoopAnswer e → List AgentMessage
  | .emit (.messageEnd m), _ => pendingAfterEnd pending m
  | .getSteeringMessages, (.ok messages : Except String (List AgentMessage)) => messages
  | .getFollowUpMessages, (.ok messages : Except String (List AgentMessage)) => messages
  | _, _ => pending

def PendingEnv (pending : List AgentMessage) (e : LoopEffect) (answer : LoopAnswer e)
    (pending' : List AgentMessage) : Prop :=
  pending' = pendingAfter pending e answer

def PollsEmpty (pending : List AgentMessage) (e : LoopEffect) : Prop := e.IsPoll → pending = []

/-- From `pending`, `p` polls only when nothing is pending, and ends with
`Q` if it returns and with nothing pending if it throws. -/
def Pends {α : Type} (pending : List AgentMessage) (p : LoopM α)
    (Q : α → List AgentMessage → Prop) : Prop :=
  Act.Holds PendingEnv PollsEmpty p pending Q fun pending' => pending' = []

/-! ## Programs that never poll -/

def NeverPolls {α : Type} (p : LoopM α) : Prop :=
  Act.Sat (fun (_ : Unit) _ _ _ => True) (fun _ e => ¬ e.IsPoll) p () fun _ _ => True

namespace NeverPolls

variable {α β : Type}

theorem pure (a : α) : NeverPolls (Pure.pure a : LoopM α) := trivial

theorem outOfFuel : NeverPolls (Act.outOfFuel : LoopM α) := trivial

theorem ofExcept (x : Except String α) : NeverPolls (Act.ofExcept x : LoopM α) :=
  Act.Sat.ofExcept (fun _ _ => trivial) fun _ _ => trivial

theorem bind {p : LoopM α} {f : α → LoopM β} (h : NeverPolls p) (hf : ∀ a, NeverPolls (f a)) :
    NeverPolls (p >>= f) :=
  Act.Sat.bind h (fun a _ _ => hf a) fun _ _ _ => trivial

theorem perform {e : LoopEffect} (he : ¬ e.IsPoll) :
    NeverPolls (Act.perform e : LoopM (LoopAnswer e)) :=
  Act.Sat.perform he fun _ _ _ => trivial

theorem attempt {e : LoopEffect} (he : ¬ e.IsPoll) (answer : LoopAnswer e → Except String α) :
    NeverPolls (Eagent.attempt e answer) :=
  bind (perform he) fun a => ofExcept (answer a)

theorem emit (event : AgentEvent) : NeverPolls (Eagent.emit event) := perform id

theorem tryCatch {p : LoopM α} {handler : String → LoopM α} (h : NeverPolls p)
    (hcatch : ∀ message, NeverPolls (handler message)) : NeverPolls (Act.tryCatch p handler) :=
  Act.Sat.tryCatch h (fun _ _ _ => trivial) (fun message _ _ => hcatch message) fun _ _ => trivial

theorem all (fuel : Nat) {ps : List (LoopM α)} (h : ∀ p ∈ ps, NeverPolls p) :
    NeverPolls (Act.all fuel ps) := by
  refine Prog.Sat.bind (Prog.Sat.par (R := fun _ (qs : List (LoopM α)) =>
    ∀ q ∈ qs, NeverPolls q) ?_ ?_ ?_ ?_ fuel h)
  · intro s qs i e k hqs hi
    have hq : NeverPolls (.ask e k : LoopM α) := hqs _ (List.mem_of_getElem? hi)
    refine ⟨hq.1, fun a s' _ q hmem => ?_⟩
    rcases List.mem_or_eq_of_mem_set hmem with hmem | rfl
    · exact hqs q hmem
    · exact hq.2 a s' trivial
  · intro s qs i k hqs hi j q hmem
    have hq : NeverPolls (.choose k : LoopM α) := hqs _ (List.mem_of_getElem? hi)
    rcases List.mem_or_eq_of_mem_set hmem with hmem | rfl
    · exact hqs q hmem
    · exact hq j
  · intro s rs _
    exact trivial
  · intro s qs _
    exact trivial

theorem pends {p : LoopM α} (h : NeverPolls p) : Pends [] p fun _ pending => pending = [] := by
  have hrun : ∀ p : Prog LoopEffect LoopAnswer (Except Failure α),
      Prog.Sat (fun (_ : Unit) _ _ _ => True) (fun _ e => ¬ e.IsPoll) p () (fun _ _ => True) →
      Act.Holds PendingEnv PollsEmpty p [] (fun _ pending => pending = [])
        fun pending => pending = [] := by
    intro p
    induction p with
    | ret r =>
      intro _
      match r with
      | .ok a => exact rfl
      | .error (.thrown _) => exact rfl
      | .error .outOfFuel => trivial
    | ask e k ih =>
      rintro ⟨hpoll, hk⟩
      refine ⟨fun _ => rfl, ?_⟩
      intro a pending' henv
      have hnone : pendingAfter [] e a = [] := by
        cases e with
        | emit event => cases event <;> rfl
        | getSteeringMessages => exact absurd trivial hpoll
        | getFollowUpMessages => exact absurd trivial hpoll
        | _ => rfl
      rw [show pending' = [] from henv.trans hnone]
      exact ih a (hk a () trivial)
    | choose k ih => exact fun hk i => ih i (hk i)
  exact hrun p h

end NeverPolls

/-! ## The functions that never poll -/

section Functions

variable (fuel : Nat) (config : AgentLoopConfig)

theorem neverPolls_finishStream (addedPartial : Bool) : NeverPolls (finishStream addedPartial) := by
  refine .bind (.attempt id _) fun final => ?_
  split
  · exact .bind (.perform id) fun _ => .bind (.emit _) fun _ => .pure _
  · exact .bind (.perform id) fun _ => .bind (.emit _) fun _ => .bind (.emit _) fun _ => .pure _

theorem neverPolls_readStream (addedPartial : Bool) :
    NeverPolls (readStream fuel addedPartial) := by
  induction fuel generalizing addedPartial with
  | zero => exact .outOfFuel
  | succ fuel ih =>
    refine .bind (.attempt id _) fun event => ?_
    match event with
    | none => exact neverPolls_finishStream addedPartial
    | some .done => exact neverPolls_finishStream addedPartial
    | some .error => exact neverPolls_finishStream addedPartial
    | some (.start p) => exact .bind (.perform id) fun _ => .bind (.emit _) fun _ => ih true
    | some (.update kind p) =>
      dsimp only
      split
      · exact .bind (.perform id) fun _ => .bind (.emit _) fun _ => ih true
      · exact ih false

theorem neverPolls_streamAssistantResponse :
    NeverPolls (streamAssistantResponse fuel config) := by
  refine .bind (.perform id) fun context => .bind ?_ fun messages =>
    .bind (.attempt id _) fun llmMessages => .bind ?_ fun key =>
      .bind (.attempt id _) fun _ => neverPolls_readStream fuel false
  · unfold transformMessages
    split
    · exact .attempt id _
    · exact .pure _
  · unfold resolveApiKey
    split
    · exact .bind (.attempt id _) fun key => .pure _
    · exact .pure _

theorem neverPolls_preparedUnlessAborted (call : PreparedToolCall) :
    NeverPolls (preparedUnlessAborted call) :=
  .bind (.perform id) fun _ => .pure _

theorem neverPolls_applyBeforeToolCall (tool : AgentTool) (toolCall : ToolCall)
    (beforeResult : Option BeforeToolCallResult) (args : Json) :
    NeverPolls (applyBeforeToolCall tool toolCall beforeResult args) := by
  unfold applyBeforeToolCall
  split
  · exact neverPolls_preparedUnlessAborted _
  · split
    · exact .pure _
    · split
      · exact neverPolls_preparedUnlessAborted _
      · exact .bind (.ofExcept _) fun _ => neverPolls_preparedUnlessAborted _

theorem neverPolls_prepareToolCall (assistantMessage : AssistantMessage) (toolCall : ToolCall) :
    NeverPolls (prepareToolCall assistantMessage toolCall config) := by
  refine .bind (.perform id) fun context => ?_
  split
  · exact .pure _
  · refine .tryCatch ?_ fun _ => .pure _
    refine .bind (.ofExcept _) fun prepared => .bind (.ofExcept _) fun args => ?_
    split
    · refine .bind (.attempt id _) fun before => .bind (.perform id) fun aborted => ?_
      split
      · exact .pure _
      · exact neverPolls_applyBeforeToolCall _ _ _ _
    · exact neverPolls_preparedUnlessAborted _

theorem neverPolls_awaitTool (prepared : PreparedToolCall) :
    NeverPolls (awaitTool prepared fuel) := by
  induction fuel with
  | zero => exact .outOfFuel
  | succ fuel ih =>
    refine .bind (.perform id) fun (progress : ToolProgress) => ?_
    cases progress with
    | update partialResult => exact .bind (.emit _) fun _ => ih
    | returned result => exact .pure _
    | threw message => exact .pure _

theorem neverPolls_runPreparedToolCall (assistantMessage : AssistantMessage)
    (prepared : PreparedToolCall) :
    NeverPolls (runPreparedToolCall fuel assistantMessage config prepared) := by
  refine .bind (.bind (.perform id) fun _ => neverPolls_awaitTool fuel prepared) fun executed =>
    .bind ?_ fun outcome => .pure _
  unfold runAfterToolCall
  split
  · exact .tryCatch (.bind (.attempt id _) fun _ => .pure _) fun _ => .pure _
  · exact .pure _

theorem neverPolls_createToolResultMessage (finalized : FinalizedToolCallOutcome) :
    NeverPolls (createToolResultMessage finalized) := .bind (.perform id) fun _ => .pure _

theorem neverPolls_emitToolResultMessage (result : ToolResultMessage) :
    NeverPolls (emitToolResultMessage result) := .bind (.emit _) fun _ => .emit _

theorem neverPolls_failToolCalls (calls : List ToolCall) : NeverPolls (failToolCalls calls) := by
  induction calls with
  | nil => exact .pure _
  | cons call calls ih =>
    exact .bind (.emit _) fun _ => .bind (.emit _) fun _ =>
      .bind (neverPolls_createToolResultMessage _) fun message =>
        .bind (neverPolls_emitToolResultMessage message) fun _ => .bind ih fun _ => .pure _

theorem neverPolls_executeSequentially (assistantMessage : AssistantMessage)
    (calls : List ToolCall) :
    NeverPolls (executeSequentially fuel assistantMessage config calls) := by
  induction calls with
  | nil => exact .pure _
  | cons call calls ih =>
    refine .bind (.emit _) fun _ =>
      .bind (neverPolls_prepareToolCall config assistantMessage call) fun preparation =>
        .bind ?_ fun finalized => .bind (.emit _) fun _ =>
          .bind (neverPolls_createToolResultMessage _) fun message =>
            .bind (neverPolls_emitToolResultMessage message) fun _ =>
              .bind (.perform id) fun aborted => ?_
    · cases preparation with
      | immediate outcome => exact .pure _
      | prepared prepared =>
        exact neverPolls_runPreparedToolCall fuel config assistantMessage prepared
    · split
      · exact .pure _
      · exact .bind ih fun _ => .pure _

theorem neverPolls_startToolCalls (assistantMessage : AssistantMessage) (calls : List ToolCall) :
    NeverPolls (startToolCalls assistantMessage config calls) := by
  induction calls with
  | nil => exact .pure _
  | cons call calls ih =>
    refine .bind (.emit _) fun _ =>
      .bind (neverPolls_prepareToolCall config assistantMessage call) fun preparation =>
        .bind ?_ fun entry => .bind (.perform id) fun aborted => ?_
    · cases preparation with
      | immediate outcome => exact .bind (.emit _) fun _ => .pure _
      | prepared prepared => exact .pure _
    · split
      · exact .pure _
      · exact .bind ih fun _ => .pure _

theorem neverPolls_settleEntry (assistantMessage : AssistantMessage)
    (entry : FinalizedToolCallEntry) :
    NeverPolls (settleEntry fuel assistantMessage config entry) := by
  cases entry with
  | done finalized => exact .pure _
  | deferred prepared =>
    exact .bind (neverPolls_runPreparedToolCall fuel config assistantMessage prepared) fun _ =>
      .bind (.emit _) fun _ => .pure _

theorem neverPolls_emitToolResults (finalizedCalls : List FinalizedToolCallOutcome) :
    NeverPolls (emitToolResults finalizedCalls) := by
  induction finalizedCalls with
  | nil => exact .pure _
  | cons finalized rest ih =>
    exact .bind (neverPolls_createToolResultMessage finalized) fun message =>
      .bind (neverPolls_emitToolResultMessage message) fun _ => .bind ih fun _ => .pure _

theorem neverPolls_executeToolBatch (message : AssistantMessage) :
    NeverPolls (executeToolBatch fuel message config) := by
  unfold executeToolBatch
  split
  · exact .bind (neverPolls_failToolCalls _) fun _ => .pure _
  · refine .bind (.perform id) fun context => ?_
    dsimp only
    split
    · exact .bind (neverPolls_executeSequentially fuel config message _) fun _ => .pure _
    · refine .bind (neverPolls_startToolCalls config message _) fun entries =>
        .bind (.all fuel ?_) fun finalized =>
          .bind (neverPolls_emitToolResults finalized) fun _ => .pure _
      intro p hp
      obtain ⟨entry, -, rfl⟩ := List.mem_map.mp hp
      exact neverPolls_settleEntry fuel config message entry

theorem neverPolls_pushToolResults (results : List ToolResultMessage) :
    NeverPolls (pushToolResults results) := by
  induction results with
  | nil => exact .pure _
  | cons result rest ih => exact .bind (.perform id) fun _ => .bind (.perform id) fun _ => ih

theorem neverPolls_runToolBatch (message : AssistantMessage) :
    NeverPolls (runToolBatch fuel message config) := by
  unfold runToolBatch
  split
  · exact .pure _
  · exact .bind (neverPolls_executeToolBatch fuel config message) fun batch =>
      .bind (neverPolls_pushToolResults batch.messages) fun _ => .pure _

theorem neverPolls_applyTurnUpdate (update : Option AgentLoopTurnUpdate) :
    NeverPolls (applyTurnUpdate config update) := by
  unfold applyTurnUpdate
  split
  · exact .pure _
  · split
    · exact .pure _
    · exact .bind (.perform id) fun _ => .pure _

theorem neverPolls_endRun : NeverPolls endRun := .bind (.perform id) fun _ => .emit _

end Functions

/-! ## The functions that do -/

namespace Pends

variable {α β : Type} {pending : List AgentMessage} {Q : α → List AgentMessage → Prop}

theorem pure {a : α} (h : Q a pending) : Pends pending (Pure.pure a : LoopM α) Q := h

variable {Q' : β → List AgentMessage → Prop}

theorem bind {p : LoopM α} {f : α → LoopM β} (h : Pends pending p Q)
    (hf : ∀ a pending', Q a pending' → Pends pending' (f a) Q') :
    Pends pending (p >>= f) Q' := Act.Holds.bind h hf

theorem bindNever {p : LoopM α} {f : α → LoopM β} (h : NeverPolls p) (hf : ∀ a, Pends [] (f a) Q') :
    Pends [] (p >>= f) Q' := by
  refine bind h.pends fun a pending' hpending => ?_
  rw [hpending]
  exact hf a

theorem bindPerform {e : LoopEffect} {f : LoopAnswer e → LoopM β} (he : ¬ e.IsPoll)
    (hsame : ∀ a, pendingAfter pending e a = pending) (hf : ∀ a, Pends pending (f a) Q') :
    Pends pending (Act.perform e >>= f) Q' := by
  refine ⟨fun hpoll => absurd hpoll he, ?_⟩
  intro a pending' henv
  rw [show pending' = pending from henv.trans (hsame a)]
  exact hf a

/-- `message_end` of the first pending message. -/
theorem bindEnd {m : AgentMessage} {f : Unit → LoopM β} (hf : Pends pending (f ()) Q') :
    Pends (m :: pending) (emit (.messageEnd m) >>= f) Q' := by
  refine ⟨fun hpoll => absurd hpoll id, ?_⟩
  intro a pending' henv
  have hrest : pending' = pending := henv.trans (if_pos rfl)
  rw [hrest]
  exact hf

theorem poll : Pends [] getSteeringMessages (fun messages pending => pending = messages) ∧
    Pends [] getFollowUpMessages (fun messages pending => pending = messages) := by
  refine ⟨⟨fun _ => rfl, ?_⟩, ⟨fun _ => rfl, ?_⟩⟩
  · intro (a : Except String (List AgentMessage)) pending' henv
    cases a with
    | ok messages => exact henv
    | error message => exact henv
  · intro (a : Except String (List AgentMessage)) pending' henv
    cases a with
    | ok messages => exact henv
    | error message => exact henv

end Pends

theorem pends_injectPending (pending : List AgentMessage) :
    Pends pending (injectPending pending) fun _ pending' => pending' = [] := by
  induction pending with
  | nil => exact Pends.pure rfl
  | cons m rest ih =>
    refine Pends.bindPerform id (fun _ => rfl) fun _ => Pends.bindEnd ?_
    exact Pends.bindPerform id (fun _ => rfl) fun _ => Pends.bindPerform id (fun _ => rfl)
      fun _ => ih

theorem pends_emitPrompts (prompts : List AgentMessage) :
    Pends prompts (emitPrompts prompts) fun _ pending' => pending' = [] := by
  induction prompts with
  | nil => exact Pends.pure rfl
  | cons m rest ih =>
    exact Pends.bindPerform id (fun _ => rfl) fun _ => Pends.bindEnd ih

theorem pends_startTurn (firstTurn : Bool) (pending : List AgentMessage) :
    Pends pending (startTurn firstTurn) fun _ pending' => pending' = pending := by
  cases firstTurn with
  | true => exact Pends.pure rfl
  | false => exact ⟨fun hpoll => absurd hpoll id, fun _ _ henv => henv⟩

/-- Between a poll and the injection of its answer nothing can stop the
loop. -/
theorem pends_loopRounds (fuel : Nat) (firstTurn : Bool) (config : AgentLoopConfig)
    (hasMoreToolCalls : Bool) (pending : List AgentMessage) :
    Pends pending (loopRounds fuel firstTurn config hasMoreToolCalls pending)
      fun _ pending' => pending' = [] := by
  induction fuel generalizing firstTurn config hasMoreToolCalls pending with
  | zero => trivial
  | succ fuel ih =>
    unfold loopRounds
    split
    · refine Pends.bind (pends_startTurn firstTurn pending) fun _ pending' h => ?_
      rw [h]
      refine Pends.bind (pends_injectPending pending) fun _ pending' h => ?_
      rw [h]
      refine Pends.bindNever (neverPolls_streamAssistantResponse fuel config) fun message =>
        Pends.bindNever (.perform id) fun _ => ?_
      split
      · exact (NeverPolls.bind (.emit _) fun _ => neverPolls_endRun).pends
      · refine Pends.bindNever (neverPolls_runToolBatch fuel config message) fun results =>
          Pends.bindNever (.emit _) fun _ => Pends.bindNever (.attempt id _) fun update =>
            Pends.bindNever (neverPolls_applyTurnUpdate config update) fun config' =>
              Pends.bindNever (.attempt id _) fun stop => ?_
        split
        · exact neverPolls_endRun.pends
        · refine Pends.bind Pends.poll.1 fun messages pending' h => ?_
          rw [h]
          exact ih false config' results.2 messages
    · rename_i hnone
      have hempty : pending = [] := by
        simp at hnone
        exact hnone.2
      rw [hempty]
      refine Pends.bind Pends.poll.2 fun messages pending' h => ?_
      rw [h]
      split
      · rename_i hmessages
        rw [List.isEmpty_iff.mp hmessages]
        exact neverPolls_endRun.pends
      · exact ih firstTurn config true messages

theorem pends_runLoop (fuel : Nat) (config : AgentLoopConfig) :
    Pends [] (runLoop fuel config) fun _ pending' => pending' = [] := by
  refine Pends.bind Pends.poll.1 fun messages pending' h => ?_
  rw [h]
  exact pends_loopRounds fuel true config true messages

theorem pends_pushPrompts (prompts pending : List AgentMessage) :
    Pends pending (pushPrompts prompts) fun _ pending' => pending' = pending := by
  induction prompts with
  | nil => exact Pends.pure rfl
  | cons m rest ih =>
    exact Pends.bindPerform id (fun _ => rfl) fun _ =>
      Pends.bindPerform id (fun _ => rfl) fun _ => ih

theorem pends_call (fuel : Nat) (config : AgentLoopConfig) (call : LoopCall) :
    Pends call.prompts (call.run fuel config) fun _ pending' => pending' = [] := by
  cases call with
  | prompt prompts =>
    refine Pends.bind (pends_pushPrompts prompts prompts) fun _ pending' h => ?_
    rw [h]
    refine Pends.bindPerform id (fun _ => rfl) fun _ =>
      Pends.bindPerform id (fun _ => rfl) fun _ => ?_
    refine Pends.bind (pends_emitPrompts prompts) fun _ pending' h => ?_
    rw [h]
    refine Pends.bind (pends_runLoop fuel config) fun _ pending' h => ?_
    rw [h]
    exact (NeverPolls.perform id).pends
  | continuation =>
    refine Pends.bindPerform id (fun _ => rfl) fun context => ?_
    split
    · exact rfl
    · split
      · exact rfl
      · refine Pends.bindPerform id (fun _ => rfl) fun _ =>
          Pends.bindPerform id (fun _ => rfl) fun _ => ?_
        refine Pends.bind (pends_runLoop fuel config) fun _ pending' h => ?_
        rw [h]
        exact (NeverPolls.perform id).pends

end Eagent
