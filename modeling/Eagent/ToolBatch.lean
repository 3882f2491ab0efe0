import Eagent.AgentLoopSpec
import Mathlib.Data.List.Forall2

/-!
# Tool batches

What the three executors of a message's tool calls do. Each call gets one
lifecycle of events (a start, updates, an end), the lifecycles interleave
only in a parallel batch, and the tool-result messages come in the order of
the calls (`BatchLog`). No executor throws.

The calls of a parallel batch are specified one by one by what they emit
(`Emits`); `Spec.all` runs them together.
-/

namespace Eagent

open Interaction

/-! ## Programs that only emit -/

def LoopEffect.emitted : LoopEffect → List AgentEvent
  | .emit event => [event]
  | _ => []

/-- An event, or a question to a tool or to the hook after it. -/
def LoopEffect.EmitsOnly : LoopEffect → Prop
  | .emit _ | .execute .. | .toolProgress _ | .afterToolCall .. => True
  | _ => False

/-- After `evs` were emitted, `p` only emits, does not throw, and `Q` holds
of its result and of all events. -/
def Emits {α : Type} (evs : List AgentEvent) (p : LoopM α) (Q : α → List AgentEvent → Prop) :
    Prop :=
  Act.Holds (LogEnv fun e _ evs => evs = e.emitted) (fun _ e => e.EmitsOnly) p evs Q
    fun _ => False

namespace Emits

variable {α β : Type} {evs : List AgentEvent} {Q : α → List AgentEvent → Prop}

theorem mono {p : LoopM α} {Q' : α → List AgentEvent → Prop} (h : Emits evs p Q)
    (himp : ∀ a evs', Q a evs' → Q' a evs') : Emits evs p Q' :=
  Act.Holds.mono h himp fun _ h => h

theorem bind {p : LoopM α} {f : α → LoopM β} {Q' : β → List AgentEvent → Prop}
    (h : Emits evs p Q) (hf : ∀ a evs', Q a evs' → Emits evs' (f a) Q') :
    Emits evs (p >>= f) Q' := Act.Holds.bind h hf

theorem pure {a : α} (h : Q a evs) : Emits evs (Pure.pure a : LoopM α) Q := h

theorem outOfFuel : Emits evs (Act.outOfFuel : LoopM α) Q := trivial

theorem emit {e : AgentEvent} {Q : Unit → List AgentEvent → Prop} (h : Q () (evs ++ [e])) :
    Emits evs (emit e) Q := by
  refine Act.Holds.perform trivial ?_
  rintro a evs' ⟨r, rfl, rfl⟩
  exact h

theorem ask {e : LoopEffect} {Q : LoopAnswer e → List AgentEvent → Prop} (he : e.EmitsOnly)
    (hnone : e.emitted = []) (h : ∀ a, Q a evs) : Emits evs (Act.perform e : LoopM _) Q := by
  refine Act.Holds.perform he ?_
  rintro a evs' ⟨r, rfl, rfl⟩
  rw [hnone, List.append_nil]
  exact h a

end Emits

/-! ## Worlds whose log grew -/

namespace LoopWorld

/-- `w'` is `w` with more in the log; the signal may have been seen set. -/
structure Logged (w w' : LoopWorld) (seg : List Observation) : Prop where
  log : w'.log = w.log ++ seg
  context : w'.context = w.context
  newMessages : w'.newMessages = w.newMessages
  startsOnce : w'.startsOnce = w.startsOnce
  contextKept : w'.contextKept = w.contextKept

theorem Logged.refl (w : LoopWorld) : Logged w w [] :=
  ⟨(List.append_nil _).symm, rfl, rfl, rfl, rfl⟩

theorem Logged.trans {w₁ w₂ w₃ : LoopWorld} {s t : List Observation} (h₁ : Logged w₁ w₂ s)
    (h₂ : Logged w₂ w₃ t) : Logged w₁ w₃ (s ++ t) :=
  ⟨by rw [h₂.log, h₁.log, List.append_assoc], h₂.context.trans h₁.context,
   h₂.newMessages.trans h₁.newMessages, h₂.startsOnce.trans h₁.startsOnce,
   h₂.contextKept.trans h₁.contextKept⟩

theorem logged_record (w : LoopWorld) (o : Observation) : Logged w (w.record o) [o] :=
  ⟨rfl, rfl, rfl, rfl, rfl⟩

theorem logged_aborted (w : LoopWorld) :
    Logged w { w.record .aborted with aborted := true } [.aborted] := ⟨rfl, rfl, rfl, rfl, rfl⟩

theorem Logged.extends {w w' : LoopWorld} {seg : List Observation} (h : Logged w w' seg)
    (happended : appended seg = []) : Extends w w' seg :=
  ⟨h.log, by rw [h.newMessages, happended, List.append_nil], fun hs => h.startsOnce ▸ hs,
   fun hs => h.contextKept ▸ hs⟩

def recordAll (w : LoopWorld) (evs : List AgentEvent) : LoopWorld :=
  { w with log := w.log ++ evs.map .event }

theorem recordAll_nil (w : LoopWorld) : w.recordAll [] = w := by
  simp [recordAll]

theorem logged_recordAll (w : LoopWorld) (evs : List AgentEvent) :
    Logged w (w.recordAll evs) (evs.map .event) := ⟨rfl, rfl, rfl, rfl, rfl⟩

theorem after_of_emitsOnly {w : LoopWorld} {e : LoopEffect} (he : e.EmitsOnly) (a : LoopAnswer e)
    (evs : List AgentEvent) :
    (w.recordAll evs).after e a = w.recordAll (evs ++ e.emitted) := by
  cases e with
  | emit event =>
    simp [after, record, recordAll, LoopEffect.emitted, List.append_assoc]
  | execute tool id args =>
    simp [after, recordAll, LoopEffect.emitted]
  | toolProgress id =>
    simp [after, recordAll, LoopEffect.emitted]
  | afterToolCall message call args result isError =>
    simp [after, recordAll, LoopEffect.emitted]
  | _ => exact absurd he (by simp [LoopEffect.EmitsOnly])

end LoopWorld

/-! ## From what is emitted to what is logged -/

section Lift

variable {base : List AgentMessage} {α : Type}

theorem atConvert_of_emitsOnly {w : LoopWorld} {e : LoopEffect} (he : e.EmitsOnly) :
    AtConvert base w e := by
  cases e with
  | convertToLlm messages => exact absurd he (by simp [LoopEffect.EmitsOnly])
  | _ => trivial

/-- A program that only emits, run alone. -/
theorem Spec.of_emits {p : LoopM α} {Q : α → List AgentEvent → Prop} {w : LoopWorld}
    {thrown : LoopWorld → Prop} {Q' : α → LoopWorld → Prop} (h : Emits [] p Q)
    (himp : ∀ a evs, Q a evs → Q' a (w.recordAll evs)) : Spec base p w Q' thrown := by
  have hrun : ∀ (p : Prog LoopEffect LoopAnswer (Except Failure α)) (evs : List AgentEvent),
      Act.Holds (LogEnv fun e _ evs => evs = e.emitted) (fun _ e => e.EmitsOnly) p evs Q
        (fun _ => False) →
      Act.Holds LoopWorld.Env (AtConvert base) p (w.recordAll evs) Q' thrown := by
    intro p
    induction p with
    | ret r =>
      intro evs hr
      match r with
      | .ok a => exact himp a evs hr
      | .error (.thrown _) => exact False.elim hr
      | .error .outOfFuel => trivial
    | ask e k ih =>
      rintro evs ⟨he, hk⟩
      refine ⟨atConvert_of_emitsOnly he, ?_⟩
      rintro a w' ⟨-, rfl⟩
      rw [LoopWorld.after_of_emitsOnly he]
      exact ih a _ (hk a _ ⟨_, rfl, rfl⟩)
    | choose k ih => exact fun evs hk i => ih i evs (hk i)
  have h := hrun p [] h
  rwa [LoopWorld.recordAll_nil] at h

/-- `Promise.all` of programs that only emit: the log is an interleaving of
what each of them emits. -/
theorem Spec.all {fuel : Nat} {ps : List (LoopM α)} {Q : Nat → α → List AgentEvent → Prop}
    {w : LoopWorld} {thrown : LoopWorld → Prop} {R : List α → LoopWorld → Prop}
    (h : ∀ (i : Nat) (p : LoopM α), ps[i]? = some p → Emits [] p (Q i))
    (himp : ∀ (as : List α) (evss : List (List AgentEvent)) (l : List AgentEvent),
      as.length = ps.length → evss.length = ps.length → Shuffle evss l →
      (∀ i a evs, as[i]? = some a → evss[i]? = some evs → Q i a evs) →
      R as (w.recordAll l)) :
    Spec base (Act.all fuel ps) w R thrown := by
  have hnil : ∀ l ∈ List.replicate ps.length ([] : List AgentEvent), l = [] := by
    intro l hl
    exact (List.mem_replicate.mp hl).2
  have hall : Emits [] (Act.all fuel ps) fun as l => as.length = ps.length ∧
      ∃ evss : List (List AgentEvent), Shuffle evss l ∧ evss.length = ps.length ∧
        ∀ i a evs, as[i]? = some a → evss[i]? = some evs → Q i a evs := by
    refine Act.Holds.all (fun _ _ _ _ he => he) (.nil hnil) List.length_replicate ?_
    intro i p evs hp hevs
    obtain rfl := hnil evs (List.mem_of_getElem? hevs)
    exact h i p hp
  refine Spec.of_emits hall ?_
  intro as l has
  rcases has with ⟨hlen, evss, hshuffle, hevss, heach⟩
  exact himp as evss l hlen hevss hshuffle heach

end Lift

/-! ## Lifecycles -/

def ToolCall.IsUpdate (call : ToolCall) : AgentEvent → Prop
  | .toolExecutionUpdate id name _ _ => id = call.id ∧ name = call.name
  | _ => False

def Lifecycle (call : ToolCall) (evs : List AgentEvent) : Prop :=
  ∃ (updates : List AgentEvent) (result : AgentToolResult) (isError : Bool),
    evs = .toolExecutionStart call.id call.name call.arguments ::
        (updates ++ [.toolExecutionEnd call.id call.name result isError]) ∧
      ∀ u ∈ updates, call.IsUpdate u

def ToolCall.Same (a b : ToolCall) : Prop := a.id = b.id ∧ a.name = b.name

theorem ToolCall.Same.refl (call : ToolCall) : call.Same call := ⟨rfl, rfl⟩

theorem ToolCall.Same.isUpdate {a b : ToolCall} (h : a.Same b) {e : AgentEvent}
    (he : a.IsUpdate e) : b.IsUpdate e := by
  cases e with
  | toolExecutionUpdate id name args result => exact ⟨he.1.trans h.1, he.2.trans h.2⟩
  | _ => exact False.elim he

variable {evs : List AgentEvent} {call : ToolCall}

theorem Lifecycle.toolCallId (h : Lifecycle call evs) :
    ∀ e ∈ evs, e.toolCallId? = some call.id := by
  obtain ⟨updates, result, isError, rfl, hupdates⟩ := h
  intro e he
  rcases List.mem_cons.mp he with rfl | he
  · rfl
  rcases List.mem_append.mp he with he | he
  · have hu := hupdates e he
    cases e with
    | toolExecutionUpdate id name args partialResult => exact congrArg some hu.1
    | _ => exact False.elim hu
  · rw [List.mem_singleton.mp he]
    rfl

theorem AgentEvent.not_isMessage_of_toolCallId {e : AgentEvent} {id : String}
    (h : e.toolCallId? = some id) : e.isMessage = false := by
  cases e with
  | messageStart m => cases h
  | messageUpdate m kind => cases h
  | messageEnd m => cases h
  | _ => rfl

/-! ## One call -/

/-- What is left of a call's lifecycle once it was started. -/
def Settles (call : ToolCall) (finalized : FinalizedToolCallOutcome) (evs : List AgentEvent) :
    Prop :=
  ∃ updates : List AgentEvent, evs = updates ++ [.toolExecutionEnd call.id call.name
    finalized.result finalized.isError] ∧ ∀ u ∈ updates, call.IsUpdate u

theorem emits_awaitTool (prepared : PreparedToolCall) (fuel : Nat) (evs : List AgentEvent) :
    Emits evs (awaitTool prepared fuel) fun _ evs' =>
      ∃ updates : List AgentEvent, evs' = evs ++ updates ∧
        ∀ u ∈ updates, prepared.toolCall.IsUpdate u := by
  induction fuel generalizing evs with
  | zero => exact Emits.outOfFuel
  | succ fuel ih =>
    refine Emits.bind (Q := fun _ evs' => evs' = evs) (Emits.ask trivial rfl fun _ => rfl) ?_
    rintro (progress : ToolProgress) _ rfl
    cases progress with
    | update partialResult =>
      refine Emits.bind (Emits.emit (Q := fun _ evs' => evs' = _) rfl) ?_
      rintro - _ rfl
      refine (ih _).mono ?_
      rintro outcome evs' ⟨updates, rfl, hupdates⟩
      refine ⟨_, List.append_assoc .., ?_⟩
      intro u hu
      rcases List.mem_append.mp hu with hu | hu
      · rw [List.mem_singleton.mp hu]
        exact ⟨rfl, rfl⟩
      · exact hupdates u hu
    | returned result => exact Emits.pure ⟨[], (List.append_nil _).symm, by simp⟩
    | threw message => exact Emits.pure ⟨[], (List.append_nil _).symm, by simp⟩

theorem emits_finalizeExecutedToolCall (assistantMessage : AssistantMessage)
    (prepared : PreparedToolCall) (executed : ExecutedToolCallOutcome)
    (config : AgentLoopConfig) (evs : List AgentEvent) :
    Emits evs (finalizeExecutedToolCall assistantMessage prepared executed config)
      fun finalized evs' => evs' = evs ∧ finalized.toolCall = prepared.toolCall := by
  refine Emits.bind (Q := fun _ evs' => evs' = evs) ?_ ?_
  · unfold runAfterToolCall
    split
    · refine ⟨trivial, ?_⟩
      rintro (a : Except String (Option AfterToolCallResult)) _ ⟨_, rfl, rfl⟩
      cases a with
      | ok afterResult => exact List.append_nil _
      | error message => exact List.append_nil _
    · exact Emits.pure rfl
  · rintro outcome _ rfl
    exact Emits.pure ⟨rfl, rfl⟩

theorem emits_runPreparedToolCall (fuel : Nat) (assistantMessage : AssistantMessage)
    (config : AgentLoopConfig) (prepared : PreparedToolCall) (evs : List AgentEvent) :
    Emits evs (runPreparedToolCall fuel assistantMessage config prepared) fun finalized evs' =>
      finalized.toolCall = prepared.toolCall ∧
        ∃ updates : List AgentEvent, evs' = evs ++ updates ∧
          ∀ u ∈ updates, prepared.toolCall.IsUpdate u := by
  refine Emits.bind (Q := fun _ evs' => ∃ updates : List AgentEvent, evs' = evs ++ updates ∧
    ∀ u ∈ updates, prepared.toolCall.IsUpdate u) ?_ ?_
  · refine Emits.bind (Q := fun _ evs' => evs' = evs) (Emits.ask trivial rfl fun _ => rfl) ?_
    rintro - _ rfl
    exact emits_awaitTool prepared fuel _
  · rintro executed evs' hupdates
    refine (emits_finalizeExecutedToolCall assistantMessage prepared executed config evs').mono ?_
    rintro finalized _ ⟨rfl, hcall⟩
    exact ⟨hcall, hupdates⟩

/-! ## Preparing a call -/

/-- At most the signal was looked at. -/
def LoopWorld.Quiet (w w' : LoopWorld) : Prop :=
  ∃ n : Nat, Logged w w' (List.replicate n .aborted)

theorem LoopWorld.Quiet.refl (w : LoopWorld) : Quiet w w := ⟨0, .refl w⟩

theorem LoopWorld.Quiet.trans {w₁ w₂ w₃ : LoopWorld} (h₁ : Quiet w₁ w₂) (h₂ : Quiet w₂ w₃) :
    Quiet w₁ w₃ := by
  obtain ⟨m, hm⟩ := h₁
  obtain ⟨n, hn⟩ := h₂
  exact ⟨m + n, List.replicate_add m n Observation.aborted ▸ hm.trans hn⟩

/-- The call that will be executed has the id and name of the model's. -/
def Preparation.For (toolCall : ToolCall) : Preparation → Prop
  | .immediate _ => True
  | .prepared call => call.toolCall.Same toolCall

section Prepare

variable {base : List AgentMessage} {w : LoopWorld}

variable {thrown : LoopWorld → Prop}

theorem spec_isAborted :
    Spec base isAborted w
      (fun a w' => ∃ n : Nat, w.Logged w' (List.replicate n .aborted) ∧ (a = true → 0 < n))
      thrown :=
  Spec.isAborted ⟨1, w.logged_aborted, fun _ => Nat.one_pos⟩ ⟨0, .refl w, fun h => nomatch h⟩

theorem prepareToolCallArguments_same {tool : AgentTool} {toolCall prepared : ToolCall}
    (h : prepareToolCallArguments tool toolCall = .ok prepared) : prepared.Same toolCall := by
  unfold prepareToolCallArguments at h
  cases hprepare : tool.prepareArguments with
  | none =>
    rw [hprepare] at h
    obtain rfl := Except.ok.inj h
    exact .refl toolCall
  | some prepare =>
    rw [hprepare] at h
    dsimp only at h
    cases hargs : prepare toolCall.arguments with
    | error message =>
      rw [hargs] at h
      cases h
    | ok args =>
      rw [hargs] at h
      obtain rfl := Except.ok.inj h
      exact ⟨rfl, rfl⟩

theorem spec_preparedUnlessAborted {call : PreparedToolCall} {toolCall : ToolCall}
    (hcall : call.toolCall.Same toolCall) :
    Spec base (preparedUnlessAborted call) w (fun p w' => w.Quiet w' ∧ p.For toolCall) thrown := by
  refine Spec.bind spec_isAborted ?_
  rintro aborted w' ⟨n, hlogged, -⟩
  refine Spec.pure ⟨⟨n, hlogged⟩, ?_⟩
  cases aborted with
  | true => trivial
  | false => exact hcall

theorem spec_applyBeforeToolCall {tool : AgentTool} {prepared toolCall : ToolCall}
    (hprepared : prepared.Same toolCall) (beforeResult : Option BeforeToolCallResult)
    (args : Json) :
    Spec base (applyBeforeToolCall tool prepared beforeResult args) w
      (fun p w' => w.Quiet w' ∧ p.For toolCall) fun w' => w.Quiet w' := by
  cases beforeResult with
  | none => exact spec_preparedUnlessAborted hprepared
  | some before =>
    unfold applyBeforeToolCall
    dsimp only
    split
    · exact Spec.pure ⟨.refl w, trivial⟩
    · split
      · exact spec_preparedUnlessAborted hprepared
      · refine Spec.bind (Q := fun _ w' => w' = w)
          (Spec.ofExcept (fun _ _ => rfl) (.refl w)) ?_
        rintro rewrittenArgs _ rfl
        exact spec_preparedUnlessAborted ⟨hprepared.1, hprepared.2⟩

theorem spec_prepareKnownToolCall (assistantMessage : AssistantMessage) (toolCall : ToolCall)
    (config : AgentLoopConfig) (tool : AgentTool) :
    Spec base (prepareKnownToolCall assistantMessage toolCall config tool) w
      (fun p w' => w.Quiet w' ∧ p.For toolCall) fun w' => w.Quiet w' := by
  refine Spec.bind (Q := fun prepared w' => w' = w ∧ prepared.Same toolCall)
    (Spec.ofExcept (fun _ h => ⟨rfl, prepareToolCallArguments_same h⟩) (.refl w)) ?_
  rintro prepared w ⟨rfl, hprepared⟩
  refine Spec.bind (Q := fun _ w' => w' = w) (Spec.ofExcept (fun _ _ => rfl) (.refl w)) ?_
  rintro validatedArgs w rfl
  split
  · refine Spec.bind (Q := fun _ w' => w' = w)
      (Spec.attempt trivial (fun _ => rfl) (fun _ => rfl) (.refl w)) ?_
    rintro ⟨beforeResult, args⟩ w rfl
    refine Spec.bind spec_isAborted ?_
    rintro aborted w' ⟨n, hlogged, -⟩
    have hquiet : w.Quiet w' := ⟨n, hlogged⟩
    split
    · exact Spec.pure ⟨hquiet, trivial⟩
    · exact (spec_applyBeforeToolCall hprepared beforeResult args).mono
        (fun p w'' h => ⟨hquiet.trans h.1, h.2⟩) fun w'' h => hquiet.trans h
  · exact spec_preparedUnlessAborted hprepared

theorem spec_prepareToolCall (assistantMessage : AssistantMessage) (toolCall : ToolCall)
    (config : AgentLoopConfig) :
    Spec base (prepareToolCall assistantMessage toolCall config) w
      (fun p w' => w.Quiet w' ∧ p.For toolCall) thrown := by
  refine Spec.bind (Q := fun _ w' => w' = w) (Spec.readContext rfl) ?_
  rintro context w rfl
  split
  · exact Spec.pure ⟨.refl w, trivial⟩
  · refine Spec.tryCatch (spec_prepareKnownToolCall assistantMessage toolCall config _) ?_
    intro message w' hquiet
    exact Spec.pure ⟨hquiet, trivial⟩

end Prepare

/-! ## The log of a batch -/

def ToolCall.idAndName (call : ToolCall) : String × String := (call.id, call.name)

def ToolResultMessage.idAndName (result : ToolResultMessage) : String × String :=
  (result.toolCallId, result.toolName)

theorem ToolCall.Same.idAndName {a b : ToolCall} (h : a.Same b) : a.idAndName = b.idAndName :=
  Prod.ext h.1 h.2

def resultEvents (result : ToolResultMessage) : List AgentEvent :=
  [.messageStart (.toolResult result), .messageEnd (.toolResult result)]

/-- One call, from its start to its tool-result message. -/
structure CallLog (call : ToolCall) (result : ToolResultMessage) (seg : List Observation) :
    Prop where
  appended : appended seg = []
  polled : polled seg = []
  idAndName : result.idAndName = call.idAndName
  messages : (eventsOf seg).filter AgentEvent.isMessage = resultEvents result
  lifecycle : Lifecycle call ((eventsOf seg).filter fun e => !e.isMessage)

/-- A batch: results for a prefix of the calls, for all of them unless the
signal was seen set, and an interleaving of one lifecycle for each. -/
structure BatchLog (calls : List ToolCall) (results : List ToolResultMessage)
    (seg : List Observation) : Prop where
  appended : appended seg = []
  polled : polled seg = []
  pairing : results.map (·.idAndName) <+: calls.map (·.idAndName)
  complete : results.length = calls.length ∨ .aborted ∈ seg
  messages : (eventsOf seg).filter AgentEvent.isMessage = results.flatMap resultEvents
  lifecycles : ∃ segs : List (List AgentEvent),
    List.Forall₂ Lifecycle (calls.take results.length) segs ∧
      Shuffle segs ((eventsOf seg).filter fun e => !e.isMessage)

theorem Lifecycle.filter_isMessage (h : Lifecycle call evs) :
    evs.filter AgentEvent.isMessage = [] := by
  refine List.filter_eq_nil_iff.mpr ?_
  intro e he
  rw [AgentEvent.not_isMessage_of_toolCallId (h.toolCallId e he)]
  exact Bool.false_ne_true

theorem Lifecycle.filter_not_isMessage (h : Lifecycle call evs) :
    (evs.filter fun e => !e.isMessage) = evs := by
  refine List.filter_eq_self.mpr ?_
  intro e he
  rw [AgentEvent.not_isMessage_of_toolCallId (h.toolCallId e he)]
  rfl

variable {result : ToolResultMessage}

theorem CallLog.of_events {seg : List Observation} (evs : List AgentEvent)
    (happended : Eagent.appended seg = []) (hpolled : Eagent.polled seg = [])
    (hid : result.idAndName = call.idAndName) (hseg : eventsOf seg = evs ++ resultEvents result)
    (hevs : Lifecycle call evs) :
    CallLog call result seg where
  appended := happended
  polled := hpolled
  idAndName := hid
  messages := by
    rw [hseg, List.filter_append, hevs.filter_isMessage]
    rfl
  lifecycle := by
    rw [hseg, List.filter_append, hevs.filter_not_isMessage]
    show Lifecycle call (evs ++ [])
    rwa [List.append_nil]

theorem BatchLog.nil : BatchLog [] [] [] :=
  ⟨rfl, rfl, List.prefix_rfl, .inl rfl, rfl, [], .nil, .nil (by simp)⟩

theorem BatchLog.cons {s t : List Observation} {calls : List ToolCall}
    {results : List ToolResultMessage} (h : CallLog call result s)
    (hrest : BatchLog calls results t) :
    BatchLog (call :: calls) (result :: results) (s ++ t) where
  appended := by rw [appended_append, h.appended, hrest.appended]; rfl
  polled := by rw [polled_append, h.polled, hrest.polled]; rfl
  pairing := by
    rw [List.map_cons, List.map_cons, h.idAndName]
    exact (List.prefix_cons_inj _).mpr hrest.pairing
  complete := by
    rcases hrest.complete with hlen | haborted
    · exact .inl (congrArg Nat.succ hlen)
    · exact .inr (List.mem_append_right _ haborted)
  messages := by
    rw [eventsOf_append, List.filter_append, h.messages, hrest.messages, List.flatMap_cons]
  lifecycles := by
    obtain ⟨segs, hsegs, hshuffle⟩ := hrest.lifecycles
    refine ⟨_ :: segs, .cons h.lifecycle hsegs, ?_⟩
    rw [eventsOf_append, List.filter_append]
    exact hshuffle.cons _

theorem BatchLog.stopped {s : List Observation} (calls : List ToolCall) (h : CallLog call result s)
    (haborted : .aborted ∈ s) :
    BatchLog (call :: calls) [result] s where
  appended := h.appended
  polled := h.polled
  pairing := by
    rw [List.map_cons, List.map_cons, h.idAndName]
    exact (List.prefix_cons_inj _).mpr List.nil_prefix
  complete := .inr haborted
  messages := by rw [h.messages, List.flatMap_singleton]
  lifecycles := by
    have hshuffle := Shuffle.single ((eventsOf s).filter fun e => !e.isMessage) 0
    exact ⟨[_], .cons h.lifecycle .nil, hshuffle⟩

/-! ## The executors -/

section Executors

variable {base : List AgentMessage} {w : LoopWorld} {thrown : LoopWorld → Prop}

theorem spec_createToolResultMessage (finalized : FinalizedToolCallOutcome) :
    Spec base (createToolResultMessage finalized) w
      (fun r w' => w' = w ∧ r.idAndName = finalized.toolCall.idAndName) thrown := by
  refine Spec.bind (Q := fun _ w' => w' = w) (Spec.dateNow fun _ => rfl) ?_
  rintro timestamp w rfl
  exact Spec.pure ⟨rfl, rfl⟩

theorem spec_emitToolResultMessage (result : ToolResultMessage) :
    Spec base (emitToolResultMessage result) w
      (fun _ w' => w.Logged w' ((resultEvents result).map .event)) thrown := by
  refine Spec.bind (Spec.emit (Q := fun _ w' => w.Logged w' _) (w.logged_record _)) ?_
  intro _ w' h
  exact Spec.emit (h.trans (w'.logged_record _))

theorem spec_failToolCalls (calls : List ToolCall) :
    Spec base (failToolCalls calls) w
      (fun results w' => ∃ seg, w.Logged w' seg ∧ BatchLog calls results seg) thrown := by
  induction calls generalizing w with
  | nil => exact Spec.pure ⟨[], .refl w, .nil⟩
  | cons call calls ih =>
    refine Spec.bind (Spec.emit (Q := fun _ w' => w.Logged w' _) (w.logged_record _)) ?_
    intro _ w₁ h₁
    refine Spec.bind (Spec.emit (Q := fun _ w' => w.Logged w' _)
      (h₁.trans (w₁.logged_record _))) ?_
    intro _ w₂ h₂
    refine Spec.bind (spec_createToolResultMessage _) ?_
    rintro message w₂ ⟨rfl, hid⟩
    refine Spec.bind (spec_emitToolResultMessage message) ?_
    intro _ w₃ h₃
    refine Spec.bind ih ?_
    rintro messages w₄ ⟨seg, h₄, hseg⟩
    refine Spec.pure ⟨_, (h₂.trans h₃).trans h₄, .cons ?_ hseg⟩
    refine .of_events [_, _] rfl rfl hid rfl ?_
    exact ⟨[], _, _, rfl, by simp⟩

variable {call : ToolCall}

theorem spec_finalizeToolCall (fuel : Nat) (assistantMessage : AssistantMessage)
    (config : AgentLoopConfig) {preparation : Preparation} (hfor : preparation.For call) :
    Spec base (finalizeToolCall fuel assistantMessage config call preparation) w
      (fun finalized w' => finalized.toolCall.Same call ∧
        ∃ updates : List AgentEvent, w.Logged w' (updates.map .event) ∧
          ∀ u ∈ updates, call.IsUpdate u) thrown := by
  cases preparation with
  | immediate outcome => exact Spec.pure ⟨.refl call, [], .refl w, by simp⟩
  | prepared prepared =>
    refine Spec.of_emits (emits_runPreparedToolCall fuel assistantMessage config prepared []) ?_
    rintro finalized evs ⟨hcall, updates, hevs, hupdates⟩
    refine ⟨hcall ▸ hfor, updates, hevs ▸ w.logged_recordAll evs, ?_⟩
    intro u hu
    exact hfor.isUpdate (hupdates u hu)

theorem CallLog.of_parts {result : ToolResultMessage} {updates : List AgentEvent}
    {finalized : FinalizedToolCallOutcome} (hcall : finalized.toolCall.Same call)
    (hid : result.idAndName = finalized.toolCall.idAndName)
    (hupdates : ∀ u ∈ updates, call.IsUpdate u) (m n : Nat) :
    CallLog call result
      ([.event (.toolExecutionStart call.id call.name call.arguments)]
        ++ List.replicate m .aborted ++ updates.map .event
        ++ [.event (.toolExecutionEnd finalized.toolCall.id finalized.toolCall.name
          finalized.result finalized.isError)]
        ++ (resultEvents result).map .event ++ List.replicate n .aborted) := by
  refine .of_events (.toolExecutionStart call.id call.name call.arguments :: (updates ++
    [.toolExecutionEnd call.id call.name finalized.result finalized.isError]))
    (by simp) (by simp) (hid.trans hcall.idAndName) ?_ ⟨updates, _, _, rfl, hupdates⟩
  simp [hcall.1, hcall.2]

theorem spec_executeSequentially (fuel : Nat) (assistantMessage : AssistantMessage)
    (config : AgentLoopConfig) (calls : List ToolCall) :
    Spec base (executeSequentially fuel assistantMessage config calls) w
      (fun rs w' => ∃ seg, w.Logged w' seg ∧ BatchLog calls (rs.map (·.2)) seg) thrown := by
  induction calls generalizing w with
  | nil => exact Spec.pure ⟨[], .refl w, .nil⟩
  | cons call calls ih =>
    refine Spec.bind (Spec.emit (Q := fun _ w' => w.Logged w' _) (w.logged_record _)) ?_
    intro _ w₁ h₁
    refine Spec.bind (spec_prepareToolCall assistantMessage call config) ?_
    rintro preparation w₂ ⟨⟨m, h₂⟩, hfor⟩
    refine Spec.bind (spec_finalizeToolCall fuel assistantMessage config hfor) ?_
    rintro finalized w₃ ⟨hcall, updates, h₃, hupdates⟩
    refine Spec.bind (Spec.emit (Q := fun _ w' => w.Logged w' _)
      (((h₁.trans h₂).trans h₃).trans (w₃.logged_record _))) ?_
    intro _ w₄ h₄
    refine Spec.bind (spec_createToolResultMessage _) ?_
    rintro message w₄ ⟨rfl, hid⟩
    refine Spec.bind (spec_emitToolResultMessage message) ?_
    intro _ w₅ h₅
    refine Spec.bind spec_isAborted ?_
    rintro aborted w₆ ⟨n, h₆, hn⟩
    have hlog := CallLog.of_parts hcall hid hupdates m n
    have hlogged := (h₄.trans h₅).trans h₆
    split
    · rename_i haborted
      refine Spec.pure ⟨_, hlogged, .stopped calls hlog ?_⟩
      exact List.mem_append_right _ (List.mem_replicate.mpr ⟨Nat.pos_iff_ne_zero.mp (hn haborted), rfl⟩)
    · refine Spec.bind ih ?_
      rintro more w₇ ⟨seg, h₇, hseg⟩
      exact Spec.pure ⟨_, hlogged.trans h₇, .cons hlog hseg⟩

theorem spec_executeToolCallsSequential (fuel : Nat) (assistantMessage : AssistantMessage)
    (calls : List ToolCall) (config : AgentLoopConfig) :
    Spec base (executeToolCallsSequential fuel assistantMessage calls config) w
      (fun batch w' => ∃ seg, w.Logged w' seg ∧ BatchLog calls batch.messages seg) thrown := by
  refine Spec.bind (spec_executeSequentially fuel assistantMessage config calls) ?_
  intro rs w' h
  exact Spec.pure h

/-! ## The parallel executor -/

def EntryLog (call : ToolCall) (entry : FinalizedToolCallEntry) (head : List AgentEvent) :
    Prop :=
  match entry with
  | .done finalized => finalized.toolCall.Same call ∧ Lifecycle call head
  | .deferred prepared => prepared.toolCall.Same call ∧
      head = [.toolExecutionStart call.id call.name call.arguments]

/-- The first loop: an entry and its events for a prefix of the calls. -/
structure StartLog (calls : List ToolCall)
    (started : List (FinalizedToolCallEntry × List AgentEvent)) (seg : List Observation) :
    Prop where
  appended : appended seg = []
  polled : polled seg = []
  events : eventsOf seg = (started.map (·.2)).flatten
  entries : List.Forall₂ (fun call s => EntryLog call s.1 s.2) (calls.take started.length) started
  complete : started.length = calls.length ∨ .aborted ∈ seg

theorem spec_enterToolCall {preparation : Preparation} (hfor : preparation.For call) :
    Spec base (enterToolCall call preparation) w
      (fun entry w' => ∃ evs : List AgentEvent, w.Logged w' (evs.map .event) ∧
        EntryLog call entry (.toolExecutionStart call.id call.name call.arguments :: evs))
      thrown := by
  cases preparation with
  | immediate outcome =>
    refine Spec.bind (Spec.emit (Q := fun _ w' => w.Logged w' _) (w.logged_record _)) ?_
    intro _ w' h
    exact Spec.pure ⟨[_], h, .refl call, [], outcome.result, outcome.isError, rfl, by simp⟩
  | prepared prepared => exact Spec.pure ⟨[], .refl w, hfor, rfl⟩

variable {entry : FinalizedToolCallEntry}

theorem StartLog.one {evs : List AgentEvent} {seg : List Observation} (calls : List ToolCall)
    (hentry : EntryLog call entry evs) (happended : Eagent.appended seg = [])
    (hpolled : Eagent.polled seg = []) (hevents : eventsOf seg = evs) (haborted : .aborted ∈ seg) :
    StartLog (call :: calls) [(entry, evs)] seg where
  appended := happended
  polled := hpolled
  events := by rw [hevents]; exact (List.append_nil _).symm
  entries := .cons hentry .nil
  complete := .inr haborted

theorem StartLog.cons {calls : List ToolCall} {evs : List AgentEvent}
    {started : List (FinalizedToolCallEntry × List AgentEvent)} {s t : List Observation}
    (hentry : EntryLog call entry evs) (happended : Eagent.appended s = [])
    (hpolled : Eagent.polled s = []) (hevents : eventsOf s = evs)
    (hrest : StartLog calls started t) :
    StartLog (call :: calls) ((entry, evs) :: started) (s ++ t) where
  appended := by rw [appended_append, happended, hrest.appended]; rfl
  polled := by rw [polled_append, hpolled, hrest.polled]; rfl
  events := by rw [eventsOf_append, hevents, hrest.events]; rfl
  entries := .cons hentry hrest.entries
  complete := by
    rcases hrest.complete with hlen | haborted
    · exact .inl (congrArg Nat.succ hlen)
    · exact .inr (List.mem_append_right _ haborted)

theorem spec_startToolCalls (assistantMessage : AssistantMessage) (config : AgentLoopConfig)
    (calls : List ToolCall) :
    Spec base (startToolCalls assistantMessage config calls) w
      (fun entries w' => ∃ started seg, entries = started.map (·.1) ∧ w.Logged w' seg ∧
        StartLog calls started seg) thrown := by
  induction calls generalizing w with
  | nil => exact Spec.pure ⟨[], [], rfl, .refl w, rfl, rfl, rfl, .nil, .inl rfl⟩
  | cons call calls ih =>
    refine Spec.bind (Spec.emit (Q := fun _ w' => w.Logged w' _) (w.logged_record _)) ?_
    intro _ w₁ h₁
    refine Spec.bind (spec_prepareToolCall assistantMessage call config) ?_
    intro preparation w₂ h₂
    rcases h₂ with ⟨⟨m, h₂⟩, hfor⟩
    refine Spec.bind (spec_enterToolCall hfor) ?_
    intro entry w₃ h₃
    rcases h₃ with ⟨evs, h₃, hentry⟩
    refine Spec.bind spec_isAborted ?_
    intro aborted w₄ h₄
    rcases h₄ with ⟨n, h₄, hn⟩
    have hlogged := ((h₁.trans h₂).trans h₃).trans h₄
    split
    · rename_i haborted
      refine Spec.pure ⟨_, _, rfl, hlogged, .one calls hentry (by simp) (by simp) (by simp) ?_⟩
      exact List.mem_append_right _
        (List.mem_replicate.mpr ⟨Nat.pos_iff_ne_zero.mp (hn haborted), rfl⟩)
    · refine Spec.bind ih ?_
      intro more w₅ h₅
      rcases h₅ with ⟨started, seg, rfl, h₅, hseg⟩
      exact Spec.pure ⟨_, _, rfl, hlogged.trans h₅,
        .cons hentry (by simp) (by simp) (by simp) hseg⟩

theorem emits_settleEntry (fuel : Nat) (assistantMessage : AssistantMessage)
    (config : AgentLoopConfig) {head : List AgentEvent} (hentry : EntryLog call entry head) :
    Emits [] (settleEntry fuel assistantMessage config entry) fun finalized evs =>
      finalized.toolCall.Same call ∧ Lifecycle call (head ++ evs) := by
  cases entry with
  | done finalized => exact Emits.pure ⟨hentry.1, (List.append_nil head).symm ▸ hentry.2⟩
  | deferred prepared =>
    rcases hentry with ⟨hsame, rfl⟩
    refine Emits.bind (emits_runPreparedToolCall fuel assistantMessage config prepared []) ?_
    intro finalized evs h
    rcases h with ⟨hcall, updates, hevs, hupdates⟩
    have hfinal : finalized.toolCall.Same call := hcall ▸ hsame
    refine Emits.bind (Emits.emit (Q := fun _ evs' => evs' = evs ++ [_]) rfl) ?_
    intro _ evs' hevs'
    refine Emits.pure ⟨hfinal, updates, finalized.result, finalized.isError, ?_, ?_⟩
    · rw [hevs', hevs, hfinal.1, hfinal.2]
      rfl
    · intro u hu
      exact hsame.isUpdate (hupdates u hu)

theorem spec_emitToolResults (finalizedCalls : List FinalizedToolCallOutcome) :
    Spec base (emitToolResults finalizedCalls) w
      (fun results w' => results.map (·.idAndName) =
          finalizedCalls.map (·.toolCall.idAndName) ∧
        w.Logged w' ((results.flatMap resultEvents).map .event)) thrown := by
  induction finalizedCalls generalizing w with
  | nil => exact Spec.pure ⟨rfl, .refl w⟩
  | cons finalized rest ih =>
    refine Spec.bind (spec_createToolResultMessage finalized) ?_
    intro message w' h
    rcases h with ⟨rfl, hid⟩
    refine Spec.bind (spec_emitToolResultMessage message) ?_
    intro _ w₁ h₁
    refine Spec.bind ih ?_
    intro results w₂ h₂
    rcases h₂ with ⟨hids, h₂⟩
    refine Spec.pure ⟨by rw [List.map_cons, List.map_cons, hid, hids], ?_⟩
    rw [List.flatMap_cons, List.map_append]
    exact h₁.trans h₂

theorem BatchLog.of_shuffle {calls : List ToolCall} {results : List ToolResultMessage}
    {seg : List Observation} (tools : List AgentEvent) (segs : List (List AgentEvent))
    (happended : Eagent.appended seg = []) (hpolled : Eagent.polled seg = [])
    (hpairing : results.map (·.idAndName) <+: calls.map (·.idAndName))
    (hcomplete : results.length = calls.length ∨ .aborted ∈ seg)
    (hseg : eventsOf seg = tools ++ results.flatMap resultEvents)
    (hsegs : List.Forall₂ Lifecycle (calls.take results.length) segs)
    (hshuffle : Shuffle segs tools) : BatchLog calls results seg := by
  have hnot : ∀ e ∈ tools, e.isMessage = false := by
    intro e he
    obtain ⟨evs, hevs, hmem⟩ := hshuffle.mem he
    obtain ⟨i, hi, rfl⟩ := List.getElem_of_mem hevs
    have hlifecycle := (List.forall₂_iff_get.mp hsegs).2 i (hsegs.length_eq ▸ hi) hi
    exact AgentEvent.not_isMessage_of_toolCallId (hlifecycle.toolCallId e hmem)
  have hmessages : ∀ e ∈ results.flatMap resultEvents, e.isMessage = true := by
    intro e he
    obtain ⟨r, -, hr⟩ := List.mem_flatMap.mp he
    rcases List.mem_cons.mp hr with rfl | hr
    · rfl
    · rw [List.mem_singleton.mp hr]
      rfl
  refine ⟨happended, hpolled, hpairing, hcomplete, ?_, segs, hsegs, ?_⟩
  · rw [hseg, List.filter_append, List.filter_eq_nil_iff.mpr (by simpa using hnot),
      List.filter_eq_self.mpr hmessages]
    rfl
  · rw [hseg, List.filter_append, List.filter_eq_self.mpr (by simpa using hnot),
      List.filter_eq_nil_iff.mpr (by simpa using hmessages), List.append_nil]
    exact hshuffle

theorem spec_executeToolCallsParallel (fuel : Nat) (assistantMessage : AssistantMessage)
    (calls : List ToolCall) (config : AgentLoopConfig) :
    Spec base (executeToolCallsParallel fuel assistantMessage calls config) w
      (fun batch w' => ∃ seg, w.Logged w' seg ∧ BatchLog calls batch.messages seg) thrown := by
  refine Spec.bind (spec_startToolCalls assistantMessage config calls) ?_
  intro entries w₁ h₁
  rcases h₁ with ⟨started, seg, rfl, h₁, hstart⟩
  have hentry : ∀ i (hi : i < started.length) (hcall : i < (calls.take started.length).length),
      EntryLog (calls.take started.length)[i] started[i].1 started[i].2 := fun i hi hcall =>
    (List.forall₂_iff_get.mp hstart.entries).2 i hcall hi
  have htake : (calls.take started.length).length = started.length :=
    hstart.entries.length_eq
  refine Spec.bind (Spec.all (w := w₁)
    (Q := fun i finalized evs => ∀ (hi : i < started.length)
      (hcall : i < (calls.take started.length).length),
      finalized.toolCall.Same (calls.take started.length)[i] ∧
        Lifecycle (calls.take started.length)[i] (started[i].2 ++ evs))
    (R := fun fs w' => ∃ (evss : List (List AgentEvent)) (l : List AgentEvent),
      w₁.Logged w' (l.map .event) ∧ Shuffle evss l ∧ fs.length = started.length ∧
        evss.length = started.length ∧
        ∀ i (hf : i < fs.length) (he : i < evss.length) (hi : i < started.length)
          (hcall : i < (calls.take started.length).length),
          fs[i].toolCall.Same (calls.take started.length)[i] ∧
            Lifecycle (calls.take started.length)[i] (started[i].2 ++ evss[i])) ?_ ?_) ?_
  · intro i p hp
    rw [List.map_map, List.getElem?_map] at hp
    obtain ⟨x, hx, rfl⟩ := Option.map_eq_some_iff.mp hp
    obtain ⟨hi, rfl⟩ := List.getElem?_eq_some_iff.mp hx
    have hemits := emits_settleEntry fuel assistantMessage config
      (hentry i hi (by rw [htake]; exact hi))
    exact hemits.mono fun finalized evs h _ _ => h
  · intro fs evss l hfs hevss hshuffle heach
    rw [List.length_map, List.length_map] at hfs hevss
    refine ⟨evss, l, w₁.logged_recordAll l, hshuffle, hfs, hevss, ?_⟩
    intro i hf he hi hcall
    exact heach i _ _ (List.getElem?_eq_getElem hf) (List.getElem?_eq_getElem he) hi hcall
  · intro fs w₂ h₂
    rcases h₂ with ⟨evss, l, h₂, hshuffle, hfs, hevss, heach⟩
    refine Spec.bind (spec_emitToolResults fs) ?_
    intro results w₃ h₃
    rcases h₃ with ⟨hids, h₃⟩
    have hresults : results.length = started.length := by
      rw [← hfs, ← List.length_map, hids, List.length_map]
    have hpairing : results.map (·.idAndName) =
        (calls.take results.length).map (·.idAndName) := by
      rw [hids, hresults]
      refine List.ext_getElem (by rw [List.length_map, List.length_map, hfs, htake]) ?_
      intro i hi hi'
      rw [List.length_map] at hi hi'
      rw [List.getElem_map, List.getElem_map]
      exact (heach i hi (by omega) (by omega) hi').1.idAndName
    refine Spec.pure ⟨_, (h₁.trans h₂).trans h₃, .of_shuffle
      ((started.map (·.2)).flatten ++ l)
      (List.zipWith (· ++ ·) (started.map (·.2)) evss) ?_ ?_ ?_ ?_ ?_ ?_ ?_⟩
    · simp [hstart.appended]
    · simp [hstart.polled]
    · rw [hpairing, List.map_take]
      exact List.take_prefix _ _
    · rw [hresults]
      rcases hstart.complete with hlen | haborted
      · exact .inl hlen
      · exact .inr (List.mem_append_left _ (List.mem_append_left _ haborted))
    · simp [hstart.events]
    · rw [hresults]
      refine List.forall₂_iff_get.mpr ⟨by simp [htake, hevss], ?_⟩
      intro i hcall hzip
      have hi : i < started.length := htake ▸ hcall
      simp only [List.get_eq_getElem, List.getElem_zipWith, List.getElem_map]
      exact (heach i (hfs ▸ hi) (hevss ▸ hi) hi hcall).2
    · exact (Shuffle.flatten _).append hshuffle (by simp [hevss])

theorem spec_executeToolCalls (fuel : Nat) (assistantMessage : AssistantMessage)
    (config : AgentLoopConfig) :
    Spec base (executeToolCalls fuel assistantMessage config) w
      (fun batch w' => ∃ seg, w.Logged w' seg ∧
        BatchLog assistantMessage.toolCalls batch.messages seg) thrown := by
  refine Spec.bind (Q := fun _ w' => w' = w) (Spec.readContext rfl) ?_
  intro context w' h
  rw [h]
  dsimp only
  split
  · exact spec_executeToolCallsSequential fuel assistantMessage _ config
  · exact spec_executeToolCallsParallel fuel assistantMessage _ config

theorem spec_executeToolBatch (fuel : Nat) (message : AssistantMessage)
    (config : AgentLoopConfig) :
    Spec base (executeToolBatch fuel message config) w
      (fun batch w' => ∃ seg, w.Logged w' seg ∧ BatchLog message.toolCalls batch.messages seg)
      thrown := by
  unfold executeToolBatch
  split
  · refine Spec.bind (spec_failToolCalls message.toolCalls) ?_
    intro messages w' h
    exact Spec.pure h
  · exact spec_executeToolCalls fuel message config

end Executors

end Eagent
