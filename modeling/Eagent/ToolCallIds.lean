import Mathlib.Data.List.GetD
import Eagent.ConvertMessages
import Eagent.ProviderPairing

/-!
# Tool call ids on the wire

Both conversions send, in order, the ids of the calls and results of the
transformed history, or of each the part before the first bar. The ids of
one foreign message are merged where the rewriting forgets how they differ:
characters that are not allowed, all past the limit, underscores at the end.
-/

namespace Eagent

/-! ## Padded lists -/

section Padded

variable {α : Type*} [DecidableEq α] (a : α)

theorem getD_rdropWhile (l : List α) (i : Nat) : (l.rdropWhile (· = a)).getD i a = l.getD i a := by
  induction l using List.reverseRecOn with
  | nil => rfl
  | append_singleton l x ih =>
    by_cases hx : x = a
    · subst hx
      rw [List.rdropWhile_concat_pos _ _ _ (by simp), ih]
      rcases Nat.lt_or_ge i l.length with hi | hi
      · rw [List.getD_append _ _ _ _ hi]
      · rw [List.getD_append_right _ _ _ _ hi, List.getD_eq_default _ _ hi]
        cases i - l.length <;> rfl
    · rw [List.rdropWhile_concat_neg _ _ _ (by simpa using hx)]

/-- Without its last entries equal to `a`, a list is what it is when padded
with `a`. -/
theorem rdropWhile_eq_iff (l l' : List α) :
    l.rdropWhile (· = a) = l'.rdropWhile (· = a) ↔ ∀ i, l.getD i a = l'.getD i a := by
  constructor
  · intro h i
    rw [← getD_rdropWhile, h, getD_rdropWhile]
  · intro h
    have hpadded : ∀ i, (l.rdropWhile (· = a)).getD i a = (l'.rdropWhile (· = a)).getD i a := by
      intro i
      rw [getD_rdropWhile, getD_rdropWhile, h i]
    -- the last entry of either list is not `a`, so neither is the longer one
    have hshort : ∀ r r' : List α, (∀ hr : r' ≠ [], r'.getLast hr ≠ a) →
        (∀ i, r.getD i a = r'.getD i a) → r'.length ≤ r.length := by
      intro r r' hlast hsame
      by_contra hlong
      have hne : r' ≠ [] := by
        rintro rfl
        exact hlong (Nat.zero_le _)
      refine hlast hne ?_
      have hend := hsame (r'.length - 1)
      rw [List.getD_eq_default r a (by omega), List.getD_eq_getElem r' a (by omega),
        ← List.getLast_eq_getElem hne] at hend
      exact hend.symm
    have hkept : ∀ (r : List α) (hr : r.rdropWhile (· = a) ≠ []),
        (r.rdropWhile (· = a)).getLast hr ≠ a := by
      intro r hr
      simpa using List.rdropWhile_last_not (· = a) r hr
    have hlength : (l.rdropWhile (· = a)).length = (l'.rdropWhile (· = a)).length :=
      Nat.le_antisymm (hshort _ _ (hkept l) fun i => (hpadded i).symm)
        (hshort _ _ (hkept l') hpadded)
    refine List.ext_getElem hlength fun i hi hi' => ?_
    rw [← List.getD_eq_getElem _ a hi, ← List.getD_eq_getElem _ a hi', hpadded i]

end Padded

namespace Ai

/-! ## Ids that are merged -/

section Merged

variable (model : Model)

def keptUnit (id : JsString) (i : Nat) : Option UInt16 :=
  if pipe ∈ id then
    if i < 40 then (callPart id)[i]?.map cleanUnit else none
  else if model.provider = "openai" ∧ 40 ≤ i then none
  else id[i]?

/-- Two ids that agree in all that the completions interface keeps. -/
def AlikeForCompletions (id id' : JsString) : Prop := ∀ i, keptUnit model id i = keptUnit model id' i

theorem ite_take {α : Type} (l : List α) (n : Nat) :
    (if l.length > n then l.take n else l) = l.take n := by
  split
  · rfl
  · rw [List.take_of_length_le (by omega)]

theorem getElem?_normalizeCompletionsId (id : JsString) (source : AssistantMessage) (i : Nat) :
    (normalizeCompletionsId id model source)[i]? = keptUnit model id i := by
  unfold normalizeCompletionsId keptUnit
  by_cases hpipe : pipe ∈ id
  · rw [if_pos hpipe, if_pos hpipe, List.getElem?_take, List.getElem?_map]
  · rw [if_neg hpipe, if_neg hpipe]
    by_cases hprovider : model.provider = "openai"
    · rw [if_pos hprovider, ite_take, List.getElem?_take]
      by_cases hi : i < 40
      · simp [hi, Nat.not_le.mpr hi]
      · simp [hi, Nat.not_lt.mp hi, hprovider]
    · simp [hprovider]

theorem normalizeCompletionsId_eq_iff (id id' : JsString) (source : AssistantMessage) :
    normalizeCompletionsId id model source = normalizeCompletionsId id' model source ↔
      AlikeForCompletions model id id' := by
  rw [List.ext_getElem?_iff]
  simp only [getElem?_normalizeCompletionsId]
  rfl

/-- The unit at a position, with underscores for units that are not allowed
and for those past the end. -/
def paddedUnit (part : JsString) (i : Nat) : UInt16 := cleanUnit (part.getD i underscore)

theorem normalizeIdPart_eq (part : JsString) :
    normalizeIdPart part = ((part.map cleanUnit).take 64).rdropWhile (· = underscore) := by
  rw [normalizeIdPart, ite_take]

theorem normalizeIdPart_eq_iff (part part' : JsString) :
    normalizeIdPart part = normalizeIdPart part' ↔
      ∀ i < 64, paddedUnit part i = paddedUnit part' i := by
  have hget : ∀ (part : JsString) (i : Nat), ((part.map cleanUnit).take 64).getD i underscore =
      if i < 64 then paddedUnit part i else underscore := by
    intro part i
    rw [List.getD_eq_getElem?_getD, List.getElem?_take]
    split
    · have hclean : cleanUnit underscore = underscore := by decide
      rw [← List.getD_eq_getElem?_getD]
      exact (congrArg _ hclean.symm).trans (List.getD_map _ _ cleanUnit)
    · rfl
  rw [normalizeIdPart_eq, normalizeIdPart_eq, rdropWhile_eq_iff]
  simp only [hget]
  constructor
  · intro h i hi
    simpa [hi] using h i
  · intro h i
    by_cases hi : i < 64
    · simpa [hi] using h i hi
    · rw [if_neg hi, if_neg hi]

variable (allowedToolCallProviders : List String)

/-- The part of an id that is rewritten for `call_id`. -/
def rewrittenPart (id : JsString) : JsString :=
  if model.provider ∈ allowedToolCallProviders ∧ pipe ∈ id then callPart id else id

/-- Two ids that agree in all that the responses interface keeps. -/
def AlikeForResponses (id id' : JsString) : Prop :=
  ∀ i < 64, paddedUnit (rewrittenPart model allowedToolCallProviders id) i =
    paddedUnit (rewrittenPart model allowedToolCallProviders id') i

theorem callPart_of_not_mem {id : JsString} (h : pipe ∉ id) : callPart id = id := by
  refine List.takeWhile_eq_self_iff.mpr fun u hu => ?_
  simp only [decide_eq_true_eq]
  rintro rfl
  exact h hu

theorem callPart_append {id : JsString} (h : pipe ∉ id) (rest : JsString) :
    callPart (id ++ pipe :: rest) = id := by
  unfold callPart
  rw [List.takeWhile_append_of_pos, List.takeWhile_cons_of_neg (by simp), List.append_nil]
  intro u hu
  simp only [decide_eq_true_eq]
  rintro rfl
  exact h hu

theorem pipe_not_mem_normalizeIdPart (part : JsString) : pipe ∉ normalizeIdPart part := by
  intro h
  have hclean : ∀ u, cleanUnit u ≠ pipe := by
    intro u hu
    unfold cleanUnit at hu
    split at hu
    · subst hu
      rename_i hid
      revert hid
      decide
    · revert hu
      decide
  have hsub : pipe ∈ part.map cleanUnit := by
    rw [normalizeIdPart_eq] at h
    exact List.mem_of_mem_take ((List.rdropWhile_prefix _ _).subset h)
  obtain ⟨u, -, hu⟩ := List.mem_map.mp hsub
  exact hclean u hu

/-- Whatever message an id is in, `call_id` is the rewritten part. -/
theorem callPart_normalizeResponsesId (id : JsString) (source : AssistantMessage) :
    callPart (normalizeResponsesId allowedToolCallProviders id model source) =
      normalizeIdPart (rewrittenPart model allowedToolCallProviders id) := by
  unfold normalizeResponsesId rewrittenPart
  by_cases hallowed : model.provider ∈ allowedToolCallProviders
  · by_cases hpipe : pipe ∈ id
    · simp only [hallowed, hpipe, not_true_eq_false, if_false, and_self, if_true]
      exact callPart_append (pipe_not_mem_normalizeIdPart _) _
    · simp only [hallowed, hpipe, not_true_eq_false, not_false_eq_true, if_false, if_true, and_false]
      exact callPart_of_not_mem (pipe_not_mem_normalizeIdPart _)
  · simp only [hallowed, not_false_eq_true, if_true, false_and, if_false]
    exact callPart_of_not_mem (pipe_not_mem_normalizeIdPart _)

end Merged

/-! ## What is sent -/

/-- The id of a call or of a result. -/
inductive WireId where
  | call (id : JsString)
  | result (id : JsString)
deriving DecidableEq

def Message.wireIds (part : JsString → JsString) : Message → List WireId
  | .assistant m => m.callIds.map fun id => .call (part id)
  | .toolResult r => [.result (part r.toolCallId)]
  | .user _ _ => []

def ChatParam.wireIds : ChatParam → List WireId
  | .assistant _ toolCalls _ => toolCalls.map fun call => .call call.id
  | .tool _ toolCallId _ => [.result toolCallId]
  | _ => []

def ResponseItem.wireIds : ResponseItem → List WireId
  | .functionCall _ callId _ _ => [.call callId]
  | .functionCallOutput callId _ => [.result callId]
  | _ => []

section Sent

variable (model : Model) (compat : CompletionsCompat)

theorem wireIds_flushResults (run : List ToolResultMessage) :
    (flushResults model compat run).flatMap ChatParam.wireIds =
      run.map fun r => .result r.toolCallId := by
  have hrest : ∀ images : List ChatPart, (if images = [] then [] else
      (if compat.requiresAssistantAfterToolResult then [processed] else []) ++
        [ChatParam.user (.parts (.text "Attached image(s) from tool result:" :: images))]).flatMap
      ChatParam.wireIds = [] := by
    intro images
    split_ifs <;> rfl
  rw [flushResults, List.flatMap_append, hrest, List.append_nil, List.flatMap_map]
  induction run with
  | nil => rfl
  | cons r run ih => rw [List.flatMap_cons, ih]; rfl

theorem wireIds_assistantParam (m : AssistantMessage) :
    ((assistantParam model compat m).toList).flatMap ChatParam.wireIds =
      m.callIds.map WireId.call := by
  unfold assistantParam
  extract_lets
  split
  · rename_i hnone
    rw [AssistantMessage.callIds, hnone.2]
    rfl
  · rw [Option.toList_some, List.flatMap_singleton, ChatParam.wireIds, AssistantMessage.callIds,
      List.map_map, List.map_map]
    rfl

theorem wireIds_convertLoop (lastRole : Option Role) (run : List ToolResultMessage)
    (messages : List Message) :
    (convertLoop model compat lastRole run messages).flatMap ChatParam.wireIds =
      (run.map fun r => .result r.toolCallId) ++ messages.flatMap (Message.wireIds id) := by
  induction messages generalizing lastRole run with
  | nil => rw [convertLoop, wireIds_flushResults, List.flatMap_nil, List.append_nil]
  | cons msg messages ih =>
    cases msg with
    | toolResult r =>
      rw [convertLoop, ih, List.map_append, List.append_assoc]
      rfl
    | user content timestamp =>
      have hbridge : ∀ p : Prop, [Decidable p] →
          (if p then [processed] else []).flatMap ChatParam.wireIds = [] := by
        intro p _
        split <;> rfl
      have huser : ∀ content param, userParam content = some param → param.wireIds = [] := by
        intro content param hparam
        cases content with
        | string s =>
          obtain rfl := Option.some.inj hparam
          rfl
        | blocks bs =>
          rw [userParam] at hparam
          split at hparam
          · cases hparam
          · obtain rfl := Option.some.inj hparam
            rfl
      rw [convertLoop, List.flatMap_append, List.flatMap_append, wireIds_flushResults, hbridge,
        List.append_nil, List.flatMap_cons, Message.wireIds, List.nil_append]
      congr 1
      split
      · exact ih _ []
      · rename_i param hparam
        rw [List.flatMap_cons, huser _ _ hparam, ih]
        rfl
    | assistant m =>
      have hassistant := wireIds_assistantParam model compat m
      rw [convertLoop, List.flatMap_append, wireIds_flushResults, List.flatMap_cons]
      congr 1
      split
      · rename_i hparam
        rw [hparam] at hassistant
        rw [ih, Message.wireIds]
        simp only [id, ← hassistant]
        rfl
      · rename_i param hparam
        rw [hparam, Option.toList_some, List.flatMap_singleton] at hassistant
        rw [List.flatMap_cons, ih, hassistant]
        rfl

theorem wireIds_convertMessages (systemPrompt : Option String) (messages : List Message)
    (now : Nat) :
    (convertMessages model compat systemPrompt messages now).flatMap ChatParam.wireIds =
      (transformMessages messages model (some normalizeCompletionsId) now).flatMap
        (Message.wireIds id) := by
  rw [convertMessages, List.flatMap_append, wireIds_convertLoop]
  cases systemPrompt.filter truthy <;> rfl

variable {items : List ResponseItem}

theorem wireIds_assistantItems {m : AssistantMessage} {block : AssistantBlock}
    (h : assistantItems model m block = some items) :
    items.flatMap ResponseItem.wireIds =
      (block.toolCall?.toList.map ToolCall.id).map fun id => .call (callPart id) := by
  cases block with
  | text text signature =>
    obtain rfl := Option.some.inj h
    rfl
  | toolCall call =>
    obtain rfl := Option.some.inj h
    rfl
  | thinking thinking signature redacted =>
    rw [assistantItems] at h
    split at h
    · obtain rfl := Option.some.inj h
      rfl
    · obtain ⟨item, -, rfl⟩ := Option.map_eq_some_iff.mp h
      rfl

/-- What each element gives, put together. -/
theorem flatMap_mapM {α β γ : Type} {f : α → Option (List β)} {g : β → List γ} {k : α → List γ}
    (h : ∀ a bs, f a = some bs → bs.flatMap g = k a) {as : List α} {bss : List (List β)}
    (hbss : as.mapM f = some bss) : bss.flatten.flatMap g = as.flatMap k := by
  induction as generalizing bss with
  | nil =>
    obtain rfl := Option.some.inj hbss
    rfl
  | cons a as ih =>
    rw [List.mapM_cons] at hbss
    obtain ⟨bs, hbs, hbss⟩ := Option.bind_eq_some_iff.mp hbss
    obtain ⟨rest, hrest, hbss⟩ := Option.bind_eq_some_iff.mp hbss
    obtain rfl := Option.some.inj hbss
    rw [List.flatten_cons, List.flatMap_append, h a bs hbs, ih hrest, List.flatMap_cons]

theorem wireIds_responseItems {msg : Message} (h : responseItems model msg = some items) :
    items.flatMap ResponseItem.wireIds = msg.wireIds callPart := by
  cases msg with
  | user content timestamp =>
    obtain rfl := Option.some.inj h
    cases content.getD (.blocks []) with
    | string s => rfl
    | blocks bs =>
      rw [userItems]
      split <;> rfl
  | toolResult r =>
    obtain rfl := Option.some.inj h
    rfl
  | assistant m =>
    obtain ⟨bss, hbss, rfl⟩ := Option.map_eq_some_iff.mp h
    rw [flatMap_mapM (fun _ _ => wireIds_assistantItems model) hbss, Message.wireIds,
      AssistantMessage.callIds, AssistantMessage.toolCalls]
    induction m.content.getD [] with
    | nil => rfl
    | cons block blocks ih =>
      rw [List.flatMap_cons, ih, List.filterMap_cons]
      cases block.toolCall? <;> rfl

theorem wireIds_convertResponsesMessages {systemPrompt : Option String} {messages : List Message}
    {allowedToolCallProviders : List String} {includeSystemPrompt supportsDeveloperRole : Bool}
    {now : Nat}
    (h : convertResponsesMessages model systemPrompt messages allowedToolCallProviders
      includeSystemPrompt supportsDeveloperRole now = some items) :
    items.flatMap ResponseItem.wireIds =
      (transformMessages messages model
        (some (normalizeResponsesId allowedToolCallProviders)) now).flatMap
        (Message.wireIds callPart) := by
  obtain ⟨bss, hbss, rfl⟩ := Option.map_eq_some_iff.mp h
  rw [List.flatMap_append, flatMap_mapM (fun _ _ => wireIds_responseItems model) hbss]
  cases includeSystemPrompt with
  | false => rfl
  | true => cases systemPrompt.filter truthy <;> rfl

end Sent

/-! ## A message within a history -/

section Within

variable {model : Model} {normalizeToolCallId : Normalizer}

theorem firstPass_append {map : OrdMap JsString JsString} {sofar : List Message}
    (h : Holds model normalizeToolCallId map sofar) (before rest : List Message) :
    ∃ before' map', Holds model normalizeToolCallId map' (sofar ++ before) ∧
      firstPass model normalizeToolCallId map (before ++ rest) =
        before' ++ firstPass model normalizeToolCallId map' rest := by
  induction before generalizing map sofar with
  | nil => exact ⟨[], map, by rwa [List.append_nil], rfl⟩
  | cons msg before ih =>
    obtain ⟨msg', map', hafter, hfirst⟩ : ∃ msg' map',
        Holds model normalizeToolCallId map' (sofar ++ [msg]) ∧
        firstPass model normalizeToolCallId map (msg :: (before ++ rest)) =
          msg' :: firstPass model normalizeToolCallId map' (before ++ rest) := by
      cases msg with
      | user content timestamp =>
        obtain ⟨content', huser⟩ := firstPass_user model normalizeToolCallId map content
          timestamp (before ++ rest)
        exact ⟨_, map, h.snoc fun _ => rfl, huser⟩
      | toolResult r =>
        obtain ⟨r', -, hresult⟩ := firstPass_toolResult model normalizeToolCallId map r
          (before ++ rest)
        exact ⟨_, map, h.snoc fun _ => rfl, hresult⟩
      | assistant m =>
        obtain ⟨m', map', -, -, hmap, hassistant⟩ :=
          firstPass_assistant model normalizeToolCallId map m (before ++ rest)
        exact ⟨_, map', h.snoc hmap, hassistant⟩
    obtain ⟨before', map'', hholds, hrest⟩ := ih hafter
    refine ⟨msg' :: before', map'', ?_, ?_⟩
    · rwa [List.append_assoc] at hholds
    · rw [List.cons_append, hfirst, hrest, List.cons_append]

theorem firstPass_results {map : OrdMap JsString JsString} {sofar : List Message}
    (h : Holds model normalizeToolCallId map sofar) (results : List ToolResultMessage)
    (rest : List Message) :
    ∃ results', resultIds results' =
        (resultIds results).map (resultIdAfter model normalizeToolCallId sofar) ∧
      firstPass model normalizeToolCallId map (results.map .toolResult ++ rest) =
        results'.map .toolResult ++ firstPass model normalizeToolCallId map rest := by
  induction results with
  | nil => exact ⟨[], rfl, rfl⟩
  | cons r results ih =>
    obtain ⟨results', hids, hrest⟩ := ih
    obtain ⟨r', hid, hresult⟩ := firstPass_toolResult model normalizeToolCallId map r
      (results.map .toolResult ++ rest)
    refine ⟨r' :: results', ?_, ?_⟩
    · simp only [resultIds, List.map_cons, List.cons.injEq] at hids ⊢
      exact ⟨hid.trans (h.sentResultId _), hids⟩
    · rw [List.map_cons, List.cons_append, hresult, hrest, List.map_cons, List.cons_append]

/-- The second pass sends a message that stays, and its results after it. -/
theorem pairRest_append (now : Nat) (pending : List ToolCall) (existing : List JsString)
    (before : List Message) {m : AssistantMessage} (hstays : m.failed = false)
    (rest : List Message) :
    ∃ before', pairRest now pending existing (before ++ .assistant m :: rest) =
      before' ++ .assistant m :: pairRest now m.toolCalls [] rest := by
  induction before generalizing pending existing with
  | nil =>
    refine ⟨(missing now pending existing).map .toolResult, ?_⟩
    rw [List.nil_append, pairRest, hstays]
    rfl
  | cons msg before ih =>
    cases msg with
    | user content timestamp =>
      obtain ⟨before', hrest⟩ := ih [] []
      rw [List.cons_append, pairRest, hrest, ← List.cons_append, ← List.append_assoc]
      exact ⟨_, rfl⟩
    | toolResult r =>
      obtain ⟨before', hrest⟩ := ih pending (r.toolCallId :: existing)
      exact ⟨.toolResult r :: before', by rw [List.cons_append, pairRest, hrest, List.cons_append]⟩
    | assistant n =>
      obtain ⟨before', hrest⟩ := ih [] []
      obtain ⟨before'', hrest'⟩ := ih n.toolCalls []
      rw [List.cons_append, pairRest]
      split
      · rw [hrest, ← List.append_assoc]
        exact ⟨_, rfl⟩
      · rw [hrest', ← List.cons_append, ← List.append_assoc]
        exact ⟨_, rfl⟩

theorem pairRest_results (now : Nat) (pending : List ToolCall) (existing : List JsString)
    (results : List ToolResultMessage) (rest : List Message) :
    ∃ existing', pairRest now pending existing (results.map .toolResult ++ rest) =
      results.map .toolResult ++ pairRest now pending existing' rest := by
  induction results generalizing existing with
  | nil => exact ⟨existing, rfl⟩
  | cons r results ih =>
    obtain ⟨existing', hrest⟩ := ih (r.toolCallId :: existing)
    exact ⟨existing', by rw [List.map_cons, List.cons_append, pairRest, hrest, List.cons_append]⟩

variable (model normalizeToolCallId) in
/-- The ids sent for a message that stays and for the results right after
it. -/
theorem wireIds_within (part : JsString → JsString) (before after : List Message)
    {m : AssistantMessage} (hstays : m.failed = false) (results : List ToolResultMessage)
    (now : Nat) :
    ∃ w₁ w₂, (transformMessages (before ++ .assistant m :: results.map .toolResult ++ after) model
        normalizeToolCallId now).flatMap (Message.wireIds part) =
      w₁ ++ (m.callIds.map fun id =>
          .call (part (sentCallId model normalizeToolCallId m.normalized id))) ++
        ((resultIds results).map fun id =>
          .result (part (resultIdAfter model normalizeToolCallId (before ++ [.assistant m]) id))) ++
        w₂ := by
  have hholds : Holds model normalizeToolCallId .empty [] := fun _ => rfl
  obtain ⟨before', map, hbefore, hfirst⟩ :=
    firstPass_append hholds before (.assistant m :: (results.map .toolResult ++ after))
  obtain ⟨m', map', hfailed, hids, hmap, hassistant⟩ :=
    firstPass_assistant model normalizeToolCallId map m (results.map .toolResult ++ after)
  obtain ⟨results', hresultIds, hresults⟩ := firstPass_results (hbefore.snoc hmap) results after
  obtain ⟨x, hx⟩ := pairRest_append now [] [] before' (hfailed.trans hstays)
    (results'.map .toolResult ++ firstPass model normalizeToolCallId map' after)
  obtain ⟨existing, hy⟩ := pairRest_results now m'.toolCalls [] results'
    (firstPass model normalizeToolCallId map' after)
  refine ⟨x.flatMap (Message.wireIds part), (pairRest now m'.toolCalls existing
    (firstPass model normalizeToolCallId map' after)).flatMap (Message.wireIds part), ?_⟩
  have hwire : ∀ rs : List ToolResultMessage, (rs.map Message.toolResult).flatMap
      (Message.wireIds part) = (resultIds rs).map fun id => .result (part id) := by
    intro rs
    rw [List.flatMap_map, resultIds, List.map_map]
    exact (List.map_eq_flatMap).symm
  rw [transformMessages_eq, List.append_assoc, List.cons_append, hfirst, hassistant, hresults, hx,
    hy, List.flatMap_append, List.flatMap_cons, List.flatMap_append, hwire, hresultIds,
    Message.wireIds, hids, List.map_map, List.map_map]
  simp only [List.append_assoc, List.nil_append]
  rfl

end Within

/-! ## Results and their calls -/

section Results

variable {model : Model} {normalize : JsString → Model → AssistantMessage → JsString}

theorem lastRenaming_some {before : List Message} {id sent : JsString}
    (h : lastRenaming model (some normalize) before id = some sent) :
    sent ≠ id ∧ ∃ source, sent = normalize id model source := by
  obtain ⟨msg, -, hmsg⟩ := List.exists_of_findSome?_eq_some h
  cases msg with
  | user content timestamp => cases hmsg
  | toolResult r => cases hmsg
  | assistant m =>
    rw [renaming?] at hmsg
    split at hmsg
    · rename_i hrenamed
      obtain rfl := Option.some.inj hmsg
      refine ⟨hrenamed.2, m.normalized, ?_⟩
      have hsent := hrenamed.2
      unfold sentCallId at hsent ⊢
      split
      · rename_i hsame
        rw [if_pos hsame] at hsent
        exact absurd rfl hsent
      · rfl
    · cases hmsg

theorem sentCallId_foreign {m : AssistantMessage} (hforeign : isSameModel model m = false)
    (id : JsString) : sentCallId model (some normalize) m id = normalize id model m := by
  rw [sentCallId, hforeign]
  rfl

/-- A result is sent with the id of its call, unless that id is rewritten to
the empty string and something of it is sent otherwise. -/
theorem resultIdAfter_eq_iff {part : JsString → JsString} (hnil : part [] = [])
    (hpart : ∀ id source source',
      part (normalize id model source) = part (normalize id model source'))
    (before : List Message) {m : AssistantMessage}
    (hforeign : isSameModel model m.normalized = false) {id : JsString} (hid : id ∈ m.callIds) :
    part (resultIdAfter model (some normalize) (before ++ [.assistant m]) id) =
        part (normalize id model m.normalized) ↔
      ¬ (normalize id model m.normalized = [] ∧ part id ≠ []) := by
  have hlast : lastRenaming model (some normalize) (before ++ [.assistant m]) id =
      (renaming? model (some normalize) id (.assistant m)).or
        (lastRenaming model (some normalize) before id) := by
    rw [lastRenaming, List.reverse_append, List.reverse_singleton, List.singleton_append,
      List.findSome?_cons, lastRenaming]
    cases renaming? model (some normalize) id (.assistant m) <;> rfl
  rw [resultIdAfter, hlast, renaming?, sentCallId_foreign hforeign]
  by_cases hsame : normalize id model m.normalized = id
  · have hright : ¬ (normalize id model m.normalized = [] ∧ part id ≠ []) := by
      rintro ⟨hempty, hne⟩
      rw [hsame] at hempty
      rw [hempty] at hne
      exact hne hnil
    refine iff_of_true ?_ hright
    simp only [hsame, ne_eq, not_true_eq_false, and_false, if_false, Option.none_or]
    cases hbefore : lastRenaming model (some normalize) before id with
    | none => rfl
    | some sent =>
      obtain ⟨-, source, rfl⟩ := lastRenaming_some hbefore
      dsimp only
      split
      · rw [hpart id source m.normalized, hsame]
      · rfl
  · simp only [hid, hsame, ne_eq, not_false_eq_true, and_self, if_true, Option.some_or]
    by_cases hempty : normalize id model m.normalized = []
    · simp [hempty, hnil]
    · simp [hempty]

end Results

/-! ## The ids of a foreign message -/

/-- Somewhere in what is sent: these calls under the ids that `call` gives,
right after them these results under those that `result` gives. -/
def Sends (wire : List WireId) (callIds resultIds : List JsString)
    (call result : JsString → JsString) : Prop :=
  ∃ w₁ w₂, wire = w₁ ++ (callIds.map fun id => .call (call id)) ++
    (resultIds.map fun id => .result (result id)) ++ w₂

def Attributed (callIds resultIds : List JsString) (call result : JsString → JsString) : Prop :=
  (callIds.map call).Nodup ∧ ∀ id ∈ resultIds, result id = call id

def CompletionsKeep (model : Model) (callIds resultIds : List JsString) : Prop :=
  callIds.Pairwise (fun id id' => ¬ AlikeForCompletions model id id') ∧
    ∀ id ∈ resultIds, id.head? ≠ some pipe

/-- Nothing is kept of an id of which a result sends something. -/
def Effaced (model : Model) (allowedToolCallProviders : List String) (id : JsString) : Prop :=
  (model.provider ∉ allowedToolCallProviders ∨ pipe ∉ id) ∧
    (∀ i < 64, paddedUnit id i = underscore) ∧ callPart id ≠ []

def ResponsesKeep (model : Model) (allowedToolCallProviders : List String)
    (callIds resultIds : List JsString) : Prop :=
  callIds.Pairwise (fun id id' => ¬ AlikeForResponses model allowedToolCallProviders id id') ∧
    ∀ id ∈ resultIds, ¬ Effaced model allowedToolCallProviders id

theorem normalizeCompletionsId_nil_iff (model : Model) (id : JsString) (source : AssistantMessage) :
    normalizeCompletionsId id model source = [] ∧ id ≠ [] ↔ id.head? = some pipe := by
  cases id with
  | nil => simp
  | cons u id =>
    by_cases hu : u = pipe
    · subst hu
      simp [normalizeCompletionsId, callPart]
    · have hhead : (u :: id).head? ≠ some pipe := fun h => hu (Option.some.inj h)
      refine iff_of_false (fun h => ?_) hhead
      have hfirst := getElem?_normalizeCompletionsId model (u :: id) source 0
      rw [h.1, keptUnit] at hfirst
      simp [callPart, hu] at hfirst
      split at hfirst <;> cases hfirst

theorem normalizeResponsesId_nil_iff (model : Model) (allowedToolCallProviders : List String)
    (id : JsString) (source : AssistantMessage) :
    normalizeResponsesId allowedToolCallProviders id model source = [] ∧ callPart id ≠ [] ↔
      Effaced model allowedToolCallProviders id := by
  have hpart : normalizeIdPart id = [] ↔ ∀ i < 64, paddedUnit id i = underscore := by
    have hempty : normalizeIdPart [] = [] := by decide
    have hunit : ∀ i, paddedUnit [] i = underscore := fun i => by
      rw [paddedUnit, List.getD_nil]
      decide
    rw [← hempty, normalizeIdPart_eq_iff]
    simp only [hunit]
  unfold normalizeResponsesId Effaced
  by_cases hallowed : model.provider ∈ allowedToolCallProviders
  · by_cases hpipe : pipe ∈ id
    · simp [hallowed, hpipe]
    · simp [hallowed, hpipe, hpart]
  · simp [hallowed, hpart]

/-- For a foreign message, wherever it stands with results of its calls:
what either interface sends for it, and exactly when its calls stay apart
and its results with them. -/
theorem tool_call_ids_attributed {model : Model} {m : AssistantMessage}
    (hforeign : isSameModel model m.normalized = false) (hstays : m.failed = false)
    (before after : List Message) {results : List ToolResultMessage}
    (hown : ∀ id ∈ resultIds results, id ∈ m.callIds) (now : Nat) :
    let history := before ++ .assistant m :: results.map .toolResult ++ after
    (∀ compat systemPrompt,
      let call := fun id => normalizeCompletionsId id model m.normalized
      let result := resultIdAfter model (some normalizeCompletionsId) (before ++ [.assistant m])
      Sends ((convertMessages model compat systemPrompt history now).flatMap ChatParam.wireIds)
          m.callIds (resultIds results) call result ∧
        (Attributed m.callIds (resultIds results) call result ↔
          CompletionsKeep model m.callIds (resultIds results))) ∧
    ∀ allowed systemPrompt includeSystemPrompt supportsDeveloperRole items,
      convertResponsesMessages model systemPrompt history allowed includeSystemPrompt
        supportsDeveloperRole now = some items →
      let call := fun id => callPart (normalizeResponsesId allowed id model m.normalized)
      let result := fun id => callPart
        (resultIdAfter model (some (normalizeResponsesId allowed)) (before ++ [.assistant m]) id)
      Sends (items.flatMap ResponseItem.wireIds) m.callIds (resultIds results) call result ∧
        (Attributed m.callIds (resultIds results) call result ↔
          ResponsesKeep model allowed m.callIds (resultIds results)) := by
  dsimp only
  refine ⟨fun compat systemPrompt => ⟨?_, ?_⟩, fun allowed systemPrompt includeSystemPrompt
    supportsDeveloperRole items hitems => ⟨?_, ?_⟩⟩
  · obtain ⟨w₁, w₂, hwire⟩ := wireIds_within model (some normalizeCompletionsId) id before after
      hstays results now
    refine ⟨w₁, w₂, ?_⟩
    rw [wireIds_convertMessages, hwire]
    simp only [sentCallId_foreign hforeign, id]
  · unfold Attributed CompletionsKeep
    rw [List.Nodup, List.pairwise_map]
    simp only [ne_eq, normalizeCompletionsId_eq_iff]
    refine and_congr_right fun _ => forall₂_congr fun callId hid => ?_
    have hresult : _ ↔ ¬ (normalizeCompletionsId callId model m.normalized = [] ∧ id callId ≠ []) :=
      resultIdAfter_eq_iff rfl (fun _ _ _ => rfl) before hforeign (hown callId hid)
    rw [← normalizeCompletionsId_nil_iff model callId m.normalized]
    exact hresult
  · obtain ⟨w₁, w₂, hwire⟩ := wireIds_within model (some (normalizeResponsesId allowed)) callPart
      before after hstays results now
    refine ⟨w₁, w₂, ?_⟩
    rw [wireIds_convertResponsesMessages model hitems, hwire]
    simp only [sentCallId_foreign hforeign]
  · unfold Attributed ResponsesKeep
    rw [List.Nodup, List.pairwise_map]
    simp only [ne_eq, callPart_normalizeResponsesId, normalizeIdPart_eq_iff]
    refine and_congr_right fun _ => forall₂_congr fun id hid => ?_
    have hresult := resultIdAfter_eq_iff (by rfl) (fun id source source' =>
      (callPart_normalizeResponsesId model allowed id source).trans
        (callPart_normalizeResponsesId model allowed id source').symm) before hforeign (hown id hid)
    rw [callPart_normalizeResponsesId] at hresult
    rw [hresult, normalizeResponsesId_nil_iff]

def twoCallMessage (first second : String) : AssistantMessage :=
  ⟨some [.toolCall (callOf first), .toolCall (callOf second)], "other-api", "other", "m",
    .toolUse, 0⟩

def plainCompat : CompletionsCompat := ⟨false, false, false, false, false⟩

/-- The result of the first call of `twoCallMessage`. -/
def resultMessage (id : String) : ToolResultMessage :=
  ⟨js id, "read", some [.text "ok" none], none, [], false, 0⟩

theorem tool_call_ids_attributed_two :
    Attributed [js "call_a|fc_1", js "call_b|fc_2"] [js "call_a|fc_1"]
      (fun id => normalizeCompletionsId id someModel (twoCallMessage "call_a|fc_1" "call_b|fc_2"))
      (resultIdAfter someModel (some normalizeCompletionsId)
        [.assistant (twoCallMessage "call_a|fc_1" "call_b|fc_2")]) := by
  have hown : ∀ id ∈ resultIds [resultMessage "call_a|fc_1"],
      id ∈ (twoCallMessage "call_a|fc_1" "call_b|fc_2").callIds := by decide
  have hforeign : isSameModel someModel
      (twoCallMessage "call_a|fc_1" "call_b|fc_2").normalized = false := by decide
  have hsent := (tool_call_ids_attributed hforeign rfl [] [] hown 0).1 plainCompat none
  refine hsent.2.mpr ⟨?_, by decide⟩
  refine List.pairwise_pair.mpr fun halike => ?_
  have hfive := halike 5
  revert hfive
  decide

/-- The two calls and the results of both, as the responses interface sends
them, and as the completions interface does. -/
theorem tool_call_ids_merged :
    let history : List Message := [.assistant (twoCallMessage "call+1|fc_1" "call/1|fc_2"),
      resultOf "call+1|fc_1", resultOf "call/1|fc_2"]
    let merged : List WireId := [.call (js "call_1"), .call (js "call_1"), .result (js "call_1"),
      .result (js "call_1")]
    (convertMessages someModel plainCompat none history 0).flatMap ChatParam.wireIds = merged ∧
      (convertResponsesMessages someModel none history ["provider"] true true 0).map
        (·.flatMap ResponseItem.wireIds) = some merged := by
  decide +kernel

end Ai

end Eagent
