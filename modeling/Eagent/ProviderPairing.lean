import Mathlib.Data.List.Nodup
import Eagent.TransformMessages

/-!
# Tool calls and results of a provider history

The second pass of `transformMessages` follows every message that stays
with its results and one synthetic result for each call that has none
(`pairRest`), so the history it returns is well paired exactly when the one
it gets has no results that answer no call and none twice. What the first
pass does to the ids of a result depends on all earlier messages.
-/

namespace Eagent

namespace Ai

/-! ## Well paired histories -/

/-- The results a history begins with. -/
def answers : List Message → List ToolResultMessage
  | .toolResult r :: rest => r :: answers rest
  | _ => []

/-- Of every message of `rest` and the results right after it; `before` is
what stands before. -/
def EachTurn (P : List Message → Message → List ToolResultMessage → Prop) :
    List Message → List Message → Prop
  | _, [] => True
  | before, msg :: rest => P before msg (answers rest) ∧ EachTurn P (before ++ [msg]) rest

def resultIds (results : List ToolResultMessage) : List JsString :=
  results.map ToolResultMessage.toolCallId

def AssistantMessage.callIds (m : AssistantMessage) : List JsString := m.toolCalls.map ToolCall.id

def Answered (callIds resultIds : List JsString) : Prop :=
  (∀ id ∈ callIds, resultIds.count id = 1) ∧ ∀ id ∈ resultIds, id ∈ callIds

def TurnPaired (_ : List Message) (msg : Message) (results : List ToolResultMessage) : Prop :=
  match msg with
  | .assistant m => Answered m.callIds (resultIds results)
  | .user _ _ => results = []
  | .toolResult _ => True

/-- Before the next assistant or user message, exactly one result for each
call, and no other results. -/
def WellPaired (history : List Message) : Prop :=
  answers history = [] ∧ EachTurn TurnPaired [] history

/-! ## Answers -/

@[simp] theorem answers_map (results : List ToolResultMessage) (rest : List Message) :
    answers (results.map .toolResult ++ rest) = results ++ answers rest := by
  induction results with
  | nil => rfl
  | cons r results ih => rw [List.map_cons, List.cons_append, answers, ih, List.cons_append]

/-- What holds of a turn wherever it stands says nothing of results alone. -/
theorem eachTurn_results (results : List ToolResultMessage) (before rest : List Message) :
    EachTurn TurnPaired before (results.map .toolResult ++ rest) ↔
      EachTurn TurnPaired [] rest := by
  have hbefore : ∀ {before before' rest : List Message},
      EachTurn TurnPaired before rest → EachTurn TurnPaired before' rest := by
    intro before before' rest h
    induction rest generalizing before before' with
    | nil => trivial
    | cons msg rest ih => exact ⟨h.1, ih h.2⟩
  induction results generalizing before with
  | nil => exact ⟨hbefore, hbefore⟩
  | cons r results ih =>
    rw [List.map_cons, List.cons_append, EachTurn]
    exact (and_iff_right trivial).trans (ih _)

/-- The ids of results, of missing results and of stray ones answer the
calls when nothing is stray and no result is wrong. -/
theorem answered_iff {calls found stray : List JsString} (hcalls : calls.Nodup) :
    Answered calls (found ++ calls.filter (· ∉ found) ++ stray) ↔
      stray = [] ∧ found.Nodup ∧ ∀ id ∈ found, id ∈ calls := by
  have hmissing : ∀ id ∈ calls, (calls.filter (· ∉ found)).count id =
      if id ∈ found then 0 else 1 := by
    intro id hid
    by_cases hfound : id ∈ found
    · rw [if_pos hfound, List.count_eq_zero]
      simp [hfound]
    · rw [if_neg hfound, List.count_filter (by simpa using hfound)]
      exact List.count_eq_one_of_mem hcalls hid
  constructor
  · rintro ⟨hcount, hmem⟩
    have hboth : ∀ id ∈ calls, found.count id + (if id ∈ found then 0 else 1) + stray.count id = 1 := by
      intro id hid
      rw [← hmissing id hid, ← List.count_append, ← List.count_append]
      exact hcount id hid
    refine ⟨?_, ?_, fun id hid => hmem id (by simp [hid])⟩
    · refine List.eq_nil_iff_forall_not_mem.mpr fun id hid => ?_
      have hone := hboth id (hmem id (by simp [hid]))
      have hstray := List.count_pos_iff.mpr hid
      split at hone
      · rename_i hfound
        have hpos := List.count_pos_iff.mpr hfound
        omega
      · omega
    · rw [List.nodup_iff_count_le_one]
      intro id
      by_cases hid : id ∈ found
      · have hone := hboth id (hmem id (by simp [hid]))
        rw [if_pos hid] at hone
        omega
      · rw [List.count_eq_zero.mpr hid]
        omega
  · rintro ⟨rfl, hnodup, hsub⟩
    refine ⟨fun id hid => ?_, fun id hid => ?_⟩
    · rw [List.append_nil, List.count_append, hmissing id hid]
      by_cases hfound : id ∈ found
      · rw [if_pos hfound, List.count_eq_one_of_mem hnodup hfound]
      · rw [if_neg hfound, List.count_eq_zero.mpr hfound]
    · rw [List.append_nil] at hid
      rcases List.mem_append.mp hid with hid | hid
      · exact hsub id hid
      · exact List.mem_of_mem_filter hid

/-! ## The second pass -/

section SecondPass

variable (now : Nat)

def missing (pending : List ToolCall) (existing : List JsString) : List ToolResultMessage :=
  (pending.filter fun tc => tc.id ∉ existing).map (syntheticToolResult now)

/-- What the pass makes of the rest of a history, from the calls that still
wait for results and the ids of the results they have. -/
def pairRest : List ToolCall → List JsString → List Message → List Message
  | pending, existing, [] => (missing now pending existing).map .toolResult
  | pending, existing, .toolResult r :: rest =>
      .toolResult r :: pairRest pending (r.toolCallId :: existing) rest
  | pending, existing, .user content timestamp :: rest =>
      (missing now pending existing).map .toolResult ++ .user content timestamp ::
        pairRest [] [] rest
  | pending, existing, .assistant m :: rest =>
      (missing now pending existing).map .toolResult ++
        if m.failed then pairRest [] [] rest
        else .assistant m :: pairRest m.toolCalls [] rest

theorem missing_nil (existing : List JsString) : missing now [] existing = [] := rfl

theorem pairRest_nil (existing : List JsString) (rest : List Message) :
    pairRest now [] existing rest = pairRest now [] [] rest := by
  induction rest generalizing existing with
  | nil => rfl
  | cons msg rest ih =>
    cases msg with
    | user content timestamp => rfl
    | assistant m => rfl
    | toolResult r => rw [pairRest, pairRest, ih, ih [r.toolCallId]]

theorem insertSynthetic_eq (s : Pairing) :
    ∃ existing, s.insertSyntheticToolResults now =
      ⟨s.result ++ (missing now s.pendingToolCalls s.existingToolResultIds).map .toolResult, [],
        existing⟩ := by
  unfold Pairing.insertSyntheticToolResults
  split
  · refine ⟨[], ?_⟩
    simp [missing]
  · rename_i hnone
    obtain ⟨result, pending, existing⟩ := s
    obtain rfl : pending = [] := List.length_eq_zero_iff.mp (by simpa using hnone)
    exact ⟨existing, by simp [missing]⟩

theorem foldl_step (history : List Message) (s : Pairing) :
    ((history.foldl (Pairing.step now) s).insertSyntheticToolResults now).result =
      s.result ++ pairRest now s.pendingToolCalls s.existingToolResultIds history := by
  induction history generalizing s with
  | nil =>
    obtain ⟨existing, hinsert⟩ := insertSynthetic_eq now s
    rw [List.foldl_nil, hinsert, pairRest]
  | cons msg history ih =>
    rw [List.foldl_cons, ih]
    obtain ⟨existing, hinsert⟩ := insertSynthetic_eq now s
    cases msg with
    | toolResult r => simp [Pairing.step, Pairing.push, pairRest]
    | user content timestamp =>
      rw [Pairing.step, hinsert]
      simp [Pairing.push, pairRest, pairRest_nil now existing]
    | assistant m =>
      rw [Pairing.step, hinsert]
      by_cases hfailed : m.failed
      · simp [hfailed, pairRest, pairRest_nil now existing]
      · simp only [if_neg hfailed]
        unfold Pairing.track
        split
        · simp [hfailed, Pairing.push, pairRest]
        · rename_i hnone
          have hcalls : m.toolCalls = [] := List.length_eq_zero_iff.mp (by simpa using hnone)
          simp [hfailed, Pairing.push, pairRest, hcalls, pairRest_nil now existing]

def stray : List Message → List ToolResultMessage
  | .toolResult _ :: rest => stray rest
  | .assistant m :: rest => if m.failed then answers rest ++ stray rest else []
  | _ => []

theorem missing_congr {pending : List ToolCall} {existing existing' : List JsString}
    (h : ∀ id, id ∈ existing ↔ id ∈ existing') :
    missing now pending existing = missing now pending existing' := by
  simp only [missing, h]

theorem answers_pairRest (pending : List ToolCall) (existing : List JsString)
    (history : List Message) :
    answers (pairRest now pending existing history) =
      answers history ++ missing now pending (resultIds (answers history) ++ existing) ++
        stray history := by
  induction history generalizing pending existing with
  | nil =>
    have hanswers := answers_map (missing now pending existing) []
    rw [List.append_nil] at hanswers
    rw [pairRest, hanswers]
    simp [answers, stray, resultIds]
  | cons msg history ih =>
    cases msg with
    | user content timestamp =>
      rw [pairRest, answers_map]
      simp [answers, stray, resultIds]
    | toolResult r =>
      rw [pairRest, answers, ih, answers, stray]
      have hids : missing now pending (resultIds (answers history) ++ r.toolCallId :: existing) =
          missing now pending (resultIds (r :: answers history) ++ existing) := by
        refine missing_congr now fun id => ?_
        simp only [resultIds, List.map_cons, List.mem_append, List.mem_cons]
        tauto
      rw [hids]
      simp
    | assistant m =>
      rw [pairRest, answers_map]
      by_cases hfailed : m.failed
      · rw [if_pos hfailed, ih, missing_nil]
        simp [answers, stray, resultIds, hfailed]
      · rw [if_neg hfailed]
        simp [answers, stray, resultIds, hfailed]

def TurnWithStray (msg : Message) (results stray : List ToolResultMessage) : Prop :=
  match msg with
  | .assistant m => m.failed = false → Answered m.callIds (resultIds
      (results ++ missing now m.toolCalls (resultIds results) ++ stray))
  | .user _ _ => results ++ stray = []
  | .toolResult _ => True

/-- Every turn of the second pass, from the history it gets. -/
def EachWithStray : List Message → Prop
  | [] => True
  | msg :: rest => TurnWithStray now msg (answers rest) (stray rest) ∧ EachWithStray rest

theorem eachTurn_pairRest (pending : List ToolCall) (existing : List JsString)
    (before history : List Message) :
    EachTurn TurnPaired before (pairRest now pending existing history) ↔
      EachWithStray now history := by
  induction history generalizing pending existing before with
  | nil =>
    have hnone := eachTurn_results (missing now pending existing) before []
    rw [List.append_nil] at hnone
    rw [pairRest, hnone]
    rfl
  | cons msg history ih =>
    cases msg with
    | user content timestamp =>
      rw [pairRest, eachTurn_results, EachTurn, ih, answers_pairRest]
      simp [EachWithStray, TurnPaired, TurnWithStray, missing_nil]
    | toolResult r =>
      rw [pairRest, EachTurn, ih]
      simp [EachWithStray, TurnPaired, TurnWithStray]
    | assistant m =>
      rw [pairRest, eachTurn_results]
      by_cases hfailed : m.failed
      · rw [if_pos hfailed, ih]
        simp [EachWithStray, TurnWithStray, hfailed]
      · rw [if_neg hfailed, EachTurn, ih, answers_pairRest]
        simp [EachWithStray, TurnPaired, TurnWithStray, hfailed]

theorem resultIds_missing (m : AssistantMessage) (found : List JsString) :
    resultIds (missing now m.toolCalls found) = m.callIds.filter (· ∉ found) := by
  rw [resultIds, missing, AssistantMessage.callIds, List.map_map, List.filter_map]
  rfl

end SecondPass

def TurnClean (msg : Message) (results : List ToolResultMessage) : Prop :=
  match msg with
  | .assistant m =>
      if m.failed then results = []
      else (resultIds results).Nodup ∧ ∀ id ∈ resultIds results, id ∈ m.callIds
  | .user _ _ => results = []
  | .toolResult _ => True

theorem clean_iff (now : Nat) {history : List Message}
    (hcalls : ∀ m, .assistant m ∈ history → m.failed = false → m.callIds.Nodup)
    (before : List Message) :
    stray history = [] ∧ EachWithStray now history ↔
      EachTurn (fun _ => TurnClean) before history := by
  induction history generalizing before with
  | nil => exact ⟨fun _ => trivial, fun _ => ⟨rfl, trivial⟩⟩
  | cons msg history ih =>
    have ih := ih (fun m hm => hcalls m (List.mem_cons_of_mem _ hm)) (before ++ [msg])
    rw [EachTurn, ← ih]
    cases msg with
    | user content timestamp =>
      simp only [stray, EachWithStray, TurnWithStray, TurnClean, List.append_eq_nil_iff]
      tauto
    | toolResult r =>
      simp only [stray, EachWithStray, TurnWithStray, TurnClean]
      tauto
    | assistant m =>
      by_cases hfailed : m.failed
      · simp only [stray, EachWithStray, TurnWithStray, TurnClean, hfailed, if_true,
          List.append_eq_nil_iff]
        simp only [Bool.true_eq_false, false_imp_iff, true_and, and_assoc]
      · have hstays : m.failed = false := by simpa using hfailed
        have hanswered : Answered m.callIds (resultIds (answers history) ++
            m.callIds.filter (· ∉ resultIds (answers history)) ++
              resultIds (stray history)) ↔ _ :=
          answered_iff (hcalls m List.mem_cons_self hstays)
        have hids : resultIds (answers history ++
            missing now m.toolCalls (resultIds (answers history)) ++ stray history) =
            resultIds (answers history) ++
              m.callIds.filter (· ∉ resultIds (answers history)) ++
              resultIds (stray history) := by
          rw [← resultIds_missing now]
          simp only [resultIds, List.map_append]
        have hstray : resultIds (stray history) = [] ↔ stray history = [] :=
          List.map_eq_nil_iff
        simp only [stray, EachWithStray, TurnWithStray, TurnClean, hstays, hids, hanswered,
          hstray, Bool.false_eq_true, if_false, forall_true_left]
        tauto

/-! ## The first pass -/

/-- What the passes make of a message's content before anything else. -/
def AssistantMessage.normalized (m : AssistantMessage) : AssistantMessage :=
  { m with content := some (m.content.getD []) }

section FirstPass

variable (model : Model) (normalizeToolCallId : Normalizer)

def renaming? (id : JsString) : Message → Option JsString
  | .assistant m =>
      let sent := sentCallId model normalizeToolCallId m.normalized id
      if id ∈ m.callIds ∧ sent ≠ id then some sent else none
  | _ => none

def lastRenaming (before : List Message) (id : JsString) : Option JsString :=
  before.reverse.findSome? (renaming? model normalizeToolCallId id)

def resultIdAfter (before : List Message) (id : JsString) : JsString :=
  match lastRenaming model normalizeToolCallId before id with
  | some sent => if sent ≠ [] then sent else id
  | none => id

/-- Results only right after a message that stays; and of these, sent under
the renamings in force, no two with one id, and each with that of a call. -/
def TurnDelivered (before : List Message) (msg : Message) (results : List ToolResultMessage) :
    Prop :=
  match msg with
  | .assistant m =>
      if m.failed then results = []
      else
        let sent := (resultIds results).map
          (resultIdAfter model normalizeToolCallId (before ++ [msg]))
        sent.Nodup ∧ ∀ id ∈ sent, id ∈ m.callIds.map (sentCallId model normalizeToolCallId m.normalized)
  | .user _ _ => results = []
  | .toolResult _ => True

theorem toolCalls_flatMap (m : AssistantMessage) (blocks : List AssistantBlock) :
    (blocks.flatMap (transformBlock model normalizeToolCallId m)).filterMap
        AssistantBlock.toolCall? =
      (blocks.filterMap AssistantBlock.toolCall?).map
        (transformCall model normalizeToolCallId m) := by
  have hthinking : ∀ same thinking signature redacted,
      (transformThinking same thinking signature redacted).filterMap
        AssistantBlock.toolCall? = [] := by
    intro same thinking signature redacted
    unfold transformThinking
    split_ifs <;> rfl
  induction blocks with
  | nil => rfl
  | cons block blocks ih =>
    rw [List.flatMap_cons, List.filterMap_append, ih]
    cases block with
    | text text signature =>
      rw [transformBlock]
      split <;> rfl
    | thinking thinking signature redacted =>
      rw [transformBlock, hthinking]
      rfl
    | toolCall call => rfl

theorem get_recordCallId (map : OrdMap JsString JsString) (m : AssistantMessage)
    (calls : List ToolCall) (id : JsString) :
    (calls.foldl (fun map call => recordCallId model normalizeToolCallId map m call) map).get id =
      if id ∈ calls.map ToolCall.id ∧ sentCallId model normalizeToolCallId m id ≠ id then
        some (sentCallId model normalizeToolCallId m id)
      else map.get id := by
  induction calls generalizing map with
  | nil => simp
  | cons call calls ih =>
    have hrecord : (recordCallId model normalizeToolCallId map m call).get id =
        if id = call.id ∧ sentCallId model normalizeToolCallId m id ≠ id then
          some (sentCallId model normalizeToolCallId m id)
        else map.get id := by
      unfold recordCallId
      by_cases hid : id = call.id
      · subst hid
        by_cases hsent : sentCallId model normalizeToolCallId m call.id ≠ call.id
        · simp [hsent]
        · simp [hsent]
      · simp only [hid, false_and, if_false]
        split
        · exact OrdMap.get_set_ne _ hid _
        · rfl
    rw [List.foldl_cons, ih, hrecord, List.map_cons]
    by_cases hsent : sentCallId model normalizeToolCallId m id = id
    · simp only [hsent, ne_eq, not_true_eq_false, and_false, if_false]
    · by_cases hid : id = call.id
      · subst hid
        simp only [hsent, ne_eq, not_false_eq_true, and_true, List.mem_cons, true_or, if_true,
          ite_self]
      · simp only [hsent, hid, ne_eq, not_false_eq_true, and_true, List.mem_cons, false_or,
          if_false]

/-- A message after the first steps, with its content there and its images
replaced. -/
def readied (msg : Message) : Message :=
  if .image ∈ model.input then normalizeContent msg
  else downgradeUnsupportedImage (normalizeContent msg)

theorem readied_eq (messages : List Message) :
    downgradeUnsupportedImages (messages.map normalizeContent) model =
      messages.map (readied model) := by
  unfold downgradeUnsupportedImages readied
  split
  · rfl
  · rw [List.map_map]
    rfl

theorem readied_assistant (m : AssistantMessage) :
    readied model (.assistant m) = .assistant m.normalized := by
  unfold readied
  split <;> rfl

theorem readied_toolResult (r : ToolResultMessage) :
    ∃ content, readied model (.toolResult r) = .toolResult { r with content } := by
  unfold readied
  split <;> exact ⟨_, rfl⟩

theorem readied_user (content : Option UserContent) (timestamp : Nat) :
    ∃ content', readied model (.user content timestamp) = .user content' timestamp := by
  unfold readied
  split
  · exact ⟨_, rfl⟩
  · rw [normalizeContent]
    cases content.getD (.blocks []) <;> exact ⟨_, rfl⟩

def firstPass (map : OrdMap JsString JsString) (messages : List Message) : List Message :=
  transformEach model normalizeToolCallId map (messages.map (readied model))

theorem firstPass_user (map : OrdMap JsString JsString) (content : Option UserContent)
    (timestamp : Nat) (rest : List Message) :
    ∃ content', firstPass model normalizeToolCallId map (.user content timestamp :: rest) =
      .user content' timestamp :: firstPass model normalizeToolCallId map rest := by
  obtain ⟨content', hcontent⟩ := readied_user model content timestamp
  exact ⟨content', by rw [firstPass, List.map_cons, hcontent]; rfl⟩

theorem firstPass_toolResult (map : OrdMap JsString JsString) (r : ToolResultMessage)
    (rest : List Message) :
    ∃ r', r'.toolCallId = sentResultId map r.toolCallId ∧
      firstPass model normalizeToolCallId map (.toolResult r :: rest) =
        .toolResult r' :: firstPass model normalizeToolCallId map rest := by
  obtain ⟨content, hcontent⟩ := readied_toolResult model r
  exact ⟨_, rfl, by rw [firstPass, List.map_cons, hcontent]; rfl⟩

/-- An assistant message, with the ids its calls are sent under, and the
renamings in force after it. -/
theorem firstPass_assistant (map : OrdMap JsString JsString) (m : AssistantMessage)
    (rest : List Message) :
    ∃ m' map', m'.failed = m.failed ∧
      m'.callIds = m.callIds.map (sentCallId model normalizeToolCallId m.normalized) ∧
      (∀ id, map'.get id = (renaming? model normalizeToolCallId id (.assistant m)).or (map.get id)) ∧
      firstPass model normalizeToolCallId map (.assistant m :: rest) =
        .assistant m' :: firstPass model normalizeToolCallId map' rest := by
  refine ⟨_, _, ?_, ?_, ?_, by rw [firstPass, List.map_cons, readied_assistant]; rfl⟩
  · rfl
  · simp only [AssistantMessage.callIds, AssistantMessage.toolCalls, AssistantMessage.normalized,
      Option.map_some, Option.getD_some, toolCalls_flatMap, List.map_map]
    rfl
  · intro id
    rw [get_recordCallId, renaming?]
    have hids : m.normalized.toolCalls.map ToolCall.id = m.callIds := rfl
    rw [hids]
    split <;> rfl

/-- `map` holds the renamings in force after `before`. -/
def Holds (map : OrdMap JsString JsString) (before : List Message) : Prop :=
  ∀ id, map.get id = lastRenaming model normalizeToolCallId before id

variable {model normalizeToolCallId}

variable {before : List Message}

theorem Holds.snoc {map map' : OrdMap JsString JsString} {msg : Message}
    (h : Holds model normalizeToolCallId map before)
    (hmap : ∀ id, map'.get id = (renaming? model normalizeToolCallId id msg).or (map.get id)) :
    Holds model normalizeToolCallId map' (before ++ [msg]) := by
  intro id
  rw [hmap, h id, lastRenaming, lastRenaming, List.reverse_append, List.reverse_singleton,
    List.singleton_append, List.findSome?_cons]
  cases renaming? model normalizeToolCallId id msg <;> rfl

variable {map : OrdMap JsString JsString}

section

variable (h : Holds model normalizeToolCallId map before)
include h

theorem Holds.sentResultId (id : JsString) :
    sentResultId map id = resultIdAfter model normalizeToolCallId before id := by
  rw [Ai.sentResultId, resultIdAfter, h id]
  cases lastRenaming model normalizeToolCallId before id with
  | none => rfl
  | some sent =>
    by_cases hsent : sent = id
    · simp [hsent]
    · simp [hsent]

theorem resultIds_firstPass (rest : List Message) :
    resultIds (answers (firstPass model normalizeToolCallId map rest)) =
      (resultIds (answers rest)).map (resultIdAfter model normalizeToolCallId before) := by
  induction rest with
  | nil => rfl
  | cons msg rest ih =>
    cases msg with
    | user content timestamp =>
      obtain ⟨content', huser⟩ := firstPass_user model normalizeToolCallId map content timestamp rest
      rw [huser]
      rfl
    | assistant m =>
      obtain ⟨m', map', -, -, -, hassistant⟩ :=
        firstPass_assistant model normalizeToolCallId map m rest
      rw [hassistant]
      rfl
    | toolResult r =>
      obtain ⟨r', hid, hresult⟩ := firstPass_toolResult model normalizeToolCallId map r rest
      rw [hresult, answers, resultIds, List.map_cons, hid, h.sentResultId, answers, resultIds,
        List.map_cons, List.map_cons]
      exact congrArg _ ih

/-- The first pass leaves a clean history exactly when the results are
delivered. -/
theorem clean_firstPass (before' rest : List Message) :
    EachTurn (fun _ => TurnClean) before' (firstPass model normalizeToolCallId map rest) ↔
      EachTurn (TurnDelivered model normalizeToolCallId) before rest := by
  have hnil : ∀ {map before} (rest : List Message), Holds model normalizeToolCallId map before →
      (answers (firstPass model normalizeToolCallId map rest) = [] ↔ answers rest = []) := by
    intro map before rest h
    have hids := resultIds_firstPass h rest
    rw [← List.map_eq_nil_iff (f := ToolResultMessage.toolCallId), ← resultIds, hids,
      List.map_eq_nil_iff, resultIds, List.map_eq_nil_iff]
  induction rest generalizing map before before' with
  | nil => exact ⟨fun _ => trivial, fun _ => trivial⟩
  | cons msg rest ih =>
    cases msg with
    | user content timestamp =>
      obtain ⟨content', huser⟩ := firstPass_user model normalizeToolCallId map content timestamp rest
      have hafter : Holds model normalizeToolCallId map (before ++ [.user content timestamp]) :=
        h.snoc fun _ => rfl
      rw [huser, EachTurn, EachTurn, TurnClean, TurnDelivered, hnil rest h]
      exact and_congr_right fun _ => ih hafter _
    | toolResult r =>
      obtain ⟨r', -, hresult⟩ := firstPass_toolResult model normalizeToolCallId map r rest
      have hafter : Holds model normalizeToolCallId map (before ++ [.toolResult r]) :=
        h.snoc fun _ => rfl
      rw [hresult, EachTurn, EachTurn]
      exact and_congr_right fun _ => ih hafter _
    | assistant m =>
      obtain ⟨m', map', hfailed, hids, hmap, hassistant⟩ :=
        firstPass_assistant model normalizeToolCallId map m rest
      have hafter : Holds model normalizeToolCallId map' (before ++ [.assistant m]) := h.snoc hmap
      rw [hassistant, EachTurn, EachTurn, TurnClean, TurnDelivered, hnil rest hafter, hfailed,
        hids, resultIds_firstPass hafter]
      exact and_congr_right fun _ => ih hafter _

end

theorem mem_firstPass {rest : List Message} {m' : AssistantMessage}
    (h : .assistant m' ∈ firstPass model normalizeToolCallId map rest) :
    ∃ m, .assistant m ∈ rest ∧ m'.failed = m.failed ∧
      m'.callIds = m.callIds.map (sentCallId model normalizeToolCallId m.normalized) := by
  induction rest generalizing map with
  | nil => cases h
  | cons msg rest ih =>
    have hlater : ∀ {map}, .assistant m' ∈ firstPass model normalizeToolCallId map rest →
        ∃ m, .assistant m ∈ msg :: rest ∧ m'.failed = m.failed ∧
          m'.callIds = m.callIds.map (sentCallId model normalizeToolCallId m.normalized) := by
      intro map hrest
      obtain ⟨m, hm, hfacts⟩ := ih hrest
      exact ⟨m, List.mem_cons_of_mem _ hm, hfacts⟩
    cases msg with
    | user content timestamp =>
      obtain ⟨content', huser⟩ := firstPass_user model normalizeToolCallId map content timestamp rest
      rw [huser] at h
      rcases List.mem_cons.mp h with heq | h
      · cases heq
      · exact hlater h
    | toolResult r =>
      obtain ⟨r', -, hresult⟩ := firstPass_toolResult model normalizeToolCallId map r rest
      rw [hresult] at h
      rcases List.mem_cons.mp h with heq | h
      · cases heq
      · exact hlater h
    | assistant m =>
      obtain ⟨n, map', hfailed, hids, -, hassistant⟩ :=
        firstPass_assistant model normalizeToolCallId map m rest
      rw [hassistant] at h
      rcases List.mem_cons.mp h with heq | h
      · obtain rfl := Message.assistant.inj heq
        exact ⟨m, List.mem_cons_self, hfailed, hids⟩
      · exact hlater h

end FirstPass

/-! ## Every history -/

theorem transformMessages_eq (messages : List Message) (model : Model)
    (normalizeToolCallId : Normalizer) (now : Nat) :
    transformMessages messages model normalizeToolCallId now =
      pairRest now [] [] (firstPass model normalizeToolCallId .empty messages) := by
  unfold transformMessages firstPass
  rw [← readied_eq]
  exact foldl_step now _ _

/-- The history that is sent is well paired exactly when the results of the
history that is given are delivered. -/
theorem transformMessages_paired {messages : List Message} {model : Model}
    {normalizeToolCallId : Normalizer} (now : Nat)
    (hcalls : ∀ m, .assistant m ∈ messages → m.failed = false → m.callIds.Nodup)
    (hinjective : ∀ m, .assistant m ∈ messages → ∀ normalize ∈ normalizeToolCallId,
      ∀ id ∈ m.callIds, ∀ id' ∈ m.callIds,
        normalize id model m.normalized = normalize id' model m.normalized → id = id') :
    WellPaired (transformMessages messages model normalizeToolCallId now) ↔
      answers messages = [] ∧ EachTurn (TurnDelivered model normalizeToolCallId) [] messages := by
  have hholds : Holds model normalizeToolCallId .empty [] := fun _ => rfl
  have hnodup : ∀ m', .assistant m' ∈ firstPass model normalizeToolCallId .empty messages →
      m'.failed = false → m'.callIds.Nodup := by
    intro m' hm' hstays
    obtain ⟨m, hm, hfailed, hids⟩ := mem_firstPass hm'
    rw [hids]
    refine (hcalls m hm (hfailed.symm.trans hstays)).map_on fun id hid id' hid' hsent => ?_
    unfold sentCallId at hsent
    split at hsent
    · exact hsent
    · cases normalizeToolCallId with
      | none => exact hsent
      | some normalize => exact hinjective m hm normalize rfl id hid id' hid' hsent
  have hleading := resultIds_firstPass hholds messages
  rw [WellPaired, transformMessages_eq, answers_pairRest, missing_nil, List.append_nil, eachTurn_pairRest,
    List.append_eq_nil_iff, and_assoc, clean_iff now hnodup [], clean_firstPass hholds,
    ← List.map_eq_nil_iff (f := ToolResultMessage.toolCallId), ← resultIds, hleading,
    List.map_eq_nil_iff, resultIds, List.map_eq_nil_iff]

/-! ## Two histories -/

instance eachTurnDecidable (P : List Message → Message → List ToolResultMessage → Prop)
    [∀ before msg results, Decidable (P before msg results)] :
    ∀ before rest, Decidable (EachTurn P before rest)
  | _, [] => isTrue trivial
  | before, msg :: rest =>
      have := eachTurnDecidable P (before ++ [msg]) rest
      inferInstanceAs (Decidable (P before msg (answers rest) ∧ EachTurn P (before ++ [msg]) rest))

instance (callIds ids : List JsString) : Decidable (Answered callIds ids) :=
  inferInstanceAs (Decidable (_ ∧ _))

instance (before : List Message) (msg : Message) (results : List ToolResultMessage) :
    Decidable (TurnPaired before msg results) := by
  cases msg <;> unfold TurnPaired <;> infer_instance

instance (model : Model) (normalizeToolCallId : Normalizer) (before : List Message) (msg : Message)
    (results : List ToolResultMessage) :
    Decidable (TurnDelivered model normalizeToolCallId before msg results) := by
  cases msg <;> unfold TurnDelivered <;> infer_instance

def TurnOfOwn (_ : List Message) (msg : Message) (results : List ToolResultMessage) : Prop :=
  match msg with
  | .assistant m =>
      m.failed = false → m.callIds.Nodup ∧ ∀ id ∈ resultIds results, id ∈ m.callIds
  | _ => True

instance (before : List Message) (msg : Message) (results : List ToolResultMessage) :
    Decidable (TurnOfOwn before msg results) := by
  cases msg <;> unfold TurnOfOwn <;> infer_instance

instance (history : List Message) : Decidable (WellPaired history) :=
  inferInstanceAs (Decidable (_ ∧ _))

def callOf (id : String) : ToolCall := ⟨js id, "read", .obj [], none⟩

def resultOf (id : String) : Message :=
  .toolResult ⟨js id, "read", some [.text "ok" none], none, [], false, 0⟩

def callMessage (model id : String) : Message :=
  .assistant ⟨some [.toolCall (callOf id)], "api", "provider", model, .toolUse, 0⟩

def someModel : Model := ⟨"new", "api", "provider", [.text], false⟩

def firstUnits : Normalizer := some fun id _ _ => id.take 6

def foreignHistory : List Message :=
  [.user (some (.string "go")) 0, callMessage "old" "call_1+1", resultOf "call_1+1",
    callMessage "old" "call_2+2"]

theorem transformMessages_paired_foreign :
    WellPaired (transformMessages foreignHistory someModel firstUnits 0) ∧
      (transformMessages foreignHistory someModel firstUnits 0).length = 5 := by
  have hcases : ∀ m, .assistant m ∈ foreignHistory → m.callIds = [js "call_1+1"] ∨
      m.callIds = [js "call_2+2"] := by
    intro m hm
    simp only [foreignHistory, callMessage, resultOf, List.mem_cons, List.not_mem_nil, or_false,
      Message.assistant.injEq, reduceCtorEq, false_or] at hm
    rcases hm with rfl | rfl
    · exact .inl rfl
    · exact .inr rfl
  refine ⟨(transformMessages_paired 0 ?_ ?_).mpr ?_, by decide +kernel⟩
  · intro m hm _
    rcases hcases m hm with hids | hids <;> rw [hids] <;> exact List.nodup_singleton _
  · intro m hm normalize _ id hid id' hid' _
    rcases hcases m hm with hids | hids <;> rw [hids] at hid hid' <;>
      exact (List.mem_singleton.mp hid).trans (List.mem_singleton.mp hid').symm
  · decide +kernel

/-- An id that recurs in a message of the model itself. -/
def reusedHistory : List Message :=
  [callMessage "old" "call_1+1", resultOf "call_1+1", callMessage "new" "call_1+1",
    resultOf "call_1+1"]

/-- The renaming for the foreign message is in force for the later result
too. -/
theorem transformMessages_renames_reused :
    EachTurn TurnOfOwn [] reusedHistory ∧
      (∀ m, .assistant m ∈ reusedHistory → ∃ id, m.callIds = [id]) ∧
      ¬ WellPaired (transformMessages reusedHistory someModel firstUnits 0) := by
  refine ⟨by decide +kernel, fun m hm => ?_, by decide +kernel⟩
  simp only [reusedHistory, callMessage, resultOf, List.mem_cons, List.not_mem_nil, or_false,
    Message.assistant.injEq, reduceCtorEq, false_or] at hm
  rcases hm with rfl | rfl <;> exact ⟨_, rfl⟩

end Ai

end Eagent
