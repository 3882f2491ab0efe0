import Eagent.CompletionsAssembly

/-!
# What a chat completions stream comes to

The blocks are finished in the order of the content, so each content index
gets its end after its deltas. What is left then is the last event.
-/

namespace Eagent.Ai

/-! ## The blocks at the end -/

/-- The block as `finishBlock` leaves it. -/
def StreamingBlock.finished (parseStreamingJson : Option String → Json) :
    StreamingBlock → StreamingBlock
  | .toolCall block => .toolCall
      { block with
        arguments := parseStreamingJson block.partialArgs
        partialArgs := none
        streamIndex := none }
  | block => block

def finishedContent (parseStreamingJson : Option String → Json) (blocks : List StreamingBlock) :
    List AssistantBlock :=
  blocks.map fun block => (block.finished parseStreamingJson).toAssistantBlock

namespace CompletionsStream

variable {s : CompletionsStream}

theorem finishBlock_eq (parseStreamingJson : Option String → Json) {p : Nat}
    {block : StreamingBlock} (h : s.blocks[p]? = some block) :
    s.finishBlock parseStreamingJson p = { s with
      blocks := s.blocks.set p (block.finished parseStreamingJson)
      events := s.events ++
        [(block.finished parseStreamingJson).toAssistantBlock.endEvent p] } := by
  have hsame : s.blocks.set p block = s.blocks := by
    obtain ⟨hp, heq⟩ := List.getElem?_eq_some_iff.mp h
    rw [← heq, List.set_getElem_self]
  rw [finishBlock, h]
  cases block with
  | text own =>
    dsimp only [StreamingBlock.finished]
    rw [hsame]
    rfl
  | thinking own _ =>
    dsimp only [StreamingBlock.finished]
    rw [hsame]
    rfl
  | toolCall block =>
    dsimp only
    rw [CompletionsStream.modify, ← List.set_eq_modify]
    rfl

/-- The loop over the blocks, up to the `n`th. -/
theorem finishBlocks_eq (parseStreamingJson : Option String → Json) {n : Nat}
    (hn : n ≤ s.blocks.length) :
    (List.range n).foldl (finishBlock parseStreamingJson) s = { s with
      blocks := (s.blocks.take n).map (StreamingBlock.finished parseStreamingJson) ++
        s.blocks.drop n
      events := s.events ++ (s.blocks.take n).mapIdx fun p block =>
        (block.finished parseStreamingJson).toAssistantBlock.endEvent p } := by
  induction n with
  | zero => simp
  | succ n ih =>
    have hlt : n < s.blocks.length := hn
    have hlength : ((s.blocks.take n).map
        (StreamingBlock.finished parseStreamingJson)).length = n := by
      rw [List.length_map, List.length_take]
      omega
    have hdrop : s.blocks.drop n = s.blocks[n] :: s.blocks.drop (n + 1) :=
      List.drop_eq_getElem_cons hlt
    rw [List.range_succ, List.foldl_append, ih (by omega), List.foldl_cons, List.foldl_nil, hdrop]
    have hblock : ((s.blocks.take n).map (StreamingBlock.finished parseStreamingJson) ++
        s.blocks[n] :: s.blocks.drop (n + 1))[n]? = some s.blocks[n] := by
      rw [List.getElem?_append_right (Nat.le_of_eq hlength), hlength, Nat.sub_self]
      rfl
    rw [finishBlock_eq parseStreamingJson hblock]
    dsimp only
    rw [List.set_append_right _ _ (Nat.le_of_eq hlength), hlength, Nat.sub_self,
      List.set_cons_zero, List.take_succ_eq_append_getElem hlt, List.map_append, List.map_singleton,
      List.mapIdx_append, List.append_assoc, List.append_assoc]
    have hindex : (s.blocks.take n).length = n := by rw [List.length_take]; omega
    simp only [hindex, List.mapIdx_cons, List.mapIdx_nil, Nat.zero_add, List.singleton_append]

/-- The message is complete, and one more event tells it. -/
structure EndsIn (parseStreamingJson : Option String → Json) (s s' : CompletionsStream)
    (last : AssistantMessageEvent) : Prop where
  content : s'.content = finishedContent parseStreamingJson s.blocks
  events : s'.events = s.events ++
    ((finishedContent parseStreamingJson s.blocks).mapIdx fun p block => block.endEvent p) ++
      [last]

end CompletionsStream

/-! ## The last event -/

def AssistantMessageEvent.message? : AssistantMessageEvent → Option StreamedMessage
  | .done _ message => some message
  | .error _ message => some message
  | _ => none

def AssistantMessageEvent.isDone : AssistantMessageEvent → Bool
  | .done .. => true
  | _ => false

def hasFinish (chunks : List ChatCompletionChunk) : Bool :=
  chunks.any fun chunk => (chunk.finishReason.filter truthy).isSome

namespace CompletionsStream

variable {s : CompletionsStream}

theorem finish_events (parseStreamingJson : Option String → Json) (aborted : Bool) :
    ∃ last, EndsIn parseStreamingJson s (s.finish parseStreamingJson aborted) last ∧
      last.message?.map StreamedMessage.content =
        some (s.finish parseStreamingJson aborted).content ∧
      (last.isDone = true → s.hasFinishReason = true) := by
  have hall := finishBlocks_eq parseStreamingJson (Nat.le_refl s.blocks.length)
  rw [List.take_length, List.drop_length, List.append_nil] at hall
  have hends : (s.blocks.mapIdx fun p block =>
      (block.finished parseStreamingJson).toAssistantBlock.endEvent p) =
      (finishedContent parseStreamingJson s.blocks).mapIdx fun p block => block.endEvent p := by
    refine List.ext_getElem? fun i => ?_
    rw [finishedContent, List.getElem?_mapIdx, List.getElem?_mapIdx, List.getElem?_map,
      Option.map_map]
    rfl
  rw [finish, hall, hends]
  dsimp only
  have hcontent : (s.blocks.map (StreamingBlock.finished parseStreamingJson)).map
      StreamingBlock.toAssistantBlock = finishedContent parseStreamingJson s.blocks :=
    List.map_map
  split
  · exact ⟨_, ⟨hcontent, rfl⟩, rfl, fun h => nomatch h⟩
  · split
    · exact ⟨_, ⟨hcontent, rfl⟩, rfl, fun h => nomatch h⟩
    · split
      · exact ⟨_, ⟨hcontent, rfl⟩, rfl, fun h => nomatch h⟩
      · split
        · exact ⟨_, ⟨hcontent, rfl⟩, rfl, fun h => nomatch h⟩
        · rename_i hfinish
          refine ⟨_, ⟨hcontent, rfl⟩, rfl, fun _ => ?_⟩
          simpa using hfinish

/-! ### What has a finish reason -/

theorem hasFinishReason_takeFinishReason (finishReason : Option String) :
    (s.takeFinishReason finishReason).hasFinishReason =
      (s.hasFinishReason || (finishReason.filter truthy).isSome) := by
  unfold takeFinishReason
  split
  · rename_i h
    rw [h]
    exact (Bool.or_false _).symm
  · rename_i reason h
    rw [h]
    exact (Bool.or_true _).symm

theorem hasFinishReason_takeContent (content : Option String) :
    (s.takeContent content).hasFinishReason = s.hasFinishReason := by
  have hensure : s.ensureTextBlock.1.hasFinishReason = s.hasFinishReason := by
    unfold ensureTextBlock
    split <;> rfl
  unfold takeContent
  split
  · rfl
  · exact hensure

theorem hasFinishReason_takeReasoning (provider : String) (found : Option (String × String)) :
    (s.takeReasoning provider found).hasFinishReason = s.hasFinishReason := by
  have hensure : ∀ signature,
      (s.ensureThinkingBlock signature).1.hasFinishReason = s.hasFinishReason := by
    intro signature
    unfold ensureThinkingBlock
    split <;> rfl
  unfold takeReasoning
  split
  · rfl
  · exact hensure _

theorem hasFinishReason_ensureToolCallBlock (toolCall : ToolCallDelta) :
    (s.ensureToolCallBlock toolCall).1.hasFinishReason = s.hasFinishReason := by
  have hadopt : ∀ (s : CompletionsStream) p index,
      (s.adoptIndex p index).hasFinishReason = s.hasFinishReason := by
    intro s p index
    unfold adoptIndex
    split
    · split <;> rfl
    · rfl
  have hpending : ∀ (s : CompletionsStream) p,
      (s.applyPendingReasoningDetail p).hasFinishReason = s.hasFinishReason := by
    intro s p
    unfold applyPendingReasoningDetail
    split
    · rfl
    · split
      · rfl
      · split <;> rfl
  unfold ensureToolCallBlock
  dsimp only
  rw [hpending]
  refine (hadopt _ _ _).trans ?_
  split <;> rfl

theorem hasFinishReason_takeToolCalls (parseStreamingJson : Option String → Json)
    (toolCalls : List ToolCallDelta) :
    (toolCalls.foldl (takeToolCall parseStreamingJson) s).hasFinishReason =
      s.hasFinishReason := by
  induction toolCalls generalizing s with
  | nil => rfl
  | cons toolCall toolCalls ih =>
    rw [List.foldl_cons, ih]
    exact hasFinishReason_ensureToolCallBlock toolCall

theorem hasFinishReason_takeReasoningDetails (details : List (JsString × String)) :
    (details.foldl takeReasoningDetail s).hasFinishReason = s.hasFinishReason := by
  induction details generalizing s with
  | nil => rfl
  | cons detail details ih =>
    rw [List.foldl_cons, ih, takeReasoningDetail]
    split <;> rfl

theorem hasFinishReason_takeChunks (provider : String)
    (parseStreamingJson : Option String → Json) (chunks : List ChatCompletionChunk) :
    (chunks.foldl (takeChunk provider parseStreamingJson) s).hasFinishReason =
      (s.hasFinishReason || hasFinish chunks) := by
  induction chunks generalizing s with
  | nil => exact (Bool.or_false _).symm
  | cons chunk chunks ih =>
    rw [List.foldl_cons, ih, takeChunk, hasFinishReason_takeReasoningDetails,
      hasFinishReason_takeToolCalls,
      hasFinishReason_takeReasoning, hasFinishReason_takeContent,
      hasFinishReason_takeFinishReason, Bool.or_assoc]
    rfl

end CompletionsStream

/-! ## The message -/

def AssistantBlock.text? : AssistantBlock → Option String
  | .text own _ => some own
  | _ => none

def AssistantBlock.thinking? : AssistantBlock → Option String
  | .thinking own _ _ => some own
  | _ => none

section

variable {κ : Type*} {tags : List (BlockTag κ)} {blocks : List StreamingBlock}
  {R : BlockTag κ → StreamingBlock → Prop}

theorem join_filterMap_of {f : StreamingBlock → Option String} {tag : BlockTag κ} {value : String}
    (h : List.Forall₂ R tags blocks) (hnodup : tags.Nodup)
    (hself : ∀ block, R tag block → f block = some value)
    (hother : ∀ tag' block, tag' ≠ tag → R tag' block → f block = none) :
    (tag ∈ tags → String.join (blocks.filterMap f) = value) ∧
      (tag ∉ tags → String.join (blocks.filterMap f) = "") := by
  induction h with
  | nil => exact ⟨(fun h => nomatch h), fun _ => rfl⟩
  | @cons tag' block tags blocks hblock _ ih =>
    obtain ⟨hnotMem, hnodup⟩ := List.nodup_cons.mp hnodup
    obtain ⟨hin, hout⟩ := ih hnodup
    rw [join_filterMap_cons]
    by_cases htag : tag' = tag
    · subst htag
      refine ⟨fun _ => ?_, fun h => absurd List.mem_cons_self h⟩
      rw [hself block hblock, hout hnotMem, String.append_empty]
      rfl
    · rw [hother tag' block htag hblock, Option.getD_none, String.empty_append]
      exact ⟨fun h => hin ((List.mem_cons.mp h).resolve_left (Ne.symm htag)),
        fun h => hout fun hmem => h (List.mem_cons_of_mem _ hmem)⟩

theorem filterMap_calls {β : Type*} {f : StreamingBlock → Option β} {g : κ → β}
    (h : List.Forall₂ R tags blocks)
    (hf : ∀ tag block, R tag block → f block = tag.call?.map g) :
    blocks.filterMap f = (tags.filterMap BlockTag.call?).map g := by
  induction h with
  | nil => rfl
  | @cons tag block tags blocks hblock _ ih =>
    rw [List.filterMap_cons, hf tag block hblock, List.filterMap_cons]
    cases tag.call? with
    | none => exact ih
    | some k => exact congrArg (g k :: ·) ih

end

section

variable {κ : Type*} [DecidableEq κ] {text thinking : String}
  {calls : List (κ × ToolCallDelta)} {tags : List (BlockTag κ)} {s : CompletionsStream}

/-- What the message has of a call. -/
structure CallSummary where
  id : JsString
  name : String
  arguments : Json
deriving DecidableEq

def ToolCall.summary (call : ToolCall) : CallSummary := ⟨call.id, call.name, call.arguments⟩

def summaryOf (parseStreamingJson : Option String → Json) (fragments : List ToolCallDelta) :
    CallSummary where
  id := (fragments.findSome? ToolCallDelta.id?).getD []
  name := (fragments.findSome? ToolCallDelta.name?).getD ""
  arguments := parseStreamingJson (some (argumentsOf fragments))

variable (parseStreamingJson : Option String → Json)

section

variable (h : Assembles text thinking calls tags s)
include h

theorem text_of_assembles :
    String.join ((finishedContent parseStreamingJson s.blocks).filterMap AssistantBlock.text?) =
      text := by
  have hself : ∀ block, Built text thinking calls .text block →
      (block.finished parseStreamingJson).toAssistantBlock.text? = some text := by
    intro block hblock
    cases block with
    | text own => exact congrArg some hblock
    | thinking _ _ => exact hblock.elim
    | toolCall _ => exact hblock.elim
  have hother : ∀ tag block, tag ≠ .text → Built text thinking calls tag block →
      (block.finished parseStreamingJson).toAssistantBlock.text? = none := by
    intro tag block hne hblock
    cases block with
    | text own =>
      cases tag with
      | text => exact absurd rfl hne
      | thinking => exact hblock.elim
      | call _ => exact hblock.elim
    | thinking _ _ => rfl
    | toolCall _ => rfl
  obtain ⟨hin, hout⟩ := join_filterMap_of h.built h.nodup hself hother
  rw [finishedContent, List.filterMap_map]
  by_cases hmem : .text ∈ tags
  · exact hin hmem
  · exact (hout hmem).trans (h.noText hmem).symm

theorem thinking_of_assembles :
    String.join ((finishedContent parseStreamingJson s.blocks).filterMap
      AssistantBlock.thinking?) = thinking := by
  have hself : ∀ block, Built text thinking calls .thinking block →
      (block.finished parseStreamingJson).toAssistantBlock.thinking? = some thinking := by
    intro block hblock
    cases block with
    | thinking own _ => exact congrArg some hblock
    | text _ => exact hblock.elim
    | toolCall _ => exact hblock.elim
  have hother : ∀ tag block, tag ≠ .thinking → Built text thinking calls tag block →
      (block.finished parseStreamingJson).toAssistantBlock.thinking? = none := by
    intro tag block hne hblock
    cases block with
    | thinking own _ =>
      cases tag with
      | thinking => exact absurd rfl hne
      | text => exact hblock.elim
      | call _ => exact hblock.elim
    | text _ => rfl
    | toolCall _ => rfl
  obtain ⟨hin, hout⟩ := join_filterMap_of h.built h.nodup hself hother
  rw [finishedContent, List.filterMap_map]
  by_cases hmem : .thinking ∈ tags
  · exact hin hmem
  · exact (hout hmem).trans (h.noThinking hmem).symm

theorem calls_of_assembles :
    ((finishedContent parseStreamingJson s.blocks).filterMap AssistantBlock.toolCall?).map
        ToolCall.summary =
      (calls.map Prod.fst).eraseDups.map fun k =>
        summaryOf parseStreamingJson (fragmentsOf calls k) := by
  rw [finishedContent, List.filterMap_map, List.map_filterMap, ← h.owners]
  refine filterMap_calls h.built fun tag block hblock => ?_
  cases block with
  | text _ => cases tag <;> first | rfl | exact hblock.elim
  | thinking _ _ => cases tag <;> first | rfl | exact hblock.elim
  | toolCall block =>
    cases tag with
    | text => exact hblock.elim
    | thinking => exact hblock.elim
    | call k =>
      have hcall : BuiltCall (fragmentsOf calls k) block := hblock
      have hsummary : (⟨block.id, block.name, parseStreamingJson block.partialArgs⟩ :
          CallSummary) = summaryOf parseStreamingJson (fragmentsOf calls k) := by
        rw [summaryOf, hcall.id, hcall.name, hcall.partialArgs]
      exact congrArg some hsummary

end

/-! ## The events of a content index -/

theorem eventsAt_append (p : Nat) (events events' : List AssistantMessageEvent) :
    eventsAt p (events ++ events') = eventsAt p events ++ eventsAt p events' :=
  List.filter_append ..

theorem eventsAt_ends (p : Nat) (content : List AssistantBlock) :
    eventsAt p (content.mapIdx fun q block => block.endEvent q) =
      (content[p]?.map (AssistantBlock.endEvent p)).toList := by
  induction content using List.reverseRecOn with
  | nil => rfl
  | append_singleton content block ih =>
    rw [List.mapIdx_concat, eventsAt_snoc, AssistantBlock.contentIndex_endEvent, ih]
    rcases Nat.lt_trichotomy p content.length with hlt | rfl | hgt
    · rw [if_neg (by simp; omega), List.getElem?_append_left hlt]
    · rw [if_pos rfl, List.getElem?_concat_length, List.getElem?_eq_none (Nat.le_refl _)]
      rfl
    · rw [if_neg (by simp; omega), List.getElem?_eq_none (by omega),
        List.getElem?_eq_none (by simp; omega)]

/-- Every content index has its start, deltas after it, and one end. -/
structure Bracketed (content : List AssistantBlock) (events : List AssistantMessageEvent) :
    Prop where
  started : ∀ p block, content[p]? = some block → ∃ deltas : List String,
    eventsAt p events =
      block.kind.startEvent p :: (deltas.map fun delta => block.kind.deltaEvent p delta) ++
        [block.endEvent p]
  beyond : ∀ p, content.length ≤ p → eventsAt p events = []

theorem kind_of_built {tag : BlockTag κ} {block : StreamingBlock}
    (h : Built text thinking calls tag block) :
    (block.finished parseStreamingJson).toAssistantBlock.kind = tag.kind := by
  cases block <;> cases tag <;> first | rfl | exact h.elim

theorem bracketed_of_assembles (h : Assembles text thinking calls tags s) :
    Bracketed (finishedContent parseStreamingJson s.blocks)
      (s.events ++
        (finishedContent parseStreamingJson s.blocks).mapIdx fun p block => block.endEvent p) := by
  constructor
  · intro p block hp
    rw [finishedContent, List.getElem?_map] at hp
    obtain ⟨streamed, hstreamed, rfl⟩ := Option.map_eq_some_iff.mp hp
    obtain ⟨hlt, -⟩ := List.getElem?_eq_some_iff.mp hstreamed
    have hlt' : p < tags.length := h.length ▸ hlt
    have htag : tags[p]? = some tags[p] := List.getElem?_eq_getElem hlt'
    obtain ⟨streamed', hstreamed', hbuilt⟩ := forall₂_at h.built htag
    obtain rfl := Option.some.inj (hstreamed.symm.trans hstreamed')
    obtain ⟨deltas, hdeltas⟩ := h.narrates.started p tags[p].kind
      (by rw [List.getElem?_map, htag]; rfl)
    refine ⟨deltas, ?_⟩
    rw [eventsAt_append, eventsAt_ends, hdeltas, kind_of_built parseStreamingJson hbuilt,
      finishedContent, List.getElem?_map, hstreamed]
    rfl
  · intro p hp
    rw [finishedContent, List.length_map, h.length] at hp
    rw [eventsAt_append, eventsAt_ends, h.narrates.beyond p (by rw [List.length_map]; exact hp),
      finishedContent, List.getElem?_eq_none (by rw [List.length_map, h.length]; exact hp)]
    rfl

/-! ## The whole -/

/-- What the chunks come to when they are read to the end. -/
structure Assembly (chunks : List ChatCompletionChunk) (calls : List (κ × ToolCallDelta))
    (s : CompletionsStream) : Prop where
  text : String.join (s.content.filterMap AssistantBlock.text?) = contentOf chunks
  thinking : String.join (s.content.filterMap AssistantBlock.thinking?) = reasoningOf chunks
  calls : (s.content.filterMap AssistantBlock.toolCall?).map ToolCall.summary =
    (calls.map Prod.fst).eraseDups.map fun k =>
      summaryOf parseStreamingJson (fragmentsOf calls k)
  events : ∃ body last, s.events = .start :: body ++ [last] ∧
    (∀ e ∈ body, e.contentIndex.isSome) ∧ Bracketed s.content body ∧
    last.message?.map StreamedMessage.content = some s.content ∧
    (last.isDone = true → hasFinish chunks = true)

/-- The calls are marked by `κ`; the deltas themselves carry no such mark. -/
theorem completions_assemble {index : κ → Int} (hindex : Function.Injective index)
    {id : κ → JsString} (hid : Function.Injective id) (provider : String)
    {chunks : List ChatCompletionChunk}
    (hcalls : calls.map Prod.snd = chunks.flatMap ChatCompletionChunk.toolCalls)
    (hkeys : FixedKeys index id calls) (hlinked : Linked calls) (aborted : Bool) :
    Assembly parseStreamingJson chunks calls
        (runCompletionsStream provider parseStreamingJson ⟨chunks, none, aborted⟩) ∧
      ∀ failure, ∃ body last,
        (runCompletionsStream provider parseStreamingJson ⟨chunks, some failure, aborted⟩).events =
          .start :: body ++ [last] ∧
        (∀ e ∈ body, e.contentIndex.isSome) ∧ last.message?.isSome ∧ last.isDone = false := by
  have hstart : Assembles "" "" ([] : List (κ × ToolCallDelta)) [] .start := .start
  have hrun : ∃ tags, Assembles ("" ++ contentOf chunks) ("" ++ reasoningOf chunks) ([] ++ calls)
      tags (chunks.foldl (CompletionsStream.takeChunk provider parseStreamingJson) .start) :=
    hstart.takeChunks hindex hid provider parseStreamingJson hkeys hlinked hcalls
  obtain ⟨tags, h⟩ := hrun
  rw [String.empty_append, String.empty_append, List.nil_append] at h
  obtain ⟨body, hbody, hinner⟩ := h.narrates.shape
  refine ⟨?_, fun failure => ?_⟩
  · obtain ⟨last, hends, hmessage, hdone⟩ :=
      CompletionsStream.finish_events (s := chunks.foldl
        (CompletionsStream.takeChunk provider parseStreamingJson) .start)
        parseStreamingJson aborted
    have hbracketed := bracketed_of_assembles parseStreamingJson h
    rw [hbody, ← hends.content] at hbracketed
    constructor
    · exact (congrArg (fun content => String.join (content.filterMap AssistantBlock.text?))
        hends.content).trans (text_of_assembles parseStreamingJson h)
    · exact (congrArg (fun content => String.join (content.filterMap AssistantBlock.thinking?))
        hends.content).trans (thinking_of_assembles parseStreamingJson h)
    · exact (congrArg (fun content => (content.filterMap AssistantBlock.toolCall?).map
        ToolCall.summary) hends.content).trans (calls_of_assembles parseStreamingJson h)
    · refine ⟨body ++ (CompletionsStream.content _).mapIdx fun p block => block.endEvent p, last,
        ?_, ?_, ⟨hbracketed.started, hbracketed.beyond⟩, hmessage, fun hlast => ?_⟩
      · refine hends.events.trans ?_
        rw [hbody, ← hends.content]
        simp
      · intro e he
        rcases List.mem_append.mp he with he | he
        · exact hinner e he
        · obtain ⟨i, hi, rfl⟩ := List.mem_mapIdx.mp he
          rw [AssistantBlock.contentIndex_endEvent]
          rfl
      · have hfinish := hdone hlast
        rwa [CompletionsStream.hasFinishReason_takeChunks] at hfinish
  · exact ⟨body, _, congrArg (· ++ [_]) hbody, hinner, rfl, rfl⟩

end

/-! ### Two calls at once, and one call in two -/

def toolCallChunk (toolCalls : List ToolCallDelta) : ChatCompletionChunk where
  finishReason := none
  content := none
  reasoningContent := none
  reasoning := none
  reasoningText := none
  toolCalls
  reasoningDetails := []

/-- The fragments of two calls; one goes on by its id, the id of the other is late. -/
def interleavedCalls : List (Bool × ToolCallDelta) :=
  [(false, ⟨some 0, some (js "x"), some "read", some "\x7b"⟩),
    (true, ⟨some 1, none, some "write", some "["⟩),
    (false, ⟨none, some (js "x"), none, some "\x7d"⟩),
    (true, ⟨some 1, some (js "y"), none, some "]"⟩)]

def interleavedChunks : List ChatCompletionChunk :=
  [{ toolCallChunk (interleavedCalls.map Prod.snd |>.take 2) with content := some "a" },
    { toolCallChunk (interleavedCalls.map Prod.snd |>.drop 2) with
      content := some "b", reasoning := some "why", finishReason := some "tool_calls" }]

theorem completions_assemble_interleaved :
    Assembly (fun _ => .obj []) interleavedChunks interleavedCalls
        (runCompletionsStream "openai" (fun _ => .obj []) ⟨interleavedChunks, none, false⟩) ∧
      ∀ failure, ∃ body last,
        (runCompletionsStream "openai" (fun _ => .obj [])
            ⟨interleavedChunks, some failure, false⟩).events = .start :: body ++ [last] ∧
        (∀ e ∈ body, e.contentIndex.isSome) ∧ last.message?.isSome ∧ last.isDone = false := by
  have hindex : Function.Injective fun k : Bool => if k then (1 : Int) else 0 := by
    rintro (_ | _) (_ | _) h <;> simp_all
  have hid : Function.Injective fun k : Bool => if k then js "y" else js "x" := by
    have hne : js "x" ≠ js "y" := by decide +kernel
    rintro (_ | _) (_ | _) h <;> simp_all
  have hkeys : FixedKeys (fun k : Bool => if k then (1 : Int) else 0)
      (fun k : Bool => if k then js "y" else js "x") interleavedCalls :=
    .of_forall (by decide +kernel)
  have hlinked : Linked interleavedCalls :=
    (((Linked.nil.snoc fun h => nomatch h).snoc fun h => absurd h (by decide)).snoc
      fun _ => ⟨_, List.mem_cons_self, .inr ⟨rfl, rfl⟩⟩).snoc
      fun _ => ⟨_, List.mem_cons_of_mem _ List.mem_cons_self, .inl ⟨rfl, rfl⟩⟩
  exact completions_assemble (fun _ => .obj []) hindex hid "openai" rfl hkeys hlinked false

/-- The index and the id of one call, told apart at first. -/
def splitCalls : List (Unit × ToolCallDelta) :=
  [((), ⟨some 0, none, some "read", some "\x7b"⟩), ((), ⟨none, some (js "x"), none, some "\x7d"⟩),
    ((), ⟨some 0, some (js "x"), none, none⟩)]

theorem completions_split_call :
    FixedKeys (fun _ => 0) (fun _ => js "x") splitCalls ∧
      ¬ Assembly (fun _ => .obj []) [toolCallChunk (splitCalls.map Prod.snd)] splitCalls
        (runCompletionsStream "openai" (fun _ => .obj [])
          ⟨[toolCallChunk (splitCalls.map Prod.snd)], none, false⟩) := by
  refine ⟨?_, fun h => ?_⟩
  · exact .of_forall (by decide +kernel)
  · have hlength := congrArg List.length h.calls
    revert hlength
    decide +kernel

end Eagent.Ai
