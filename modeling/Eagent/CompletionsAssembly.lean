import Mathlib.Data.List.Forall2
import Eagent.CompletionsStream

/-!
# How chat completions are assembled

Every block has a tag: it is the text, the thinking, or one call. `Assembles`
says what the blocks, the references to them and the events are after some
deltas, by the list of tags. A call is known by what its fragments have
carried so far, so a later fragment is found when it carries an index or an id
that is already known.
-/

namespace Eagent.Ai

/-! ## Events of a content index -/

def AssistantMessageEvent.contentIndex : AssistantMessageEvent → Option Nat
  | .textStart p | .thinkingStart p | .toolcallStart p => some p
  | .textDelta p _ | .thinkingDelta p _ | .toolcallDelta p _ => some p
  | .textEnd p _ | .thinkingEnd p _ | .toolcallEnd p _ => some p
  | .start | .done .. | .error .. => none

inductive BlockKind where
  | text | thinking | toolCall

namespace BlockKind

def startEvent (p : Nat) : BlockKind → AssistantMessageEvent
  | text => .textStart p
  | thinking => .thinkingStart p
  | toolCall => .toolcallStart p

def deltaEvent (p : Nat) (delta : String) : BlockKind → AssistantMessageEvent
  | text => .textDelta p delta
  | thinking => .thinkingDelta p delta
  | toolCall => .toolcallDelta p delta

@[simp] theorem contentIndex_startEvent (p : Nat) (kind : BlockKind) :
    (kind.startEvent p).contentIndex = some p := by
  cases kind <;> rfl

@[simp] theorem contentIndex_deltaEvent (p : Nat) (delta : String) (kind : BlockKind) :
    (kind.deltaEvent p delta).contentIndex = some p := by
  cases kind <;> rfl

end BlockKind

def AssistantBlock.kind : AssistantBlock → BlockKind
  | .text .. => .text
  | .thinking .. => .thinking
  | .toolCall _ => .toolCall

def AssistantBlock.endEvent (p : Nat) : AssistantBlock → AssistantMessageEvent
  | .text own _ => .textEnd p own
  | .thinking own _ _ => .thinkingEnd p own
  | .toolCall call => .toolcallEnd p call

@[simp] theorem AssistantBlock.contentIndex_endEvent (p : Nat) (block : AssistantBlock) :
    (block.endEvent p).contentIndex = some p := by
  cases block <;> rfl

def eventsAt (p : Nat) (events : List AssistantMessageEvent) : List AssistantMessageEvent :=
  events.filter fun e => e.contentIndex = some p

theorem eventsAt_snoc (p : Nat) (events : List AssistantMessageEvent) (e : AssistantMessageEvent) :
    eventsAt p (events ++ [e]) =
      if e.contentIndex = some p then eventsAt p events ++ [e] else eventsAt p events := by
  rw [eventsAt, List.filter_append, List.filter_singleton]
  by_cases h : e.contentIndex = some p
  · rw [if_pos h, decide_eq_true h]
    rfl
  · rw [if_neg h, decide_eq_false h]
    exact List.append_nil _

/-- The events tell of blocks of these kinds, none of which has ended. -/
structure Narrates (kinds : List BlockKind) (events : List AssistantMessageEvent) : Prop where
  shape : ∃ body, events = .start :: body ∧ ∀ e ∈ body, e.contentIndex.isSome
  started : ∀ p kind, kinds[p]? = some kind → ∃ deltas : List String,
    eventsAt p events = kind.startEvent p :: deltas.map fun delta => kind.deltaEvent p delta
  beyond : ∀ p, kinds.length ≤ p → eventsAt p events = []

namespace Narrates

variable {kinds : List BlockKind} {events : List AssistantMessageEvent}

theorem nil : Narrates [] [.start] :=
  ⟨⟨[], rfl, by simp⟩, by simp, fun _ _ => rfl⟩

theorem shape_snoc (h : ∃ body, events = .start :: body ∧ ∀ e ∈ body, e.contentIndex.isSome)
    {e : AssistantMessageEvent} (he : e.contentIndex.isSome) :
    ∃ body, events ++ [e] = .start :: body ∧ ∀ e ∈ body, e.contentIndex.isSome := by
  obtain ⟨body, rfl, hbody⟩ := h
  refine ⟨body ++ [e], rfl, fun x hx => ?_⟩
  rcases List.mem_append.mp hx with hx | hx
  · exact hbody x hx
  · rwa [List.mem_singleton.mp hx]

theorem start (h : Narrates kinds events) (kind : BlockKind) :
    Narrates (kinds ++ [kind]) (events ++ [kind.startEvent kinds.length]) := by
  refine ⟨shape_snoc h.shape (by simp), ?_, ?_⟩
  · intro p kind' hp
    rw [eventsAt_snoc, BlockKind.contentIndex_startEvent]
    rcases Nat.lt_trichotomy p kinds.length with hlt | rfl | hgt
    · rw [if_neg (by simp; omega)]
      rw [List.getElem?_append_left hlt] at hp
      exact h.started p kind' hp
    · rw [List.getElem?_concat_length] at hp
      obtain rfl := Option.some.inj hp
      rw [if_pos rfl, h.beyond _ (Nat.le_refl _)]
      exact ⟨[], rfl⟩
    · rw [List.getElem?_eq_none (by simp; omega)] at hp
      cases hp
  · intro p hp
    rw [List.length_append, List.length_singleton] at hp
    rw [eventsAt_snoc, BlockKind.contentIndex_startEvent, if_neg (by simp; omega)]
    exact h.beyond p (by omega)

theorem delta (h : Narrates kinds events) {p : Nat} {kind : BlockKind}
    (hp : kinds[p]? = some kind) (delta : String) :
    Narrates kinds (events ++ [kind.deltaEvent p delta]) := by
  refine ⟨shape_snoc h.shape (by simp), ?_, ?_⟩
  · intro q kind' hq
    obtain ⟨deltas, hdeltas⟩ := h.started q kind' hq
    rw [eventsAt_snoc, BlockKind.contentIndex_deltaEvent]
    by_cases hpq : p = q
    · subst hpq
      obtain rfl := Option.some.inj (hp.symm.trans hq)
      exact ⟨deltas ++ [delta], by simp [hdeltas]⟩
    · exact ⟨deltas, by rw [if_neg (by simp [hpq]), hdeltas]⟩
  · intro q hq
    obtain ⟨hlt, -⟩ := List.getElem?_eq_some_iff.mp hp
    rw [eventsAt_snoc, BlockKind.contentIndex_deltaEvent, if_neg (by simp; omega)]
    exact h.beyond q hq

end Narrates

/-! ## Tags and references -/

section

variable {κ : Type*}

inductive BlockTag (κ : Type*) where
  | text
  | thinking
  | call (k : κ)
deriving DecidableEq

namespace BlockTag

def kind : BlockTag κ → BlockKind
  | text => .text
  | thinking => .thinking
  | call _ => .toolCall

def call? : BlockTag κ → Option κ
  | call k => some k
  | _ => none

end BlockTag

def Represents {α : Type*} [DecidableEq α] (known : κ → Option α) (tags : List (BlockTag κ))
    (m : OrdMap α Nat) : Prop :=
  ∀ a p, m.get a = some p ↔ ∃ k, tags[p]? = some (.call k) ∧ known k = some a

variable {tags : List (BlockTag κ)}

variable {tag : BlockTag κ}

theorem getElem?_unique (hnodup : tags.Nodup) {p q : Nat} (hp : tags[p]? = some tag)
    (hq : tags[q]? = some tag) : p = q := by
  obtain ⟨hp, rfl⟩ := List.getElem?_eq_some_iff.mp hp
  obtain ⟨hq, heq⟩ := List.getElem?_eq_some_iff.mp hq
  exact ((List.Nodup.getElem_inj_iff hnodup).mp heq).symm

theorem getElem?_snoc_iff {p : Nat} {tag tag' : BlockTag κ} :
    (tags ++ [tag'])[p]? = some tag ↔
      tags[p]? = some tag ∨ p = tags.length ∧ tag' = tag := by
  rcases Nat.lt_trichotomy p tags.length with hlt | rfl | hgt
  · rw [List.getElem?_append_left hlt]
    exact ⟨.inl, fun h => h.resolve_right fun h => by omega⟩
  · simp
  · rw [List.getElem?_eq_none (by simp; omega), List.getElem?_eq_none (by omega)]
    have hno : none ≠ some tag := (Option.some_ne_none tag).symm
    exact iff_of_false hno fun h => h.elim hno fun h => by omega

theorem mem_filterMap_call? {k : κ} :
    k ∈ tags.filterMap BlockTag.call? ↔ .call k ∈ tags := by
  rw [List.mem_filterMap]
  constructor
  · rintro ⟨tag, hmem, htag⟩
    cases tag with
    | call k' =>
      obtain rfl := Option.some.inj htag
      exact hmem
    | text => cases htag
    | thinking => cases htag
  · exact fun hmem => ⟨_, hmem, rfl⟩

variable {blocks : List StreamingBlock}

theorem forall₂_modify {R : BlockTag κ → StreamingBlock → Prop}
    {R' : BlockTag κ → StreamingBlock → Prop} (hnodup : tags.Nodup) (h : List.Forall₂ R tags blocks)
    {p : Nat} (hp : tags[p]? = some tag) {f : StreamingBlock → StreamingBlock}
    (hf : ∀ block, R tag block → R' tag (f block))
    (hother : ∀ tag' block, tag' ≠ tag → R tag' block → R' tag' block) :
    List.Forall₂ R' tags (blocks.modify p f) := by
  rw [List.forall₂_iff_get] at h ⊢
  refine ⟨by rw [List.length_modify, h.1], fun i hi hi' => ?_⟩
  rw [List.length_modify] at hi'
  have hR := h.2 i hi hi'
  simp only [List.get_eq_getElem] at hR ⊢
  rw [List.getElem_modify]
  by_cases hpi : p = i
  · subst hpi
    rw [List.getElem?_eq_getElem hi] at hp
    rw [if_pos rfl, Option.some.inj hp]
    exact hf _ (Option.some.inj hp ▸ hR)
  · rw [if_neg hpi]
    refine hother _ _ (fun heq => hpi ?_) hR
    exact getElem?_unique hnodup hp (by rw [List.getElem?_eq_getElem hi, heq])

theorem forall₂_imp_mem {R R' : BlockTag κ → StreamingBlock → Prop} (h : List.Forall₂ R tags blocks)
    (himp : ∀ tag ∈ tags, ∀ block, R tag block → R' tag block) :
    List.Forall₂ R' tags blocks := by
  rw [List.forall₂_iff_get] at h ⊢
  exact ⟨h.1, fun i hi hi' => himp _ (List.get_mem tags ⟨i, hi⟩) _ (h.2 i hi hi')⟩

theorem forall₂_at {R : BlockTag κ → StreamingBlock → Prop} (h : List.Forall₂ R tags blocks)
    {p : Nat} (hp : tags[p]? = some tag) :
    ∃ block, blocks[p]? = some block ∧ R tag block := by
  obtain ⟨hlt, rfl⟩ := List.getElem?_eq_some_iff.mp hp
  have hlt' : p < blocks.length := h.length_eq ▸ hlt
  exact ⟨blocks[p], List.getElem?_eq_getElem hlt', (List.forall₂_iff_get.mp h).2 p hlt hlt'⟩

namespace Represents

variable {α : Type*} [DecidableEq α] {known known' : κ → Option α} {m : OrdMap α Nat}

section

variable (h : Represents known tags m)
include h

theorem snoc {tag : BlockTag κ} (htag : ∀ k, tag = .call k → known k = none) :
    Represents known (tags ++ [tag]) m := by
  intro a p
  rw [h a p]
  refine exists_congr fun k => and_congr_left fun hknown => ?_
  rw [getElem?_snoc_iff]
  refine ⟨.inl, fun h => h.resolve_right fun ⟨_, heq⟩ => ?_⟩
  rw [htag k heq] at hknown
  cases hknown

/-- The key `a` of the call `k` becomes known, or is known again. -/
theorem set (hnodup : tags.Nodup) {p : Nat} {k : κ} {a : α} (hp : tags[p]? = some (.call k))
    (hk : known' k = some a) (hold : known k = none ∨ known k = some a)
    (hother : ∀ k', k' ≠ k → known' k' = known k') (hinj : ∀ k', known' k' = some a → k' = k) :
    Represents known' tags (m.set a p) := by
  intro b q
  rw [OrdMap.get_set]
  by_cases hab : b = a
  · subst hab
    rw [if_pos rfl]
    constructor
    · intro heq
      obtain rfl := Option.some.inj heq
      exact ⟨k, hp, hk⟩
    · rintro ⟨k', hq, hk'⟩
      obtain rfl := hinj k' hk'
      rw [getElem?_unique hnodup hp hq]
  · rw [if_neg hab, h b q]
    refine exists_congr fun k' => and_congr_right fun _ => ?_
    by_cases hkk : k' = k
    · subst hkk
      rw [hk]
      constructor
      · intro hknown
        rcases hold with hold | hold
        · cases hold.symm.trans hknown
        · exact absurd (Option.some.inj (hknown.symm.trans hold)) hab
      · intro heq
        exact absurd (Option.some.inj heq).symm hab
    · rw [hother k' hkk]

theorem congr (hknown : ∀ k, known' k = known k) :
    Represents known' tags m := by
  intro a p
  rw [h a p]
  exact exists_congr fun k => by rw [hknown k]

theorem add (hnodup : tags.Nodup) {p : Nat} {k : κ} (hp : tags[p]? = some (.call k))
    {key : Option α} (hk : known' k = (known k).or key)
    (hsame : ∀ a b, known k = some a → key = some b → a = b)
    (hother : ∀ k', k' ≠ k → known' k' = known k')
    (hinj : ∀ k' a, known' k' = some a → known' k = some a → k' = k) :
    Represents known' tags (CompletionsStream.setKey m p key) := by
  cases key with
  | none =>
    refine h.congr fun k' => ?_
    by_cases hkk : k' = k
    · rw [hkk, hk, Option.or_none]
    · exact hother k' hkk
  | some a =>
    have hknown : known k = none ∨ known k = some a := by
      rcases hold : known k with _ | b
      · exact .inl rfl
      · rw [hsame b a hold rfl]
        exact .inr rfl
    have hk' : known' k = some a := by
      rcases hknown with hold | hold <;> rw [hk, hold] <;> rfl
    exact h.set hnodup hp hk' hknown hother fun k' heq => hinj k' a heq hk'

end

end Represents

end

/-! ## What a delta does to its block -/

theorem getD_of_filter_none {value : Option String} (h : value.filter truthy = none) :
    value.getD "" = "" := by
  rcases value with _ | own
  · rfl
  · rw [Option.filter_some] at h
    split at h
    · cases h
    · rename_i hown
      exact of_not_not fun hne => hown (decide_eq_true hne)

theorem getD_of_filter_some {value : Option String} {own : String}
    (h : value.filter truthy = some own) : value.getD "" = own := by
  rw [(Option.filter_eq_some_iff.mp h).1]
  rfl

structure Takes (toolCall : ToolCallDelta) (block block' : StreamingToolCallBlock) : Prop where
  id : block'.id = if block.id = [] then toolCall.id?.getD [] else block.id
  name : block'.name = if block.name = "" then toolCall.name.getD "" else block.name
  partialArgs : ∀ own, block.partialArgs = some own →
    block'.partialArgs = some (own ++ toolCall.arguments.getD "")
  streamIndex : block'.streamIndex = block.streamIndex.or toolCall.index

namespace CompletionsStream

variable {s : CompletionsStream} {p : Nat} {block : StreamingToolCallBlock}

section

variable (h : s.blocks[p]? = some (.toolCall block))
include h

theorem modify_mapToolCall (f : StreamingToolCallBlock → StreamingToolCallBlock) :
    s.modify p (.mapToolCall f) = { s with blocks := s.blocks.set p (.toolCall (f block)) } := by
  rw [CompletionsStream.modify, List.modify_eq_set_getElem?, h]
  rfl

theorem set_same :
    s.blocks.set p (.toolCall block) = s.blocks := by
  obtain ⟨hp, heq⟩ := List.getElem?_eq_some_iff.mp h
  rw [← heq, List.set_getElem_self]

theorem toolCallAt_of :
    s.toolCallAt p = some block := by
  rw [toolCallAt, h]
  rfl

end

/-- The map of indexes after a delta for the block at `p`. -/
def adopted (m : OrdMap Int Nat) (p : Nat) (own index : Option Int) : OrdMap Int Nat :=
  match own, index with
  | none, some i => m.set i p
  | _, _ => m

theorem adoptIndex_eq (h : s.blocks[p]? = some (.toolCall block)) (index : Option Int) :
    s.adoptIndex p index = { s with
      blocks := s.blocks.set p
        (.toolCall { block with streamIndex := block.streamIndex.or index })
      toolCallBlocksByIndex :=
        adopted s.toolCallBlocksByIndex p block.streamIndex index } := by
  unfold adoptIndex
  rw [toolCallAt_of h]
  obtain ⟨call, partialArgs, own⟩ := block
  cases index with
  | none =>
    simp only [Option.or_none]
    rw [set_same h]
    cases own <;> rfl
  | some i =>
    cases own with
    | none => simp only [Option.isNone_none, if_true, modify_mapToolCall h]; rfl
    | some j =>
      have hown : (some j).or (some i) = some j := rfl
      rw [hown, set_same h]
      rfl

theorem applyPendingReasoningDetail_eq (h : s.blocks[p]? = some (.toolCall block)) :
    ∃ thoughtSignature pending, s.applyPendingReasoningDetail p = { s with
      blocks := s.blocks.set p (.toolCall { block with thoughtSignature })
      pendingReasoningDetails := pending } := by
  have hsame : s = { s with
      blocks := s.blocks.set p (.toolCall { block with thoughtSignature := block.thoughtSignature })
      pendingReasoningDetails := s.pendingReasoningDetails } := by
    rw [set_same h]
  rw [applyPendingReasoningDetail, toolCallAt_of h]
  dsimp only
  split
  · exact ⟨_, _, hsame⟩
  · split
    · exact ⟨_, _, hsame⟩
    · rename_i detail _
      exact ⟨some detail, _, by rw [modify_mapToolCall h]⟩

theorem takeId_frame (toolCall : ToolCallDelta) (block : StreamingToolCallBlock) :
    (takeId toolCall block).name = block.name ∧
      (takeId toolCall block).partialArgs = block.partialArgs ∧
      (takeId toolCall block).streamIndex = block.streamIndex := by
  unfold takeId
  split <;> exact ⟨rfl, rfl, rfl⟩

theorem takeName_frame (toolCall : ToolCallDelta) (block : StreamingToolCallBlock) :
    (takeName toolCall block).id = block.id ∧
      (takeName toolCall block).partialArgs = block.partialArgs ∧
      (takeName toolCall block).streamIndex = block.streamIndex := by
  unfold takeName
  split <;> exact ⟨rfl, rfl, rfl⟩

theorem takeArguments_frame (parseStreamingJson : Option String → Json)
    (toolCall : ToolCallDelta) (block : StreamingToolCallBlock) :
    (takeArguments parseStreamingJson toolCall block).id = block.id ∧
      (takeArguments parseStreamingJson toolCall block).name = block.name ∧
      (takeArguments parseStreamingJson toolCall block).streamIndex = block.streamIndex := by
  unfold takeArguments
  split <;> exact ⟨rfl, rfl, rfl⟩

theorem takeId_id (toolCall : ToolCallDelta) (block : StreamingToolCallBlock) :
    (takeId toolCall block).id = if block.id = [] then toolCall.id?.getD [] else block.id := by
  unfold takeId
  split <;> rfl

theorem takeName_name (toolCall : ToolCallDelta) (block : StreamingToolCallBlock) :
    (takeName toolCall block).name =
      if block.name = "" then toolCall.name.getD "" else block.name := by
  unfold takeName
  split <;> rfl

section

variable (parseStreamingJson : Option String → Json)
include parseStreamingJson

theorem takeArguments_partialArgs (toolCall : ToolCallDelta) {block : StreamingToolCallBlock}
    {own : String} (hown : block.partialArgs = some own) :
    (takeArguments parseStreamingJson toolCall block).partialArgs =
      some (own ++ toolCall.arguments.getD "") := by
  unfold takeArguments
  split
  · rename_i hdelta
    rw [getD_of_filter_none hdelta, String.append_empty, hown]
  · rename_i delta hdelta
    rw [getD_of_filter_some hdelta, hown]
    rfl

theorem takes_receive (toolCall : ToolCallDelta) {block block' : StreamingToolCallBlock}
    (hid : block'.id = block.id) (hname : block'.name = block.name)
    (hargs : block'.partialArgs = block.partialArgs)
    (hindex : block'.streamIndex = block.streamIndex.or toolCall.index) :
    Takes toolCall block (receive parseStreamingJson toolCall block') := by
  obtain ⟨hname₁, hargs₁, hindex₁⟩ := takeId_frame toolCall block'
  obtain ⟨hid₂, hargs₂, hindex₂⟩ := takeName_frame toolCall (takeId toolCall block')
  obtain ⟨hid₃, hname₃, hindex₃⟩ := takeArguments_frame parseStreamingJson toolCall
    (takeName toolCall (takeId toolCall block'))
  refine ⟨?_, ?_, fun own hown => ?_, ?_⟩
  · rw [receive, hid₃, hid₂, takeId_id, hid]
  · rw [receive, hname₃, takeName_name, hname₁, hname]
  · exact takeArguments_partialArgs parseStreamingJson toolCall
      (hargs₂.trans (hargs₁.trans (hargs.trans hown)))
  · rw [receive, hindex₃, hindex₂, hindex₁, hindex]

/-- A delta for the block at `p`, once the block is there. -/
theorem addToolCall_eq (toolCall : ToolCallDelta) (h : s.blocks[p]? = some (.toolCall block)) :
    ∃ block' pending, Takes toolCall block block' ∧
      ((((s.adoptIndex p toolCall.index).register p none toolCall.id?).applyPendingReasoningDetail
        p).modify p (.mapToolCall (receive parseStreamingJson toolCall))).push
          (.toolcallDelta p (toolCall.arguments.getD "")) =
      { s with
        blocks := s.blocks.set p (.toolCall block')
        toolCallBlocksByIndex :=
          adopted s.toolCallBlocksByIndex p block.streamIndex toolCall.index
        toolCallBlocksById := setKey s.toolCallBlocksById p toolCall.id?
        pendingReasoningDetails := pending
        events := s.events ++ [.toolcallDelta p (toolCall.arguments.getD "")] } := by
  obtain ⟨hp, -⟩ := List.getElem?_eq_some_iff.mp h
  rw [adoptIndex_eq h]
  have hadopted : (({ s with
      blocks := s.blocks.set p
        (.toolCall { block with streamIndex := block.streamIndex.or toolCall.index })
      toolCallBlocksByIndex := adopted s.toolCallBlocksByIndex p block.streamIndex
        toolCall.index } : CompletionsStream).register p none toolCall.id?).blocks[p]? =
      some (.toolCall { block with streamIndex := block.streamIndex.or toolCall.index }) :=
    List.getElem?_set_self hp
  obtain ⟨thoughtSignature, pending, heq⟩ := applyPendingReasoningDetail_eq hadopted
  have htakes : Takes toolCall block (receive parseStreamingJson toolCall
      { block with
        streamIndex := block.streamIndex.or toolCall.index
        thoughtSignature := thoughtSignature }) :=
    takes_receive parseStreamingJson toolCall rfl rfl rfl rfl
  refine ⟨_, pending, htakes, ?_⟩
  rw [heq, modify_mapToolCall (List.getElem?_set_self (by simpa [register] using hp))]
  simp only [push, register, setKey, List.set_set]

end

end CompletionsStream

/-! ## What the chunks carry -/

def contentOf (chunks : List ChatCompletionChunk) : String :=
  String.join (chunks.filterMap ChatCompletionChunk.content)

/-- The deltas of the reasoning field each chunk has been read by. -/
def reasoningOf (chunks : List ChatCompletionChunk) : String :=
  String.join (chunks.filterMap fun chunk => chunk.foundReasoning.map Prod.snd)

theorem join_filterMap_cons {α : Type*} (f : α → Option String) (a : α) (l : List α) :
    String.join ((a :: l).filterMap f) = (f a).getD "" ++ String.join (l.filterMap f) := by
  rcases h : f a with _ | delta
  · rw [List.filterMap_cons_none h, Option.getD_none, String.empty_append]
  · rw [List.filterMap_cons_some h, String.join_cons, Option.getD_some]

theorem contentOf_cons (chunk : ChatCompletionChunk) (chunks : List ChatCompletionChunk) :
    contentOf (chunk :: chunks) = chunk.content.getD "" ++ contentOf chunks :=
  join_filterMap_cons _ chunk chunks

theorem reasoningOf_cons (chunk : ChatCompletionChunk) (chunks : List ChatCompletionChunk) :
    reasoningOf (chunk :: chunks) =
      (chunk.foundReasoning.map Prod.snd).getD "" ++ reasoningOf chunks :=
  join_filterMap_cons _ chunk chunks

/-! ## Marked deltas -/

section

variable {κ : Type*}

/-- Each call has one stream index and one id. -/
structure FixedKeys (index : κ → Int) (id : κ → JsString) (calls : List (κ × ToolCallDelta)) :
    Prop where
  index : ∀ k toolCall, (k, toolCall) ∈ calls → ∀ i, toolCall.index = some i → i = index k
  id : ∀ k toolCall, (k, toolCall) ∈ calls → ∀ x, toolCall.id? = some x → x = id k

def Shares (toolCall earlier : ToolCallDelta) : Prop :=
  toolCall.index.isSome ∧ earlier.index.isSome ∨ toolCall.id?.isSome ∧ earlier.id?.isSome

/-- A fragment that is not the first of its call shares an index or an id with
an earlier one. -/
def Linked (calls : List (κ × ToolCallDelta)) : Prop :=
  ∀ before k toolCall after, calls = before ++ (k, toolCall) :: after →
    k ∈ before.map Prod.fst → ∃ earlier, (k, earlier) ∈ before ∧ Shares toolCall earlier

variable {calls : List (κ × ToolCallDelta)}

theorem FixedKeys.of_forall {index : κ → Int} {id : κ → JsString}
    (h : ∀ c ∈ calls, (c.2.index = none ∨ c.2.index = some (index c.1)) ∧
      (c.2.id? = none ∨ c.2.id? = some (id c.1))) :
    FixedKeys index id calls := by
  constructor
  · intro k toolCall hmem i hi
    rcases (h _ hmem).1 with hnone | hsome
    · cases hnone.symm.trans hi
    · exact Option.some.inj (hi.symm.trans hsome)
  · intro k toolCall hmem x hx
    rcases (h _ hmem).2 with hnone | hsome
    · cases hnone.symm.trans hx
    · exact Option.some.inj (hx.symm.trans hsome)

theorem Linked.nil : Linked ([] : List (κ × ToolCallDelta)) := by
  intro before k toolCall after heq
  cases before <;> cases heq

theorem Linked.snoc (h : Linked calls) {k : κ} {toolCall : ToolCallDelta}
    (hlast : k ∈ calls.map Prod.fst → ∃ earlier, (k, earlier) ∈ calls ∧ Shares toolCall earlier) :
    Linked (calls ++ [(k, toolCall)]) := by
  intro before k' toolCall' after heq hmem
  rcases List.eq_nil_or_concat' after with rfl | ⟨after, c, rfl⟩
  · obtain ⟨rfl, hsingle⟩ := List.append_inj' heq rfl
    obtain ⟨rfl, rfl⟩ := Prod.mk.inj (List.head_eq_of_cons_eq hsingle)
    exact hlast hmem
  · rw [← List.cons_append, ← List.append_assoc] at heq
    exact h before k' toolCall' after (List.append_inj' heq rfl).1 hmem

variable [DecidableEq κ]

def fragmentsOf (calls : List (κ × ToolCallDelta)) (k : κ) : List ToolCallDelta :=
  (calls.filter fun c => c.1 = k).map Prod.snd

def ToolCallDelta.name? (toolCall : ToolCallDelta) : Option String := toolCall.name.filter truthy

def argumentsOf (fragments : List ToolCallDelta) : String :=
  String.join (fragments.filterMap ToolCallDelta.arguments)

/-- A block holds what these fragments carry. -/
structure BuiltCall (fragments : List ToolCallDelta) (block : StreamingToolCallBlock) : Prop where
  id : block.id = (fragments.findSome? ToolCallDelta.id?).getD []
  name : block.name = (fragments.findSome? ToolCallDelta.name?).getD ""
  partialArgs : block.partialArgs = some (argumentsOf fragments)
  streamIndex : block.streamIndex = fragments.findSome? ToolCallDelta.index

def Built (text thinking : String) (calls : List (κ × ToolCallDelta)) :
    BlockTag κ → StreamingBlock → Prop
  | .text, .text own => own = text
  | .thinking, .thinking own _ => own = thinking
  | .call k, .toolCall block => BuiltCall (fragmentsOf calls k) block
  | _, _ => False

def known {α : Type*} (key : ToolCallDelta → Option α) (calls : List (κ × ToolCallDelta))
    (k : κ) : Option α :=
  (fragmentsOf calls k).findSome? key

structure Assembles (text thinking : String) (calls : List (κ × ToolCallDelta))
    (tags : List (BlockTag κ)) (s : CompletionsStream) : Prop where
  nodup : tags.Nodup
  built : List.Forall₂ (Built text thinking calls) tags s.blocks
  textBlock : ∀ p, s.textBlock = some p ↔ tags[p]? = some .text
  thinkingBlock : ∀ p, s.thinkingBlock = some p ↔ tags[p]? = some .thinking
  byIndex : Represents (known ToolCallDelta.index calls) tags s.toolCallBlocksByIndex
  byId : Represents (known ToolCallDelta.id? calls) tags s.toolCallBlocksById
  owners : tags.filterMap BlockTag.call? = (calls.map Prod.fst).eraseDups
  noText : .text ∉ tags → text = ""
  noThinking : .thinking ∉ tags → thinking = ""
  narrates : Narrates (tags.map BlockTag.kind) s.events

/-! ## Fragments -/

section

variable {calls : List (κ × ToolCallDelta)} {k : κ} {toolCall : ToolCallDelta}

theorem fragmentsOf_snoc_self :
    fragmentsOf (calls ++ [(k, toolCall)]) k = fragmentsOf calls k ++ [toolCall] := by
  simp [fragmentsOf, List.filter_append]

theorem fragmentsOf_snoc_ne {k' : κ} (h : k' ≠ k) :
    fragmentsOf (calls ++ [(k, toolCall)]) k' = fragmentsOf calls k' := by
  simp [fragmentsOf, List.filter_append, h.symm]

theorem mem_fragmentsOf : toolCall ∈ fragmentsOf calls k ↔ (k, toolCall) ∈ calls := by
  simp [fragmentsOf]

theorem fragmentsOf_eq_nil (h : k ∉ calls.map Prod.fst) : fragmentsOf calls k = [] := by
  refine List.eq_nil_iff_forall_not_mem.mpr fun toolCall hmem => h ?_
  exact List.mem_map_of_mem (mem_fragmentsOf.mp hmem)

variable {α : Type*} {key : ToolCallDelta → Option α}

theorem known_snoc_self :
    known key (calls ++ [(k, toolCall)]) k = (known key calls k).or (key toolCall) := by
  rw [known, fragmentsOf_snoc_self, List.findSome?_append, List.findSome?_singleton]
  rfl

theorem known_snoc_ne {k' : κ} (h : k' ≠ k) :
    known key (calls ++ [(k, toolCall)]) k' = known key calls k' := by
  rw [known, fragmentsOf_snoc_ne h]
  rfl

theorem known_eq_none (h : k ∉ calls.map Prod.fst) : known key calls k = none := by
  rw [known, fragmentsOf_eq_nil h]
  rfl

theorem mem_of_known {a : α} (h : known key calls k = some a) :
    ∃ toolCall, (k, toolCall) ∈ calls ∧ key toolCall = some a := by
  obtain ⟨toolCall, hmem, hkey⟩ := List.exists_of_findSome?_eq_some h
  exact ⟨toolCall, mem_fragmentsOf.mp hmem, hkey⟩

theorem known_isSome (hmem : (k, toolCall) ∈ calls) (h : (key toolCall).isSome) :
    (known key calls k).isSome := by
  rw [known, List.findSome?_isSome_iff]
  exact ⟨toolCall, mem_fragmentsOf.mpr hmem, h⟩

theorem argumentsOf_snoc (fragments : List ToolCallDelta) (toolCall : ToolCallDelta) :
    argumentsOf (fragments ++ [toolCall]) =
      argumentsOf fragments ++ toolCall.arguments.getD "" := by
  rw [argumentsOf, List.filterMap_append, String.join_append, join_filterMap_cons,
    List.filterMap_nil, String.join_nil, String.append_empty]
  rfl

theorem getD_name? (toolCall : ToolCallDelta) :
    toolCall.name?.getD "" = toolCall.name.getD "" := by
  rcases h : toolCall.name? with _ | own
  · exact (getD_of_filter_none h).symm
  · exact (getD_of_filter_some h).symm

theorem BuiltCall.snoc {fragments : List ToolCallDelta} {block block' : StreamingToolCallBlock}
    (h : BuiltCall fragments block) (ht : Takes toolCall block block') :
    BuiltCall (fragments ++ [toolCall]) block' := by
  constructor
  · rw [ht.id, h.id, List.findSome?_append, List.findSome?_singleton]
    rcases hid : fragments.findSome? ToolCallDelta.id? with _ | x
    · exact if_pos rfl
    · obtain ⟨earlier, -, hx⟩ := List.exists_of_findSome?_eq_some hid
      have hne : x ≠ [] := of_decide_eq_true (Option.filter_eq_some_iff.mp hx).2
      exact if_neg hne
  · rw [ht.name, h.name, List.findSome?_append, List.findSome?_singleton]
    rcases hname : fragments.findSome? ToolCallDelta.name? with _ | own
    · exact (if_pos rfl).trans (getD_name? toolCall).symm
    · obtain ⟨earlier, -, hown⟩ := List.exists_of_findSome?_eq_some hname
      have hne : own ≠ "" := of_decide_eq_true (Option.filter_eq_some_iff.mp hown).2
      exact if_neg hne
  · rw [ht.partialArgs _ h.partialArgs, argumentsOf_snoc]
  · rw [ht.streamIndex, h.streamIndex, List.findSome?_append, List.findSome?_singleton]

theorem BuiltCall.single {block : StreamingToolCallBlock}
    (ht : Takes toolCall (CompletionsStream.newToolCallBlock toolCall) block) :
    BuiltCall [toolCall] block := by
  constructor
  · rw [ht.id, List.findSome?_singleton]
    exact ite_id _
  · rw [ht.name, List.findSome?_singleton, getD_name?]
    exact ite_id _
  · rw [ht.partialArgs _ rfl, ← List.nil_append [toolCall], argumentsOf_snoc]
    rfl
  · rw [ht.streamIndex, List.findSome?_singleton]
    exact Option.or_self

end

/-! ## Keys of calls -/

section

variable {α : Type*} {key : ToolCallDelta → Option α} {own : κ → α}
  {calls : List (κ × ToolCallDelta)}

def FixedKey (key : ToolCallDelta → Option α) (own : κ → α)
    (calls : List (κ × ToolCallDelta)) : Prop :=
  ∀ k toolCall, (k, toolCall) ∈ calls → ∀ a, key toolCall = some a → a = own k

theorem FixedKey.of_known (hkeeps : FixedKey key own calls) {k : κ} {a : α}
    (h : known key calls k = some a) : a = own k := by
  obtain ⟨toolCall, hmem, hkey⟩ := mem_of_known h
  exact hkeeps k toolCall hmem a hkey

variable [DecidableEq α] {k : κ} {toolCall : ToolCallDelta} {tags : List (BlockTag κ)}
  {m : OrdMap α Nat} {p : Nat}

theorem Represents.addFragment (hown : Function.Injective own)
    (hkeeps : FixedKey key own (calls ++ [(k, toolCall)]))
    (h : Represents (known key calls) tags m) (hnodup : tags.Nodup)
    (hp : tags[p]? = some (.call k)) :
    Represents (known key (calls ++ [(k, toolCall)])) tags
      (CompletionsStream.setKey m p (key toolCall)) := by
  refine h.add hnodup hp known_snoc_self ?_ (fun _ hne => known_snoc_ne hne) ?_
  · intro a b ha hb
    have hbefore : FixedKey key own calls := fun k' d hmem =>
      hkeeps k' d (List.mem_append_left _ hmem)
    rw [hbefore.of_known ha, hkeeps k toolCall (by simp) b hb]
  · intro k' a hk' hk
    exact hown ((hkeeps.of_known hk').symm.trans (hkeeps.of_known hk))

/-- The same fragment once more. -/
theorem Represents.addAgain (hown : Function.Injective own)
    (hkeeps : FixedKey key own (calls ++ [(k, toolCall)]))
    (h : Represents (known key (calls ++ [(k, toolCall)])) tags m) (hnodup : tags.Nodup)
    (hp : tags[p]? = some (.call k)) :
    Represents (known key (calls ++ [(k, toolCall)])) tags
      (CompletionsStream.setKey m p (key toolCall)) := by
  refine h.add hnodup hp ?_ ?_ (fun _ _ => rfl) ?_
  · rw [known_snoc_self, Option.or_assoc, Option.or_self]
  · intro a b ha hb
    rw [hkeeps.of_known ha, hkeeps k toolCall (by simp) b hb]
  · intro k' a hk' hk
    exact hown ((hkeeps.of_known hk').symm.trans (hkeeps.of_known hk))

end

theorem Represents.adopted {index : κ → Int} (hindex : Function.Injective index) {k : κ}
    {toolCall : ToolCallDelta}
    (hkeeps : FixedKey ToolCallDelta.index index (calls ++ [(k, toolCall)]))
    {tags : List (BlockTag κ)} {m : OrdMap Int Nat} {p : Nat}
    (h : Represents (known ToolCallDelta.index calls) tags m) (hnodup : tags.Nodup)
    (hp : tags[p]? = some (.call k)) :
    Represents (known ToolCallDelta.index (calls ++ [(k, toolCall)])) tags
      (CompletionsStream.adopted m p (known ToolCallDelta.index calls k) toolCall.index) := by
  rcases hknown : known ToolCallDelta.index calls k with _ | i
  · have hadd := h.addFragment hindex hkeeps hnodup hp
    rcases hnow : toolCall.index with _ | j
    · rwa [hnow] at hadd
    · rwa [hnow] at hadd
  · have hsame : CompletionsStream.adopted m p (some i) toolCall.index = m := by
      cases toolCall.index <;> rfl
    rw [hsame]
    refine h.congr fun k' => ?_
    by_cases hk : k' = k
    · rw [hk, known_snoc_self, hknown]
      rfl
    · exact known_snoc_ne hk

/-! ## Steps -/

theorem eraseDups_snoc (l : List κ) (k : κ) :
    (l ++ [k]).eraseDups = if k ∈ l then l.eraseDups else l.eraseDups ++ [k] := by
  rw [List.eraseDups_append]
  by_cases h : k ∈ l
  · rw [if_pos h, List.removeAll, List.filter_cons_of_neg (by simp [h])]
    exact List.append_nil _
  · rw [if_neg h, List.removeAll, List.filter_cons_of_pos (by simp [h])]
    rfl

namespace Assembles

variable {text thinking : String} {calls : List (κ × ToolCallDelta)} {tags : List (BlockTag κ)}
  {s : CompletionsStream}

section

variable (h : Assembles text thinking calls tags s)
include h

theorem length : s.blocks.length = tags.length :=
  h.built.length_eq.symm

theorem mem_call {k : κ} :
    .call k ∈ tags ↔ k ∈ calls.map Prod.fst := by
  rw [← mem_filterMap_call?, h.owners, List.mem_eraseDups]

theorem reblock {blocks : List StreamingBlock}
    (hbuilt : List.Forall₂ (Built text thinking calls) tags blocks)
    (pending : OrdMap JsString String) (stopReason : StopReason) (errorMessage : Option String)
    (hasFinishReason : Bool) :
    Assembles text thinking calls tags { s with
      blocks, pendingReasoningDetails := pending, stopReason, errorMessage, hasFinishReason } :=
  ⟨h.nodup, hbuilt, h.textBlock, h.thinkingBlock, h.byIndex, h.byId, h.owners, h.noText,
    h.noThinking, h.narrates⟩

end

theorem start : Assembles "" "" ([] : List (κ × ToolCallDelta)) [] .start where
  nodup := List.nodup_nil
  built := .nil
  textBlock _ := ⟨(fun h => nomatch h), (fun h => nomatch h)⟩
  thinkingBlock _ := ⟨(fun h => nomatch h), (fun h => nomatch h)⟩
  byIndex _ _ := ⟨(fun h => nomatch h), (fun ⟨_, h, _⟩ => nomatch h)⟩
  byId _ _ := ⟨(fun h => nomatch h), (fun ⟨_, h, _⟩ => nomatch h)⟩
  owners := rfl
  noText _ := rfl
  noThinking _ := rfl
  narrates := .nil

theorem takeFinishReason (h : Assembles text thinking calls tags s)
    (finishReason : Option String) :
    Assembles text thinking calls tags (s.takeFinishReason finishReason) := by
  unfold CompletionsStream.takeFinishReason
  split
  · exact h
  · exact h.reblock h.built _ _ _ _

theorem takeReasoningDetail (h : Assembles text thinking calls tags s)
    (detail : JsString × String) :
    Assembles text thinking calls tags (s.takeReasoningDetail detail) := by
  unfold CompletionsStream.takeReasoningDetail
  split
  · rename_i p hp
    obtain ⟨k, htag, -⟩ := (h.byId _ _).mp hp
    refine h.reblock (forall₂_modify h.nodup h.built htag ?_ fun _ _ _ hbuilt => hbuilt) _ _ _ _
    intro block hbuilt
    cases block with
    | toolCall block => exact ⟨hbuilt.id, hbuilt.name, hbuilt.partialArgs, hbuilt.streamIndex⟩
    | text _ => exact hbuilt
    | thinking _ _ => exact hbuilt
  · exact h.reblock h.built _ _ _ _

variable {tag : BlockTag κ}

section

variable (h : Assembles text thinking calls tags s)
include h

theorem snoc (hnew : tag ∉ tags) (hcall : tag.call? = none) {block : StreamingBlock}
    (hblock : Built text thinking calls tag block) {textBlock thinkingBlock : Option Nat}
    (htext : ∀ p, textBlock = some p ↔ (tags ++ [tag])[p]? = some .text)
    (hthinking : ∀ p, thinkingBlock = some p ↔ (tags ++ [tag])[p]? = some .thinking) :
    Assembles text thinking calls (tags ++ [tag]) { s with
      blocks := s.blocks ++ [block], textBlock, thinkingBlock
      events := s.events ++ [tag.kind.startEvent s.blocks.length] } where
  nodup := h.nodup.append (List.nodup_singleton tag) (by simpa using hnew)
  built := List.rel_append h.built (.cons hblock .nil)
  textBlock := htext
  thinkingBlock := hthinking
  byIndex := h.byIndex.snoc fun k heq => by rw [heq] at hcall; cases hcall
  byId := h.byId.snoc fun k heq => by rw [heq] at hcall; cases hcall
  owners := by
    rw [List.filterMap_append, h.owners, List.filterMap_cons_none hcall]
    exact List.append_nil _
  noText hmem := h.noText fun hmem' => hmem (List.mem_append_left _ hmem')
  noThinking hmem := h.noThinking fun hmem' => hmem (List.mem_append_left _ hmem')
  narrates := by
    rw [List.map_append, h.length, ← List.length_map]
    exact h.narrates.start tag.kind

theorem ensureTextBlock :
    ∃ tags', Assembles text thinking calls tags' s.ensureTextBlock.1 ∧
      tags'[s.ensureTextBlock.2]? = some .text := by
  unfold CompletionsStream.ensureTextBlock
  split
  · rename_i p hp
    exact ⟨tags, h, (h.textBlock p).mp hp⟩
  · rename_i hnone
    have hnew : .text ∉ tags := by
      intro hmem
      obtain ⟨p, hp⟩ := List.mem_iff_getElem?.mp hmem
      cases hnone.symm.trans ((h.textBlock p).mpr hp)
    have hblock : Built text thinking calls .text (.text "") := (h.noText hnew).symm
    refine ⟨tags ++ [.text], h.snoc hnew rfl hblock ?_ ?_, ?_⟩
    · intro p
      rw [getElem?_snoc_iff, h.length]
      refine ⟨fun heq => .inr ⟨(Option.some.inj heq).symm, rfl⟩, fun hor => ?_⟩
      rcases hor with hp | ⟨rfl, -⟩
      · exact absurd (List.mem_of_getElem? hp) hnew
      · rfl
    · intro p
      rw [getElem?_snoc_iff, h.thinkingBlock]
      exact ⟨.inl, fun hor => hor.resolve_right fun hp => nomatch hp.2⟩
    · rw [h.length]
      exact List.getElem?_concat_length

theorem ensureThinkingBlock (thinkingSignature : String) :
    ∃ tags', Assembles text thinking calls tags' (s.ensureThinkingBlock thinkingSignature).1 ∧
      tags'[(s.ensureThinkingBlock thinkingSignature).2]? = some .thinking := by
  unfold CompletionsStream.ensureThinkingBlock
  split
  · rename_i p hp
    exact ⟨tags, h, (h.thinkingBlock p).mp hp⟩
  · rename_i hnone
    have hnew : .thinking ∉ tags := by
      intro hmem
      obtain ⟨p, hp⟩ := List.mem_iff_getElem?.mp hmem
      cases hnone.symm.trans ((h.thinkingBlock p).mpr hp)
    have hblock : Built text thinking calls .thinking (.thinking "" thinkingSignature) :=
      (h.noThinking hnew).symm
    refine ⟨tags ++ [.thinking], h.snoc hnew rfl hblock ?_ ?_, ?_⟩
    · intro p
      rw [getElem?_snoc_iff, h.textBlock]
      exact ⟨.inl, fun hor => hor.resolve_right fun hp => nomatch hp.2⟩
    · intro p
      rw [getElem?_snoc_iff, h.length]
      refine ⟨fun heq => .inr ⟨(Option.some.inj heq).symm, rfl⟩, fun hor => ?_⟩
      rcases hor with hp | ⟨rfl, -⟩
      · exact absurd (List.mem_of_getElem? hp) hnew
      · rfl
    · rw [h.length]
      exact List.getElem?_concat_length

theorem addDelta {p : Nat} (hp : tags[p]? = some tag) {delta text' thinking' : String}
    (hself : ∀ block, Built text thinking calls tag block → Built text' thinking' calls tag (block.addDelta delta))
    (hother : ∀ tag' block, tag' ≠ tag → Built text thinking calls tag' block → Built text' thinking' calls tag' block)
    (htext : .text ∉ tags → text' = "") (hthinking : .thinking ∉ tags → thinking' = "") :
    Assembles text' thinking' calls tags
      ((s.modify p (.addDelta delta)).push (tag.kind.deltaEvent p delta)) where
  nodup := h.nodup
  built := forall₂_modify h.nodup h.built hp hself hother
  textBlock := h.textBlock
  thinkingBlock := h.thinkingBlock
  byIndex := h.byIndex
  byId := h.byId
  owners := h.owners
  noText := htext
  noThinking := hthinking
  narrates := h.narrates.delta (by rw [List.getElem?_map, hp]; rfl) delta

theorem takeContent (content : Option String) :
    ∃ tags', Assembles (text ++ content.getD "") thinking calls tags' (s.takeContent content) := by
  unfold CompletionsStream.takeContent
  split
  · rename_i hnone
    rw [getD_of_filter_none hnone, String.append_empty]
    exact ⟨tags, h⟩
  · rename_i delta hsome
    obtain ⟨tags', h', hp⟩ := h.ensureTextBlock
    rw [getD_of_filter_some hsome]
    refine ⟨tags', h'.addDelta hp ?_ ?_ (fun hmem => absurd (List.mem_of_getElem? hp) hmem)
      h'.noThinking⟩
    · intro block hblock
      cases block with
      | text own => exact congrArg (· ++ delta) hblock
      | thinking _ _ => exact hblock
      | toolCall _ => exact hblock
    · intro tag block hne hblock
      cases tag with
      | text => exact absurd rfl hne
      | thinking => cases block <;> exact hblock
      | call k => cases block <;> exact hblock

theorem takeReasoning (provider : String) (found : Option (String × String)) :
    ∃ tags', Assembles text (thinking ++ (found.map Prod.snd).getD "") calls tags'
      (s.takeReasoning provider found) := by
  unfold CompletionsStream.takeReasoning
  split
  · rw [Option.map_none, Option.getD_none, String.append_empty]
    exact ⟨tags, h⟩
  · rename_i field delta
    obtain ⟨tags', h', hp⟩ := h.ensureThinkingBlock
      (if provider = "opencode-go" ∧ field = "reasoning" then "reasoning_content" else field)
    refine ⟨tags', h'.addDelta hp ?_ ?_ h'.noText
      (fun hmem => absurd (List.mem_of_getElem? hp) hmem)⟩
    · intro block hblock
      cases block with
      | thinking own _ => exact congrArg (· ++ delta) hblock
      | text _ => exact hblock
      | toolCall _ => exact hblock
    · intro tag block hne hblock
      cases tag with
      | thinking => exact absurd rfl hne
      | text => cases block <;> exact hblock
      | call k => cases block <;> exact hblock

end

/-! ### A tool call -/

variable {index : κ → Int} {id : κ → JsString} {k : κ} {toolCall : ToolCallDelta}

/-- A delta leads to its own call. -/
theorem tag_of_find (h : Assembles text thinking calls tags s) (hindex : Function.Injective index)
    (hid : Function.Injective id) (hkeeps : FixedKeys index id (calls ++ [(k, toolCall)])) {p : Nat}
    (hfind : s.findToolCallBlock toolCall = some p) : tags[p]? = some (.call k) := by
  have hlast : (k, toolCall) ∈ calls ++ [(k, toolCall)] := by simp
  rcases Option.or_eq_some_iff.mp hfind with hp | ⟨-, hp⟩
  · obtain ⟨i, hi, hget⟩ := Option.bind_eq_some_iff.mp hp
    obtain ⟨k', htag, hknown⟩ := (h.byIndex i p).mp hget
    obtain ⟨earlier, hmem, hearlier⟩ := mem_of_known hknown
    have hk' := hkeeps.index k' earlier (List.mem_append_left _ hmem) i hearlier
    rwa [hindex (hk'.symm.trans (hkeeps.index k toolCall hlast i hi))] at htag
  · obtain ⟨x, hx, hget⟩ := Option.bind_eq_some_iff.mp hp
    obtain ⟨k', htag, hknown⟩ := (h.byId x p).mp hget
    obtain ⟨earlier, hmem, hearlier⟩ := mem_of_known hknown
    have hk' := hkeeps.id k' earlier (List.mem_append_left _ hmem) x hearlier
    rwa [hid (hk'.symm.trans (hkeeps.id k toolCall hlast x hx))] at htag

/-- A delta that leads nowhere is the first of its call. -/
theorem new_of_find (h : Assembles text thinking calls tags s)
    (hkeeps : FixedKeys index id (calls ++ [(k, toolCall)]))
    (hlinked : k ∈ calls.map Prod.fst → ∃ earlier, (k, earlier) ∈ calls ∧ Shares toolCall earlier)
    (hfind : s.findToolCallBlock toolCall = none) : k ∉ calls.map Prod.fst := by
  intro hmem
  have hlast : (k, toolCall) ∈ calls ++ [(k, toolCall)] := by simp
  obtain ⟨p, hp⟩ := List.mem_iff_getElem?.mp (h.mem_call.mpr hmem)
  obtain ⟨hnoIndex, hnoId⟩ := Option.or_eq_none_iff.mp hfind
  obtain ⟨earlier, hearlier, hshares⟩ := hlinked hmem
  rcases hshares with ⟨hnow, hbefore⟩ | ⟨hnow, hbefore⟩
  · obtain ⟨i, hi⟩ := Option.isSome_iff_exists.mp hnow
    obtain ⟨j, hj⟩ := Option.isSome_iff_exists.mp (known_isSome hearlier hbefore)
    obtain ⟨other, hother, hkey⟩ := mem_of_known hj
    have hij : j = i := (hkeeps.index k other (List.mem_append_left _ hother) j hkey).trans
      (hkeeps.index k toolCall hlast i hi).symm
    rw [hi, Option.bind_some, (h.byIndex i p).mpr ⟨k, hp, hij ▸ hj⟩] at hnoIndex
    cases hnoIndex
  · obtain ⟨x, hx⟩ := Option.isSome_iff_exists.mp hnow
    obtain ⟨y, hy⟩ := Option.isSome_iff_exists.mp (known_isSome hearlier hbefore)
    obtain ⟨other, hother, hkey⟩ := mem_of_known hy
    have hxy : y = x := (hkeeps.id k other (List.mem_append_left _ hother) y hkey).trans
      (hkeeps.id k toolCall hlast x hx).symm
    rw [hx, Option.bind_some, (h.byId x p).mpr ⟨k, hp, hxy ▸ hy⟩] at hnoId
    cases hnoId

theorem built_other {block : StreamingBlock} (hne : tag ≠ .call k)
    (h : Built text thinking calls tag block) :
    Built text thinking (calls ++ [(k, toolCall)]) tag block := by
  cases tag with
  | text => cases block <;> exact h
  | thinking => cases block <;> exact h
  | call k' =>
    have hk : k' ≠ k := fun heq => hne (congrArg BlockTag.call heq)
    cases block with
    | toolCall block =>
      have hbuilt : BuiltCall (fragmentsOf calls k') block := h
      rw [← fragmentsOf_snoc_ne hk] at hbuilt
      exact hbuilt
    | text _ => exact h
    | thinking _ _ => exact h

section

variable (h : Assembles text thinking calls tags s)
include h

theorem takeToolCall_found (hindex : Function.Injective index) (hid : Function.Injective id)
    (hkeeps : FixedKeys index id (calls ++ [(k, toolCall)]))
    (parseStreamingJson : Option String → Json) {p : Nat} (hp : tags[p]? = some (.call k))
    (hfind : s.findToolCallBlock toolCall = some p) :
    Assembles text thinking (calls ++ [(k, toolCall)]) tags
      (CompletionsStream.takeToolCall parseStreamingJson s toolCall) := by
  obtain ⟨streamed, hstreamed, hbuilt⟩ := forall₂_at h.built hp
  obtain ⟨block, rfl⟩ : ∃ block, streamed = .toolCall block := by
    cases streamed with
    | toolCall block => exact ⟨block, rfl⟩
    | text _ => exact hbuilt.elim
    | thinking _ _ => exact hbuilt.elim
  have hcall : BuiltCall (fragmentsOf calls k) block := hbuilt
  obtain ⟨block', pending, htakes, heq⟩ :=
    CompletionsStream.addToolCall_eq parseStreamingJson toolCall hstreamed
  rw [CompletionsStream.takeToolCall, CompletionsStream.ensureToolCallBlock, hfind]
  dsimp only
  rw [heq]
  refine ⟨h.nodup, ?_, h.textBlock, h.thinkingBlock, ?_, ?_, ?_, h.noText, h.noThinking, ?_⟩
  · have hblock' : BuiltCall (fragmentsOf (calls ++ [(k, toolCall)]) k) block' := by
      rw [fragmentsOf_snoc_self]
      exact hcall.snoc htakes
    rw [List.set_eq_modify]
    exact forall₂_modify h.nodup h.built hp (fun _ _ => hblock') fun _ _ => built_other
  · rw [hcall.streamIndex]
    exact h.byIndex.adopted hindex hkeeps.index h.nodup hp
  · exact h.byId.addFragment hid hkeeps.id h.nodup hp
  · rw [List.map_append, List.map_singleton, eraseDups_snoc,
      if_pos (h.mem_call.mp (List.mem_of_getElem? hp)), h.owners]
  · exact h.narrates.delta (by rw [List.getElem?_map, hp]; rfl) _

theorem takeToolCall_new (hindex : Function.Injective index) (hid : Function.Injective id)
    (hkeeps : FixedKeys index id (calls ++ [(k, toolCall)]))
    (parseStreamingJson : Option String → Json) (hnew : k ∉ calls.map Prod.fst)
    (hfind : s.findToolCallBlock toolCall = none) :
    Assembles text thinking (calls ++ [(k, toolCall)]) (tags ++ [.call k])
      (CompletionsStream.takeToolCall parseStreamingJson s toolCall) := by
  have hlength : (s.openToolCall toolCall).2 = tags.length := h.length
  have hopened : (s.openToolCall toolCall).1.blocks[(s.openToolCall toolCall).2]? =
      some (.toolCall (CompletionsStream.newToolCallBlock toolCall)) :=
    List.getElem?_concat_length
  obtain ⟨block', pending, htakes, heq⟩ :=
    CompletionsStream.addToolCall_eq parseStreamingJson toolCall hopened
  have hnotag : .call k ∉ tags := fun hmem => hnew (h.mem_call.mp hmem)
  have hnodup : (tags ++ [BlockTag.call k]).Nodup :=
    h.nodup.append (List.nodup_singleton _) (by simpa using hnotag)
  have hp : (tags ++ [BlockTag.call k])[(s.openToolCall toolCall).2]? = some (.call k) := by
    rw [hlength]
    exact List.getElem?_concat_length
  have hunknown : ∀ {α : Type} (key : ToolCallDelta → Option α) (k' : κ),
      BlockTag.call k = .call k' → known key calls k' = none := by
    rintro α key k' heq
    obtain rfl := BlockTag.call.inj heq
    exact known_eq_none hnew
  have hother : ∀ (tag : BlockTag κ), tag.call? = none → ∀ p : Nat,
      tags[p]? = some tag ↔ (tags ++ [BlockTag.call k])[p]? = some tag := by
    intro tag htag p
    rw [getElem?_snoc_iff]
    refine ⟨.inl, fun hor => hor.resolve_right fun ⟨_, heq⟩ => ?_⟩
    rw [← heq] at htag
    cases htag
  rw [CompletionsStream.takeToolCall, CompletionsStream.ensureToolCallBlock, hfind]
  dsimp only
  rw [heq]
  refine ⟨hnodup, ?_, ?_, ?_, ?_, ?_, ?_, ?_, ?_, ?_⟩
  · have hblock' : BuiltCall (fragmentsOf (calls ++ [(k, toolCall)]) k) block' := by
      rw [fragmentsOf_snoc_self, fragmentsOf_eq_nil hnew]
      exact .single htakes
    have hset : (s.openToolCall toolCall).1.blocks.set (s.openToolCall toolCall).2
        (.toolCall block') = s.blocks ++ [.toolCall block'] := by
      change (s.blocks ++ [_]).set s.blocks.length _ = _
      rw [List.set_append_right _ _ (Nat.le_refl _), Nat.sub_self]
      rfl
    dsimp only
    rw [hset]
    refine List.rel_append (forall₂_imp_mem h.built fun tag hmem _ => ?_) (.cons hblock' .nil)
    exact built_other fun heq => hnotag (heq ▸ hmem)
  · exact fun p => (h.textBlock p).trans (hother .text rfl p)
  · exact fun p => (h.thinkingBlock p).trans (hother .thinking rfl p)
  · have hstored : ∀ m p, CompletionsStream.adopted
        (CompletionsStream.setKey m p toolCall.index) p toolCall.index toolCall.index =
        CompletionsStream.setKey m p toolCall.index := by
      intro m p
      cases toolCall.index <;> rfl
    have hadded := (h.byIndex.snoc (hunknown _)).addFragment hindex hkeeps.index hnodup hp
    rw [← hstored] at hadded
    exact hadded
  · exact ((h.byId.snoc (hunknown _)).addFragment hid hkeeps.id hnodup hp).addAgain hid hkeeps.id
      hnodup hp
  · rw [List.map_append, List.map_singleton, eraseDups_snoc, if_neg hnew, List.filterMap_append,
      h.owners]
    rfl
  · exact fun hmem => h.noText fun hmem' => hmem (List.mem_append_left _ hmem')
  · exact fun hmem => h.noThinking fun hmem' => hmem (List.mem_append_left _ hmem')
  · have hstart := h.narrates.start .toolCall
    have hkinds : (tags ++ [BlockTag.call k]).map BlockTag.kind =
        tags.map BlockTag.kind ++ [.toolCall] := List.map_append
    rw [List.length_map, ← h.length, ← hkinds] at hstart
    exact hstart.delta (by rw [List.getElem?_map, hp]; rfl) _

theorem takeToolCall (hindex : Function.Injective index) (hid : Function.Injective id)
    (hkeeps : FixedKeys index id (calls ++ [(k, toolCall)]))
    (hlinked : k ∈ calls.map Prod.fst → ∃ earlier, (k, earlier) ∈ calls ∧ Shares toolCall earlier)
    (parseStreamingJson : Option String → Json) :
    ∃ tags', Assembles text thinking (calls ++ [(k, toolCall)]) tags'
      (s.takeToolCall parseStreamingJson toolCall) := by
  rcases hfind : s.findToolCallBlock toolCall with _ | p
  · exact ⟨_, h.takeToolCall_new hindex hid hkeeps parseStreamingJson
      (h.new_of_find hkeeps hlinked hfind) hfind⟩
  · exact ⟨tags, h.takeToolCall_found hindex hid hkeeps parseStreamingJson
      (h.tag_of_find hindex hid hkeeps hfind) hfind⟩

end

variable {more : List (κ × ToolCallDelta)}

theorem takeToolCalls (hindex : Function.Injective index) (hid : Function.Injective id)
    (parseStreamingJson : Option String → Json) (h : Assembles text thinking calls tags s)
    (hkeeps : FixedKeys index id (calls ++ more)) (hlinked : Linked (calls ++ more)) :
    ∃ tags', Assembles text thinking (calls ++ more) tags'
      ((more.map Prod.snd).foldl (CompletionsStream.takeToolCall parseStreamingJson) s) := by
  induction more generalizing calls tags s with
  | nil =>
    rw [List.append_nil]
    exact ⟨tags, h⟩
  | cons c more ih =>
    obtain ⟨k, toolCall⟩ := c
    have hsplit : calls ++ (k, toolCall) :: more = (calls ++ [(k, toolCall)]) ++ more := by simp
    have hkeeps' : FixedKeys index id (calls ++ [(k, toolCall)]) := by
      rw [hsplit] at hkeeps
      exact ⟨fun k' d hmem => hkeeps.index k' d (List.mem_append_left _ hmem),
        fun k' d hmem => hkeeps.id k' d (List.mem_append_left _ hmem)⟩
    obtain ⟨tags', h'⟩ := h.takeToolCall hindex hid hkeeps'
      (hlinked calls k toolCall more rfl) parseStreamingJson
    rw [hsplit] at hkeeps hlinked ⊢
    exact ih h' hkeeps hlinked

theorem takeReasoningDetails (h : Assembles text thinking calls tags s)
    (details : List (JsString × String)) :
    Assembles text thinking calls tags
      (details.foldl CompletionsStream.takeReasoningDetail s) := by
  induction details generalizing s with
  | nil => exact h
  | cons detail details ih => exact ih (h.takeReasoningDetail detail)

theorem takeChunk (hindex : Function.Injective index) (hid : Function.Injective id)
    (provider : String) (parseStreamingJson : Option String → Json)
    (h : Assembles text thinking calls tags s) (hkeeps : FixedKeys index id (calls ++ more))
    (hlinked : Linked (calls ++ more)) {chunk : ChatCompletionChunk}
    (hmore : more.map Prod.snd = chunk.toolCalls) :
    ∃ tags', Assembles (text ++ chunk.content.getD "")
      (thinking ++ (chunk.foundReasoning.map Prod.snd).getD "") (calls ++ more) tags'
      (s.takeChunk provider parseStreamingJson chunk) := by
  obtain ⟨tags₁, h₁⟩ := (h.takeFinishReason chunk.finishReason).takeContent chunk.content
  obtain ⟨tags₂, h₂⟩ := h₁.takeReasoning provider chunk.foundReasoning
  obtain ⟨tags₃, h₃⟩ := h₂.takeToolCalls hindex hid parseStreamingJson hkeeps hlinked
  rw [hmore] at h₃
  exact ⟨tags₃, h₃.takeReasoningDetails chunk.reasoningDetails⟩

/-- The run lemma. -/
theorem takeChunks (hindex : Function.Injective index) (hid : Function.Injective id)
    (provider : String) (parseStreamingJson : Option String → Json)
    {chunks : List ChatCompletionChunk} (h : Assembles text thinking calls tags s)
    (hkeeps : FixedKeys index id (calls ++ more)) (hlinked : Linked (calls ++ more))
    (hmore : more.map Prod.snd = chunks.flatMap ChatCompletionChunk.toolCalls) :
    ∃ tags', Assembles (text ++ contentOf chunks) (thinking ++ reasoningOf chunks)
      (calls ++ more) tags'
      (chunks.foldl (CompletionsStream.takeChunk provider parseStreamingJson) s) := by
  induction chunks generalizing text thinking calls tags s more with
  | nil =>
    obtain rfl := List.map_eq_nil_iff.mp hmore
    refine ⟨tags, ?_⟩
    rw [List.append_nil, show contentOf [] = "" from rfl, show reasoningOf [] = "" from rfl,
      String.append_empty, String.append_empty]
    exact h
  | cons chunk chunks ih =>
    obtain ⟨now, later, rfl, hnow, hlater⟩ := List.map_eq_append_iff.mp hmore
    rw [← List.append_assoc] at hkeeps hlinked
    have hkeeps' : FixedKeys index id (calls ++ now) :=
      ⟨fun k d hmem => hkeeps.index k d (List.mem_append_left _ hmem),
        fun k d hmem => hkeeps.id k d (List.mem_append_left _ hmem)⟩
    have hlinked' : Linked (calls ++ now) := by
      intro before k toolCall after heq
      exact hlinked before k toolCall (after ++ later) (by rw [heq]; simp)
    obtain ⟨tags', h'⟩ := h.takeChunk hindex hid provider parseStreamingJson hkeeps' hlinked' hnow
    obtain ⟨tags'', h''⟩ := ih h' hkeeps hlinked hlater
    rw [contentOf_cons, reasoningOf_cons, ← String.append_assoc, ← String.append_assoc,
      ← List.append_assoc]
    exact ⟨tags'', h''⟩

end Assembles

end

end Eagent.Ai
