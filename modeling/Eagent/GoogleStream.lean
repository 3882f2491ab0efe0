import Eagent.SessionEntry
import Eagent.TransformMessages

/-!
# The Google stream

`runGoogleStream` from the response body on: the parts of each chunk become
blocks and events, the finish reason of a chunk becomes the stop reason of
the message, and a tool call in the message overrides it.

`partial` and `usage` are left out: the message of an event is read where the
stream ends.
-/

namespace Eagent.Ai

/-! ## Events -/

/-- The message that is built. -/
structure StreamedMessage where
  content : List AssistantBlock
  stopReason : StopReason
  errorMessage : Option String
deriving DecidableEq

inductive AssistantMessageEvent where
  | start
  | textStart (contentIndex : Nat)
  | textDelta (contentIndex : Nat) (delta : String)
  | textEnd (contentIndex : Nat) (content : String)
  | thinkingStart (contentIndex : Nat)
  | thinkingDelta (contentIndex : Nat) (delta : String)
  | thinkingEnd (contentIndex : Nat) (content : String)
  | toolcallStart (contentIndex : Nat)
  | toolcallDelta (contentIndex : Nat) (delta : String)
  | toolcallEnd (contentIndex : Nat) (toolCall : ToolCall)
  | done (reason : StopReason) (message : StreamedMessage)
  | error (reason : StopReason) (error : StreamedMessage)
deriving DecidableEq

/-! ## Chunks -/

structure GoogleFunctionCall where
  id : Option JsString
  name : Option String
  args : Option Json
deriving DecidableEq

structure GooglePart where
  text : Option String
  thought : Bool
  thoughtSignature : Option String
  functionCall : Option GoogleFunctionCall
deriving DecidableEq

/-- The first candidate of a `GoogleResponseChunk`. -/
structure GoogleResponseChunk where
  parts : List GooglePart
  finishReason : Option String
deriving DecidableEq

/-- `mapGoogleStopReason` -/
def mapGoogleStopReason (reason : String) : StopReason :=
  if reason = "STOP" then .stop
  else if reason = "MAX_TOKENS" then .length
  else .error

def retainThoughtSignature (existing incoming : Option String) : Option String :=
  match incoming with
  | some signature => if signature.length > 0 then some signature else existing
  | none => existing

/-! ## Parts -/

/-- The message, `currentBlock` as its index in the content, and what has been
pushed. `now` is `Date.now()`. -/
structure GoogleStream where
  now : Nat
  toolCallCounter : Nat
  content : List AssistantBlock
  stopReason : StopReason
  currentBlock : Option Nat
  events : List AssistantMessageEvent

def AssistantBlock.isToolCall (block : AssistantBlock) : Bool := block.toolCall?.isSome

namespace GoogleStream

def push (s : GoogleStream) (event : AssistantMessageEvent) : GoogleStream :=
  { s with events := s.events ++ [event] }

def finishCurrentBlock (s : GoogleStream) : GoogleStream :=
  match s.currentBlock with
  | none => s
  | some contentIndex =>
      match s.content[contentIndex]? with
      | some (.text text _) => s.push (.textEnd contentIndex text)
      | some (.thinking thinking _ _) => s.push (.thinkingEnd contentIndex thinking)
      | _ => s

/-- `currentBlock.type` is the one the part needs. -/
def continues (s : GoogleStream) (isThinking : Bool) : Bool :=
  match s.currentBlock.bind (s.content[·]?) with
  | some (.text _ _) => !isThinking
  | some (.thinking _ _ _) => isThinking
  | _ => false

def openBlock (s : GoogleStream) (isThinking : Bool) : GoogleStream :=
  if s.continues isThinking then s
  else
    let s := s.finishCurrentBlock
    let contentIndex := s.content.length
    let block : AssistantBlock := if isThinking then .thinking "" none false else .text "" none
    let s : GoogleStream :=
      { s with currentBlock := some contentIndex, content := s.content ++ [block] }
    s.push (if isThinking then .thinkingStart contentIndex else .textStart contentIndex)

/-- `block.text += text`, or `block.thinking += text`. -/
def addTo (text : String) (signature : Option String) : AssistantBlock → AssistantBlock
  | .text own existing => .text (own ++ text) (retainThoughtSignature existing signature)
  | .thinking own existing redacted =>
      .thinking (own ++ text) (retainThoughtSignature existing signature) redacted
  | block => block

def takeText (s : GoogleStream) (part : GooglePart) (text : String) : GoogleStream :=
  let s := s.openBlock part.thought
  match s.currentBlock with
  | none => s
  | some contentIndex =>
      let s : GoogleStream :=
        { s with content := s.content.modify contentIndex (addTo text part.thoughtSignature) }
      s.push
        (if part.thought then .thinkingDelta contentIndex text else .textDelta contentIndex text)

def takeFunctionCall (s : GoogleStream) (part : GooglePart) (call : GoogleFunctionCall) :
    GoogleStream :=
  let s : GoogleStream := { s.finishCurrentBlock with
    currentBlock := none
    toolCallCounter := if call.id.isNone then s.toolCallCounter + 1 else s.toolCallCounter }
  let toolCall : ToolCall :=
    { id := call.id.getD (js (call.name.getD "tool" ++ "_" ++ s.now.repr ++ "_" ++
        s.toolCallCounter.repr))
      name := call.name.getD ""
      arguments := call.args.getD (.obj [])
      thoughtSignature := part.thoughtSignature.filter truthy }
  let contentIndex := s.content.length
  let s : GoogleStream := { s with content := s.content ++ [.toolCall toolCall] }
  ((s.push (.toolcallStart contentIndex)).push
    (.toolcallDelta contentIndex (String.ofList toolCall.arguments.stringify))).push
    (.toolcallEnd contentIndex toolCall)

def takePart (s : GoogleStream) (part : GooglePart) : GoogleStream :=
  let s := match part.text with
    | some text => s.takeText part text
    | none => s
  match part.functionCall with
  | some call => s.takeFunctionCall part call
  | none => s

def takeChunk (s : GoogleStream) (chunk : GoogleResponseChunk) : GoogleStream :=
  let s := chunk.parts.foldl takePart s
  let s := match chunk.finishReason.filter truthy with
    | some reason => { s with stopReason := mapGoogleStopReason reason }
    | none => s
  if s.content.any AssistantBlock.isToolCall then { s with stopReason := .toolUse } else s

end GoogleStream

/-! ## The run -/

/-- What the body gives: chunks, and then an error or the end. `aborted` is
`options.signal.aborted` when the stream is over. -/
structure GoogleResponse where
  chunks : List GoogleResponseChunk
  failure : Option String
  aborted : Bool

def GoogleStream.start (now toolCallCounter : Nat) : GoogleStream :=
  { now, toolCallCounter, content := [], stopReason := .stop, currentBlock := none
    events := [.start] }

/-- The `catch` block. -/
def GoogleStream.fail (s : GoogleStream) (aborted : Bool) (errorMessage : String) :
    GoogleStream :=
  let stopReason : StopReason := if aborted then .aborted else .error
  let s : GoogleStream := { s with stopReason }
  s.push (.error stopReason ⟨s.content, stopReason, some errorMessage⟩)

/-- After the last chunk. -/
def GoogleStream.finish (s : GoogleStream) (aborted : Bool) : GoogleStream :=
  let s := s.finishCurrentBlock
  if aborted then s.fail aborted "Request was aborted"
  else match s.stopReason with
    | .error => s.fail aborted "Google API returned an error finish reason"
    | .aborted => s.fail aborted "Request was aborted"
    | reason => s.push (.done reason ⟨s.content, reason, none⟩)

def runGoogleStream (now toolCallCounter : Nat) (response : GoogleResponse) : GoogleStream :=
  let s := response.chunks.foldl GoogleStream.takeChunk (.start now toolCallCounter)
  match response.failure with
  | some message => s.fail response.aborted message
  | none => s.finish response.aborted

/-! ## What the chunks carry -/

def hasFunctionCall (chunks : List GoogleResponseChunk) : Bool :=
  chunks.any fun chunk => chunk.parts.any fun part => part.functionCall.isSome

def finishReasons (chunks : List GoogleResponseChunk) : List String :=
  chunks.filterMap fun chunk => chunk.finishReason.filter truthy

/-- The reason of an incomplete or a failed response. -/
def IsBadReason (reason : String) : Prop :=
  mapGoogleStopReason reason = .length ∨ mapGoogleStopReason reason = .error

/-- The last event says so if a response is incomplete or has failed. -/
structure NeverMasks (chunks : List GoogleResponseChunk) (final : AssistantMessageEvent) :
    Prop where
  bad : (∃ reason ∈ finishReasons chunks, IsBadReason reason) →
    (∃ reason message, final = .error reason message) ∨
      ∃ message, final = .done .length message ∧ message.stopReason = .length
  none : finishReasons chunks = [] → ∃ reason message, final = .error reason message

namespace GoogleStream

variable (s : GoogleStream)

@[simp] theorem push_content (event : AssistantMessageEvent) : (s.push event).content = s.content :=
  rfl

@[simp] theorem push_stopReason (event : AssistantMessageEvent) :
    (s.push event).stopReason = s.stopReason := rfl

theorem finishCurrentBlock_frame :
    s.finishCurrentBlock.content = s.content ∧ s.finishCurrentBlock.stopReason = s.stopReason := by
  unfold finishCurrentBlock
  split
  · exact ⟨rfl, rfl⟩
  · split <;> exact ⟨rfl, rfl⟩

theorem isToolCall_addTo (text : String) (signature : Option String) (block : AssistantBlock) :
    (addTo text signature block).isToolCall = block.isToolCall := by
  cases block <;> rfl

theorem any_modify (text : String) (signature : Option String) (i : Nat)
    (blocks : List AssistantBlock) :
    (blocks.modify i (addTo text signature)).any AssistantBlock.isToolCall =
      blocks.any AssistantBlock.isToolCall := by
  induction blocks generalizing i with
  | nil => cases i <;> rfl
  | cons block blocks ih =>
    cases i with
    | zero => rw [List.modify_zero_cons, List.any_cons, isToolCall_addTo, List.any_cons]
    | succ i => rw [List.modify_succ_cons, List.any_cons, ih, List.any_cons]

theorem openBlock_frame (isThinking : Bool) :
    (s.openBlock isThinking).content.any AssistantBlock.isToolCall =
        s.content.any AssistantBlock.isToolCall ∧
      (s.openBlock isThinking).stopReason = s.stopReason := by
  obtain ⟨hcontent, hreason⟩ := s.finishCurrentBlock_frame
  unfold openBlock
  split
  · exact ⟨rfl, rfl⟩
  · refine ⟨?_, hreason⟩
    cases isThinking <;> simp [hcontent, AssistantBlock.isToolCall, AssistantBlock.toolCall?]

theorem takeText_frame (part : GooglePart) (text : String) :
    (s.takeText part text).content.any AssistantBlock.isToolCall =
        s.content.any AssistantBlock.isToolCall ∧
      (s.takeText part text).stopReason = s.stopReason := by
  obtain ⟨hcalls, hreason⟩ := s.openBlock_frame part.thought
  unfold takeText
  dsimp only
  split
  · exact ⟨hcalls, hreason⟩
  · exact ⟨(any_modify ..).trans hcalls, hreason⟩

theorem takeFunctionCall_frame (part : GooglePart) (call : GoogleFunctionCall) :
    (s.takeFunctionCall part call).content.any AssistantBlock.isToolCall = true ∧
      (s.takeFunctionCall part call).stopReason = s.stopReason := by
  refine ⟨?_, s.finishCurrentBlock_frame.2⟩
  simp [takeFunctionCall, AssistantBlock.isToolCall, AssistantBlock.toolCall?]

theorem takePart_frame (part : GooglePart) :
    (s.takePart part).content.any AssistantBlock.isToolCall =
        (s.content.any AssistantBlock.isToolCall || part.functionCall.isSome) ∧
      (s.takePart part).stopReason = s.stopReason := by
  have htext : ∃ s' : GoogleStream, s.takePart part = (match part.functionCall with
      | some call => s'.takeFunctionCall part call
      | none => s') ∧ s'.content.any AssistantBlock.isToolCall =
        s.content.any AssistantBlock.isToolCall ∧ s'.stopReason = s.stopReason := by
    unfold takePart
    cases part.text with
    | none => exact ⟨s, rfl, rfl, rfl⟩
    | some text => exact ⟨s.takeText part text, rfl, s.takeText_frame part text⟩
  obtain ⟨s', hself, hcalls, hreason⟩ := htext
  rw [hself]
  cases part.functionCall with
  | none => exact ⟨hcalls.trans (Bool.or_false _).symm, hreason⟩
  | some call =>
    obtain ⟨hcall, hsame⟩ := s'.takeFunctionCall_frame part call
    exact ⟨hcall.trans (Bool.or_true _).symm, hsame.trans hreason⟩

theorem foldl_takePart_frame (parts : List GooglePart) :
    (parts.foldl takePart s).content.any AssistantBlock.isToolCall =
        (s.content.any AssistantBlock.isToolCall ||
          parts.any fun part => part.functionCall.isSome) ∧
      (parts.foldl takePart s).stopReason = s.stopReason := by
  induction parts generalizing s with
  | nil => exact ⟨(Bool.or_false _).symm, rfl⟩
  | cons part parts ih =>
    obtain ⟨hcalls, hreason⟩ := s.takePart_frame part
    obtain ⟨hcalls', hreason'⟩ := ih (s.takePart part)
    rw [List.foldl_cons]
    refine ⟨?_, hreason'.trans hreason⟩
    rw [hcalls', hcalls, List.any_cons, Bool.or_assoc]

/-- After some chunks: a tool call decides the stop reason, else the last
finish reason does. -/
structure Tracks (s : GoogleStream) (chunks : List GoogleResponseChunk) : Prop where
  calls : s.content.any AssistantBlock.isToolCall = hasFunctionCall chunks
  stopReason : s.stopReason = if hasFunctionCall chunks then .toolUse
    else ((finishReasons chunks).getLast?.map mapGoogleStopReason).getD .stop

theorem Tracks.takeChunk {s : GoogleStream} {chunks : List GoogleResponseChunk}
    (h : s.Tracks chunks) (chunk : GoogleResponseChunk) :
    (s.takeChunk chunk).Tracks (chunks ++ [chunk]) := by
  obtain ⟨hcalls, hreason⟩ := s.foldl_takePart_frame chunk.parts
  have hcall : hasFunctionCall (chunks ++ [chunk]) =
      (hasFunctionCall chunks || chunk.parts.any fun part => part.functionCall.isSome) := by
    rw [hasFunctionCall, hasFunctionCall, List.any_append, List.any_cons, List.any_nil,
      Bool.or_false]
  rw [h.calls, ← hcall] at hcalls
  rw [h.stopReason] at hreason
  unfold GoogleStream.takeChunk
  generalize chunk.parts.foldl takePart s = p at hcalls hreason
  have hreasons : finishReasons (chunks ++ [chunk]) =
      finishReasons chunks ++ (chunk.finishReason.filter truthy).toList := by
    rw [finishReasons, finishReasons, List.filterMap_append]
    cases hfinish : chunk.finishReason.filter truthy <;> simp [hfinish]
  cases hany : hasFunctionCall (chunks ++ [chunk]) with
  | true =>
    rw [hany] at hcalls
    cases chunk.finishReason.filter truthy with
    | none =>
      dsimp only
      rw [if_pos hcalls]
      exact ⟨hcalls.trans hany.symm, by rw [hany]; rfl⟩
    | some reason =>
      dsimp only
      rw [if_pos hcalls]
      exact ⟨hcalls.trans hany.symm, by rw [hany]; rfl⟩
  | false =>
    rw [hany] at hcalls
    have hbefore : hasFunctionCall chunks = false := (Bool.or_eq_false_iff.mp (hcall ▸ hany)).1
    rw [hbefore] at hreason
    have hnone : ¬ p.content.any AssistantBlock.isToolCall = true := Bool.eq_false_iff.mp hcalls
    cases hfinish : chunk.finishReason.filter truthy with
    | none =>
      rw [hfinish, Option.toList_none, List.append_nil] at hreasons
      dsimp only
      rw [if_neg hnone]
      refine ⟨hcalls.trans hany.symm, ?_⟩
      rw [hany, hreasons]
      exact hreason
    | some reason =>
      rw [hfinish, Option.toList_some] at hreasons
      dsimp only
      rw [if_neg hnone]
      refine ⟨hcalls.trans hany.symm, ?_⟩
      rw [hany, hreasons, List.getLast?_concat]
      rfl

theorem foldl_takeChunk_tracks (now toolCallCounter : Nat) (chunks : List GoogleResponseChunk) :
    (chunks.foldl GoogleStream.takeChunk (.start now toolCallCounter)).Tracks chunks := by
  induction chunks using List.reverseRecOn with
  | nil => exact ⟨rfl, rfl⟩
  | append_singleton chunks chunk ih =>
    rw [List.foldl_append]
    exact ih.takeChunk chunk

end GoogleStream

/-! ## The last event -/

/-- When the last event tells: the stream was aborted or failed, or some chunk
has a finish reason and, if one of them is bad, the last one is and there is
no tool call. -/
def GoogleResponse.Tells (response : GoogleResponse) : Prop :=
  response.aborted = true ∨ response.failure.isSome = true ∨
    (finishReasons response.chunks ≠ [] ∧
      ((∃ reason ∈ finishReasons response.chunks, IsBadReason reason) →
        hasFunctionCall response.chunks = false ∧
          ∃ last, (finishReasons response.chunks).getLast? = some last ∧ IsBadReason last))

theorem neverMasks_error (chunks : List GoogleResponseChunk) (reason : StopReason)
    (message : StreamedMessage) : NeverMasks chunks (.error reason message) :=
  ⟨fun _ => .inl ⟨reason, message, rfl⟩, fun _ => ⟨reason, message, rfl⟩⟩

def GoogleStream.LastNeverMasks (s : GoogleStream) (chunks : List GoogleResponseChunk) : Prop :=
  ∃ final, s.events.getLast? = some final ∧ NeverMasks chunks final

theorem lastNeverMasks_fail (s : GoogleStream) (chunks : List GoogleResponseChunk)
    (aborted : Bool) (errorMessage : String) :
    (s.fail aborted errorMessage).LastNeverMasks chunks :=
  ⟨_, List.getLast?_concat, neverMasks_error chunks _ _⟩

theorem lastNeverMasks_aborted (s : GoogleStream) (chunks : List GoogleResponseChunk) :
    (s.finish true).LastNeverMasks chunks :=
  lastNeverMasks_fail s.finishCurrentBlock chunks true _

theorem lastNeverMasks_error {s : GoogleStream} (h : s.stopReason = .error)
    (chunks : List GoogleResponseChunk) : (s.finish false).LastNeverMasks chunks := by
  have hreason := s.finishCurrentBlock_frame.2.trans h
  have hfinish : s.finish false = s.finishCurrentBlock.fail false
      "Google API returned an error finish reason" := by
    unfold GoogleStream.finish
    dsimp only
    rw [if_neg Bool.false_ne_true, hreason]
  rw [hfinish]
  exact lastNeverMasks_fail _ chunks _ _

/-- A stream that is done says its stop reason, which tells only of a length
stop. -/
theorem lastNeverMasks_done {s : GoogleStream} {reason : StopReason} (h : s.stopReason = reason)
    (herror : reason ≠ .error) (haborted : reason ≠ .aborted)
    (chunks : List GoogleResponseChunk) :
    (s.finish false).LastNeverMasks chunks ↔
      finishReasons chunks ≠ [] ∧
        ((∃ finish ∈ finishReasons chunks, IsBadReason finish) → reason = .length) := by
  have hreason := s.finishCurrentBlock_frame.2.trans h
  have hfinish : s.finish false =
      s.finishCurrentBlock.push (.done reason ⟨s.finishCurrentBlock.content, reason, none⟩) := by
    unfold GoogleStream.finish
    dsimp only
    rw [if_neg Bool.false_ne_true, hreason]
    cases reason with
    | error => exact absurd rfl herror
    | aborted => exact absurd rfl haborted
    | stop => rfl
    | length => rfl
    | toolUse => rfl
  rw [hfinish]
  constructor
  · rintro ⟨final, hfinal, hmasks⟩
    obtain rfl := Option.some.inj (List.getLast?_concat.symm.trans hfinal)
    refine ⟨fun hnone => ?_, fun hbad => ?_⟩
    · obtain ⟨_, _, hfail⟩ := hmasks.none hnone
      cases hfail
    · rcases hmasks.bad hbad with ⟨_, _, hfail⟩ | ⟨_, hdone, -⟩
      · cases hfail
      · cases hdone
        rfl
  · rintro ⟨hsome, hbad⟩
    refine ⟨_, List.getLast?_concat, fun h => .inr ?_, fun hnone => absurd hnone hsome⟩
    obtain rfl := hbad h
    exact ⟨_, rfl, rfl⟩

theorem isBadReason_iff (reason : String) :
    IsBadReason reason ↔ mapGoogleStopReason reason ≠ .stop := by
  unfold IsBadReason mapGoogleStopReason
  split
  · simp
  · split <;> simp

/-- The last event is right exactly for the responses it can tell. -/
theorem runGoogleStream_neverMasks_iff (now toolCallCounter : Nat) (response : GoogleResponse) :
    (runGoogleStream now toolCallCounter response).LastNeverMasks response.chunks ↔
      response.Tells := by
  have htracks := GoogleStream.foldl_takeChunk_tracks now toolCallCounter response.chunks
  unfold runGoogleStream GoogleResponse.Tells
  generalize response.chunks.foldl GoogleStream.takeChunk (.start now toolCallCounter) = s
    at htracks
  have hreason := htracks.stopReason
  cases response.failure with
  | some message => exact ⟨fun _ => .inr (.inl rfl), fun _ => lastNeverMasks_fail s _ _ _⟩
  | none =>
      cases response.aborted with
      | true => exact ⟨fun _ => .inl rfl, fun _ => lastNeverMasks_aborted s _⟩
      | false =>
          dsimp only
          rw [or_iff_right Bool.false_ne_true, Option.isSome_none, or_iff_right Bool.false_ne_true]
          cases hcall : hasFunctionCall response.chunks with
          | true =>
              rw [hcall, if_pos rfl] at hreason
              rw [lastNeverMasks_done hreason (by decide) (by decide)]
              exact and_congr_right fun _ => forall_congr' fun _ => ⟨nofun, fun h => nomatch h.1⟩
          | false =>
              rw [hcall, if_neg Bool.false_ne_true] at hreason
              cases hlast : (finishReasons response.chunks).getLast? with
              | none =>
                  have hnone := List.getLast?_eq_none_iff.mp hlast
                  rw [hlast] at hreason
                  have hstop : s.stopReason = .stop := hreason
                  rw [lastNeverMasks_done hstop (by decide) (by decide)]
                  exact ⟨fun h => absurd hnone h.1, fun h => absurd hnone h.1⟩
              | some last =>
                  have hsome : finishReasons response.chunks ≠ [] := by
                    intro hnone
                    rw [hnone] at hlast
                    cases hlast
                  rw [hlast] at hreason
                  have hmapped : s.stopReason = mapGoogleStopReason last := hreason
                  by_cases hbad : IsBadReason last
                  · refine iff_of_true ?_ ⟨hsome, fun _ => ⟨rfl, last, rfl, hbad⟩⟩
                    rcases hbad with hlength | herror
                    · rw [hlength] at hmapped
                      rw [lastNeverMasks_done hmapped (by decide) (by decide)]
                      exact ⟨hsome, fun _ => rfl⟩
                    · exact lastNeverMasks_error (hmapped.trans herror) _
                  · have hstop := not_not.mp (mt (isBadReason_iff last).mpr hbad)
                    rw [lastNeverMasks_done (hmapped.trans hstop) (by decide) (by decide)]
                    refine and_congr_right fun _ => forall_congr' fun _ => ⟨nofun, ?_⟩
                    rintro ⟨-, last', hlast', hbad'⟩
                    obtain rfl := Option.some.inj hlast'
                    exact absurd hbad' hbad

/-- A length stop after a function call. -/
def truncatedCall : GoogleResponse where
  chunks := [⟨[⟨none, false, none, some ⟨none, some "bash", none⟩⟩], some "MAX_TOKENS"⟩]
  failure := none
  aborted := false

/-- The last event is `done`, for the tool call. -/
theorem runGoogleStream_masks_length :
    ¬ (runGoogleStream 0 0 truncatedCall).LastNeverMasks truncatedCall.chunks := by
  rintro ⟨final, hfinal, hmasks⟩
  have hlast : (runGoogleStream 0 0 truncatedCall).events.getLast? = some (.done .toolUse
      ⟨[.toolCall ⟨js "bash_0_1", "bash", .obj [], none⟩], .toolUse, none⟩) := by decide +kernel
  obtain rfl := Option.some.inj (hfinal.symm.trans hlast)
  rcases hmasks.bad ⟨"MAX_TOKENS", by decide, .inl rfl⟩ with ⟨_, _, herror⟩ | ⟨_, hdone, -⟩
  · cases herror
  · cases hdone

end Eagent.Ai
