import Eagent.GoogleStream

/-!
# The chat completions stream

`stream` of the chat completions API, from the response on: every chunk adds
to one text block, one thinking block and the blocks of the tool calls, which
are looked up by stream index or by id. A reference to a block is its
position, as blocks are only added at the end.
-/

namespace Eagent.Ai

/-! ## Chunks -/

structure ToolCallDelta where
  index : Option Int
  id : Option JsString
  name : Option String
  arguments : Option String
deriving DecidableEq

/-- `delta.id`, where it counts: the empty id is as good as none. -/
def ToolCallDelta.id? (toolCall : ToolCallDelta) : Option JsString :=
  toolCall.id.filter fun id => id ≠ []

/-- The first choice of a chunk. `reasoningDetails` has the id and the text of
each encrypted detail. -/
structure ChatCompletionChunk where
  finishReason : Option String
  content : Option String
  reasoningContent : Option String
  reasoning : Option String
  reasoningText : Option String
  toolCalls : List ToolCallDelta
  reasoningDetails : List (JsString × String)
deriving DecidableEq

def ChatCompletionChunk.foundReasoning (chunk : ChatCompletionChunk) : Option (String × String) :=
  [("reasoning_content", chunk.reasoningContent), ("reasoning", chunk.reasoning),
    ("reasoning_text", chunk.reasoningText)].findSome? fun (field, value) =>
      (value.filter truthy).map fun delta => (field, delta)

def mapStopReason (reason : String) : StopReason × Option String :=
  if reason = "stop" ∨ reason = "end" then (.stop, none)
  else if reason = "length" then (.length, none)
  else if reason = "function_call" ∨ reason = "tool_calls" then (.toolUse, none)
  else (.error, some ("Provider finish_reason: " ++ reason))

/-! ## Blocks -/

structure StreamingToolCallBlock extends ToolCall where
  partialArgs : Option String
  streamIndex : Option Int

inductive StreamingBlock where
  | text (text : String)
  | thinking (thinking thinkingSignature : String)
  | toolCall (block : StreamingToolCallBlock)

namespace StreamingBlock

/-- The block without the scratch buffers. -/
def toAssistantBlock : StreamingBlock → AssistantBlock
  | .text own => .text own none
  | .thinking own signature => .thinking own (some signature) false
  | .toolCall block => .toolCall block.toToolCall

def addDelta (delta : String) : StreamingBlock → StreamingBlock
  | .text own => .text (own ++ delta)
  | .thinking own signature => .thinking (own ++ delta) signature
  | block => block

def mapToolCall (f : StreamingToolCallBlock → StreamingToolCallBlock) :
    StreamingBlock → StreamingBlock
  | .toolCall block => .toolCall (f block)
  | block => block

def toolCall? : StreamingBlock → Option StreamingToolCallBlock
  | .toolCall block => some block
  | _ => none

end StreamingBlock

/-- What is built and what has been pushed. -/
structure CompletionsStream where
  blocks : List StreamingBlock
  textBlock : Option Nat
  thinkingBlock : Option Nat
  hasFinishReason : Bool
  toolCallBlocksByIndex : OrdMap Int Nat
  toolCallBlocksById : OrdMap JsString Nat
  pendingReasoningDetails : OrdMap JsString String
  stopReason : StopReason
  errorMessage : Option String
  events : List AssistantMessageEvent

namespace CompletionsStream

def push (s : CompletionsStream) (event : AssistantMessageEvent) : CompletionsStream :=
  { s with events := s.events ++ [event] }

def modify (s : CompletionsStream) (p : Nat) (f : StreamingBlock → StreamingBlock) :
    CompletionsStream :=
  { s with blocks := s.blocks.modify p f }

def toolCallAt (s : CompletionsStream) (p : Nat) : Option StreamingToolCallBlock :=
  s.blocks[p]?.bind StreamingBlock.toolCall?

/-! ### Text and thinking -/

def ensureTextBlock (s : CompletionsStream) : CompletionsStream × Nat :=
  match s.textBlock with
  | some p => (s, p)
  | none =>
      let p := s.blocks.length
      let s : CompletionsStream :=
        { s with textBlock := some p, blocks := s.blocks ++ [.text ""] }
      (s.push (.textStart p), p)

def ensureThinkingBlock (s : CompletionsStream) (thinkingSignature : String) :
    CompletionsStream × Nat :=
  match s.thinkingBlock with
  | some p => (s, p)
  | none =>
      let p := s.blocks.length
      let s : CompletionsStream :=
        { s with
          thinkingBlock := some p
          blocks := s.blocks ++ [.thinking "" thinkingSignature] }
      (s.push (.thinkingStart p), p)

def takeContent (s : CompletionsStream) (content : Option String) : CompletionsStream :=
  match content.filter truthy with
  | none => s
  | some delta =>
      let (s, p) := s.ensureTextBlock
      (s.modify p (.addDelta delta)).push (.textDelta p delta)

def takeReasoning (s : CompletionsStream) (provider : String)
    (found : Option (String × String)) : CompletionsStream :=
  match found with
  | none => s
  | some (field, delta) =>
      let thinkingSignature :=
        if provider = "opencode-go" ∧ field = "reasoning" then "reasoning_content" else field
      let (s, p) := s.ensureThinkingBlock thinkingSignature
      (s.modify p (.addDelta delta)).push (.thinkingDelta p delta)

/-! ### Tool calls -/

def findToolCallBlock (s : CompletionsStream) (toolCall : ToolCallDelta) : Option Nat :=
  (toolCall.index.bind s.toolCallBlocksByIndex.get).or
    (toolCall.id?.bind s.toolCallBlocksById.get)

/-- `map.set(key, block)`, where there is a key. -/
def setKey {α : Type*} [DecidableEq α] (m : OrdMap α Nat) (p : Nat) : Option α → OrdMap α Nat
  | some key => m.set key p
  | none => m

/-- The index and the id of the delta lead to the block at `p`. -/
def register (s : CompletionsStream) (p : Nat) (index : Option Int) (id : Option JsString) :
    CompletionsStream :=
  { s with
    toolCallBlocksByIndex := setKey s.toolCallBlocksByIndex p index
    toolCallBlocksById := setKey s.toolCallBlocksById p id }

def newToolCallBlock (toolCall : ToolCallDelta) : StreamingToolCallBlock where
  id := toolCall.id?.getD []
  name := toolCall.name.getD ""
  arguments := .obj []
  thoughtSignature := none
  partialArgs := some ""
  streamIndex := toolCall.index

def openToolCall (s : CompletionsStream) (toolCall : ToolCallDelta) : CompletionsStream × Nat :=
  let p := s.blocks.length
  let s : CompletionsStream :=
    { s.register p toolCall.index toolCall.id? with
      blocks := s.blocks ++ [.toolCall (newToolCallBlock toolCall)] }
  (s.push (.toolcallStart p), p)

def adoptIndex (s : CompletionsStream) (p : Nat) (index : Option Int) : CompletionsStream :=
  match index, s.toolCallAt p with
  | some i, some block =>
      if block.streamIndex.isNone then
        (s.modify p (.mapToolCall fun b => { b with streamIndex := some i })).register p (some i)
          none
      else s
  | _, _ => s

def applyPendingReasoningDetail (s : CompletionsStream) (p : Nat) : CompletionsStream :=
  match s.toolCallAt p with
  | none => s
  | some block =>
      if block.id = [] then s
      else match (s.pendingReasoningDetails.get block.id).filter truthy with
        | none => s
        | some detail =>
            { s.modify p (.mapToolCall fun b => { b with thoughtSignature := some detail }) with
              pendingReasoningDetails := s.pendingReasoningDetails.delete block.id }

def ensureToolCallBlock (s : CompletionsStream) (toolCall : ToolCallDelta) :
    CompletionsStream × Nat :=
  let (s, p) := match s.findToolCallBlock toolCall with
    | some p => (s, p)
    | none => s.openToolCall toolCall
  (((s.adoptIndex p toolCall.index).register p none toolCall.id?).applyPendingReasoningDetail p, p)

def takeId (toolCall : ToolCallDelta) (block : StreamingToolCallBlock) : StreamingToolCallBlock :=
  if block.id = [] then { block with id := toolCall.id?.getD [] } else block

def takeName (toolCall : ToolCallDelta) (block : StreamingToolCallBlock) :
    StreamingToolCallBlock :=
  if block.name = "" then { block with name := toolCall.name.getD "" } else block

def takeArguments (parseStreamingJson : Option String → Json) (toolCall : ToolCallDelta)
    (block : StreamingToolCallBlock) : StreamingToolCallBlock :=
  match toolCall.arguments.filter truthy with
  | none => block
  | some delta =>
      let partialArgs := some (block.partialArgs.getD "" ++ delta)
      { block with partialArgs, arguments := parseStreamingJson partialArgs }

def receive (parseStreamingJson : Option String → Json) (toolCall : ToolCallDelta)
    (block : StreamingToolCallBlock) : StreamingToolCallBlock :=
  takeArguments parseStreamingJson toolCall (takeName toolCall (takeId toolCall block))

def takeToolCall (parseStreamingJson : Option String → Json) (s : CompletionsStream)
    (toolCall : ToolCallDelta) : CompletionsStream :=
  let (s, p) := s.ensureToolCallBlock toolCall
  -- an id the block takes over now is one `register` has stored already
  (s.modify p (.mapToolCall (receive parseStreamingJson toolCall))).push
    (.toolcallDelta p (toolCall.arguments.getD ""))

def takeReasoningDetail (s : CompletionsStream) (detail : JsString × String) :
    CompletionsStream :=
  match s.toolCallBlocksById.get detail.1 with
  | some p => s.modify p (.mapToolCall fun b => { b with thoughtSignature := some detail.2 })
  | none =>
      { s with pendingReasoningDetails := s.pendingReasoningDetails.set detail.1 detail.2 }

/-! ### The run -/

def takeFinishReason (s : CompletionsStream) (finishReason : Option String) : CompletionsStream :=
  match finishReason.filter truthy with
  | none => s
  | some reason =>
      { s with
        stopReason := (mapStopReason reason).1
        errorMessage := (mapStopReason reason).2.or s.errorMessage
        hasFinishReason := true }

def takeChunk (provider : String) (parseStreamingJson : Option String → Json)
    (s : CompletionsStream) (chunk : ChatCompletionChunk) : CompletionsStream :=
  let s := s.takeFinishReason chunk.finishReason
  let s := s.takeContent chunk.content
  let s := s.takeReasoning provider chunk.foundReasoning
  let s := chunk.toolCalls.foldl (takeToolCall parseStreamingJson) s
  chunk.reasoningDetails.foldl takeReasoningDetail s

def finishBlock (parseStreamingJson : Option String → Json) (s : CompletionsStream) (p : Nat) :
    CompletionsStream :=
  match s.blocks[p]? with
  | none => s
  | some (.text text) => s.push (.textEnd p text)
  | some (.thinking thinking _) => s.push (.thinkingEnd p thinking)
  | some (.toolCall block) =>
      let block : StreamingToolCallBlock :=
        { block with
          arguments := parseStreamingJson block.partialArgs
          partialArgs := none
          streamIndex := none }
      (s.modify p fun _ => .toolCall block).push (.toolcallEnd p block.toToolCall)

def content (s : CompletionsStream) : List AssistantBlock :=
  s.blocks.map StreamingBlock.toAssistantBlock

def start : CompletionsStream where
  blocks := []
  textBlock := none
  thinkingBlock := none
  hasFinishReason := false
  toolCallBlocksByIndex := OrdMap.empty
  toolCallBlocksById := OrdMap.empty
  pendingReasoningDetails := OrdMap.empty
  stopReason := .stop
  errorMessage := none
  events := [.start]

/-- The `catch` block. -/
def fail (s : CompletionsStream) (aborted : Bool) (errorMessage : String) : CompletionsStream :=
  let stopReason : StopReason := if aborted then .aborted else .error
  let s : CompletionsStream := { s with stopReason, errorMessage := some errorMessage }
  s.push (.error stopReason ⟨s.content, stopReason, some errorMessage⟩)

/-- After the last chunk. -/
def finish (parseStreamingJson : Option String → Json) (s : CompletionsStream) (aborted : Bool) :
    CompletionsStream :=
  let s := (List.range s.blocks.length).foldl (finishBlock parseStreamingJson) s
  if aborted then s.fail aborted "Request was aborted"
  else if s.stopReason = .aborted then s.fail aborted "Request was aborted"
  else if s.stopReason = .error then
    s.fail aborted ((s.errorMessage.filter truthy).getD "Provider returned an error stop reason")
  else if !s.hasFinishReason then s.fail aborted "Stream ended without finish_reason"
  else s.push (.done s.stopReason ⟨s.content, s.stopReason, s.errorMessage⟩)

end CompletionsStream

/-- What the request gives: chunks, and then an error or the end. `aborted` is
`options.signal.aborted` when the stream is over. -/
structure CompletionsResponse where
  chunks : List ChatCompletionChunk
  failure : Option String
  aborted : Bool

def runCompletionsStream (provider : String) (parseStreamingJson : Option String → Json)
    (response : CompletionsResponse) : CompletionsStream :=
  let s := response.chunks.foldl (CompletionsStream.takeChunk provider parseStreamingJson) .start
  match response.failure with
  | some message => s.fail response.aborted message
  | none => s.finish parseStreamingJson response.aborted

end Eagent.Ai
