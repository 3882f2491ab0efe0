import Eagent.Json
import Eagent.OrdMap
import Eagent.SessionManager

/-!
# Histories for a provider

The messages of the provider package, and `transformMessages`, which makes
a history fit the model it is sent to: images, thinking blocks and
signatures that the model does not take are replaced or dropped, tool call
ids are rewritten for messages of other models, and calls without a result
get one.

Ids are lists of UTF-16 code units, since they are cut and rewritten by
the unit.
-/

namespace Eagent

namespace Ai

/-- A string, by its code units. -/
abbrev JsString := List UInt16

instance : LawfulBEq JsString := inferInstance

/-- The code units of a character. -/
def utf16Units (c : Char) : JsString :=
  if c.toNat < 0x10000 then [c.toNat.toUInt16]
  else
    let rest := c.toNat - 0x10000
    [(0xD800 + rest / 0x400).toUInt16, (0xDC00 + rest % 0x400).toUInt16]

def js (s : String) : JsString := s.toList.flatMap utf16Units

/-! ## Messages -/

/-- `TextContent | ImageContent` -/
inductive ContentBlock where
  | text (text : String) (textSignature : Option String)
  | image (data mimeType : String)
deriving DecidableEq

inductive UserContent where
  | string (s : String)
  | blocks (bs : List ContentBlock)
deriving DecidableEq

structure ToolCall where
  id : JsString
  name : String
  arguments : Json
  thoughtSignature : Option String
deriving DecidableEq

/-- `TextContent | ThinkingContent | ToolCall` -/
inductive AssistantBlock where
  | text (text : String) (textSignature : Option String)
  | thinking (thinking : String) (thinkingSignature : Option String) (redacted : Bool)
  | toolCall (call : ToolCall)
deriving DecidableEq

def AssistantBlock.toolCall? : AssistantBlock → Option ToolCall
  | .toolCall call => some call
  | _ => none

inductive StopReason where
  | stop
  | length
  | toolUse
  | error
  | aborted
deriving Repr, DecidableEq

structure AssistantMessage where
  content : Option (List AssistantBlock)
  api : String
  provider : String
  model : String
  stopReason : StopReason
  timestamp : Nat
deriving DecidableEq

namespace AssistantMessage

def toolCalls (m : AssistantMessage) : List ToolCall :=
  (m.content.getD []).filterMap AssistantBlock.toolCall?

/-- `stopReason` is `"error"` or `"aborted"`. -/
def failed (m : AssistantMessage) : Bool :=
  match m.stopReason with
  | .error | .aborted => true
  | _ => false

end AssistantMessage

structure ToolResultMessage where
  toolCallId : JsString
  toolName : String
  content : Option (List ContentBlock)
  details : Option Json
  addedToolNames : List String
  isError : Bool
  timestamp : Nat
deriving DecidableEq

/-- `Message`; content may be missing in an old session file. -/
inductive Message where
  | user (content : Option UserContent) (timestamp : Nat)
  | assistant (m : AssistantMessage)
  | toolResult (m : ToolResultMessage)
deriving DecidableEq

inductive InputKind where
  | text
  | image
deriving Repr, DecidableEq

structure Model where
  id : String
  api : String
  provider : String
  input : List InputKind
  reasoning : Bool
deriving Repr, DecidableEq

/-! ## Contents -/

def nonVisionUserImagePlaceholder : String := "(image omitted: model does not support images)"

def nonVisionToolImagePlaceholder : String := "(tool image omitted: model does not support images)"

/-- The loop of `replaceImagesWithPlaceholder`. -/
def replaceImagesLoop (placeholder : String) : Bool → List ContentBlock → List ContentBlock
  | _, [] => []
  | previousWasPlaceholder, .image _ _ :: rest =>
      if previousWasPlaceholder then replaceImagesLoop placeholder true rest
      else .text placeholder none :: replaceImagesLoop placeholder true rest
  | _, .text text signature :: rest =>
      .text text signature :: replaceImagesLoop placeholder (text = placeholder) rest

def replaceImagesWithPlaceholder (content : List ContentBlock) (placeholder : String) :
    List ContentBlock :=
  replaceImagesLoop placeholder false content

/-- `msg.content == null ? { ...msg, content: [] } : msg` -/
def normalizeContent : Message → Message
  | .user content timestamp => .user (some (content.getD (.blocks []))) timestamp
  | .assistant m => .assistant { m with content := some (m.content.getD []) }
  | .toolResult m => .toolResult { m with content := some (m.content.getD []) }

def downgradeUnsupportedImage : Message → Message
  | .user (some (.blocks content)) timestamp =>
      .user (some (.blocks (replaceImagesWithPlaceholder content nonVisionUserImagePlaceholder)))
        timestamp
  | .toolResult m => .toolResult { m with
      content := m.content.map fun c => replaceImagesWithPlaceholder c nonVisionToolImagePlaceholder }
  | msg => msg

def downgradeUnsupportedImages (messages : List Message) (model : Model) : List Message :=
  if .image ∈ model.input then messages else messages.map downgradeUnsupportedImage

/-! ## The first pass -/

/-- A caller's function for tool call ids, or none. -/
abbrev Normalizer := Option (JsString → Model → AssistantMessage → JsString)

section FirstPass

variable (model : Model) (normalizeToolCallId : Normalizer)

def isSameModel (m : AssistantMessage) : Bool :=
  m.provider = model.provider ∧ m.api = model.api ∧ m.model = model.id

def isBlank (s : String) : Bool := SessionManager.trimSpaces s.toList = []

def transformThinking (same : Bool) (thinking : String) (signature : Option String)
    (redacted : Bool) : List AssistantBlock :=
  if redacted then
    if same then [.thinking thinking signature redacted] else []
  else if same ∧ (signature.filter truthy).isSome then [.thinking thinking signature redacted]
  else if isBlank thinking then []
  else if same then [.thinking thinking signature redacted]
  else [.text thinking none]

def sentCallId (m : AssistantMessage) (id : JsString) : JsString :=
  if isSameModel model m then id
  else match normalizeToolCallId with
    | none => id
    | some normalize => normalize id model m

/-- `toolCallIdMap` after a call. -/
def recordCallId (toolCallIdMap : OrdMap JsString JsString) (m : AssistantMessage)
    (call : ToolCall) : OrdMap JsString JsString :=
  let sent := sentCallId model normalizeToolCallId m call.id
  if sent ≠ call.id then toolCallIdMap.set call.id sent else toolCallIdMap

def transformCall (m : AssistantMessage) (call : ToolCall) : ToolCall :=
  { call with
    id := sentCallId model normalizeToolCallId m call.id
    thoughtSignature := if isSameModel model m then call.thoughtSignature
      else call.thoughtSignature.filter fun s => !truthy s }

def transformBlock (m : AssistantMessage) : AssistantBlock → List AssistantBlock
  | .thinking thinking signature redacted =>
      transformThinking (isSameModel model m) thinking signature redacted
  | .text text signature =>
      if isSameModel model m then [.text text signature] else [.text text none]
  | .toolCall call => [.toolCall (transformCall model normalizeToolCallId m call)]

def sentResultId (toolCallIdMap : OrdMap JsString JsString) (id : JsString) : JsString :=
  match toolCallIdMap.get id with
  | some normalizedId => if normalizedId ≠ [] ∧ normalizedId ≠ id then normalizedId else id
  | none => id

/-- One message, with `toolCallIdMap` before and after it. -/
def transformMessage (toolCallIdMap : OrdMap JsString JsString) :
    Message → OrdMap JsString JsString × Message
  | .user content timestamp => (toolCallIdMap, .user content timestamp)
  | .toolResult m =>
      (toolCallIdMap, .toolResult { m with
        toolCallId := sentResultId toolCallIdMap m.toolCallId })
  | .assistant m =>
      (m.toolCalls.foldl (fun map call => recordCallId model normalizeToolCallId map m call)
          toolCallIdMap,
        .assistant { m with
          content := m.content.map (·.flatMap (transformBlock model normalizeToolCallId m)) })

def transformEach : OrdMap JsString JsString → List Message → List Message
  | _, [] => []
  | toolCallIdMap, msg :: rest =>
      let (after, transformed) := transformMessage model normalizeToolCallId toolCallIdMap msg
      transformed :: transformEach after rest

end FirstPass

/-! ## The second pass -/

structure Pairing where
  result : List Message
  pendingToolCalls : List ToolCall
  existingToolResultIds : List JsString

def syntheticToolResult (now : Nat) (tc : ToolCall) : ToolResultMessage where
  toolCallId := tc.id
  toolName := tc.name
  content := some [.text "No result provided" none]
  details := none
  addedToolNames := []
  isError := true
  timestamp := now

namespace Pairing

def insertSyntheticToolResults (now : Nat) (s : Pairing) : Pairing :=
  if s.pendingToolCalls.length > 0 then
    { result := s.result ++
        (s.pendingToolCalls.filter fun tc => tc.id ∉ s.existingToolResultIds).map
          fun tc => .toolResult (syntheticToolResult now tc)
      pendingToolCalls := []
      existingToolResultIds := [] }
  else s

/-- The calls of a message that was not dropped. -/
def track (s : Pairing) (toolCalls : List ToolCall) : Pairing :=
  if toolCalls.length > 0 then
    { s with pendingToolCalls := toolCalls, existingToolResultIds := [] }
  else s

def push (s : Pairing) (msg : Message) : Pairing := { s with result := s.result ++ [msg] }

def step (now : Nat) (s : Pairing) (msg : Message) : Pairing :=
  match msg with
  | .assistant m =>
      let s := s.insertSyntheticToolResults now
      if m.failed then s else (s.track m.toolCalls).push msg
  | .toolResult m =>
      { s.push msg with existingToolResultIds := m.toolCallId :: s.existingToolResultIds }
  | .user _ _ => (s.insertSyntheticToolResults now).push msg

end Pairing

/-- `now` is the time of the synthetic results. -/
def transformMessages (messages : List Message) (model : Model) (normalizeToolCallId : Normalizer)
    (now : Nat) : List Message :=
  let imageAwareMessages := downgradeUnsupportedImages (messages.map normalizeContent) model
  let transformed := transformEach model normalizeToolCallId .empty imageAwareMessages
  ((transformed.foldl (Pairing.step now) ⟨[], [], []⟩).insertSyntheticToolResults now).result

end Ai

end Eagent
