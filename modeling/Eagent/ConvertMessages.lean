import Mathlib.Data.List.Basic
import Mathlib.Data.List.DropRight
import Mathlib.Data.Nat.Digits.Defs
import Eagent.JsonText
import Eagent.TransformMessages

/-!
# Histories on the wire

`convertMessages` for the completions interface and
`convertResponsesMessages` for the responses interface, with the functions
that rewrite tool call ids for each. Texts have no unpaired surrogates, so
`sanitizeSurrogates` does nothing to them.
-/

namespace Eagent

namespace Ai

/-! ## Ids -/

def pipe : UInt16 := 124

def underscore : UInt16 := 95

/-- `[a-zA-Z0-9_-]` -/
def isIdUnit (u : UInt16) : Bool :=
  (97 ≤ u && u ≤ 122) || (65 ≤ u && u ≤ 90) || (48 ≤ u && u ≤ 57) || u = underscore || u = 45

/-- `replace(/[^a-zA-Z0-9_-]/g, "_")`, on one unit. -/
def cleanUnit (u : UInt16) : UInt16 := if isIdUnit u then u else underscore

/-- `id.split("|")[0]` -/
def callPart (id : JsString) : JsString := id.takeWhile (· ≠ pipe)

/-- `id.split("|")[1]` -/
def itemPart? (id : JsString) : Option JsString :=
  match id.dropWhile (· ≠ pipe) with
  | [] => none
  | _ :: rest => some (callPart rest)

/-- `Math.imul` and `^` on unsigned words; `>>> 0` changes nothing. -/
def shortHashLoop : UInt32 → UInt32 → JsString → UInt32 × UInt32
  | h1, h2, [] => (h1, h2)
  | h1, h2, ch :: rest =>
      shortHashLoop ((h1 ^^^ ch.toUInt32) * 2654435761) ((h2 ^^^ ch.toUInt32) * 1597334677) rest

/-- `toString(36)`, on one digit. -/
def base36Digit (n : Nat) : UInt16 := if n < 10 then (48 + n).toUInt16 else (87 + n).toUInt16

def toString36 (n : UInt32) : JsString :=
  if n = 0 then [48] else (Nat.digits 36 n.toNat).reverse.map base36Digit

/-- `Math.imul(h ^ (h >>> bits), factor)` -/
def mixWord (h bits factor : UInt32) : UInt32 := (h ^^^ (h >>> bits)) * factor

def shortHash (str : JsString) : JsString :=
  let (h1, h2) := shortHashLoop 0xdeadbeef 0x41c6ce57 str
  let h1 := mixWord h1 16 2246822507 ^^^ mixWord h2 13 3266489909
  let h2 := mixWord h2 16 2246822507 ^^^ mixWord h1 13 3266489909
  toString36 h2 ++ toString36 h1

/-- `normalizeToolCallId` of the completions interface. -/
def normalizeCompletionsId (id : JsString) (model : Model) (_ : AssistantMessage) : JsString :=
  if pipe ∈ id then ((callPart id).map cleanUnit).take 40
  else if model.provider = "openai" then
    if id.length > 40 then id.take 40 else id
  else id

def normalizeIdPart (part : JsString) : JsString :=
  let sanitized := part.map cleanUnit
  let normalized := if sanitized.length > 64 then sanitized.take 64 else sanitized
  normalized.rdropWhile (· = underscore)

def itemPrefix : JsString := js "fc_"

def buildForeignResponsesItemId (itemId : JsString) : JsString :=
  let normalized := itemPrefix ++ shortHash itemId
  if normalized.length > 64 then normalized.take 64 else normalized

/-- `normalizeToolCallId` of the responses interface. -/
def normalizeResponsesId (allowedToolCallProviders : List String) (id : JsString) (model : Model)
    (source : AssistantMessage) : JsString :=
  if model.provider ∉ allowedToolCallProviders then normalizeIdPart id
  else if pipe ∉ id then normalizeIdPart id
  else
    let itemId := (itemPart? id).getD []
    let isForeignToolCall := source.provider ≠ model.provider ∨ source.api ≠ model.api
    let normalizedItemId :=
      if isForeignToolCall then buildForeignResponsesItemId itemId else normalizeIdPart itemId
    let normalizedItemId :=
      if itemPrefix.isPrefixOf normalizedItemId then normalizedItemId
      else normalizeIdPart (itemPrefix ++ normalizedItemId)
    normalizeIdPart (callPart id) ++ pipe :: normalizedItemId

/-! ## Completions -/

structure CompletionsCompat where
  supportsDeveloperRole : Bool
  requiresToolResultName : Bool
  requiresAssistantAfterToolResult : Bool
  requiresThinkingAsText : Bool
  requiresReasoningContentOnAssistantMessages : Bool
deriving Repr, DecidableEq

inductive ChatPart where
  | text (text : String)
  | imageUrl (url : String)
deriving Repr, DecidableEq

inductive ChatContent where
  | string (s : String)
  | parts (parts : List ChatPart)
deriving Repr, DecidableEq

structure ChatToolCall where
  id : JsString
  name : String
  arguments : String
deriving DecidableEq

/-- `ChatCompletionMessageParam`; `extra` are the fields of reasoning. -/
inductive ChatParam where
  | instruction (role content : String)
  | user (content : ChatContent)
  | assistant (content : Option ChatContent) (toolCalls : List ChatToolCall)
      (extra : List (String × String))
  | tool (content : String) (toolCallId : JsString) (name : Option String)
deriving DecidableEq

inductive Role where
  | user
  | assistant
  | toolResult
deriving Repr, DecidableEq

def imageUrl (data mimeType : String) : String := "data:" ++ mimeType ++ ";base64," ++ data

def ContentBlock.toPart : ContentBlock → ChatPart
  | .text s _ => .text s
  | .image data mimeType => .imageUrl (Ai.imageUrl data mimeType)

def userParam : UserContent → Option ChatParam
  | .string s => some (.user (.string s))
  | .blocks bs => if bs = [] then none else some (.user (.parts (bs.map ContentBlock.toPart)))

def contentTexts (content : List ContentBlock) : List String :=
  content.filterMap fun block => match block with
    | .text text _ => some text
    | .image _ _ => none

def contentImages (content : List ContentBlock) : List ChatPart :=
  content.filterMap fun block => match block with
    | .text _ _ => none
    | .image data mimeType => some (.imageUrl (imageUrl data mimeType))

def toolResultText (content : List ContentBlock) : String :=
  let textResult := String.intercalate "\n" (contentTexts content)
  if truthy textResult then textResult
  else if contentImages content ≠ [] then "(see attached image)"
  else "(no tool output)"

section Completions

variable (model : Model) (compat : CompletionsCompat)

def assistantTexts (blocks : List AssistantBlock) : List String :=
  (blocks.filterMap fun block => match block with
    | .text text _ => some text
    | _ => none).filter fun text => !isBlank text

def thinkingBlocks (blocks : List AssistantBlock) : List (String × Option String) :=
  (blocks.filterMap fun block => match block with
    | .thinking thinking signature _ => some (thinking, signature)
    | _ => none).filter fun block => !isBlank block.1

/-- The field that replays the reasoning under the name the first block's
signature gives. -/
def reasoningField (thinking : List (String × Option String)) : List (String × String) :=
  match thinking with
  | (_, some signature) :: _ =>
      let name := if model.provider = "opencode-go" ∧ signature = "reasoning" then
        "reasoning_content" else signature
      if truthy name then [(name, String.intercalate "\n" (thinking.map Prod.fst))] else []
  | _ => []

def chatToolCall (call : ToolCall) : ChatToolCall :=
  ⟨call.id, call.name, String.ofList (Json.stringify call.arguments)⟩

def assistantParam (m : AssistantMessage) : Option ChatParam :=
  let blocks := m.content.getD []
  let texts := assistantTexts blocks
  let assistantText := String.join texts
  let thinking := thinkingBlocks blocks
  let empty : Option ChatContent :=
    if compat.requiresAssistantAfterToolResult then some (.string "") else none
  let asText := thinking ≠ [] ∧ compat.requiresThinkingAsText
  let content : Option ChatContent :=
    if asText then
      some (.parts (.text (String.intercalate "\n\n" (thinking.map Prod.fst)) :: texts.map .text))
    else if truthy assistantText then some (.string assistantText)
    else empty
  let fields := if asText then [] else reasoningField model thinking
  let extra :=
    if compat.requiresReasoningContentOnAssistantMessages ∧ model.reasoning ∧
        "reasoning_content" ∉ fields.map Prod.fst then
      fields ++ [("reasoning_content", "")]
    else fields
  let hasContent := match content with
    | none => false
    | some (.string s) => truthy s
    | some (.parts parts) => !parts.isEmpty
  if !hasContent ∧ m.toolCalls = [] then none
  else some (.assistant content (m.toolCalls.map chatToolCall) extra)

def toolParam (r : ToolResultMessage) : ChatParam :=
  .tool (toolResultText (r.content.getD [])) r.toolCallId
    (if compat.requiresToolResultName ∧ truthy r.toolName then some r.toolName else none)

def processed : ChatParam := .assistant (some (.string "I have processed the tool results.")) [] []

def resultImages (run : List ToolResultMessage) : List ChatPart :=
  if .image ∈ model.input then run.flatMap fun r => contentImages (r.content.getD []) else []

def flushResults (run : List ToolResultMessage) : List ChatParam :=
  let images := resultImages model run
  run.map (toolParam compat) ++
    if images = [] then []
    else
      (if compat.requiresAssistantAfterToolResult then [processed] else []) ++
        [.user (.parts (.text "Attached image(s) from tool result:" :: images))]

def roleAfter (run : List ToolResultMessage) (lastRole : Option Role) : Option Role :=
  if run = [] then lastRole
  else if resultImages model run = [] then some .toolResult
  else some .user

/-- The loop; `run` are the tool results just before `messages`. -/
def convertLoop (lastRole : Option Role) (run : List ToolResultMessage) :
    List Message → List ChatParam
  | [] => flushResults model compat run
  | .toolResult r :: rest => convertLoop lastRole (run ++ [r]) rest
  | .user content _ :: rest =>
      let role := roleAfter model run lastRole
      flushResults model compat run ++
        (if compat.requiresAssistantAfterToolResult ∧ role = some .toolResult then [processed]
          else []) ++
        match userParam (content.getD (.blocks [])) with
        | none => convertLoop role [] rest
        | some param => param :: convertLoop (some .user) [] rest
  | .assistant m :: rest =>
      flushResults model compat run ++
        match assistantParam model compat m with
        | none => convertLoop (roleAfter model run lastRole) [] rest
        | some param => param :: convertLoop (some .assistant) [] rest

def instructionRole (supportsDeveloperRole : Bool) : String :=
  if model.reasoning ∧ supportsDeveloperRole then "developer" else "system"

def convertMessages (systemPrompt : Option String) (messages : List Message) (now : Nat) :
    List ChatParam :=
  ((systemPrompt.filter truthy).map
      (ChatParam.instruction (instructionRole model compat.supportsDeveloperRole))).toList ++
    convertLoop model compat none []
      (transformMessages messages model (some normalizeCompletionsId) now)

end Completions

/-! ## Responses -/

inductive ResponseContent where
  | string (s : String)
  | parts (parts : List ChatPart)
deriving Repr, DecidableEq

/-- `ResponseInputItem` -/
inductive ResponseItem where
  | instruction (role content : String)
  | user (content : List ChatPart)
  | reasoning (item : Json)
  | message (text : String)
  | functionCall (id : Option JsString) (callId : JsString) (name arguments : String)
  | functionCallOutput (callId : JsString) (output : ResponseContent)
deriving DecidableEq

section Responses

variable (model : Model)

def userItems : UserContent → List ResponseItem
  | .string s => [.user [.text s]]
  | .blocks bs => if bs = [] then [] else [.user (bs.map ContentBlock.toPart)]

/-- The `id` of a call: left out for a call of another model that is paired
with an item of its own. -/
def functionCallItemId (m : AssistantMessage) (id : JsString) : Option JsString :=
  let isDifferentModel :=
    m.model ≠ model.id ∧ m.provider = model.provider ∧ m.api = model.api
  (itemPart? id).filter fun itemId => !(isDifferentModel ∧ itemPrefix.isPrefixOf itemId)

def assistantItems (m : AssistantMessage) : AssistantBlock → Option (List ResponseItem)
  | .thinking _ signature _ =>
      match signature.filter truthy with
      | none => some []
      | some s => (Json.parse s.toList).map fun item => [.reasoning item]
  | .text text _ => some [.message text]
  | .toolCall call =>
      some [.functionCall (functionCallItemId model m call.id) (callPart call.id) call.name
        (String.ofList (Json.stringify call.arguments))]

def resultOutput (content : List ContentBlock) : ResponseContent :=
  let images := contentImages content
  if images ≠ [] ∧ .image ∈ model.input then
    let textResult := String.intercalate "\n" (contentTexts content)
    .parts ((if truthy textResult then [.text textResult] else []) ++ images)
  else .string (toolResultText content)

def responseItems : Message → Option (List ResponseItem)
  | .user content _ => some (userItems (content.getD (.blocks [])))
  | .assistant m => ((m.content.getD []).mapM (assistantItems model m)).map List.flatten
  | .toolResult r =>
      some [.functionCallOutput (callPart r.toolCallId) (resultOutput model (r.content.getD []))]

def convertResponsesMessages (systemPrompt : Option String) (messages : List Message)
    (allowedToolCallProviders : List String) (includeSystemPrompt supportsDeveloperRole : Bool)
    (now : Nat) : Option (List ResponseItem) :=
  let transformed := transformMessages messages model
    (some (normalizeResponsesId allowedToolCallProviders)) now
  let instruction := if includeSystemPrompt then ((systemPrompt.filter truthy).map
    (ResponseItem.instruction (instructionRole model supportsDeveloperRole))).toList else []
  (transformed.mapM (responseItems model)).map fun items => instruction ++ items.flatten

end Responses

end Ai

end Eagent
