import Eagent.SessionManager

/-!
# Redaction of secrets

`redactString` replaces the matches of three patterns, one pattern after the
other, by what the pattern captures followed by `[REDACTED]`. A pattern is a
`Matcher`: at a position, with the character before it, it says what it
captures and how many characters it matches. `replaceAll` is
`String.prototype.replace` with a global pattern.
-/

namespace Eagent

/-! ## Global replacement -/

/-- The capture and the length of the match that begins here, if there is
one; the first argument is the character before. -/
abbrev Matcher := Option Char → List Char → Option (List Char × Nat)

/-- Replace the matches, from left to right; `skip` characters of the last
match are still to be passed over. -/
def Matcher.replaceFrom (m : Matcher) (text : List Char) :
    Option Char → Nat → List Char → List Char
  | _, _, [] => []
  | _, skip + 1, c :: rest => m.replaceFrom text (some c) skip rest
  | prev, 0, c :: rest =>
      match m prev (c :: rest) with
      | some (capture, n + 1) => capture ++ text ++ m.replaceFrom text (some c) n rest
      | _ => c :: m.replaceFrom text (some c) 0 rest

def Matcher.replaceAll (m : Matcher) (text cs : List Char) : List Char :=
  m.replaceFrom text none 0 cs

/-! ## Character classes -/

/-- `\w`. -/
def isWordChar (c : Char) : Bool := c.isAlphanum || c = '_'

/-- `\b` between two characters. -/
def isBoundary (prev next : Option Char) : Bool := prev.any isWordChar != next.any isWordChar

/-- `[A-Za-z0-9_-]`. -/
def isKeyChar (c : Char) : Bool := isWordChar c || c = '-'

/-- Letters, digits and the characters of the list. -/
def isTokenChar (c : Char) : Bool :=
  c.isAlphanum || c ∈ ['.', '_', '~', '+', '/', '-']

/-- `[^\s,;]`. -/
def isValueChar (c : Char) : Bool := !SessionManager.isJsSpace c && c ≠ ',' && c ≠ ';'

/-- The rest after a literal, without regard to case. -/
def stripLiteral : List Char → List Char → Option (List Char)
  | [], cs => some cs
  | _ :: _, [] => none
  | l :: ls, c :: cs => if c.toLower = l then stripLiteral ls cs else none

/-! ## The patterns -/

/-- The longest run of at most `n` and at least 16 key characters that ends
at a word boundary. -/
def keyLength (cs : List Char) : Nat → Option Nat
  | 0 => none
  | n + 1 =>
      if n + 1 < 16 then none
      else if isBoundary cs[n]? cs[n + 1]? then some (n + 1)
      else keyLength cs n

/-- `/\b(sk-[A-Za-z0-9_-]{16,})\b/g`: the whole match is captured. -/
def secretKey : Matcher := fun prev cs =>
  match cs with
  | 's' :: 'k' :: '-' :: rest =>
      if isBoundary prev (some 's') then
        (keyLength rest (rest.takeWhile isKeyChar).length).map fun n => (cs.take (3 + n), 3 + n)
      else none
  | _ => none

/-- `Bearer`, white space and at least twelve token characters; the case does
not matter and the token is not captured. -/
def bearerToken : Matcher := fun prev cs =>
  match stripLiteral "bearer".toList cs with
  | none => none
  | some rest =>
      let spaces := (rest.takeWhile SessionManager.isJsSpace).length
      let token := ((rest.drop spaces).takeWhile isTokenChar).length
      if isBoundary prev cs.head? && 1 ≤ spaces && 12 ≤ token then
        some (cs.take (6 + spaces), 6 + spaces + token)
      else none

/-- `api[_-]?key`, and what follows it. -/
def stripApiKey (cs : List Char) : Option (List Char) :=
  match stripLiteral "api".toList cs with
  | some ('_' :: rest) | some ('-' :: rest) => stripLiteral "key".toList rest
  | some rest => stripLiteral "key".toList rest
  | none => none

/-- `/\b(api[_-]?key\s*[=:]\s*)[^\s,;]+/gi`. -/
def apiKeyValue : Matcher := fun prev cs =>
  match (stripApiKey cs).map (·.dropWhile SessionManager.isJsSpace) with
  | some (separator :: rest) =>
      let value := rest.dropWhile SessionManager.isJsSpace
      let length := (value.takeWhile isValueChar).length
      if isBoundary prev cs.head? && (separator = '=' || separator = ':') && 1 ≤ length then
        some (cs.take (cs.length - value.length), cs.length - value.length + length)
      else none
  | _ => none

def secretPatterns : List Matcher := [secretKey, bearerToken, apiKeyValue]

/-! ## Redaction -/

def redactChars (cs : List Char) : List Char :=
  secretPatterns.foldl (fun redacted pattern => pattern.replaceAll "[REDACTED]".toList redacted) cs

def redactString (value : String) : String := String.ofList (redactChars value.toList)

mutual

/-- `redactSecrets` on a JSON-compatible value; keys are not redacted. -/
def redactSecrets : Json → Json
  | .str s => .str (redactString s)
  | .arr items => .arr (redactItems items)
  | .obj fields => .obj (redactFields fields)
  | .null => .null
  | .bool b => .bool b
  | .num text => .num text

def redactItems : List Json → List Json
  | [] => []
  | item :: rest => redactSecrets item :: redactItems rest

def redactFields : List (String × Json) → List (String × Json)
  | [] => []
  | (key, entry) :: rest => (key, redactSecrets entry) :: redactFields rest

end

/-- The strings of the test of `redactSecrets`. -/
example : redactSecrets (.obj [("text", .str "Authorization: Bearer abcdefghijklmnop"),
      ("nested", .arr [.str "api_key=secret-value"])]) =
    .obj [("text", .str "Authorization: Bearer [REDACTED]"),
      ("nested", .arr [.str "api_key=[REDACTED]"])] := by
  decide +kernel

/-! ## Redaction of an assistant message -/

def ToolCall.redact (call : ToolCall) : ToolCall where
  id := redactString call.id
  name := redactString call.name
  arguments := redactSecrets call.arguments

def AssistantBlock.redact : AssistantBlock → AssistantBlock
  | .text s => .text (redactString s)
  | .thinking s => .thinking (redactString s)
  | .toolCall call => .toolCall call.redact

/-- `redactSecrets` on an assistant message; its role, its stop reason and
the types of its blocks hold no secret. -/
def AssistantMessage.redact (m : AssistantMessage) : AssistantMessage :=
  { m with
    content := m.content.map (·.map AssistantBlock.redact)
    provider := redactString m.provider
    model := redactString m.model
    errorMessage := m.errorMessage.map redactString }

theorem AssistantBlock.toolCall?_redact (block : AssistantBlock) :
    block.redact.toolCall? = block.toolCall?.map ToolCall.redact := by
  cases block with
  | text s => rfl
  | thinking s => rfl
  | toolCall call => rfl

theorem toolCalls_redact (m : AssistantMessage) :
    m.redact.toolCalls = m.toolCalls.map ToolCall.redact := by
  have hblocks : m.redact.blocks = m.blocks.map AssistantBlock.redact := by
    unfold AssistantMessage.blocks AssistantMessage.redact
    cases m.content with
    | none => rfl
    | some blocks => rfl
  rw [AssistantMessage.toolCalls, hblocks, List.filterMap_map, AssistantMessage.toolCalls,
    List.map_filterMap]
  exact List.filterMap_congr fun block _ => block.toolCall?_redact

/-! ## Redaction of a message -/

def ContentBlock.redact : ContentBlock → ContentBlock
  | .text s => .text (redactString s)
  | .image data mimeType => .image (redactString data) (redactString mimeType)

def MessageContent.redact : MessageContent → MessageContent
  | .string s => .string (redactString s)
  | .blocks bs => .blocks (bs.map ContentBlock.redact)

/-- `redactSecrets` on a message; its role, numbers and flags hold no
secret. -/
def AgentMessage.redact : AgentMessage → AgentMessage
  | .user m => .user { m with content := m.content.map MessageContent.redact }
  | .assistant m => .assistant m.redact
  | .toolResult m =>
      .toolResult
        { m with
          toolCallId := redactString m.toolCallId
          toolName := redactString m.toolName
          content := m.content.map (·.map ContentBlock.redact)
          details := m.details.map redactSecrets
          addedToolNames := m.addedToolNames.map redactString }
  | .bashExecution m =>
      .bashExecution
        { m with
          command := redactString m.command
          output := redactString m.output
          fullOutputPath := m.fullOutputPath.map redactString }
  | .custom m =>
      .custom
        { m with
          customType := redactString m.customType
          content := m.content.redact
          details := m.details.map redactSecrets }
  | .branchSummary m =>
      .branchSummary
        { m with summary := redactString m.summary, fromId := redactString m.fromId }
  | .compactionSummary m => .compactionSummary { m with summary := redactString m.summary }

end Eagent
