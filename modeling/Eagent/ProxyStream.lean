import Eagent.JsonlFile

/-!
# The proxied stream

`streamProxy` of the agent package: the server sends events without the
partial message, one a line, and the message is rebuilt here. The partial
message is one object: events and the result of the stream refer to it.

The decoder's texts stand for the bytes. `Codec` has what is not of this
repository or belongs to the provider: the JSON of an event, the streaming
parser of arguments, the usage.
-/

namespace Eagent

/-- `ProxyAssistantMessageEvent`, of usages `U`. -/
inductive ProxyEvent (U : Type) where
  | start
  | textStart (contentIndex : Nat)
  | textDelta (contentIndex : Nat) (delta : String)
  | textEnd (contentIndex : Nat) (contentSignature : Option String)
  | thinkingStart (contentIndex : Nat)
  | thinkingDelta (contentIndex : Nat) (delta : String)
  | thinkingEnd (contentIndex : Nat) (contentSignature : Option String)
  | toolcallStart (contentIndex : Nat) (id toolName : String)
  | toolcallDelta (contentIndex : Nat) (delta : String)
  | toolcallEnd (contentIndex : Nat)
  | done (reason : String) (usage : U)
  | error (reason : String) (errorMessage : Option String) (usage : U)
  /-- a type the code does not handle -/
  | unhandled

def ProxyEvent.isTerminal {U : Type} : ProxyEvent U → Bool
  | .done .. | .error .. => true
  | _ => false

/-- A content block, with arguments in `A`. -/
inductive ProxyBlock (A : Type) where
  | text (text : String) (textSignature : Option String)
  | thinking (thinking : String) (thinkingSignature : Option String)
  | toolCall (id name : String) (arguments : A) (partialJson : Option String)

/-- The fields of an `AssistantMessage` that the stream writes. A content
index without a block is a hole. -/
structure ProxyMessage (A U : Type) where
  content : Nat → Option (ProxyBlock A)
  stopReason : String
  errorMessage : Option String
  usage : U

/-- `AssistantMessageEvent` without the partial message. -/
inductive ProxyStreamEvent (A : Type) where
  | start
  | textStart (contentIndex : Nat)
  | textDelta (contentIndex : Nat) (delta : String)
  | textEnd (contentIndex : Nat) (content : String)
  | thinkingStart (contentIndex : Nat)
  | thinkingDelta (contentIndex : Nat) (delta : String)
  | thinkingEnd (contentIndex : Nat) (content : String)
  | toolcallStart (contentIndex : Nat)
  | toolcallDelta (contentIndex : Nat) (delta : String)
  | toolcallEnd (contentIndex : Nat) (toolCall : ProxyBlock A)
  | done (reason : String)
  | error (reason : String)

/-- What `ProxyMessageEventStream` takes for the end. -/
def ProxyStreamEvent.isComplete {A : Type} : ProxyStreamEvent A → Bool
  | .done _ | .error _ => true
  | _ => false

structure Codec (A U : Type) where
  /-- `JSON.parse`, or the message of its error -/
  parse : List Char → Except String (ProxyEvent U)
  /-- `parseStreamingJson(text) || {}` -/
  parseStreamingJson : String → A
  emptyArguments : A
  noUsage : U

/-! ## The event stream -/

/-- `EventStream`: the events it delivers, and whether its result has
settled. -/
structure EventStream (A : Type) where
  events : List (ProxyStreamEvent A) := []
  done : Bool := false
  settled : Bool := false

def EventStream.push {A : Type} (s : EventStream A) (event : ProxyStreamEvent A) : EventStream A :=
  if s.done then s
  else
    { events := s.events ++ [event]
      done := event.isComplete
      settled := s.settled || event.isComplete }

/-- `end()` without a result. -/
def EventStream.end {A : Type} (s : EventStream A) : EventStream A :=
  { s with done := true }

/-! ## Rebuilding the message -/

variable {A U : Type} (codec : Codec A U)

namespace ProxyMessage

variable (m : ProxyMessage A U)

def setContent (contentIndex : Nat) (block : ProxyBlock A) : ProxyMessage A U :=
  { m with content := Function.update m.content contentIndex (some block) }

/-- `processProxyEvent`, with the message it leaves. -/
def processProxyEvent (proxyEvent : ProxyEvent U) :
    Except String (ProxyMessage A U × Option (ProxyStreamEvent A)) :=
  match proxyEvent with
  | .start => .ok (m, some .start)
  | .textStart i => .ok (m.setContent i (.text "" none), some (.textStart i))
  | .textDelta i delta =>
      match m.content i with
      | some (.text text signature) =>
          .ok (m.setContent i (.text (text ++ delta) signature), some (.textDelta i delta))
      | _ => .error "Received text_delta for non-text content"
  | .textEnd i contentSignature =>
      match m.content i with
      | some (.text text _) =>
          .ok (m.setContent i (.text text contentSignature), some (.textEnd i text))
      | _ => .error "Received text_end for non-text content"
  | .thinkingStart i => .ok (m.setContent i (.thinking "" none), some (.thinkingStart i))
  | .thinkingDelta i delta =>
      match m.content i with
      | some (.thinking thinking signature) =>
          .ok (m.setContent i (.thinking (thinking ++ delta) signature),
            some (.thinkingDelta i delta))
      | _ => .error "Received thinking_delta for non-thinking content"
  | .thinkingEnd i contentSignature =>
      match m.content i with
      | some (.thinking thinking _) =>
          .ok (m.setContent i (.thinking thinking contentSignature), some (.thinkingEnd i thinking))
      | _ => .error "Received thinking_end for non-thinking content"
  | .toolcallStart i id toolName =>
      .ok (m.setContent i (.toolCall id toolName codec.emptyArguments (some "")),
        some (.toolcallStart i))
  | .toolcallDelta i delta =>
      match m.content i with
      | some (.toolCall id name _ partialJson) =>
          -- adding to a field that was deleted adds to "undefined"
          let partialJson := partialJson.getD "undefined" ++ delta
          .ok (m.setContent i
              (.toolCall id name (codec.parseStreamingJson partialJson) (some partialJson)),
            some (.toolcallDelta i delta))
      | _ => .error "Received toolcall_delta for non-toolCall content"
  | .toolcallEnd i =>
      match m.content i with
      | some (.toolCall id name arguments _) =>
          let toolCall := .toolCall id name arguments none
          .ok (m.setContent i toolCall, some (.toolcallEnd i toolCall))
      | _ => .ok (m, none)
  | .done reason usage => .ok ({ m with stopReason := reason, usage }, some (.done reason))
  | .error reason errorMessage usage =>
      .ok ({ m with stopReason := reason, errorMessage, usage }, some (.error reason))
  | .unhandled => .ok (m, none)

/-- What the handler of an error writes. -/
def failed (aborted : Bool) (errorMessage : String) : ProxyMessage A U :=
  { m with
    stopReason := if aborted then "aborted" else "error"
    errorMessage := some errorMessage }

end ProxyMessage

/-! ## Reading -/

/-- The partial message, the stream, and `buffer`; `seen`: what the result of
the stream held after each line and at the end, once it had settled. -/
structure ProxyRun (A U : Type) where
  message : ProxyMessage A U
  stream : EventStream A := {}
  buffer : List Char := []
  seen : List (ProxyMessage A U) := []

namespace ProxyRun

def start : ProxyRun A U where
  message :=
    { content := fun _ => none
      stopReason := "stop"
      errorMessage := none
      usage := codec.noUsage }

variable (s : ProxyRun A U)

/-- Someone looks at the result. -/
def look : ProxyRun A U :=
  { s with seen := if s.stream.settled then s.seen ++ [s.message] else s.seen }

/-- What a line has after `data: `. -/
def dataOf (line : List Char) : Option (List Char) :=
  if "data: ".toList.isPrefixOf line then
    let data := SessionManager.trimSpaces (line.drop 6)
    if data.isEmpty then none else some data
  else none

def processLine (line : List Char) : Except String (ProxyRun A U) :=
  match dataOf line with
  | none => .ok s.look
  | some data => do
      let proxyEvent ← codec.parse data
      let (next, event) ← s.message.processProxyEvent codec proxyEvent
      return look { s with
        message := next
        stream := match event with
          | some event => s.stream.push event
          | none => s.stream }

def processLines : ProxyRun A U → List (List Char) → ProxyRun A U × Option String
  | s, [] => (s, none)
  | s, line :: lines =>
      match s.processLine codec line with
      | .ok s => processLines s lines
      | .error message => (s, some message)

def processChunk (text : List Char) : ProxyRun A U × Option String :=
  let lines := splitLines (s.buffer ++ text)
  processLines codec { s with buffer := lines.getLastD [] } lines.dropLast

/-- The reads up to the first error: the text of each, and whether the signal
was aborted then. The error comes with whether the signal was aborted. -/
def readLoop : ProxyRun A U → List (List Char × Bool) → ProxyRun A U × Option (Bool × String)
  | s, [] => (s, none)
  | s, (text, aborted) :: reads =>
      if aborted then (s, some (true, "Request aborted by user"))
      else match s.processChunk codec text with
        | (s, none) => readLoop s reads
        | (s, some message) => (s, some (false, message))

def fail (aborted : Bool) (message : String) : ProxyRun A U :=
  look { s with
    message := s.message.failed aborted message
    stream := (s.stream.push (.error (if aborted then "aborted" else "error"))).end }

end ProxyRun

/-- What comes of the request: no body, for a reason; or reads that end, with
the error of the last one if it fails. `aborted`: whether the signal is at the
end. -/
inductive ProxyResponse where
  | refused (message : String) (aborted : Bool)
  | body (reads : List (List Char × Bool)) (failure : Option String) (aborted : Bool)

/-- The error that ends the reading. -/
def ProxyResponse.failure : ProxyResponse → Option (Bool × String)
  | .refused message aborted => some (aborted, message)
  | .body reads failure aborted =>
      if reads.any (·.2) then some (true, "Request aborted by user")
      else match failure with
        | some message => some (aborted, message)
        | none => if aborted then some (true, "Request aborted by user") else none

def ProxyResponse.received : ProxyResponse → List Char
  | .refused _ _ => []
  | .body reads _ _ => (reads.takeWhile (!·.2)).flatMap (·.1)

def streamProxy (response : ProxyResponse) : ProxyRun A U :=
  match response with
  | .refused message aborted => (ProxyRun.start codec).fail aborted message
  | .body reads failure aborted =>
      match (ProxyRun.start codec).readLoop codec reads with
      | (s, some (aborted, message)) => s.fail aborted message
      | (s, none) =>
          match failure with
          | some message => s.fail aborted message
          | none =>
              if aborted then s.fail true "Request aborted by user"
              else { s with stream := s.stream.end }.look

end Eagent
