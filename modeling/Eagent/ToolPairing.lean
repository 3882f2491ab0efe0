import Eagent.TurnLog

/-!
# Tool calls and their results

Providers reject a transcript in which a tool call has no result or a
result no call. The transcript of a run is made of turns, in each of which
the response is followed at once by the results of its calls.
-/

namespace Eagent

open Interaction

/-- The results that follow a response belong to a prefix of its calls, in
order, and to all of them unless the signal was seen set during the turn. -/
def Turn.Paired (t : Turn) : Prop :=
  ¬ t.message.Failed →
    t.results.map (·.idAndName) <+: t.message.toolCalls.map (·.idAndName) ∧
      (t.results.length = t.message.toolCalls.length ∨ .aborted ∈ t.log)

theorem TurnLog.paired {once : Prop} {t : Turn} (h : TurnLog once t) : t.Paired := by
  intro hok
  rcases h.complete with ⟨hfailed, -⟩ | ⟨-, hcomplete⟩
  · exact absurd hfailed hok
  · exact ⟨h.pairing, hcomplete⟩

/-- Whether the loop returns or a hook, the stream or a conversion throws:
what it appended is a sequence of turns, each a response preceded by the
messages injected for it and followed by the results of its calls, and at
the end messages injected before a response that never came. The injected
messages are those taken at the polls, so every other message is a
response or one of its results. -/
theorem runLoop_paired {context : AgentContext} {newMessages : List AgentMessage} {fuel : Nat}
    {config : AgentLoopConfig} {w' : LoopWorld} {r : Except Failure Unit}
    (hrun : LoopReaches (.initial context newMessages) (runLoop fuel config) (w', .ret r))
    (hfuel : r ≠ .error .outOfFuel) :
    ∃ (polls : List (List AgentMessage)) (turns : List Turn) (tail : List Observation),
      w'.log = polls.map .polled ++ roundsLog true turns ++ tail ∧
      w'.newMessages = newMessages ++ turns.flatMap Turn.messages ++ appended tail ∧
      polled w'.log = turns.flatMap (·.injected) ++ appended tail ∧
      ∀ t ∈ turns, appended t.log = t.messages ∧ t.Paired := by
  have hspec := spec_runLoop fuel config (agrees_initial context newMessages)
  have hends := hspec.reaches hrun
  have hrounds : ∃ turns tail,
      Rounds true [] (LoopWorld.initial context newMessages) w' turns tail := by
    match r with
    | .ok () =>
        obtain ⟨turns, hrounds, -, -⟩ := hends
        exact ⟨turns, _, hrounds⟩
    | .error (.thrown message) => exact hends
    | .error .outOfFuel => exact absurd rfl hfuel
  obtain ⟨turns, tail, ⟨polls, hext, hinjected⟩, hturns, htail⟩ := hrounds
  refine ⟨polls, turns, tail, hext.log, ?_, ?_, fun t ht => ⟨(hturns t ht).appended,
    (hturns t ht).paired⟩⟩
  · rw [hext.newMessages, appended_append, appended_append, appended_map_polled,
      appended_roundsLog hturns, List.nil_append, ← List.append_assoc]
    rfl
  · rw [hext.log, ← hinjected]
    show polled ([] ++ _) = _
    rw [List.nil_append, polled_append, polled_append, polled_map_polled,
      polled_roundsLog hturns, htail, List.append_nil]
    rfl

/-! ## A run with a tool call -/

def readTool : AgentTool where
  name := "read"
  executionMode := none
  prepareArguments := none
  validate := .ok

def toolContext (messages : List AgentMessage) : AgentContext where
  systemPrompt := ""
  messages := messages
  tools := [readTool]

/-- No hooks, parallel execution. -/
def plainConfig : AgentLoopConfig where
  model := ⟨"p", "m"⟩
  reasoning := none
  apiKey := none
  toolExecution := none
  transformContext := false
  getApiKey := false
  beforeToolCall := false
  afterToolCall := false

def responseWith (calls : List ToolCall) (stopReason : StopReason) : AssistantMessage where
  content := some (calls.map .toolCall)
  provider := "p"
  model := "m"
  usage := none
  stopReason := stopReason
  timestamp := 0

def readResult : AgentToolResult where
  content := some [.text "Q"]
  details := none

def readCall (id : String) : ToolCall := ⟨id, "read", .obj []⟩

def pairedRun : LoopWorld × Except Failure Unit :=
  driveLoop [responseWith [readCall "a", ⟨"b", "write", .obj []⟩] .toolUse, responseWith [] .stop]
    readResult (runLoop 9 plainConfig) (.initial (toolContext []) [])

theorem runLoop_paired_twoCalls :
    ∃ (polls : List (List AgentMessage)) (turns : List Turn) (tail : List Observation),
      pairedRun.1.log = polls.map .polled ++ roundsLog true turns ++ tail ∧
      pairedRun.1.newMessages = [] ++ turns.flatMap Turn.messages ++ appended tail ∧
      polled pairedRun.1.log = turns.flatMap (·.injected) ++ appended tail ∧
      ∀ t ∈ turns, appended t.log = t.messages ∧ t.Paired :=
  runLoop_paired (driveLoop_reaches _ _ _ _) (by decide)

end Eagent
