import Eagent.Agent
import Eagent.EventGrammar

/-!
# The two transcripts

The loop keeps its own transcript, by pushes and replacements in place; the
agent reduces `message_end` events into another. A partial response is only
in the first, and tool results are in the second before they are pushed to
the first. Whenever the loop asks for messages to send, the two are equal.
-/

namespace Eagent

open Interaction

/-! ## One effect -/

theorem LoopWorld.events_after (w : LoopWorld) (e : LoopEffect) (answer : LoopAnswer e) :
    (w.after e answer).events = w.events ++ e.emitted := by
  have hrecord : ∀ (w : LoopWorld) (o : Observation),
      (w.record o).events = w.events ++ eventsOf [o] := fun w o => eventsOf_append w.log [o]
  have hsame : w.events = w.events ++ [] := (List.append_nil _).symm
  cases e with
  | emit event => exact hrecord w (.event event)
  | pushNewMessage message => exact hrecord w (.append message)
  | isAborted =>
    have h : ∀ aborted : Bool, (w.after .isAborted aborted).events = w.events ++ [] := by
      intro aborted
      cases aborted with
      | true => exact hrecord w .aborted
      | false => exact hsame
    exact h answer
  | getSteeringMessages =>
    match answer with
    | .ok messages => exact hrecord w (.polled messages)
    | .error message => exact hsame
  | getFollowUpMessages =>
    match answer with
    | .ok messages => exact hrecord w (.polled messages)
    | .error message => exact hsame
  | nextStreamEvent =>
    match answer with
    | .ok (some (.start p)) => exact hsame
    | .ok (some (.update kind p)) => exact hsame
    | .ok (some .done) => exact hsame
    | .ok (some .error) => exact hsame
    | .ok none => exact hsame
    | .error message => exact hsame
  | prepareNextTurn message results =>
    match answer with
    | .ok (some update) => exact hsame
    | .ok none => exact hsame
    | .error message => exact hsame
  | _ => exact hsame

theorem AgentState.messages_reduce (s : AgentState) (event : AgentEvent) :
    (s.reduce event).messages = s.messages ++ endedMessages [event] := by
  have hsame : s.messages = s.messages ++ [] := (List.append_nil _).symm
  cases event with
  | messageEnd m => rfl
  | turnEnd message results =>
    rw [AgentState.reduce]
    split
    · exact hsame
    · exact hsame
  | _ => exact hsame

namespace Agent

theorem Interacts.messages {a a' : Agent} {run run' : ActiveRun} {e : LoopEffect}
    {answer : LoopAnswer e} {act : AgentAct} (h : Interacts a run e answer act a' run') :
    a'.state.messages = a.state.messages ++ endedMessages e.emitted := by
  cases h with
  | emit event => exact a.state.messages_reduce event
  | other he answer =>
    cases e with
    | emit event => exact False.elim he
    | _ => exact (List.append_nil _).symm
  | _ => exact (List.append_nil _).symm

theorem Interacts.before {a a' : Agent} {run run' : ActiveRun} {e : LoopEffect}
    {answer : LoopAnswer e} {act : AgentAct} (h : Interacts a run e answer act a' run') :
    run'.before = run.before := by
  cases h <;> rfl

/-! ## The invariant -/

/-- What the loop's program still guarantees: both transcripts agree at each
conversion, and the messages it returns are those it ended. -/
def Promises (before : List AgentMessage) (w : LoopWorld) (prog : LoopM (List AgentMessage)) :
    Prop :=
  Spec before prog w (fun newMessages w' => newMessages = w'.newMessages ∧
    (w'.startsOnce = true → endedMessages w'.events = newMessages)) fun _ => True

/-- The agent's transcript is the one before the run and the messages ended
since. -/
def TranscriptInvariant (a : Agent) : Prop :=
  ∀ run, a.activeRun = some run → ∀ prog, run.phase = .running prog →
    a.state.messages = run.before ++ endedMessages run.world.events ∧
      Promises run.before run.world prog

theorem promises_call (fuel : Nat) (config : AgentLoopConfig) (context : AgentContext)
    (call : LoopCall) :
    Promises context.messages (.initial context []) (call.run fuel config) := by
  refine (spec_loopCall fuel config context call).mono ?_ fun _ h => h
  intro newMessages w' h
  rcases h with ⟨rfl, turns, hlog⟩
  exact ⟨rfl, fun honce => (hlog.grammar honce).endedMessages⟩

theorem transcriptInvariant_startRun (a : Agent) (fuel : Nat) (call : LoopCall) (skip : Bool) :
    TranscriptInvariant (a.startRun fuel call skip) := by
  intro run hrun prog hphase
  obtain rfl := Option.some.inj hrun
  obtain rfl := RunPhase.running.inj hphase
  exact ⟨(List.append_nil _).symm, promises_call fuel _ a.createContextSnapshot call⟩

/-- Changes that leave the run's loop and the transcript alone. -/
theorem TranscriptInvariant.frame {a a' : Agent} (h : TranscriptInvariant a)
    (hmessages : a'.state.messages = a.state.messages)
    (hrun : ∀ run', a'.activeRun = some run' → ∃ run, a.activeRun = some run ∧
      run'.before = run.before ∧ run'.world = run.world ∧ run'.phase = run.phase) :
    TranscriptInvariant a' := by
  intro run' hrun' prog hphase
  obtain ⟨run, hactive, hbefore, hworld, hsame⟩ := hrun run' hrun'
  have hinv := h run hactive prog (hsame ▸ hphase)
  rw [hmessages, hbefore, hworld]
  exact hinv

theorem TranscriptInvariant.step {a a' : Agent} {act : AgentAct} (h : TranscriptInvariant a)
    (hstep : Step a act a') : TranscriptInvariant a' := by
  cases hstep with
  | steer message => exact h.frame rfl fun run hrun => ⟨run, hrun, rfl, rfl, rfl⟩
  | followUp message => exact h.frame rfl fun run hrun => ⟨run, hrun, rfl, rfl, rfl⟩
  | clearSteeringQueue => exact h.frame rfl fun run hrun => ⟨run, hrun, rfl, rfl, rfl⟩
  | clearFollowUpQueue => exact h.frame rfl fun run hrun => ⟨run, hrun, rfl, rfl, rfl⟩
  | setSteeringMode mode => exact h.frame rfl fun run hrun => ⟨run, hrun, rfl, rfl, rfl⟩
  | setFollowUpMode mode => exact h.frame rfl fun run hrun => ⟨run, hrun, rfl, rfl, rfl⟩
  | abort =>
    refine h.frame rfl fun run' hrun' => ?_
    obtain ⟨run, hrun, rfl⟩ := Option.map_eq_some_iff.mp hrun'
    exact ⟨run, hrun, rfl, rfl, rfl⟩
  | prompt hprompt =>
    obtain ⟨-, -, rfl⟩ := prompt_ok hprompt
    exact transcriptInvariant_startRun a _ _ _
  | «continue» hcontinue =>
    obtain ⟨-, ⟨-, rfl⟩ | ⟨-, rfl⟩ | ⟨-, rfl⟩⟩ := continue_ok hcontinue
    · exact transcriptInvariant_startRun _ _ _ _
    · exact transcriptInvariant_startRun _ _ _ _
    · exact transcriptInvariant_startRun _ _ _ _
  | ask hrun hphase hworld hagent =>
    rename_i run run' e answer k w
    obtain ⟨hmessages, hpromises⟩ := h run hrun _ hphase
    intro run'' hrun'' prog hprog
    obtain rfl := Option.some.inj hrun''
    obtain rfl := RunPhase.running.inj hprog
    show _ = run'.before ++ endedMessages w.events ∧ Promises run'.before w (k answer)
    rw [hagent.before]
    refine ⟨?_, hpromises.2 answer w hworld⟩
    have hw : w = run.world.after e answer := hworld.2
    show _ = _
    rw [hw, run.world.events_after, endedMessages_append, ← List.append_assoc, ← hmessages]
    exact hagent.messages
  | choose hrun hphase i =>
    rename_i run k
    obtain ⟨hmessages, hpromises⟩ := h run hrun _ hphase
    intro run'' hrun'' prog hprog
    obtain rfl := Option.some.inj hrun''
    obtain rfl := RunPhase.running.inj hprog
    exact ⟨hmessages, hpromises i⟩
  | fail hrun hphase timestamp =>
    intro run'' hrun'' prog hprog
    obtain rfl := Option.some.inj hrun''
    cases hprog
  | failing hrun hphase =>
    intro run'' hrun'' prog hprog
    obtain rfl := Option.some.inj hrun''
    cases hprog
  | returned hrun hphase =>
    intro run'' hrun''
    cases hrun''
  | failed hrun hphase =>
    intro run'' hrun''
    cases hrun''

theorem TranscriptInvariant.run {a a' : Agent} {acts : List AgentAct} (h : TranscriptInvariant a)
    (hrun : Run a acts a') : TranscriptInvariant a' := by
  induction hrun with
  | nil => exact h
  | snoc _ hstep ih => exact ih.step hstep

/-- Whatever the agent was told to do meanwhile: when the loop converts its
context for the model, the context is the agent's transcript, and when it
returns, the transcript is the one before the run followed by the new
messages. The response streams send `start` once, and `prepareNextTurn` has
not replaced the context. -/
theorem transcripts_agree {options : AgentOptions} {state : AgentState}
    {steeringMode followUpMode : QueueMode} {acts : List AgentAct} {a : Agent} {run : ActiveRun}
    (hreach : Run (new options state steeringMode followUpMode) acts a)
    (hrun : a.activeRun = some run) (honce : run.world.startsOnce = true)
    (hkept : run.world.contextKept = true) :
    (∀ messages k, run.phase = .running (.ask (.convertToLlm messages) k) →
        run.world.context.messages = a.state.messages) ∧
      ∀ newMessages, run.phase = .running (.ret (.ok newMessages)) →
        newMessages = run.world.newMessages ∧ a.state.messages = run.before ++ newMessages := by
  have hnew : TranscriptInvariant (new options state steeringMode followUpMode) :=
    fun run hrun => nomatch hrun
  have hinv := (hnew.run hreach) run hrun
  refine ⟨fun messages k hphase => ?_, fun newMessages hphase => ?_⟩
  · obtain ⟨hmessages, hpromises⟩ := hinv _ hphase
    have hagrees : Agrees run.before run.world := hpromises.1
    rw [hagrees honce hkept, hmessages]
  · obtain ⟨hmessages, hreturned, hended⟩ := hinv _ hphase
    refine ⟨hreturned, ?_⟩
    rw [hmessages]
    exact congrArg (run.before ++ ·) (hended honce)

/-! ## A prompt, up to the conversion -/

def idleState : AgentState where
  systemPrompt := ""
  model := ⟨"p", "m"⟩
  thinkingLevel := "off"
  tools := [readTool]
  messages := []
  isStreaming := false
  streamingMessage := none
  pendingToolCalls := []
  errorMessage := none

def plainOptions : AgentOptions where
  transformContext := false
  getApiKey := false
  beforeToolCall := false
  afterToolCall := false
  toolExecution := .parallel

theorem transcripts_agree_prompted : ∃ acts a run messages k,
    Run (new plainOptions idleState .all .all) acts a ∧ a.activeRun = some run ∧
      run.phase = .running (.ask (.convertToLlm messages) k) ∧
      a.state.messages = [greeting] ∧ run.world.context.messages = a.state.messages := by
  have h₁ := (Run.nil (a := new plainOptions idleState .all .all)).snoc
    (@Step.prompt _ _ 9 [greeting] _ rfl)
  have h₂ := h₁.snoc (.ask rfl rfl ⟨trivial, rfl⟩
    (.other (e := .pushNewMessage greeting) trivial ()))
  have h₃ := h₂.snoc (.ask rfl rfl ⟨trivial, rfl⟩
    (.other (e := .pushContext greeting) trivial ()))
  have h₄ := h₃.snoc (.ask rfl rfl ⟨trivial, rfl⟩ (.emit .agentStart))
  have h₅ := h₄.snoc (.ask rfl rfl ⟨trivial, rfl⟩ (.emit .turnStart))
  have h₆ := h₅.snoc (.ask rfl rfl ⟨trivial, rfl⟩ (.emit (.messageStart greeting)))
  have h₇ := h₆.snoc (.ask rfl rfl ⟨trivial, rfl⟩ (.emit (.messageEnd greeting)))
  have h₈ := h₇.snoc (.ask rfl rfl ⟨trivial, rfl⟩ (.steeringPoll rfl))
  have h₉ := h₈.snoc (.ask rfl rfl ⟨rfl, rfl⟩
    (.other (e := .readContext) trivial (toolContext [greeting])))
  exact ⟨_, _, _, _, _, h₉, rfl, rfl, rfl, (transcripts_agree h₉ rfl rfl rfl).1 _ _ rfl⟩

end Agent

end Eagent
