import Eagent.AgentLoop

/-!
# The policy engine and the hook before a tool call

`PolicyEngine.decide`, the session's reviewer, the pass over the
`tool_call` handlers of the extensions, and the `beforeToolCall` hook the
session installs. Evaluators, reviewers and handlers are arbitrary
functions that may throw; a handler also says what it leaves in the input
object, which it may mutate in place.

`Approves` says with which arguments a tool may run after the hook.
-/

namespace Eagent

/-! ## Requests and decisions -/

inductive ToolRiskLevel where
  | low | medium | high | critical
deriving Repr, DecidableEq

inductive ResourceKind where
  | filesystem | process | network | session | orchestrator | other
deriving Repr, DecidableEq

inductive ResourceAccess where
  | read | write | execute | connect | manage
deriving Repr, DecidableEq

structure ToolResourceScope where
  kind : ResourceKind
  access : ResourceAccess
  patterns : Option (List String) := none
deriving Repr, DecidableEq

structure ToolPolicyDescriptor where
  risk : ToolRiskLevel
  resources : List ToolResourceScope
  description : Option String
deriving Repr, DecidableEq

structure ToolPolicyRequest where
  toolName : String
  toolCallId : String
  arguments : Json
  descriptor : ToolPolicyDescriptor
  interactive : Bool
deriving Repr, DecidableEq

/-- `Exclude<PolicyDecision, ReviewPolicyDecision>`. -/
inductive FinalDecision where
  | allow (reason : Option String)
  | block (reason : Option String)
  | rewrite (reason : Option String) (arguments : Option Json)
deriving Repr, DecidableEq

structure ReviewPolicyDecision where
  reason : Option String
deriving Repr, DecidableEq

inductive PolicyDecision where
  | final (decision : FinalDecision)
  | review (decision : ReviewPolicyDecision)
deriving Repr, DecidableEq

def ToolRiskLevel.text : ToolRiskLevel → String
  | .low => "low"
  | .medium => "medium"
  | .high => "high"
  | .critical => "critical"

def ResourceKind.text : ResourceKind → String
  | .filesystem => "filesystem"
  | .process => "process"
  | .network => "network"
  | .session => "session"
  | .orchestrator => "orchestrator"
  | .other => "other"

def ResourceAccess.text : ResourceAccess → String
  | .read => "read"
  | .write => "write"
  | .execute => "execute"
  | .connect => "connect"
  | .manage => "manage"

/-! ## The engine -/

abbrev PolicyEvaluator := ToolPolicyRequest → Except String PolicyDecision

abbrev PolicyReviewer := ToolPolicyRequest → ReviewPolicyDecision → Except String FinalDecision

structure PolicyEngine where
  evaluator : PolicyEvaluator
  reviewer : Option PolicyReviewer
  nonInteractiveReview : FinalDecision

def defaultDecision (request : ToolPolicyRequest) : PolicyDecision :=
  if request.descriptor.risk = .critical then
    .final (.block (some "Critical-risk tools are blocked by the default policy"))
  else if request.descriptor.risk = .high then
    .review ⟨some "High-risk tool execution requires approval"⟩
  else .final (.allow (some ("Default " ++ request.descriptor.risk.text ++ "-risk policy")))

structure PolicyEngineOptions where
  evaluate : Option PolicyEvaluator := none
  review : Option PolicyReviewer := none
  nonInteractiveReview : Option FinalDecision := none

namespace PolicyEngine

/-- The constructor. -/
def create (options : PolicyEngineOptions) : PolicyEngine where
  evaluator := options.evaluate.getD fun request => .ok (defaultDecision request)
  reviewer := options.review
  nonInteractiveReview := options.nonInteractiveReview.getD
    (.block (some "Approval is unavailable in non-interactive mode"))

def decide (engine : PolicyEngine) (request : ToolPolicyRequest)
    (reviewer : Option PolicyReviewer) : Except String FinalDecision :=
  match engine.evaluator request with
  | .error message => .error message
  | .ok (.final decision) => .ok decision
  | .ok (.review decision) =>
      if !request.interactive then .ok engine.nonInteractiveReview
      else match reviewer.or engine.reviewer with
        | none => .ok (.block (some "No approval reviewer is configured"))
        | some effectiveReviewer => effectiveReviewer request decision

end PolicyEngine

/-! ## Extension handlers -/

structure ToolCallEvent where
  toolName : String
  toolCallId : String
  input : Option Json
deriving Repr, DecidableEq

structure ToolCallEventResult where
  block : Option Bool := none
  reason : Option String := none
deriving Repr, DecidableEq

/-- A handler's result, and what it leaves in the input object. -/
abbrev ToolCallHandler := ToolCallEvent → Except String (Option ToolCallEventResult × Json)

def ToolCallEvent.mutated (event : ToolCallEvent) (input : Json) : ToolCallEvent :=
  { event with input := event.input.map fun _ => input }

/-- `emitToolCall`: the handlers in order until one blocks; `result` is that
of the last one that returned something. -/
def emitToolCall : List ToolCallHandler → ToolCallEvent → Option ToolCallEventResult →
    Except String (Option ToolCallEventResult × ToolCallEvent)
  | [], event, result => .ok (result, event)
  | handler :: rest, event, result =>
      match handler event with
      | .error message => .error message
      | .ok (none, input) => emitToolCall rest (event.mutated input) result
      | .ok (some handlerResult, input) =>
          if handlerResult.block = some true then
            .ok (some handlerResult, event.mutated input)
          else emitToolCall rest (event.mutated input) (some handlerResult)

/-! ## The session's hook -/

/-- A tool as the session lists it. -/
structure SessionTool where
  name : String
  policy : Option ToolPolicyDescriptor
deriving Repr, DecidableEq

/-- What the hook reads of the session while it runs. `select` is the
approval dialog, where there is a UI; `handlers` are the `tool_call`
handlers of each extension. -/
structure PolicySession where
  tools : List SessionTool
  policyEngine : PolicyEngine
  printMode : Bool
  select : Option (String → List String → Except String (Option String))
  handlers : List (List ToolCallHandler)

namespace PolicySession

variable (session : PolicySession)

def descriptor (toolName : String) : ToolPolicyDescriptor :=
  ((session.tools.find? fun candidate => candidate.name = toolName).bind (·.policy)).getD
    { risk := .low
      resources := [{ kind := .other, access := .read }]
      description := some "Tool did not declare a policy descriptor" }

def request (toolCall : ToolCall) (args : Json) : ToolPolicyRequest where
  toolName := toolCall.name
  toolCallId := toolCall.id
  arguments := args
  descriptor := session.descriptor toolCall.name
  interactive := !session.printMode && session.select.isSome

def scopes (request : ToolPolicyRequest) : String :=
  ", ".intercalate (request.descriptor.resources.map fun resource =>
    resource.kind.text ++ ":" ++ resource.access.text)

def reviewPolicy : PolicyReviewer := fun request decision =>
  match session.select with
  | none => .ok (.block (some "Approval UI is unavailable"))
  | some select =>
      match select ("Approve " ++ request.toolName ++ "?") ["Allow once", "Block"] with
      | .error message => .error message
      | .ok choice =>
          if choice = some "Allow once" then
            .ok (.allow (some ("Approved interactively ("
              ++ (if scopes request = "" then "no declared resources" else scopes request)
              ++ ")")))
          else .ok (.block (some (decision.reason.getD "User denied tool execution")))

def decide (toolCall : ToolCall) (args : Json) : Except String FinalDecision :=
  session.policyEngine.decide (session.request toolCall args) (some session.reviewPolicy)

def hasHandlers : Bool := session.handlers.any fun handlers => !handlers.isEmpty

def emitCall (toolCall : ToolCall) (input : Option Json) :
    Except String (Option ToolCallEventResult × ToolCallEvent) :=
  emitToolCall session.handlers.flatten ⟨toolCall.name, toolCall.id, input⟩ none

/-- `{ ...extensionDecision, arguments }`. -/
def mergeDecision (extensionDecision : Option ToolCallEventResult) (arguments : Option Json) :
    BeforeToolCallResult where
  block := extensionDecision.bind (·.block)
  reason := extensionDecision.bind (·.reason)
  arguments := arguments

/-- The hook's result, and what is left in the arguments object: only an
allowed call hands that object to the handlers. -/
def beforeToolCall (toolCall : ToolCall) (args : Json) :
    Except String (Option BeforeToolCallResult × Json) :=
  match session.decide toolCall args with
  | .error message => .error message
  | .ok (.block reason) =>
      .ok (some ⟨some true, some (reason.getD "Tool execution was blocked by policy"), none⟩, args)
  | .ok (.allow _) =>
      if !session.hasHandlers then .ok (none, args)
      else match session.emitCall toolCall (some args) with
        | .error message => .error message
        | .ok (result, event) => .ok (some (mergeDecision result none), event.input.getD args)
  | .ok (.rewrite _ arguments) =>
      if !session.hasHandlers then .ok (some ⟨none, none, arguments⟩, args)
      else match session.emitCall toolCall arguments with
        | .error message => .error message
        | .ok (result, event) => .ok (some (mergeDecision result event.input), args)

/-! ## Approval -/

/-- The handlers did not block the call and left `input'` in its input. -/
def Passes (toolCall : ToolCall) (input input' : Option Json) : Prop :=
  ∃ result event, session.emitCall toolCall input = .ok (result, event) ∧
    result.bind (·.block) ≠ some true ∧ event.input = input'

/-- The engine and the handlers let the tool run with `executed`: on an
allow what the handlers left of the arguments, on a rewrite the validation
of what they left of the new ones. A rewrite to `undefined` rewrites
nothing. -/
inductive Approves (tool : AgentTool) (toolCall : ToolCall) (args : Json) : Json → Prop
  | allowed {reason : Option String} {executed : Json}
      (hdecide : session.decide toolCall args = .ok (.allow reason))
      (hpasses : session.Passes toolCall (some args) (some executed)) :
      Approves tool toolCall args executed
  | rewritten {reason : Option String} {arguments left executed : Json}
      (hdecide : session.decide toolCall args = .ok (.rewrite reason (some arguments)))
      (hpasses : session.Passes toolCall (some arguments) (some left))
      (hvalidate : tool.validate left = .ok executed) : Approves tool toolCall args executed
  | unchanged {reason : Option String}
      (hdecide : session.decide toolCall args = .ok (.rewrite reason none))
      (hpasses : session.Passes toolCall none none) : Approves tool toolCall args args

/-- Allowed with these very arguments, or run with the validation of the
rewritten ones. -/
def ApprovesExactly (tool : AgentTool) (toolCall : ToolCall) (args executed : Json) : Prop :=
  (∃ reason, session.decide toolCall args = .ok (.allow reason) ∧ executed = args) ∨
    ∃ reason arguments, session.decide toolCall args = .ok (.rewrite reason (some arguments)) ∧
      tool.validate arguments = .ok executed

def KeepsInput : Prop :=
  ∀ handlers ∈ session.handlers, ∀ handler ∈ handlers, ∀ event input result,
    event.input = some input → handler event = .ok result → result.2 = input

/-- A review was asked for and refused, or nobody could be asked. -/
def ReviewFails (toolCall : ToolCall) (args : Json) : Prop :=
  (∃ decision, session.policyEngine.evaluator (session.request toolCall args) =
      .ok (.review decision)) ∧
    if (session.request toolCall args).interactive then
      ∀ select, session.select = some select →
        select ("Approve " ++ toolCall.name ++ "?") ["Allow once", "Block"] ≠
          .ok (some "Allow once")
    else ∃ reason, session.policyEngine.nonInteractiveReview = .block reason

/-- The decision was to block, the review failed, the hook threw or a
handler blocked the call. -/
def Refuses (toolCall : ToolCall) (args : Json) : Prop :=
  (∃ reason, session.decide toolCall args = .ok (.block reason)) ∨
    session.ReviewFails toolCall args ∨
    (∃ message, session.beforeToolCall toolCall args = .error message) ∨
    ∃ before left, session.beforeToolCall toolCall args = .ok (some before, left) ∧
      before.block = some true

end PolicySession

/-! ## The handler pass -/

theorem emitToolCall_input {handlers : List ToolCallHandler} {event event' : ToolCallEvent}
    {result result' : Option ToolCallEventResult}
    (h : emitToolCall handlers event result = .ok (result', event')) :
    event'.input.isSome = event.input.isSome := by
  induction handlers generalizing event result with
  | nil =>
    obtain ⟨-, rfl⟩ := Prod.mk.inj (Except.ok.inj h)
    rfl
  | cons handler rest ih =>
    have hmutated : ∀ input, (event.mutated input).input.isSome = event.input.isSome := by
      intro input
      exact Option.isSome_map
    rw [emitToolCall] at h
    split at h
    · cases h
    · rw [ih h, hmutated]
    · split at h
      · obtain ⟨-, rfl⟩ := Prod.mk.inj (Except.ok.inj h)
        exact hmutated _
      · rw [ih h, hmutated]

theorem emitToolCall_keeps {handlers : List ToolCallHandler} {event event' : ToolCallEvent}
    {result result' : Option ToolCallEventResult}
    (hkeeps : ∀ handler ∈ handlers, ∀ event input result, event.input = some input →
      handler event = .ok result → result.2 = input)
    (h : emitToolCall handlers event result = .ok (result', event')) :
    event'.input = event.input := by
  induction handlers generalizing event result with
  | nil =>
    obtain ⟨-, rfl⟩ := Prod.mk.inj (Except.ok.inj h)
    rfl
  | cons handler rest ih =>
    have hrest := fun handler hmem => hkeeps handler (List.mem_cons_of_mem _ hmem)
    have hmutated : ∀ r, handler event = .ok r → (event.mutated r.2).input = event.input := by
      intro r hr
      show event.input.map (fun _ => r.2) = event.input
      cases hinput : event.input with
      | none => rfl
      | some input =>
        rw [hkeeps handler (List.mem_cons_self ..) event input r hinput hr]
        rfl
    rw [emitToolCall] at h
    split at h
    · cases h
    · rename_i input hhandler
      rw [ih hrest h]
      exact hmutated _ hhandler
    · rename_i handlerResult input hhandler
      split at h
      · obtain ⟨-, rfl⟩ := Prod.mk.inj (Except.ok.inj h)
        exact hmutated _ hhandler
      · rw [ih hrest h]
        exact hmutated _ hhandler

namespace PolicySession

variable {session : PolicySession} {toolCall : ToolCall} {args : Json}

/-- Without handlers the pass changes nothing. -/
theorem passes_of_not_hasHandlers (toolCall : ToolCall)
    (h : session.hasHandlers = false) (input : Option Json) :
    session.Passes toolCall input input := by
  have hnone : session.handlers.flatten = [] := by
    refine List.flatten_eq_nil_iff.mpr ?_
    intro handlers hmem
    have hempty := List.any_eq_false.mp h handlers hmem
    simpa using hempty
  refine ⟨none, ⟨toolCall.name, toolCall.id, input⟩, ?_, nofun, rfl⟩
  rw [emitCall, hnone]
  rfl

theorem Passes.eq_of_keepsInput {input input' : Option Json} (hkeeps : session.KeepsInput)
    (h : session.Passes toolCall input input') : input' = input := by
  obtain ⟨result, event, hemit, -, rfl⟩ := h
  refine emitToolCall_keeps ?_ hemit
  intro handler hmem
  obtain ⟨handlers, hhandlers, hhandler⟩ := List.mem_flatten.mp hmem
  exact hkeeps handlers hhandlers handler hhandler

/-! ## What the hook lets through -/

/-- The arguments the loop runs the tool with after the hook: none when the
call was blocked. -/
def RunsWith (tool : AgentTool) (before : Option BeforeToolCallResult) (left executed : Json) :
    Prop :=
  before.bind (·.block) ≠ some true ∧
    match before.bind (·.arguments) with
    | none => executed = left
    | some arguments => tool.validate arguments = .ok executed

/-- The pass leaves a defined input defined. -/
theorem emitCall_input {input : Option Json} {result : Option ToolCallEventResult}
    {event : ToolCallEvent} (h : session.emitCall toolCall input = .ok (result, event)) :
    event.input.isSome = input.isSome := emitToolCall_input h

variable {before : Option BeforeToolCallResult} {tool : AgentTool}

theorem approves_of_allow {reason : Option String} {left executed : Json}
    (hdecide : session.decide toolCall args = .ok (.allow reason))
    (h : session.beforeToolCall toolCall args = .ok (before, left))
    (hruns : RunsWith tool before left executed) :
    session.Approves tool toolCall args executed := by
  rcases hruns with ⟨hblock, hargs⟩
  simp only [beforeToolCall, hdecide] at h
  split at h
  · rename_i hnone
    obtain ⟨rfl, rfl⟩ := Prod.mk.inj (Except.ok.inj h)
    have hpasses := passes_of_not_hasHandlers toolCall (by simpa using hnone)
      (some args)
    rw [show executed = args from hargs]
    exact .allowed hdecide hpasses
  · split at h
    · cases h
    · rename_i result event hemit
      obtain ⟨rfl, rfl⟩ := Prod.mk.inj (Except.ok.inj h)
      obtain ⟨input, hinput⟩ := Option.isSome_iff_exists.mp (emitCall_input hemit)
      have hexecuted : executed = input := by
        rw [show executed = event.input.getD args from hargs, hinput]
        rfl
      rw [hexecuted]
      exact .allowed hdecide ⟨result, event, hemit, hblock, hinput⟩

theorem approves_of_rewrite {reason : Option String} {arguments : Option Json}
    {left executed : Json}
    (hdecide : session.decide toolCall args = .ok (.rewrite reason arguments))
    (h : session.beforeToolCall toolCall args = .ok (before, left))
    (hruns : RunsWith tool before left executed) :
    session.Approves tool toolCall args executed := by
  rcases hruns with ⟨hblock, hargs⟩
  -- what the hook returned came through the handlers, if there are any
  obtain ⟨event, hbefore, hleft, hpasses⟩ : ∃ event : ToolCallEvent,
      before.bind (·.arguments) = event.input ∧ left = args ∧
        session.Passes toolCall arguments event.input := by
    simp only [beforeToolCall, hdecide] at h
    split at h
    · rename_i hnone
      obtain ⟨rfl, rfl⟩ := Prod.mk.inj (Except.ok.inj h)
      exact ⟨⟨toolCall.name, toolCall.id, arguments⟩, rfl, rfl,
        passes_of_not_hasHandlers _ (by simpa using hnone) _⟩
    · split at h
      · cases h
      · rename_i result event hemit
        obtain ⟨rfl, rfl⟩ := Prod.mk.inj (Except.ok.inj h)
        exact ⟨event, rfl, rfl, result, event, hemit, hblock, rfl⟩
  have hsome : event.input.isSome = arguments.isSome := by
    obtain ⟨result, event', hemit, -, hinput⟩ := hpasses
    rw [← hinput]
    exact emitCall_input hemit
  rw [hbefore] at hargs
  cases arguments with
  | none =>
    have hnone : event.input = none := by simpa using hsome
    rw [hnone] at hargs hpasses
    rw [show executed = args from hargs.trans hleft]
    exact .unchanged hdecide hpasses
  | some arguments =>
    obtain ⟨input, hinput⟩ := Option.isSome_iff_exists.mp hsome
    rw [hinput] at hargs hpasses
    exact .rewritten hdecide hpasses hargs

theorem approves_of_runsWith {left executed : Json}
    (h : session.beforeToolCall toolCall args = .ok (before, left))
    (hruns : RunsWith tool before left executed) :
    session.Approves tool toolCall args executed := by
  cases hdecide : session.decide toolCall args with
  | error message =>
    simp only [beforeToolCall, hdecide] at h
    cases h
  | ok decision =>
    cases decision with
    | allow reason => exact approves_of_allow hdecide h hruns
    | rewrite reason arguments => exact approves_of_rewrite hdecide h hruns
    | block reason =>
      simp only [beforeToolCall, hdecide] at h
      obtain ⟨rfl, -⟩ := Prod.mk.inj (Except.ok.inj h)
      exact absurd rfl hruns.1

variable {executed : Json}

/-- Approved arguments are the allowed or the rewritten ones themselves
when the handlers keep their input. -/
theorem Approves.exactly (h : session.Approves tool toolCall args executed)
    (hkeeps : session.KeepsInput) :
    session.ApprovesExactly tool toolCall args executed ∨
      ∃ reason, session.decide toolCall args = .ok (.rewrite reason none) ∧ executed = args := by
  cases h with
  | allowed hdecide hpasses =>
    obtain rfl := Option.some.inj (hpasses.eq_of_keepsInput hkeeps)
    exact .inl (.inl ⟨_, hdecide, rfl⟩)
  | rewritten hdecide hpasses hvalidate =>
    obtain rfl := Option.some.inj (hpasses.eq_of_keepsInput hkeeps)
    exact .inl (.inr ⟨_, _, hdecide, hvalidate⟩)
  | unchanged hdecide hpasses => exact .inr ⟨_, hdecide, rfl⟩

/-! ## What the hook refuses -/

theorem ReviewFails.decide (h : session.ReviewFails toolCall args) :
    (∃ reason, session.decide toolCall args = .ok (.block reason)) ∨
      ∃ message, session.decide toolCall args = .error message := by
  obtain ⟨⟨decision, hevaluator⟩, h⟩ := h
  simp only [PolicySession.decide, PolicyEngine.decide, hevaluator]
  cases hinteractive : (session.request toolCall args).interactive with
  | false =>
    rw [hinteractive] at h
    obtain ⟨reason, hreason⟩ := h
    exact .inl ⟨reason, by rw [hreason]; rfl⟩
  | true =>
    rw [hinteractive] at h
    show (∃ reason, session.reviewPolicy _ decision = _) ∨
      ∃ message, session.reviewPolicy _ decision = _
    unfold reviewPolicy
    cases hselect : session.select with
    | none => exact .inl ⟨_, rfl⟩
    | some select =>
      dsimp only
      cases hchoice : select ("Approve " ++ toolCall.name ++ "?") ["Allow once", "Block"] with
      | error message =>
        refine .inr ⟨message, ?_⟩
        rw [show (session.request toolCall args).toolName = toolCall.name from rfl, hchoice]
      | ok choice =>
        have hne : choice ≠ some "Allow once" := by
          rintro rfl
          exact h select hselect hchoice
        rw [show (session.request toolCall args).toolName = toolCall.name from rfl, hchoice]
        exact .inl ⟨_, if_neg hne⟩

theorem Approves.decide (h : session.Approves tool toolCall args executed) :
    ∃ decision, session.decide toolCall args = .ok decision ∧
      ∀ reason, decision ≠ .block reason := by
  cases h with
  | allowed hdecide _ => exact ⟨_, hdecide, nofun⟩
  | rewritten hdecide _ _ => exact ⟨_, hdecide, nofun⟩
  | unchanged hdecide _ => exact ⟨_, hdecide, nofun⟩

theorem Approves.beforeToolCall (h : session.Approves tool toolCall args executed) :
    ∃ before left, session.beforeToolCall toolCall args = .ok (before, left) ∧
      before.bind (·.block) ≠ some true := by
  have hmerge : ∀ {input input' : Option Json}, session.Passes toolCall input input' →
      ∃ result event, session.emitCall toolCall input = .ok (result, event) ∧
        (mergeDecision result event.input).block ≠ some true ∧
        (mergeDecision result none).block ≠ some true := by
    rintro input input' ⟨result, event, hemit, hblock, -⟩
    exact ⟨result, event, hemit, hblock, hblock⟩
  cases h with
  | allowed hdecide hpasses =>
    obtain ⟨result, event, hemit, -, hblock⟩ := hmerge hpasses
    simp only [PolicySession.beforeToolCall, hdecide, hemit]
    split
    · exact ⟨none, args, rfl, nofun⟩
    · exact ⟨_, _, rfl, hblock⟩
  | rewritten hdecide hpasses _ =>
    obtain ⟨result, event, hemit, hblock, -⟩ := hmerge hpasses
    simp only [PolicySession.beforeToolCall, hdecide, hemit]
    split
    · exact ⟨_, args, rfl, nofun⟩
    · exact ⟨_, _, rfl, hblock⟩
  | unchanged hdecide hpasses =>
    obtain ⟨result, event, hemit, hblock, -⟩ := hmerge hpasses
    simp only [PolicySession.beforeToolCall, hdecide, hemit]
    split
    · exact ⟨_, args, rfl, nofun⟩
    · exact ⟨_, _, rfl, hblock⟩

theorem Refuses.not_approves (h : session.Refuses toolCall args) (tool : AgentTool)
    (executed : Json) : ¬ session.Approves tool toolCall args executed := by
  intro happroves
  obtain ⟨decision, hdecide, hnot⟩ := happroves.decide
  obtain ⟨before, left, hbefore, hblock⟩ := happroves.beforeToolCall
  have hnever : ∀ reason, session.decide toolCall args ≠ .ok (.block reason) := by
    intro reason hreason
    exact hnot reason (Except.ok.inj (hdecide.symm.trans hreason))
  rcases h with ⟨reason, hreason⟩ | hreview | ⟨message, hthrew⟩ | ⟨b, l, hblocked, htrue⟩
  · exact hnever reason hreason
  · rcases hreview.decide with ⟨reason, hreason⟩ | ⟨message, hmessage⟩
    · exact hnever reason hreason
    · cases hdecide.symm.trans hmessage
  · cases hbefore.symm.trans hthrew
  · obtain ⟨rfl, -⟩ := Prod.mk.inj (Except.ok.inj (hbefore.symm.trans hblocked))
    exact hblock htrue

end PolicySession

end Eagent
