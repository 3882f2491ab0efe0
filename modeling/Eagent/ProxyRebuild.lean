import Eagent.ProxyStream

/-!
# What a proxied stream means

A content block is what the last start of its index and the events after it
say: the concatenation of their deltas (`blockAt`). As long as events come
where they belong, that is the block of the message the code rebuilds
(`process_opened`).
-/

namespace Eagent

variable {A U : Type}

/-! ## Where events belong -/

inductive BlockKind where
  | text
  | thinking
  | toolCall
deriving DecidableEq

def ProxyBlock.kind : ProxyBlock A → BlockKind
  | .text .. => .text
  | .thinking .. => .thinking
  | .toolCall .. => .toolCall

namespace ProxyEvent

def starts : ProxyEvent U → Option (Nat × BlockKind)
  | .textStart i => some (i, .text)
  | .thinkingStart i => some (i, .thinking)
  | .toolcallStart i _ _ => some (i, .toolCall)
  | _ => none

def needs : ProxyEvent U → Option (Nat × BlockKind × String)
  | .textDelta i _ => some (i, .text, "Received text_delta for non-text content")
  | .textEnd i _ => some (i, .text, "Received text_end for non-text content")
  | .thinkingDelta i _ => some (i, .thinking, "Received thinking_delta for non-thinking content")
  | .thinkingEnd i _ => some (i, .thinking, "Received thinking_end for non-thinking content")
  | .toolcallDelta i _ => some (i, .toolCall, "Received toolcall_delta for non-toolCall content")
  | _ => none

def misplaced (kinds : Nat → Option BlockKind) (e : ProxyEvent U) : Option String :=
  match e.needs with
  | some (i, kind, message) => if kinds i = some kind then none else some message
  | none => none

def contentIndex : ProxyEvent U → Option Nat
  | .textStart i | .textDelta i _ | .textEnd i _ | .thinkingStart i | .thinkingDelta i _
  | .thinkingEnd i _ | .toolcallStart i _ _ | .toolcallDelta i _ | .toolcallEnd i => some i
  | _ => none

def delta (i : Nat) : ProxyEvent U → Option String
  | .textDelta j delta | .thinkingDelta j delta | .toolcallDelta j delta =>
      if j = i then some delta else none
  | _ => none

def signature (i : Nat) : ProxyEvent U → Option (Option String)
  | .textEnd j signature | .thinkingEnd j signature => if j = i then some signature else none
  | _ => none

def endsToolcall (i : Nat) : ProxyEvent U → Bool
  | .toolcallEnd j => j = i
  | _ => false

end ProxyEvent

def afterStart (i : Nat) (events : List (ProxyEvent U)) :
    Option (ProxyEvent U × List (ProxyEvent U)) :=
  events.foldl
    (fun last e =>
      if (e.starts.map Prod.fst) = some i then some (e, [])
      else last.map fun started => (started.1, started.2 ++ [e]))
    none

/-- The deltas of a block, joined. -/
def deltasOf (i : Nat) (events : List (ProxyEvent U)) : String :=
  String.join (events.filterMap (·.delta i))

def signatureOf (i : Nat) (events : List (ProxyEvent U)) : Option String :=
  (events.filterMap (·.signature i)).getLast?.join

def argumentsOf (codec : Codec A U) (i : Nat) (events : List (ProxyEvent U)) : A :=
  if events.any fun e => (e.delta i).isSome then codec.parseStreamingJson (deltasOf i events)
  else codec.emptyArguments

def blockAt (codec : Codec A U) (events : List (ProxyEvent U)) (i : Nat) :
    Option (ProxyBlock A) :=
  match afterStart i events with
  | some (.textStart _, after) => some (.text (deltasOf i after) (signatureOf i after))
  | some (.thinkingStart _, after) => some (.thinking (deltasOf i after) (signatureOf i after))
  | some (.toolcallStart _ id toolName, after) =>
      some (.toolCall id toolName (argumentsOf codec i after)
        (if after.any (·.endsToolcall i) then none else some (deltasOf i after)))
  | _ => none

def kindAt (events : List (ProxyEvent U)) (i : Nat) : Option BlockKind :=
  (afterStart i events).bind fun started => started.1.starts.map Prod.snd

/-- No event comes where there is no block for it. -/
def Placed (events : List (ProxyEvent U)) : Prop :=
  ∀ before e after, events = before ++ e :: after → e.misplaced (kindAt before) = none

/-- The deltas of a tool call come before its end. -/
def EndsLast (events : List (ProxyEvent U)) : Prop :=
  ∀ before i delta after, events = before ++ .toolcallDelta i delta :: after →
    ∀ first since, afterStart i before = some (first, since) → ∀ e ∈ since, e.endsToolcall i = false

def opened (codec : Codec A U) (events : List (ProxyEvent U)) : ProxyMessage A U where
  content := blockAt codec events
  stopReason := "stop"
  errorMessage := none
  usage := codec.noUsage

def rebuilt (codec : Codec A U) (events : List (ProxyEvent U)) :
    ProxyEvent U → ProxyMessage A U
  | .error reason errorMessage usage =>
      { opened codec events with stopReason := reason, errorMessage, usage }
  | .done reason usage => { opened codec events with stopReason := reason, usage }
  | _ => opened codec events

/-! ## One more event -/

section Concat

variable (events : List (ProxyEvent U)) (e : ProxyEvent U) {i : Nat}

theorem afterStart_concat :
    afterStart i (events ++ [e]) =
      if (e.starts.map Prod.fst) = some i then some (e, [])
      else (afterStart i events).map fun started => (started.1, started.2 ++ [e]) := by
  rw [afterStart, List.foldl_append]
  rfl

theorem afterStart_of_starts {kind : BlockKind} (h : e.starts = some (i, kind)) :
    afterStart i (events ++ [e]) = some (e, []) := by
  rw [afterStart_concat, if_pos (by rw [h]; rfl)]

theorem afterStart_of_not_starts (h : ∀ kind, e.starts ≠ some (i, kind)) :
    afterStart i (events ++ [e]) =
      (afterStart i events).map fun started => (started.1, started.2 ++ [e]) := by
  rw [afterStart_concat, if_neg]
  intro hsome
  obtain ⟨⟨j, kind⟩, hstarts, rfl⟩ := Option.map_eq_some_iff.mp hsome
  exact h kind hstarts

theorem deltasOf_concat :
    deltasOf i (events ++ [e]) = deltasOf i events ++ (e.delta i).getD "" := by
  rw [deltasOf, List.filterMap_append]
  cases h : e.delta i with
  | none => simp [deltasOf, h]
  | some delta => simp [deltasOf, h, String.join]

theorem signatureOf_concat :
    signatureOf i (events ++ [e]) = (e.signature i).getD (signatureOf i events) := by
  rw [signatureOf, List.filterMap_append]
  cases h : e.signature i with
  | none => simp [signatureOf, h]
  | some signature => simp [h]

end Concat

/-! ## Blocks -/

section Blocks

variable (codec : Codec A U) (events : List (ProxyEvent U)) {e : ProxyEvent U} {i : Nat}

theorem blockAt_other (hstarts : ∀ kind, e.starts ≠ some (i, kind)) (hdelta : e.delta i = none)
    (hsignature : e.signature i = none) (hends : e.endsToolcall i = false) :
    blockAt codec (events ++ [e]) i = blockAt codec events i := by
  unfold blockAt
  rw [afterStart_of_not_starts events e hstarts]
  match afterStart i events with
  | none => rfl
  | some (first, after) =>
    cases first <;>
      simp [deltasOf_concat, signatureOf_concat, argumentsOf, hdelta, hsignature, hends]

theorem kindAt_of_starts {kind : BlockKind} (h : e.starts = some (i, kind)) :
    kindAt (events ++ [e]) i = some kind := by
  rw [kindAt, afterStart_of_starts events e h, Option.bind_some, h]
  rfl

theorem kindAt_of_not_starts (h : ∀ kind, e.starts ≠ some (i, kind)) :
    kindAt (events ++ [e]) i = kindAt events i := by
  rw [kindAt, afterStart_of_not_starts events e h, kindAt]
  cases afterStart i events <;> rfl

theorem kind_blockAt : (blockAt codec events i).map ProxyBlock.kind = kindAt events i := by
  unfold blockAt kindAt
  match afterStart i events with
  | none => rfl
  | some (first, after) => cases first <;> rfl

theorem afterStart_of_kindAt {kind : BlockKind} (h : kindAt events i = some kind) :
    ∃ first after, afterStart i events = some (first, after) ∧
      first.starts.map Prod.snd = some kind := by
  obtain ⟨⟨first, after⟩, hafter, hkind⟩ := Option.bind_eq_some_iff.mp h
  exact ⟨first, after, hafter, hkind⟩

theorem blockAt_text (h : kindAt events i = some .text) : ∃ after,
    blockAt codec events i = some (.text (deltasOf i after) (signatureOf i after)) ∧
      ∀ e : ProxyEvent U, (∀ kind, e.starts ≠ some (i, kind)) →
        blockAt codec (events ++ [e]) i =
          some (.text (deltasOf i (after ++ [e])) (signatureOf i (after ++ [e]))) := by
  obtain ⟨first, after, hafter, hkind⟩ := afterStart_of_kindAt events h
  cases first <;> cases hkind
  refine ⟨after, ?_, fun e he => ?_⟩
  · rw [blockAt, hafter]
  · rw [blockAt, afterStart_of_not_starts events e he, hafter]
    rfl

theorem blockAt_thinking (h : kindAt events i = some .thinking) : ∃ after,
    blockAt codec events i = some (.thinking (deltasOf i after) (signatureOf i after)) ∧
      ∀ e : ProxyEvent U, (∀ kind, e.starts ≠ some (i, kind)) →
        blockAt codec (events ++ [e]) i =
          some (.thinking (deltasOf i (after ++ [e])) (signatureOf i (after ++ [e]))) := by
  obtain ⟨first, after, hafter, hkind⟩ := afterStart_of_kindAt events h
  cases first <;> cases hkind
  refine ⟨after, ?_, fun e he => ?_⟩
  · rw [blockAt, hafter]
  · rw [blockAt, afterStart_of_not_starts events e he, hafter]
    rfl

theorem afterStart_toolCall (h : kindAt events i = some .toolCall) :
    ∃ j id toolName after, afterStart i events = some (.toolcallStart j id toolName, after) := by
  obtain ⟨first, after, hafter, hkind⟩ := afterStart_of_kindAt events h
  cases first <;> cases hkind
  exact ⟨_, _, _, after, hafter⟩

theorem blockAt_toolCall {j : Nat} {id toolName : String} {after : List (ProxyEvent U)}
    (h : afterStart i events = some (.toolcallStart j id toolName, after)) :
    blockAt codec events i = some (.toolCall id toolName (argumentsOf codec i after)
      (if after.any (·.endsToolcall i) then none else some (deltasOf i after))) := by
  rw [blockAt, h]

theorem blockAt_toolCall_concat {j : Nat} {id toolName : String} {after : List (ProxyEvent U)}
    (h : afterStart i events = some (.toolcallStart j id toolName, after))
    (hstarts : ∀ kind, e.starts ≠ some (i, kind)) :
    blockAt codec (events ++ [e]) i = some (.toolCall id toolName
      (argumentsOf codec i (after ++ [e]))
      (if (after ++ [e]).any (·.endsToolcall i) then none
      else some (deltasOf i (after ++ [e])))) := by
  refine blockAt_toolCall codec (events ++ [e]) (j := j) ?_
  rw [afterStart_of_not_starts events e hstarts, h]
  rfl

end Blocks

/-! ## Events where they belong -/

section Process

variable (codec : Codec A U) (events : List (ProxyEvent U)) {e : ProxyEvent U}

theorem contentIndex_of_starts {i : Nat} {kind : BlockKind} (h : e.starts = some (i, kind)) :
    e.contentIndex = some i := by
  cases e <;> cases h <;> rfl

theorem blockAt_of_ne {i : Nat} (h : e.contentIndex ≠ some i) :
    blockAt codec (events ++ [e]) i = blockAt codec events i := by
  refine blockAt_other codec events (fun kind hstarts => h (contentIndex_of_starts hstarts))
    ?_ ?_ ?_
  all_goals
    cases e <;>
      simp_all [ProxyEvent.contentIndex, ProxyEvent.delta, ProxyEvent.signature,
        ProxyEvent.endsToolcall]

theorem setContent_opened {i : Nat} (block : ProxyBlock A) (hindex : e.contentIndex = some i)
    (hblock : blockAt codec (events ++ [e]) i = some block) :
    (opened codec events).setContent i block = opened codec (events ++ [e]) := by
  have hcontent : Function.update (blockAt codec events) i (some block) =
      blockAt codec (events ++ [e]) := by
    funext j
    by_cases hsame : j = i
    · subst hsame
      rw [Function.update_self, hblock]
    · rw [Function.update_of_ne hsame]
      refine (blockAt_of_ne codec events fun hj => hsame ?_).symm
      exact Option.some.inj (hj.symm.trans hindex)
  rw [ProxyMessage.setContent, opened, hcontent]
  rfl

theorem opened_concat (hsame : ∀ i, blockAt codec (events ++ [e]) i = blockAt codec events i) :
    opened codec (events ++ [e]) = opened codec events := by
  rw [opened, funext hsame]
  rfl

/-- An event that comes where it belongs rebuilds its block. -/
theorem process_opened (hplaced : e.misplaced (kindAt events) = none)
    (hends : ∀ i delta, e = .toolcallDelta i delta → ∀ first since,
      afterStart i events = some (first, since) → ∀ e' ∈ since, e'.endsToolcall i = false)
    (hopen : e.isTerminal = false) :
    ∃ event, (opened codec events).processProxyEvent codec e =
      .ok (opened codec (events ++ [e]), event) := by
  have hkind : ∀ {i kind message}, e.needs = some (i, kind, message) →
      kindAt events i = some kind := by
    intro i kind message hneeds
    simp only [ProxyEvent.misplaced, hneeds] at hplaced
    by_contra hne
    rw [if_neg hne] at hplaced
    cases hplaced
  have hnone : e.contentIndex = none → opened codec (events ++ [e]) = opened codec events := by
    intro hindex
    refine opened_concat codec events fun i => blockAt_of_ne codec events ?_
    rw [hindex]
    exact Option.some_ne_none i |>.symm
  cases e with
  | done reason usage => cases hopen
  | error reason errorMessage usage => cases hopen
  | start => exact ⟨_, by rw [hnone rfl]; rfl⟩
  | unhandled => exact ⟨_, by rw [hnone rfl]; rfl⟩
  | textStart i =>
    have hblock : blockAt codec (events ++ [.textStart i]) i = some (.text "" none) := by
      rw [blockAt, afterStart_of_starts events _ rfl]
      rfl
    exact ⟨_, by rw [← setContent_opened codec events _ rfl hblock]; rfl⟩
  | thinkingStart i =>
    have hblock : blockAt codec (events ++ [.thinkingStart i]) i = some (.thinking "" none) := by
      rw [blockAt, afterStart_of_starts events _ rfl]
      rfl
    exact ⟨_, by rw [← setContent_opened codec events _ rfl hblock]; rfl⟩
  | toolcallStart i id toolName =>
    have hblock : blockAt codec (events ++ [.toolcallStart i id toolName]) i =
        some (.toolCall id toolName codec.emptyArguments (some "")) := by
      rw [blockAt, afterStart_of_starts events _ rfl]
      rfl
    exact ⟨_, by rw [← setContent_opened codec events _ rfl hblock]; rfl⟩
  | textDelta i delta =>
    obtain ⟨after, hblock, hnext⟩ := blockAt_text codec events (hkind rfl)
    have hcontent : (opened codec events).content i = _ := hblock
    refine ⟨some (.textDelta i delta), ?_⟩
    rw [← setContent_opened codec events _ rfl (hnext _ (by nofun)),
      ProxyMessage.processProxyEvent, hcontent, deltasOf_concat, signatureOf_concat]
    simp [ProxyEvent.delta, ProxyEvent.signature]
  | textEnd i contentSignature =>
    obtain ⟨after, hblock, hnext⟩ := blockAt_text codec events (hkind rfl)
    have hcontent : (opened codec events).content i = _ := hblock
    refine ⟨some (.textEnd i (deltasOf i after)), ?_⟩
    rw [← setContent_opened codec events _ rfl (hnext _ (by nofun)),
      ProxyMessage.processProxyEvent, hcontent, deltasOf_concat, signatureOf_concat]
    simp [ProxyEvent.delta, ProxyEvent.signature]
  | thinkingDelta i delta =>
    obtain ⟨after, hblock, hnext⟩ := blockAt_thinking codec events (hkind rfl)
    have hcontent : (opened codec events).content i = _ := hblock
    refine ⟨some (.thinkingDelta i delta), ?_⟩
    rw [← setContent_opened codec events _ rfl (hnext _ (by nofun)),
      ProxyMessage.processProxyEvent, hcontent, deltasOf_concat, signatureOf_concat]
    simp [ProxyEvent.delta, ProxyEvent.signature]
  | thinkingEnd i contentSignature =>
    obtain ⟨after, hblock, hnext⟩ := blockAt_thinking codec events (hkind rfl)
    have hcontent : (opened codec events).content i = _ := hblock
    refine ⟨some (.thinkingEnd i (deltasOf i after)), ?_⟩
    rw [← setContent_opened codec events _ rfl (hnext _ (by nofun)),
      ProxyMessage.processProxyEvent, hcontent, deltasOf_concat, signatureOf_concat]
    simp [ProxyEvent.delta, ProxyEvent.signature]
  | toolcallDelta i delta =>
    obtain ⟨j, id, toolName, after, hafter⟩ := afterStart_toolCall events (hkind rfl)
    have hopened : after.any (·.endsToolcall i) = false := by
      rw [List.any_eq_false]
      intro e he hends'
      rw [hends i delta rfl _ _ hafter e he] at hends'
      cases hends'
    have hcontent : (opened codec events).content i = _ := blockAt_toolCall codec events hafter
    refine ⟨some (.toolcallDelta i delta), ?_⟩
    rw [← setContent_opened codec events _ rfl
        (blockAt_toolCall_concat codec events hafter (by nofun)),
      ProxyMessage.processProxyEvent, hcontent, deltasOf_concat]
    have hdelta : ProxyEvent.delta i (.toolcallDelta i delta : ProxyEvent U) = some delta :=
      if_pos rfl
    have hstays : ProxyEvent.endsToolcall i (.toolcallDelta i delta : ProxyEvent U) = false := rfl
    have harguments : argumentsOf codec i (after ++ [.toolcallDelta i delta]) =
        codec.parseStreamingJson (deltasOf i after ++ delta) := by
      rw [argumentsOf, deltasOf_concat, hdelta]
      simp [hdelta]
    simp only [List.any_append, hopened, hdelta, hstays, harguments, List.any_cons,
      List.any_nil, Bool.or_false, Bool.false_eq_true, if_false, Option.getD_some]
  | toolcallEnd i =>
    by_cases htoolCall : kindAt events i = some .toolCall
    · obtain ⟨j, id, toolName, after, hafter⟩ := afterStart_toolCall events htoolCall
      have hcontent : (opened codec events).content i = _ := blockAt_toolCall codec events hafter
      refine ⟨some (.toolcallEnd i (.toolCall id toolName (argumentsOf codec i after) none)), ?_⟩
      have harguments : argumentsOf codec i (after ++ [.toolcallEnd i]) =
          argumentsOf codec i after := by
        simp [argumentsOf, deltasOf_concat, ProxyEvent.delta]
      rw [← setContent_opened codec events _ rfl
          (blockAt_toolCall_concat codec events hafter (by nofun)),
        ProxyMessage.processProxyEvent, hcontent, harguments]
      simp [ProxyEvent.endsToolcall]
    · refine ⟨none, ?_⟩
      have hother : blockAt codec (events ++ [.toolcallEnd i]) i = blockAt codec events i := by
        unfold blockAt
        rw [afterStart_of_not_starts events _ (by nofun)]
        match hafter : afterStart i events with
        | none => rfl
        | some (first, after) =>
          cases first with
          | toolcallStart j id toolName => exact absurd (by rw [kindAt, hafter]; rfl) htoolCall
          | _ =>
            simp [deltasOf_concat, signatureOf_concat, ProxyEvent.delta, ProxyEvent.signature]
      have hsame : opened codec (events ++ [.toolcallEnd i]) = opened codec events := by
        refine opened_concat codec events fun j => ?_
        by_cases hj : j = i
        · rw [hj, hother]
        · exact blockAt_of_ne codec events fun heq => hj (Option.some.inj heq).symm
      rw [hsame, ProxyMessage.processProxyEvent]
      split
      · rename_i hcontent
        refine absurd ?_ htoolCall
        rw [← kind_blockAt codec events]
        exact congrArg (Option.map ProxyBlock.kind) hcontent
      · rfl

end Process

/-! ## What one event does to a message -/

namespace ProxyMessage

variable (codec : Codec A U) (m : ProxyMessage A U) (e : ProxyEvent U)

def kinds (i : Nat) : Option BlockKind :=
  (m.content i).map ProxyBlock.kind

theorem kinds_setContent (i : Nat) (block : ProxyBlock A) :
    (m.setContent i block).kinds = Function.update m.kinds i (some block.kind) := by
  funext j
  by_cases hsame : j = i
  · subst hsame
    simp [kinds, setContent]
  · simp [kinds, setContent, hsame]

/-- An event that leaves the message as it is. -/
def Harmless : ProxyEvent U → Prop
  | .start | .unhandled => True
  | .textStart i => m.content i = some (.text "" none)
  | .textDelta _ delta | .thinkingDelta _ delta => delta = ""
  | .textEnd i signature => ∃ text, m.content i = some (.text text signature)
  | .thinkingStart i => m.content i = some (.thinking "" none)
  | .thinkingEnd i signature => ∃ thinking, m.content i = some (.thinking thinking signature)
  | .toolcallStart i id toolName =>
      m.content i = some (.toolCall id toolName codec.emptyArguments (some ""))
  | .toolcallDelta i delta => ∃ id toolName json, delta = "" ∧
      m.content i = some (.toolCall id toolName (codec.parseStreamingJson json) (some json))
  | .toolcallEnd i => ∀ id toolName arguments json,
      m.content i ≠ some (.toolCall id toolName arguments (some json))
  | .done reason usage => m.stopReason = reason ∧ m.usage = usage
  | .error reason errorMessage usage =>
      m.stopReason = reason ∧ m.errorMessage = errorMessage ∧ m.usage = usage

theorem kinds_text (i : Nat) :
    m.kinds i = some .text ↔ ∃ text signature, m.content i = some (.text text signature) := by
  unfold kinds
  match m.content i with
  | none => simp
  | some block => cases block <;> simp [ProxyBlock.kind]

theorem kinds_thinking (i : Nat) : m.kinds i = some .thinking ↔
    ∃ thinking signature, m.content i = some (.thinking thinking signature) := by
  unfold kinds
  match m.content i with
  | none => simp
  | some block => cases block <;> simp [ProxyBlock.kind]

theorem kinds_toolCall (i : Nat) : m.kinds i = some .toolCall ↔
    ∃ id toolName arguments json,
      m.content i = some (.toolCall id toolName arguments json) := by
  unfold kinds
  match m.content i with
  | none => simp
  | some block => cases block <;> simp [ProxyBlock.kind]

theorem process_misplaced {message : String} (h : e.misplaced m.kinds = some message) :
    m.processProxyEvent codec e = .error message := by
  cases e <;> simp only [ProxyEvent.misplaced, ProxyEvent.needs, reduceCtorEq] at h
  all_goals
    obtain ⟨hkind, hmessage⟩ := Option.ite_none_left_eq_some.mp h
    obtain rfl := Option.some.inj hmessage
    unfold processProxyEvent
    dsimp only
    split
    · rename_i hcontent
      exact absurd (congrArg (Option.map ProxyBlock.kind) hcontent) hkind
    · rfl

theorem setContent_eq_iff (i : Nat) (block : ProxyBlock A) :
    m.setContent i block = m ↔ m.content i = some block := by
  constructor
  · intro h
    rw [← h]
    exact Function.update_self ..
  · intro h
    rw [setContent, ← h, Function.update_eq_self]

def kindsAfter (kinds : Nat → Option BlockKind) (e : ProxyEvent U) : Nat → Option BlockKind :=
  match e.starts with
  | some (i, kind) => Function.update kinds i (some kind)
  | none => kinds

theorem kinds_replace {i : Nat} {kind : BlockKind} (h : m.kinds i = some kind)
    (block : ProxyBlock A) (hkind : block.kind = kind) :
    (m.setContent i block).kinds = m.kinds := by
  rw [kinds_setContent, hkind, ← h, Function.update_eq_self]

theorem self_eq_append (a b : String) : a = a ++ b ↔ b = "" := by
  rw [← String.toList_inj, String.toList_append, List.self_eq_append_right,
    ← String.toList_inj, String.toList_empty]

theorem process_placed (h : e.misplaced m.kinds = none) : ∃ next event,
    m.processProxyEvent codec e = .ok (next, event) ∧ next.kinds = kindsAfter m.kinds e ∧
      (next = m ↔ m.Harmless codec e) ∧
      event.any ProxyStreamEvent.isComplete = e.isTerminal := by
  have hkind : ∀ {i kind message}, e.needs = some (i, kind, message) → m.kinds i = some kind := by
    intro i kind message hneeds
    simp only [ProxyEvent.misplaced, hneeds] at h
    by_contra hne
    rw [if_neg hne] at h
    cases h
  cases e with
  | start => exact ⟨m, _, rfl, rfl, by simp [Harmless], rfl⟩
  | unhandled => exact ⟨m, _, rfl, rfl, by simp [Harmless], rfl⟩
  | done reason usage =>
    refine ⟨_, _, rfl, rfl, ?_, rfl⟩
    obtain ⟨content, stopReason, errorMessage, usage'⟩ := m
    simp [Harmless, eq_comm]
  | error reason errorMessage usage =>
    refine ⟨_, _, rfl, rfl, ?_, rfl⟩
    obtain ⟨content, stopReason, errorMessage', usage'⟩ := m
    simp [Harmless, eq_comm]
  | textStart i => exact ⟨_, _, rfl, m.kinds_setContent i _, m.setContent_eq_iff i _, rfl⟩
  | thinkingStart i => exact ⟨_, _, rfl, m.kinds_setContent i _, m.setContent_eq_iff i _, rfl⟩
  | toolcallStart i id toolName =>
    exact ⟨_, _, rfl, m.kinds_setContent i _, m.setContent_eq_iff i _, rfl⟩
  | textDelta i delta =>
    obtain ⟨text, signature, hcontent⟩ := (m.kinds_text i).mp (hkind rfl)
    refine ⟨_, _, by rw [processProxyEvent, hcontent], m.kinds_replace (hkind rfl) _ rfl, ?_, rfl⟩
    rw [setContent_eq_iff, hcontent]
    simp [Harmless, self_eq_append]
  | textEnd i contentSignature =>
    obtain ⟨text, signature, hcontent⟩ := (m.kinds_text i).mp (hkind rfl)
    refine ⟨_, _, by rw [processProxyEvent, hcontent], m.kinds_replace (hkind rfl) _ rfl, ?_, rfl⟩
    rw [setContent_eq_iff, hcontent]
    simp [Harmless, hcontent]
  | thinkingDelta i delta =>
    obtain ⟨thinking, signature, hcontent⟩ := (m.kinds_thinking i).mp (hkind rfl)
    refine ⟨_, _, by rw [processProxyEvent, hcontent], m.kinds_replace (hkind rfl) _ rfl, ?_, rfl⟩
    rw [setContent_eq_iff, hcontent]
    simp [Harmless, self_eq_append]
  | thinkingEnd i contentSignature =>
    obtain ⟨thinking, signature, hcontent⟩ := (m.kinds_thinking i).mp (hkind rfl)
    refine ⟨_, _, by rw [processProxyEvent, hcontent], m.kinds_replace (hkind rfl) _ rfl, ?_, rfl⟩
    rw [setContent_eq_iff, hcontent]
    simp [Harmless, hcontent]
  | toolcallDelta i delta =>
    obtain ⟨id, toolName, arguments, json, hcontent⟩ := (m.kinds_toolCall i).mp (hkind rfl)
    refine ⟨_, _, by rw [processProxyEvent, hcontent], m.kinds_replace (hkind rfl) _ rfl, ?_, rfl⟩
    rw [setContent_eq_iff, hcontent]
    cases json with
    | none => simp [Harmless, hcontent]
    | some json =>
      simp only [Harmless, hcontent, Option.getD_some, Option.some.injEq,
        ProxyBlock.toolCall.injEq, true_and]
      constructor
      · rintro ⟨harguments, hjson⟩
        obtain rfl := (self_eq_append json delta).mp hjson
        exact ⟨id, toolName, json, rfl, rfl, rfl, by rw [harguments, ← hjson], rfl⟩
      · rintro ⟨_, _, _, rfl, -, -, harguments, rfl⟩
        exact ⟨by rw [String.append_empty, harguments], by rw [String.append_empty]⟩
  | toolcallEnd i =>
    by_cases htoolCall : m.kinds i = some .toolCall
    · obtain ⟨id, toolName, arguments, json, hcontent⟩ := (m.kinds_toolCall i).mp htoolCall
      refine ⟨_, _, by rw [processProxyEvent, hcontent], m.kinds_replace htoolCall _ rfl, ?_, rfl⟩
      rw [setContent_eq_iff, hcontent]
      cases json <;> simp [Harmless, hcontent]
    · refine ⟨m, none, ?_, rfl, ?_, rfl⟩
      · unfold processProxyEvent
        dsimp only
        split
        · rename_i hcontent
          exact absurd (congrArg (Option.map ProxyBlock.kind) hcontent) htoolCall
        · rfl
      · refine ⟨fun _ id toolName arguments json hcontent => htoolCall ?_, fun _ => rfl⟩
        exact congrArg (Option.map ProxyBlock.kind) hcontent

end ProxyMessage

end Eagent
