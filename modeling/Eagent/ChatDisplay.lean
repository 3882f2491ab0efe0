import Eagent.AgentLoop
import Eagent.OrdMap

/-!
# What the web client displays

The web client keeps a list of events and builds its entries from them: a
`message_start` opens an entry, updates and the end go to the last entry of
their role. So an entry is finished by its own end only while no other
message was started after it.
-/

namespace Eagent

/-- `WebStreamEvent`; the events of the session alone by their type. -/
inductive WebStreamEvent where
  | agent (event : AgentEvent)
  | traceEvent (event : Json)
  | session (type : String)
  | approvalRequest (id : String)
deriving Repr, DecidableEq

/-- The roles that have entries. -/
inductive EntryType where
  | user
  | assistant
deriving Repr, DecidableEq

def AgentMessage.entryType : AgentMessage → Option EntryType
  | .user _ => some .user
  | .assistant _ => some .assistant
  | _ => none

/-! ## The history as events -/

/-- `historyEventsFromMessages`, one message. -/
def historyEvents : AgentMessage → List WebStreamEvent
  | .user m => [.agent (.messageStart (.user m)), .agent (.messageEnd (.user m))]
  | .assistant m =>
      [.agent (.messageStart (.assistant m)), .agent (.messageEnd (.assistant m))] ++
        m.toolCalls.map fun call =>
          .agent (.toolExecutionStart call.id call.name call.arguments)
  | .toolResult m =>
      [.agent (.toolExecutionEnd m.toolCallId m.toolName
        { content := m.content, details := m.details } m.isError)]
  | _ => []

def historyEventsFromMessages (messages : List AgentMessage) : List WebStreamEvent :=
  messages.flatMap historyEvents

/-! ## Entries -/

structure ToolDisplay where
  result : Option AgentToolResult
  isError : Bool

/-- `ended` is not in the source: the entry has the message of an end. -/
structure DisplayEntry where
  id : String
  type : EntryType
  message : AgentMessage
  toolResults : Option (OrdMap String ToolDisplay)
  ended : Bool := false

def modifyLast {α : Type} (test : α → Bool) (f : α → α) : List α → List α
  | [] => []
  | a :: rest =>
      if rest.any test then a :: modifyLast test f rest
      else if test a then f a :: rest
      else a :: rest

namespace DisplayEntry

variable (entry : DisplayEntry)

def calls (toolCallId : String) : Bool :=
  match entry.type, entry.message with
  | .assistant, .assistant m => m.toolCalls.any (·.id = toolCallId)
  | _, _ => false

def hasResult (toolCallId : String) : Bool :=
  entry.type = .assistant && entry.toolResults.any (·.has toolCallId)

def setResult (toolCallId : String) (display : ToolDisplay) : DisplayEntry :=
  { entry with
    toolResults := some ((entry.toolResults.getD OrdMap.empty).set toolCallId display) }

end DisplayEntry

/-- One turn of the loop of `buildDisplayEntries`. -/
def addToDisplay (entries : List DisplayEntry) : WebStreamEvent → List DisplayEntry
  | .agent (.messageStart message) =>
      match message.entryType with
      | some .user =>
          entries ++ [{ id := s!"msg-{entries.length}", type := .user, message, toolResults := none }]
      | some .assistant =>
          entries ++ [{
            id := s!"msg-{entries.length}", type := .assistant, message,
            toolResults := some OrdMap.empty }]
      | none => entries
  | .agent (.messageUpdate message _) =>
      if message.entryType = some .assistant then
        modifyLast (·.type = .assistant) ({ · with message }) entries
      else entries
  | .agent (.messageEnd message) =>
      match message.entryType with
      | some role => modifyLast (·.type = role) ({ · with message, ended := true }) entries
      | none => entries
  | .agent (.toolExecutionStart toolCallId _ _) =>
      modifyLast (·.calls toolCallId) (·.setResult toolCallId ⟨none, false⟩) entries
  | .agent (.toolExecutionUpdate toolCallId _ _ partialResult) =>
      modifyLast (·.hasResult toolCallId) (·.setResult toolCallId ⟨some partialResult, false⟩)
        entries
  | .agent (.toolExecutionEnd toolCallId _ result isError) =>
      modifyLast (·.hasResult toolCallId) (·.setResult toolCallId ⟨some result, isError⟩) entries
  | _ => entries

def buildDisplayEntries (events : List WebStreamEvent) : List DisplayEntry :=
  events.foldl addToDisplay []

def shown (events : List WebStreamEvent) : List AgentMessage :=
  ((buildDisplayEntries events).filter (·.ended)).map (·.message)

/-! ## Messages in the stream -/

inductive MessagePhase where
  | start
  | update
  | finish
deriving DecidableEq

def WebStreamEvent.phase : WebStreamEvent → Option (MessagePhase × EntryType)
  | .agent (.messageStart message) => message.entryType.map (.start, ·)
  | .agent (.messageUpdate message _) =>
      if message.entryType = some .assistant then some (.update, .assistant) else none
  | .agent (.messageEnd message) => message.entryType.map (.finish, ·)
  | _ => none

def WebStreamEvent.ends : WebStreamEvent → List AgentMessage
  | .agent (.messageEnd message) => if message.entryType.isSome then [message] else []
  | _ => []

/-- The message in progress after an event; none where no message of its role
is in progress. -/
def WebStreamEvent.progress (event : WebStreamEvent) (inProgress : Option EntryType) :
    Option (Option EntryType) :=
  match event.phase with
  | none => some inProgress
  | some (.start, role) => some (some role)
  | some (.update, role) => if inProgress = some role then some inProgress else none
  | some (.finish, role) => if inProgress = some role then some none else none

def finished (entries : List DisplayEntry) : List AgentMessage :=
  (entries.filter (·.ended)).map (·.message)

def Unfinished (entries : List DisplayEntry) (role : EntryType) : Prop :=
  ∃ before entry, entries = before ++ [entry] ∧ entry.type = role ∧ entry.ended = false

theorem modifyLast_concat {α : Type} (test : α → Bool) (f : α → α) (before : List α) {a : α}
    (h : test a = true) : modifyLast test f (before ++ [a]) = before ++ [f a] := by
  induction before with
  | nil => simp [modifyLast, h]
  | cons b before ih =>
    have hany : (before ++ [a]).any test = true := by
      rw [List.any_append, List.any_cons, h]
      simp
    rw [List.cons_append, modifyLast, if_pos hany, ih, List.cons_append]

theorem map_modifyLast {α β : Type} (test : α → Bool) {f : α → α} {view : α → β}
    (h : ∀ a, view (f a) = view a) (l : List α) :
    (modifyLast test f l).map view = l.map view := by
  induction l with
  | nil => rfl
  | cons a l ih =>
    rw [modifyLast]
    split
    · rw [List.map_cons, List.map_cons, ih]
    · split
      · rw [List.map_cons, List.map_cons, h]
      · rfl

def DisplayEntry.view (entry : DisplayEntry) : EntryType × AgentMessage × Bool :=
  (entry.type, entry.message, entry.ended)

theorem DisplayEntry.view_setResult (entry : DisplayEntry) (toolCallId : String)
    (display : ToolDisplay) : (entry.setResult toolCallId display).view = entry.view := rfl

theorem finished_of_view {entries entries' : List DisplayEntry}
    (h : entries'.map DisplayEntry.view = entries.map DisplayEntry.view) :
    finished entries' = finished entries := by
  have heq : ∀ l : List DisplayEntry,
      finished l = ((l.map DisplayEntry.view).filter (·.2.2)).map (·.2.1) := by
    intro l
    rw [finished, List.filter_map, List.map_map]
    rfl
  rw [heq, heq, h]

theorem unfinished_of_view {entries entries' : List DisplayEntry} {role : EntryType}
    (h : entries'.map DisplayEntry.view = entries.map DisplayEntry.view)
    (hunfinished : Unfinished entries role) : Unfinished entries' role := by
  obtain ⟨before, entry, rfl, rfl, hended⟩ := hunfinished
  rw [List.map_append, List.map_cons, List.map_nil] at h
  obtain ⟨before', last, rfl, -, hlast⟩ := List.map_eq_append_iff.mp h
  obtain ⟨entry', rfl, hview⟩ := List.map_eq_singleton_iff.mp hlast
  simp only [DisplayEntry.view, Prod.mk.injEq] at hview
  exact ⟨before', entry', rfl, hview.1, hview.2.2.trans hended⟩

variable {event : WebStreamEvent}

theorem view_addToDisplay (h : event.phase = none) (entries : List DisplayEntry) :
    (addToDisplay entries event).map DisplayEntry.view = entries.map DisplayEntry.view := by
  cases event with
  | agent event =>
    cases event with
    | messageStart message =>
      rw [WebStreamEvent.phase, Option.map_eq_none_iff] at h
      rw [addToDisplay, h]
    | messageUpdate message kind =>
      rw [WebStreamEvent.phase] at h
      rw [addToDisplay]
      split at h
      · cases h
      · rename_i hrole
        rw [if_neg hrole]
    | messageEnd message =>
      rw [WebStreamEvent.phase, Option.map_eq_none_iff] at h
      rw [addToDisplay, h]
    | toolExecutionStart =>
      rw [addToDisplay]
      exact map_modifyLast _ (fun entry => entry.view_setResult _ _) entries
    | toolExecutionUpdate =>
      rw [addToDisplay]
      exact map_modifyLast _ (fun entry => entry.view_setResult _ _) entries
    | toolExecutionEnd =>
      rw [addToDisplay]
      exact map_modifyLast _ (fun entry => entry.view_setResult _ _) entries
    | _ => rfl
  | _ => rfl

theorem finished_concat (before : List DisplayEntry) (entry : DisplayEntry) :
    finished (before ++ [entry]) =
      finished before ++ if entry.ended then [entry.message] else [] := by
  rw [finished, List.filter_append, List.map_append]
  cases h : entry.ended <;> simp [finished, h]

/-- What an event of a message does: it opens an entry, or it changes the last
one of its role. -/
theorem addToDisplay_phase {phase : MessagePhase} {role : EntryType}
    (h : event.phase = some (phase, role)) :
    ∃ message, (phase = .finish → event.ends = [message]) ∧ (phase ≠ .finish → event.ends = []) ∧
      ∀ entries,
        match phase with
        | .start => ∃ entry : DisplayEntry, addToDisplay entries event = entries ++ [entry] ∧
            entry.type = role ∧ entry.ended = false
        | .update => addToDisplay entries event =
            modifyLast (·.type = role) ({ · with message }) entries
        | .finish => addToDisplay entries event =
            modifyLast (·.type = role) ({ · with message, ended := true }) entries := by
  unfold WebStreamEvent.phase at h
  split at h
  · rename_i message
    obtain ⟨role', hrole, heq⟩ := Option.map_eq_some_iff.mp h
    cases heq
    refine ⟨message, (fun hphase => by cases hphase), fun _ => rfl, fun entries => ?_⟩
    dsimp only
    rw [addToDisplay, hrole]
    cases role with
    | user => exact ⟨_, rfl, rfl, rfl⟩
    | assistant => exact ⟨_, rfl, rfl, rfl⟩
  · rename_i message kind
    split at h
    · rename_i hrole
      cases h
      refine ⟨message, (fun hphase => by cases hphase), fun _ => rfl, fun entries => ?_⟩
      dsimp only
      rw [addToDisplay, if_pos hrole]
    · cases h
  · rename_i message
    obtain ⟨role', hrole, heq⟩ := Option.map_eq_some_iff.mp h
    cases heq
    refine ⟨message, fun _ => ?_, fun hphase => absurd rfl hphase, fun entries => ?_⟩
    · rw [WebStreamEvent.ends, hrole]
      rfl
    · dsimp only
      rw [addToDisplay, hrole]
  · cases h

theorem ends_of_phase_none (h : event.phase = none) :
    event.ends = [] := by
  unfold WebStreamEvent.ends
  split
  · rename_i message
    rw [WebStreamEvent.phase, Option.map_eq_none_iff] at h
    rw [h]
    rfl
  · rfl

/-- An event of the message in progress, or of none, keeps what has ended;
where it is the end, its message is the next. -/
theorem addToDisplay_progress {entries : List DisplayEntry}
    {inProgress inProgress' : Option EntryType} (h : event.progress inProgress = some inProgress')
    (hopen : ∀ role, inProgress = some role → Unfinished entries role) :
    finished (addToDisplay entries event) = finished entries ++ event.ends ∧
      ∀ role, inProgress' = some role → Unfinished (addToDisplay entries event) role := by
  obtain hevent | ⟨⟨phase, role⟩, hevent⟩ := Option.eq_none_or_eq_some event.phase
  · have hview := view_addToDisplay hevent entries
    rw [WebStreamEvent.progress, hevent] at h
    obtain rfl := Option.some.inj h
    rw [finished_of_view hview, ends_of_phase_none hevent, List.append_nil]
    exact ⟨rfl, fun role hrole => unfinished_of_view hview (hopen role hrole)⟩
  obtain ⟨message, hfinish, hother, hadd⟩ := addToDisplay_phase hevent
  have hentries := hadd entries
  rw [WebStreamEvent.progress, hevent] at h
  cases phase with
  | start =>
    obtain ⟨entry, heq, htype, hended⟩ := hentries
    obtain rfl := Option.some.inj h
    rw [heq, hother (by decide), finished_concat, hended]
    refine ⟨rfl, fun role' hrole => ?_⟩
    obtain rfl := Option.some.inj hrole
    exact ⟨entries, entry, rfl, htype, hended⟩
  | update =>
    dsimp only at h hentries
    split at h
    · rename_i hrole
      obtain rfl := Option.some.inj h
      obtain ⟨before, entry, rfl, htype, hended⟩ := hopen role hrole
      have htest : (fun entry : DisplayEntry => decide (entry.type = role)) entry = true :=
        decide_eq_true htype
      rw [hentries, hother (by decide), modifyLast_concat _ _ before htest, finished_concat,
        finished_concat, hended]
      refine ⟨by simp, fun role' hrole' => ?_⟩
      obtain rfl := Option.some.inj (hrole.symm.trans hrole')
      exact ⟨before, _, rfl, htype, rfl⟩
    · cases h
  | finish =>
    dsimp only at h hentries
    split at h
    · rename_i hrole
      obtain rfl := Option.some.inj h
      obtain ⟨before, entry, rfl, htype, hended⟩ := hopen role hrole
      have htest : (fun entry : DisplayEntry => decide (entry.type = role)) entry = true :=
        decide_eq_true htype
      rw [hentries, hfinish rfl, modifyLast_concat _ _ before htest, finished_concat,
        finished_concat, hended]
      refine ⟨?_, fun _ hrole' => (by cases hrole')⟩
      simp
    · cases h

/-! ## Lists of events -/

theorem build_concat (events : List WebStreamEvent) (event : WebStreamEvent) :
    buildDisplayEntries (events ++ [event]) = addToDisplay (buildDisplayEntries events) event := by
  rw [buildDisplayEntries, List.foldl_append]
  rfl

theorem foldl_progress (events : List WebStreamEvent) :
    ∀ {entries : List DisplayEntry} {inProgress inProgress' : Option EntryType},
      events.foldlM (fun inProgress event => event.progress inProgress) inProgress =
          some inProgress' →
      (∀ role, inProgress = some role → Unfinished entries role) →
      finished (events.foldl addToDisplay entries) =
          finished entries ++ events.flatMap WebStreamEvent.ends ∧
        ∀ role, inProgress' = some role →
          Unfinished (events.foldl addToDisplay entries) role := by
  induction events with
  | nil =>
    intro entries inProgress inProgress' h hopen
    obtain rfl := Option.some.inj h
    exact ⟨(List.append_nil _).symm, hopen⟩
  | cons event events ih =>
    intro entries inProgress inProgress' h hopen
    rw [List.foldlM_cons] at h
    obtain ⟨next, hnext, hrest⟩ := Option.bind_eq_some_iff.mp h
    obtain ⟨hfinished, hopen'⟩ := addToDisplay_progress hnext hopen
    obtain ⟨hall, hlast⟩ := ih hrest hopen'
    refine ⟨?_, hlast⟩
    rw [List.foldl_cons, hall, hfinished, List.flatMap_cons, List.append_assoc]

/-- What the client shows of messages. -/
def visible (messages : List AgentMessage) : List AgentMessage :=
  messages.filter (·.entryType.isSome)

theorem historyEvents_progress (message : AgentMessage) :
    (historyEvents message).foldlM (fun inProgress event => event.progress inProgress) none =
        some none ∧
      (historyEvents message).flatMap WebStreamEvent.ends = visible [message] := by
  cases message with
  | assistant m =>
    have hcalls : ∀ calls : List ToolCall,
        (calls.map fun call => WebStreamEvent.agent
            (.toolExecutionStart call.id call.name call.arguments)).foldlM
              (fun inProgress event => event.progress inProgress) none = some none ∧
          (calls.map fun call => WebStreamEvent.agent
            (.toolExecutionStart call.id call.name call.arguments)).flatMap
              WebStreamEvent.ends = [] := by
      intro calls
      induction calls with
      | nil => exact ⟨rfl, rfl⟩
      | cons call calls ih => exact ih
    obtain ⟨hprogress, hends⟩ := hcalls m.toolCalls
    refine ⟨hprogress, ?_⟩
    rw [historyEvents, List.flatMap_append, hends]
    rfl
  | _ => exact ⟨rfl, rfl⟩

theorem finished_historyEvents (messages : List AgentMessage) :
    ∀ entries, finished ((historyEventsFromMessages messages).foldl addToDisplay entries) =
      finished entries ++ visible messages := by
  induction messages with
  | nil => exact fun entries => (List.append_nil _).symm
  | cons message messages ih =>
    intro entries
    obtain ⟨hprogress, hends⟩ := historyEvents_progress message
    have hstart : ∀ role, none = some role → Unfinished entries role := fun _ h => by cases h
    have hfirst := (foldl_progress (historyEvents message) hprogress hstart).1
    rw [historyEventsFromMessages, List.flatMap_cons, List.foldl_append,
      ← historyEventsFromMessages, ih, hfirst, hends, List.append_assoc]
    rw [← List.singleton_append (l := messages), visible, visible, visible, List.filter_append]

end Eagent
