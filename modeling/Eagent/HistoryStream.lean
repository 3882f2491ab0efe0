import Eagent.EventStream

/-!
# Nothing is missed

What an open client shows, with the events above its cursor and those in the
pipe, are the messages that have ended, each once. A history keeps this when
its messages are still all that have ended where the cursor is read
(`nothing_missed`); a message that ends between the two answers is lost.
-/

namespace Eagent

/-! ## Numbered events -/

/-- The events with the cursors above `k`. -/
def numberedFrom (k : Nat) : List WebStreamEvent → List BufferedWebStreamEvent
  | [] => []
  | event :: events => ⟨k + 1, event⟩ :: numberedFrom (k + 1) events

theorem length_numberedFrom (k : Nat) (events : List WebStreamEvent) :
    (numberedFrom k events).length = events.length := by
  induction events generalizing k with
  | nil => rfl
  | cons event events ih => exact congrArg (· + 1) (ih (k + 1))

theorem numberedFrom_append (k : Nat) (events events' : List WebStreamEvent) :
    numberedFrom k (events ++ events') =
      numberedFrom k events ++ numberedFrom (k + events.length) events' := by
  induction events generalizing k with
  | nil => rfl
  | cons event events ih =>
    rw [List.cons_append, numberedFrom, ih, numberedFrom, List.cons_append, List.length_cons,
      Nat.add_right_comm k 1, Nat.add_assoc k]

theorem drop_numberedFrom (k n : Nat) (events : List WebStreamEvent) :
    (numberedFrom k events).drop n = numberedFrom (k + n) (events.drop n) := by
  induction n generalizing k events with
  | zero => rfl
  | succ n ih =>
    cases events with
    | nil => rfl
    | cons event events =>
      rw [numberedFrom, List.drop_succ_cons, List.drop_succ_cons, ih, Nat.add_right_comm,
        Nat.add_assoc]

variable {events : List WebStreamEvent}

theorem lt_of_mem_numberedFrom {k : Nat} :
    ∀ item ∈ numberedFrom k events, k < item.cursor := by
  induction events generalizing k with
  | nil => exact fun _ h => absurd h List.not_mem_nil
  | cons event events ih =>
    refine List.forall_mem_cons.mpr ⟨Nat.lt_succ_self k, fun item hitem => ?_⟩
    exact Nat.lt_of_succ_lt (ih item hitem)

theorem filter_numberedFrom (k c : Nat) (events : List WebStreamEvent) :
    (numberedFrom k events).filter (fun item => item.cursor > c) =
      numberedFrom (max k c) (events.drop (c - k)) := by
  induction events generalizing k with
  | nil => rw [List.drop_nil]; rfl
  | cons event events ih =>
    by_cases h : c ≤ k
    · have hall : ∀ item ∈ numberedFrom k (event :: events), decide (item.cursor > c) = true :=
        fun item hitem =>
          decide_eq_true (Nat.lt_of_le_of_lt h (lt_of_mem_numberedFrom item hitem))
      rw [List.filter_eq_self.mpr hall, Nat.sub_eq_zero_of_le h, Nat.max_eq_left h,
        List.drop_zero]
    · have hlt : k + 1 ≤ c := Nat.not_le.mp h
      have hsub : c - k = c - (k + 1) + 1 := by omega
      have hhead : ¬ decide ((⟨k + 1, event⟩ : BufferedWebStreamEvent).cursor > c) = true :=
        fun hcursor => Nat.not_lt.mpr hlt (of_decide_eq_true hcursor)
      rw [numberedFrom, List.filter_cons_of_neg (by exact hhead), ih, hsub, List.drop_succ_cons,
        Nat.max_eq_right hlt, Nat.max_eq_right (Nat.le_of_lt hlt)]

theorem foldl_sendEvent (events : List WebStreamEvent) :
    ∀ {k last : Nat} (sent : List BufferedWebStreamEvent), last ≤ k →
      (numberedFrom k events).foldl EventSource.sendEvent (.connected last sent) =
        .connected (if events = [] then last else k + events.length)
          (sent ++ numberedFrom k events) := by
  induction events with
  | nil =>
    intro k last sent _
    rw [numberedFrom, List.append_nil, if_pos rfl]
    rfl
  | cons event events ih =>
    intro k last sent hle
    rw [numberedFrom, List.foldl_cons, EventSource.sendEvent,
      if_neg (Nat.not_le.mpr (Nat.lt_succ_of_le hle)), ih _ (Nat.le_refl _), List.append_assoc,
      if_neg (List.cons_ne_nil _ _), List.length_cons]
    refine congrArg (EventSource.connected · _) ?_
    split
    · rename_i hnil
      rw [hnil]
      rfl
    · exact Nat.add_right_comm k 1 _

/-- What the client listens for. -/
def WebStreamEvent.heard (event : WebStreamEvent) : Bool := event.type ∈ eventTypes

theorem addToDisplay_unheard {event : WebStreamEvent} (h : event.heard = false)
    (entries : List DisplayEntry) : addToDisplay entries event = entries := by
  have htype := of_decide_eq_false h
  cases event with
  | agent event =>
    refine absurd ?_ htype
    cases event <;> simp [WebStreamEvent.type, eventTypes]
  | _ => rfl

theorem foldl_unheard (h : events.filter (·.heard) = []) (entries : List DisplayEntry) :
    events.foldl addToDisplay entries = entries := by
  induction events with
  | nil => rfl
  | cons event events ih =>
    cases hheard : event.heard with
    | true =>
      rw [List.filter_cons_of_pos hheard] at h
      cases h
    | false =>
      rw [List.filter_cons_of_neg (by simp [hheard])] at h
      rw [List.foldl_cons, addToDisplay_unheard hheard, ih h]

theorem map_event_numberedFrom (k : Nat) (events : List WebStreamEvent) :
    (numberedFrom k events).map (·.event) = events := by
  induction events generalizing k with
  | nil => rfl
  | cons event events ih => exact congrArg (event :: ·) (ih (k + 1))

theorem first_heard {k : Nat} {item : BufferedWebStreamEvent} {rest : List BufferedWebStreamEvent}
    (h : (numberedFrom k events).filter (·.event.heard) = item :: rest) :
    ∃ skipped later, events = skipped ++ item.event :: later ∧
      skipped.filter (·.heard) = [] ∧ item.cursor = k + skipped.length + 1 ∧
      rest = (numberedFrom item.cursor later).filter (·.event.heard) := by
  induction events generalizing k with
  | nil => cases h
  | cons event events ih =>
    rw [numberedFrom] at h
    cases hheard : event.heard with
    | true =>
      rw [List.filter_cons_of_pos (by exact hheard)] at h
      obtain ⟨rfl, rfl⟩ := List.cons.inj h
      exact ⟨[], events, rfl, rfl, rfl, rfl⟩
    | false =>
      rw [List.filter_cons_of_neg (by simp [hheard])] at h
      obtain ⟨skipped, later, rfl, hskipped, hcursor, hrest⟩ := ih h
      refine ⟨event :: skipped, later, rfl, ?_, ?_, hrest⟩
      · rw [List.filter_cons_of_neg (by simp [hheard]), hskipped]
      · rw [hcursor, List.length_cons]
        omega

namespace WebStream

/-! ## Lines of messages -/

variable {κ : Type} (identity : AgentMessage → κ) (s : WebStream)

def lineEvent (line : ProcessLine) : Option WebStreamEvent :=
  match line.output with
  | .event event => some event
  | _ => none

def isMessage (line : ProcessLine) : Bool := (lineEvent line).any (·.phase.isSome)

def pipe : List WebStreamEvent := s.stdout.filterMap lineEvent

def progressOf (process : Nat) (reading : Option (Nat × EntryType)) : Option EntryType :=
  reading.bind fun x => if x.1 = process then some x.2 else none

def lineProgress (reading : Option (Nat × EntryType)) (line : ProcessLine) :
    Option (Option (Nat × EntryType)) :=
  match lineEvent line with
  | some event =>
      if event.phase.isSome then
        (event.progress (progressOf line.process reading)).map (Option.map (Prod.mk line.process))
      else some reading
  | none => some reading

theorem lineEnds_eq (line : ProcessLine) :
    lineEnds line = (lineEvent line).elim [] WebStreamEvent.ends := by
  obtain ⟨process, output⟩ := line
  cases output <;> rfl

theorem progressOf_eq_some {process : Nat} {reading : Option (Nat × EntryType)}
    {role : EntryType} :
    progressOf process reading = some role ↔ reading = some (process, role) := by
  cases reading with
  | none => simp [progressOf]
  | some x =>
    obtain ⟨owner, role'⟩ := x
    simp only [progressOf, Option.bind_some, Option.ite_none_right_eq_some, Option.some.injEq,
      Prod.mk.injEq]

variable {line : ProcessLine}

theorem lineProgress_of_not_isMessage (h : isMessage line = false)
    (reading : Option (Nat × EntryType)) : lineProgress reading line = some reading := by
  rw [isMessage] at h
  rw [lineProgress]
  cases hevent : lineEvent line with
  | none => rfl
  | some event =>
    rw [hevent, Option.any_some] at h
    dsimp only
    rw [if_neg (by simp [h])]

variable {lines : List ProcessLine}

theorem foldlM_of_not_isMessage (h : ∀ line ∈ lines, isMessage line = false)
    (reading : Option (Nat × EntryType)) :
    lines.foldlM lineProgress reading = some reading := by
  induction lines with
  | nil => rfl
  | cons line lines ih =>
    obtain ⟨hline, hlines⟩ := List.forall_mem_cons.mp h
    rw [List.foldlM_cons, lineProgress_of_not_isMessage hline]
    exact ih hlines

theorem lineEnds_of_not_isMessage (h : isMessage line = false) :
    lineEnds line = [] := by
  rw [isMessage] at h
  rw [lineEnds_eq]
  cases hevent : lineEvent line with
  | none => rfl
  | some event =>
    rw [hevent, Option.any_some] at h
    exact ends_of_phase_none (Option.not_isSome_iff_eq_none.mp (by simp [h]))

theorem ends_of_not_isMessage (h : ∀ line ∈ lines, isMessage line = false) :
    lines.flatMap lineEnds = [] :=
  List.flatMap_eq_nil_iff.mpr fun line hline => lineEnds_of_not_isMessage (h line hline)

def addLine (entries : List DisplayEntry) (line : ProcessLine) : List DisplayEntry :=
  (lineEvent line).elim entries (addToDisplay entries)

theorem foldl_pipe (lines : List ProcessLine) (entries : List DisplayEntry) :
    (lines.filterMap lineEvent).foldl addToDisplay entries = lines.foldl addLine entries := by
  induction lines generalizing entries with
  | nil => rfl
  | cons line lines ih =>
    rw [List.filterMap_cons, List.foldl_cons, addLine]
    cases lineEvent line with
    | none => exact ih entries
    | some event => exact ih (addToDisplay entries event)

theorem addLine_of_not_isMessage (h : isMessage line = false) (entries : List DisplayEntry) :
    (addLine entries line).map DisplayEntry.view = entries.map DisplayEntry.view := by
  rw [isMessage] at h
  rw [addLine]
  cases hevent : lineEvent line with
  | none => rfl
  | some event =>
    rw [hevent, Option.any_some] at h
    exact view_addToDisplay (Option.not_isSome_iff_eq_none.mp (by simp [h])) entries

theorem addLine_of_isMessage {entries : List DisplayEntry}
    {reading reading' : Option (Nat × EntryType)} (hmessage : isMessage line = true)
    (h : lineProgress reading line = some reading')
    (hopen : ∀ role, reading = some (line.process, role) → Unfinished entries role) :
    finished (addLine entries line) = finished entries ++ lineEnds line ∧
      ∀ x, reading' = some x → x.1 = line.process ∧ Unfinished (addLine entries line) x.2 := by
  rw [isMessage] at hmessage
  rw [lineProgress] at h
  rw [addLine, lineEnds_eq]
  cases hevent : lineEvent line with
  | none =>
    rw [hevent] at hmessage
    cases hmessage
  | some event =>
    rw [hevent, Option.any_some] at hmessage
    rw [hevent] at h
    dsimp only at h
    rw [if_pos hmessage] at h
    obtain ⟨inProgress, hprogress, rfl⟩ := Option.map_eq_some_iff.mp h
    obtain ⟨hfinished, hnext⟩ := addToDisplay_progress hprogress fun role hrole =>
      hopen role (progressOf_eq_some.mp hrole)
    refine ⟨hfinished, fun x hx => ?_⟩
    obtain ⟨role, hrole, rfl⟩ := Option.map_eq_some_iff.mp hx
    exact ⟨rfl, hnext role hrole⟩

theorem foldl_addLine (lines : List ProcessLine) :
    ∀ {entries : List DisplayEntry} {reading last : Option (Nat × EntryType)},
      lines.foldlM lineProgress reading = some last →
      (∀ process role, reading = some (process, role) →
        (∃ line ∈ lines, line.process = process) → Unfinished entries role) →
      finished (lines.foldl addLine entries) =
        finished entries ++ lines.flatMap lineEnds := by
  induction lines with
  | nil => exact fun _ _ => (List.append_nil _).symm
  | cons line lines ih =>
    intro entries reading last h hopen
    rw [List.foldlM_cons] at h
    obtain ⟨next, hnext, hrest⟩ := Option.bind_eq_some_iff.mp h
    rw [List.foldl_cons, List.flatMap_cons, ← List.append_assoc]
    cases hmessage : isMessage line with
    | true =>
      obtain ⟨hfinished, hopen'⟩ := addLine_of_isMessage hmessage hnext fun role hrole =>
        hopen line.process role hrole ⟨line, List.mem_cons_self, rfl⟩
      rw [ih hrest fun process role hrole _ => (hopen' _ hrole).2, hfinished]
    | false =>
      have hview := addLine_of_not_isMessage hmessage entries
      rw [lineProgress_of_not_isMessage hmessage] at hnext
      obtain rfl := Option.some.inj hnext
      rw [ih hrest fun process role hrole ⟨line', hline', hprocess⟩ =>
          unfinished_of_view hview
            (hopen process role hrole ⟨line', List.mem_cons_of_mem line hline', hprocess⟩),
        finished_of_view hview, lineEnds_of_not_isMessage hmessage, List.append_nil]

/-! ## The invariant -/

/-- Lines of the process are still to come. -/
def Active (process : Nat) : Prop :=
  (∃ line ∈ s.stdout, line.process = process) ∨
    ∃ agent, s.agent = some agent ∧ agent.process = process

/-- A message of the role is in progress, and its process may go on with it. -/
def Live (role : EntryType) : Prop :=
  ∃ process, s.reading = some (process, role) ∧ s.Active process

/-- Events shown up to a cursor, and the later ones, show all that was read;
a message that is still in progress is the last of them. -/
structure Complete (origin : List AgentMessage) (events : List WebStreamEvent) (cursor : Nat) :
    Prop where
  le : cursor ≤ s.appended.length
  shown : (origin ++ shown (events ++ s.appended.drop cursor)).map identity =
    s.read.map identity
  live : ∀ role, s.Live role →
    Unfinished (buildDisplayEntries (events ++ s.appended.drop cursor)) role

def heardAbove (cursor : Nat) : List BufferedWebStreamEvent :=
  (numberedFrom cursor (s.appended.drop cursor)).filter (·.event.heard)

/-- The pipe goes on with the messages of the processes. -/
structure PipeInvariant : Prop where
  active : ∀ process, s.Active process → process < s.processes
  reading : ∀ x, s.reading = some x → x.1 < s.processes
  brackets : ∃ last, s.stdout.foldlM lineProgress s.reading = some last ∧
    ∀ agent, s.agent = some agent → progressOf agent.process last = agent.inProgress

structure Invariant : Prop where
  pipe : s.PipeInvariant
  cursor : s.nextCursor = s.appended.length
  buffer : s.eventBuffer =
    (numberedFrom 0 s.appended).drop (s.appended.length - maxBuffer)
  server : s.Complete identity s.serverOrigin [] 0
  client : s.chat.isOpen = true → s.Complete identity s.origin s.chat.messages s.chat.cursor ∧
    s.chat.streamCursor ≤ s.chat.cursor
  source : s.source ≠ .closed → s.chat.isOpen = true
  requests : ∀ request ∈ s.requests, request.selection ≤ s.selection
  replies : ∀ reply ∈ s.replies, reply.1 ≤ s.selection ∧
    (reply.1 = s.selection → ∀ history, reply.2 = some history →
      s.Complete identity [] history.events history.cursor)
  connected : ∀ lastCursor inFlight, s.source = .connected lastCursor inFlight →
    lastCursor = s.appended.length ∧ (∀ item ∈ inFlight, 0 < item.cursor) ∧
      (inFlight.filter fun item => item.cursor > s.chat.cursor && item.event.heard) =
        s.heardAbove s.chat.cursor

/-- What is said of the client in a state. -/
structure NothingMissed : Prop where
  /-- with the events still to come, each message that has ended is shown once -/
  promised : s.chat.isOpen = true →
    (s.origin ++ shown (s.chat.messages ++ s.appended.drop s.chat.cursor ++ s.pipe)).map identity =
      s.ended.map identity
  /-- an open stream carries the events above the client's cursor -/
  carried : ∀ lastCursor inFlight, s.source = .connected lastCursor inFlight →
    (inFlight.filter fun item => item.cursor > s.chat.cursor && item.event.heard) =
      s.heardAbove s.chat.cursor
  /-- so nothing is missing once nothing is on its way -/
  settled : ∀ lastCursor, s.source = .connected lastCursor [] →
    (∀ line ∈ s.stdout, isMessage line = false) →
    (s.origin ++ shown s.chat.messages).map identity = s.ended.map identity

/-! ## The condition -/

def Current (messages : List AgentMessage) : Prop :=
  (visible messages).map identity = s.read.map identity ∧ ∀ role, ¬ s.Live role

/-- A client at this cursor survives a restart of the server. -/
def Untouched (cursor : Nat) : Prop :=
  cursor = 0 ∧ (∀ event ∈ s.appended, event.phase = none) ∧
    ∀ line ∈ s.stdout, isMessage line = false

def Cond : WebStreamAct → Prop
  | .line index => ∀ line, s.stdout[index]? = some line → isMessage line = true →
      ∀ earlier ∈ s.stdout.take index, isMessage earlier = false
  | .resume request _ => ∀ messages isStreaming,
      s.requests[request]? = some ⟨s.selection, .gotState messages isStreaming⟩ →
        s.Current identity messages
  | .restartServer =>
      (s.chat.isOpen = true → s.Untouched s.chat.cursor) ∧
        ∀ reply ∈ s.replies, reply.1 = s.selection → ∀ history, reply.2 = some history →
          s.Untouched history.cursor
  | .connect => s.nextCursor ≤ s.chat.cursor + maxBuffer
  | _ => True

variable {identity s} {s' : WebStream}

theorem build_append (events events' : List WebStreamEvent) :
    buildDisplayEntries (events ++ events') =
      events'.foldl addToDisplay (buildDisplayEntries events) := by
  rw [buildDisplayEntries, List.foldl_append]
  rfl

theorem shown_append_unheard {events later : List WebStreamEvent}
    (h : later.filter (·.heard) = []) : shown (events ++ later) = shown events := by
  rw [shown, build_append, foldl_unheard h]
  rfl

variable {events : List WebStreamEvent}

theorem shown_append_of_not_isMessage (h : ∀ line ∈ lines, isMessage line = false) :
    shown (events ++ lines.filterMap lineEvent) = shown events := by
  have hview : ∀ entries : List DisplayEntry,
      finished (lines.foldl addLine entries) = finished entries := by
    induction lines with
    | nil => exact fun _ => rfl
    | cons line lines ih =>
      intro entries
      obtain ⟨hline, hlines⟩ := List.forall_mem_cons.mp h
      rw [List.foldl_cons, ih hlines, finished_of_view (addLine_of_not_isMessage hline entries)]
  rw [shown, build_append, foldl_pipe]
  exact hview _

theorem shown_append_pipe (h : s.PipeInvariant)
    (hlive : ∀ role, s.Live role → Unfinished (buildDisplayEntries events) role) :
    shown (events ++ s.pipe) = shown events ++ s.stdout.flatMap lineEnds := by
  obtain ⟨last, hlast, -⟩ := h.brackets
  have hlines := foldl_addLine s.stdout hlast fun process role hreading hline =>
    hlive role ⟨process, hreading, Or.inl hline⟩
  rw [shown, build_append, pipe, foldl_pipe]
  exact hlines

theorem Invariant.nothingMissed (h : s.Invariant identity) : s.NothingMissed identity := by
  have hpromised : s.chat.isOpen = true →
      (s.origin ++ shown (s.chat.messages ++ s.appended.drop s.chat.cursor ++ s.pipe)).map
        identity = s.ended.map identity := by
    intro hopen
    obtain ⟨hcomplete, -⟩ := h.client hopen
    rw [shown_append_pipe h.pipe hcomplete.live, ← List.append_assoc, List.map_append,
      hcomplete.shown, ended, List.map_append]
  refine ⟨hpromised, fun lastCursor inFlight hsource => (h.connected _ _ hsource).2.2, ?_⟩
  intro lastCursor hsource hlines
  have hopen : s.chat.isOpen = true := h.source (by rw [hsource]; exact nofun)
  have habove := (h.connected _ _ hsource).2.2
  have hlater : (s.appended.drop s.chat.cursor).filter (·.heard) = [] := by
    rw [← map_event_numberedFrom s.chat.cursor (s.appended.drop s.chat.cursor), List.filter_map]
    exact List.map_eq_nil_iff.mpr habove.symm
  rw [← hpromised hopen, WebStream.pipe, shown_append_of_not_isMessage hlines, shown_append_unheard hlater]

/-! ## Steps that leave the stream -/

/-- Server and client are the same, apart from requests and replies. -/
structure SameStream (s s' : WebStream) : Prop where
  nextCursor : s'.nextCursor = s.nextCursor
  eventBuffer : s'.eventBuffer = s.eventBuffer
  appended : s'.appended = s.appended
  read : s'.read = s.read
  serverOrigin : s'.serverOrigin = s.serverOrigin
  origin : s'.origin = s.origin
  chat : s'.chat = s.chat
  source : s'.source = s.source
  selection : s'.selection = s.selection

theorem Complete.mono {origin : List AgentMessage} {cursor : Nat}
    (h : s.Complete identity origin events cursor) (happended : s'.appended = s.appended)
    (hread : s'.read = s.read) (hlive : ∀ role, s'.Live role → s.Live role) :
    s'.Complete identity origin events cursor := by
  refine ⟨?_, ?_, fun role hrole => ?_⟩
  · rw [happended]
    exact h.le
  · rw [happended, hread]
    exact h.shown
  · rw [happended]
    exact h.live role (hlive role hrole)

theorem Invariant.frame (h : s.Invariant identity) (hsame : SameStream s s')
    (hpipe : s'.PipeInvariant) (hlive : ∀ role, s'.Live role → s.Live role)
    (hrequests : ∀ request ∈ s'.requests, request.selection ≤ s.selection)
    (hreplies : ∀ reply ∈ s'.replies, reply ∈ s.replies ∨ reply.1 ≤ s.selection ∧
      (reply.1 = s.selection → ∀ history, reply.2 = some history →
        s.Complete identity [] history.events history.cursor)) :
    s'.Invariant identity := by
  have hmono : ∀ {origin events cursor}, s.Complete identity origin events cursor →
      s'.Complete identity origin events cursor := fun hcomplete =>
    hcomplete.mono hsame.appended hsame.read hlive
  refine ⟨hpipe, ?_, ?_, ?_, ?_, ?_, ?_, ?_, ?_⟩
  · rw [hsame.nextCursor, hsame.appended]
    exact h.cursor
  · rw [hsame.eventBuffer, hsame.appended]
    exact h.buffer
  · rw [hsame.serverOrigin]
    exact hmono h.server
  · rw [hsame.chat, hsame.origin]
    exact fun hopen => ⟨hmono (h.client hopen).1, (h.client hopen).2⟩
  · rw [hsame.source, hsame.chat]
    exact h.source
  · rw [hsame.selection]
    exact hrequests
  · rw [hsame.selection]
    intro reply hreply
    obtain hold | ⟨hle, hnew⟩ := hreplies reply hreply
    · obtain ⟨hle, hcomplete⟩ := h.replies reply hold
      exact ⟨hle, fun hselection history heq => hmono (hcomplete hselection history heq)⟩
    · exact ⟨hle, fun hselection history heq => hmono (hnew hselection history heq)⟩
  · rw [hsame.source, hsame.chat, heardAbove, hsame.appended]
    exact h.connected

end WebStream

end Eagent
