import Eagent.HistoryStream

/-!
# Runs of a web session

The invariant of `HistoryStream`, step by step.
-/

namespace Eagent

namespace WebStream

variable {κ : Type} {identity : AgentMessage → κ} {s s' : WebStream}

/-! ## The pipe -/

theorem foldlM_process {n : Nat} (lines : List ProcessLine) :
    ∀ {reading last : Option (Nat × EntryType)}, lines.foldlM lineProgress reading = some last →
      (∀ line ∈ lines, line.process < n) → (∀ x, reading = some x → x.1 < n) →
      ∀ x, last = some x → x.1 < n := by
  induction lines with
  | nil =>
    intro reading last h _ hreading
    obtain rfl := Option.some.inj h
    exact hreading
  | cons line lines ih =>
    intro reading last h hlines hreading
    obtain ⟨hline, hrest⟩ := List.forall_mem_cons.mp hlines
    rw [List.foldlM_cons] at h
    obtain ⟨next, hnext, hlast⟩ := Option.bind_eq_some_iff.mp h
    refine ih hlast hrest fun x hx => ?_
    cases hmessage : isMessage line with
    | true =>
      have hprocess : x.1 = line.process := by
        rw [isMessage] at hmessage
        rw [lineProgress] at hnext
        cases hevent : lineEvent line with
        | none =>
          rw [hevent] at hmessage
          cases hmessage
        | some event =>
          rw [hevent, Option.any_some] at hmessage
          rw [hevent] at hnext
          dsimp only at hnext
          rw [if_pos hmessage] at hnext
          obtain ⟨inProgress, -, rfl⟩ := Option.map_eq_some_iff.mp hnext
          obtain ⟨role, -, rfl⟩ := Option.map_eq_some_iff.mp hx
          rfl
      rw [hprocess]
      exact hline
    | false =>
      rw [lineProgress_of_not_isMessage hmessage] at hnext
      obtain rfl := Option.some.inj hnext
      exact hreading x hx

/-- The pipe is the same, and no process is new to it. -/
structure SamePipe (s s' : WebStream) : Prop where
  stdout : s'.stdout = s.stdout
  reading : s'.reading = s.reading
  processes : s'.processes = s.processes
  agent : ∀ agent', s'.agent = some agent' → ∃ agent, s.agent = some agent ∧
    agent'.process = agent.process ∧ agent'.inProgress = agent.inProgress

theorem SamePipe.active (h : SamePipe s s') {process : Nat} (hactive : s'.Active process) :
    s.Active process := by
  obtain hline | ⟨agent', hagent', rfl⟩ := hactive
  · exact Or.inl (h.stdout ▸ hline)
  · obtain ⟨agent, hagent, hprocess, -⟩ := h.agent agent' hagent'
    exact Or.inr ⟨agent, hagent, hprocess.symm⟩

theorem SamePipe.live (h : SamePipe s s') (role : EntryType) (hlive : s'.Live role) :
    s.Live role := by
  obtain ⟨process, hreading, hactive⟩ := hlive
  exact ⟨process, h.reading ▸ hreading, h.active hactive⟩

theorem SamePipe.pipe (h : SamePipe s s') (hpipe : s.PipeInvariant) : s'.PipeInvariant := by
  obtain ⟨last, hlast, hbrackets⟩ := hpipe.brackets
  refine ⟨fun process hactive => ?_, fun x hx => ?_, last, ?_, fun agent' hagent' => ?_⟩
  · rw [h.processes]
    exact hpipe.active process (h.active hactive)
  · rw [h.processes]
    exact hpipe.reading x (h.reading ▸ hx)
  · rw [h.stdout, h.reading]
    exact hlast
  · obtain ⟨agent, hagent, hprocess, hprogress⟩ := h.agent agent' hagent'
    rw [hprocess, hprogress]
    exact hbrackets agent hagent

theorem agent_update {agent agent' : AgentRuntime} (hagent : s.agent = some agent)
    (hprocess : agent'.process = agent.process) (hprogress : agent'.inProgress = agent.inProgress) :
    ∀ a', some agent' = some a' → ∃ a, s.agent = some a ∧ a'.process = a.process ∧
      a'.inProgress = a.inProgress := by
  intro a' ha'
  obtain rfl := Option.some.inj ha'
  exact ⟨agent, hagent, hprocess, hprogress⟩

theorem PipeInvariant.write {agent agent' : AgentRuntime} {output : ProcessOutput}
    (h : s.PipeInvariant) (hagent : s.agent = some agent)
    (hprocess : agent'.process = agent.process)
    (hline : ∀ last, progressOf agent.process last = agent.inProgress →
      ∃ next, lineProgress last ⟨agent.process, output⟩ = some next ∧
        progressOf agent.process next = agent'.inProgress) :
    PipeInvariant { s with
      agent := some agent', stdout := s.stdout ++ [⟨agent.process, output⟩] } := by
  obtain ⟨last, hlast, hbrackets⟩ := h.brackets
  obtain ⟨next, hnext, hprogress⟩ := hline last (hbrackets agent hagent)
  refine ⟨fun process hactive => h.active process ?_, h.reading, next, ?_, ?_⟩
  · obtain ⟨line, hmem, rfl⟩ | ⟨a, ha, rfl⟩ := hactive
    · obtain hmem | hmem := List.mem_append.mp hmem
      · exact Or.inl ⟨line, hmem, rfl⟩
      · obtain rfl := List.mem_singleton.mp hmem
        exact Or.inr ⟨agent, hagent, rfl⟩
    · obtain rfl := Option.some.inj ha
      exact Or.inr ⟨agent, hagent, hprocess.symm⟩
  · rw [List.foldlM_append, hlast]
    simpa using hnext
  · intro a ha
    obtain rfl := Option.some.inj ha
    rw [hprocess]
    exact hprogress

theorem live_write {agent agent' : AgentRuntime} {output : ProcessOutput}
    (hagent : s.agent = some agent) (hprocess : agent'.process = agent.process) :
    ∀ role, Live { s with
      agent := some agent', stdout := s.stdout ++ [⟨agent.process, output⟩] } role →
        s.Live role := by
  rintro role ⟨process, hreading, ⟨line, hmem, rfl⟩ | ⟨a, ha, rfl⟩⟩
  · refine ⟨_, hreading, ?_⟩
    obtain hmem | hmem := List.mem_append.mp hmem
    · exact Or.inl ⟨line, hmem, rfl⟩
    · obtain rfl := List.mem_singleton.mp hmem
      exact Or.inr ⟨agent, hagent, rfl⟩
  · obtain rfl := Option.some.inj ha
    exact ⟨_, hreading, Or.inr ⟨agent, hagent, hprocess.symm⟩⟩

/-! ## The agent's own steps -/

section

variable (h : s.Invariant identity)
include h

/-- The agent changes in what the pipe does not depend on. -/
theorem Invariant.keepPipe (hsame : SameStream s s') (hpipe : SamePipe s s')
    (hrequests : ∀ request ∈ s'.requests, request.selection ≤ s.selection)
    (hreplies : s'.replies = s.replies) : s'.Invariant identity :=
  h.frame hsame (hpipe.pipe h.pipe) hpipe.live hrequests fun _ hreply => Or.inl (hreplies ▸ hreply)

theorem Invariant.keepReplies (hsame : SameStream s s') (hpipe : s'.PipeInvariant)
    (hlive : ∀ role, s'.Live role → s.Live role)
    (hrequests : ∀ request ∈ s'.requests, request.selection ≤ s.selection)
    (hreplies : s'.replies = s.replies) : s'.Invariant identity :=
  h.frame hsame hpipe hlive hrequests fun _ hreply => Or.inl (hreplies ▸ hreply)

theorem Invariant.start {messages : List AgentMessage}
    (hstep : s.step (.start messages) = some s') : s'.Invariant identity := by
  rw [step] at hstep
  cases hagent : s.agent with
  | some agent =>
    rw [hagent] at hstep
    cases hstep
  | none =>
    rw [hagent] at hstep
    cases hstep
    have hactive : ∀ process, Active { s with
        agent := some { process := s.processes, messages }, processes := s.processes + 1 }
        process → s.Active process ∨ process = s.processes := by
      rintro process (hline | ⟨a, ha, rfl⟩)
      · exact Or.inl (Or.inl hline)
      · obtain rfl := Option.some.inj ha
        exact Or.inr rfl
    refine h.keepReplies ⟨rfl, rfl, rfl, rfl, rfl, rfl, rfl, rfl, rfl⟩ ⟨?_, ?_, ?_⟩ ?_
      h.requests rfl
    · intro process hprocess
      obtain hold | rfl := hactive process hprocess
      · exact Nat.lt_succ_of_lt (h.pipe.active process hold)
      · exact Nat.lt_succ_self _
    · exact fun x hx => Nat.lt_succ_of_lt (h.pipe.reading x hx)
    · obtain ⟨last, hlast, -⟩ := h.pipe.brackets
      refine ⟨last, hlast, fun a ha => ?_⟩
      obtain rfl := Option.some.inj ha
      have hprocess := foldlM_process s.stdout hlast
        (fun line hline => h.pipe.active _ (Or.inl ⟨line, hline, rfl⟩)) h.pipe.reading
      cases hprogress : progressOf s.processes last with
      | none => rfl
      | some role =>
        exact absurd (hprocess _ (progressOf_eq_some.mp hprogress)) (Nat.lt_irrefl _)
    · rintro role ⟨process, hreading, hprocess⟩
      obtain hold | rfl := hactive process hprocess
      · exact ⟨process, hreading, hold⟩
      · exact absurd (h.pipe.reading _ hreading) (Nat.lt_irrefl _)

theorem Invariant.exit :
    Invariant identity { s with agent := none } :=
  h.keepPipe ⟨rfl, rfl, rfl, rfl, rfl, rfl, rfl, rfl, rfl⟩
    ⟨rfl, rfl, rfl, fun _ hagent' => by cases hagent'⟩ h.requests rfl

theorem Invariant.setAgent {agent agent' : AgentRuntime} (hagent : s.agent = some agent)
    (hprocess : agent'.process = agent.process) (hprogress : agent'.inProgress = agent.inProgress) :
    Invariant identity { s with agent := some agent' } :=
  h.keepPipe ⟨rfl, rfl, rfl, rfl, rfl, rfl, rfl, rfl, rfl⟩
    ⟨rfl, rfl, rfl, agent_update hagent hprocess hprogress⟩ h.requests rfl

theorem Invariant.emit {event : WebStreamEvent} (hstep : s.emit event = some s') :
    s'.Invariant identity := by
  rw [WebStream.emit] at hstep
  cases hagent : s.agent with
  | none =>
    rw [hagent] at hstep
    cases hstep
  | some agent =>
    rw [hagent] at hstep
    obtain ⟨inProgress, hprogress, rfl⟩ := Option.map_eq_some_iff.mp hstep
    refine h.keepReplies ⟨rfl, rfl, rfl, rfl, rfl, rfl, rfl, rfl, rfl⟩
      (h.pipe.write hagent rfl ?_) (live_write hagent rfl) h.requests rfl
    intro last hlast
    rw [lineProgress]
    dsimp only [lineEvent]
    by_cases hphase : event.phase.isSome = true
    · rw [if_pos hphase, hlast, hprogress]
      refine ⟨_, rfl, ?_⟩
      cases inProgress with
      | none => rfl
      | some role => exact progressOf_eq_some.mpr rfl
    · rw [if_neg hphase]
      rw [WebStreamEvent.progress, Option.not_isSome_iff_eq_none.mp hphase] at hprogress
      exact ⟨last, rfl, hlast.trans (Option.some.inj hprogress)⟩

theorem Invariant.respond (hstep : s.respond = some s') :
    s'.Invariant identity := by
  rw [WebStream.respond] at hstep
  cases hagent : s.agent with
  | none =>
    rw [hagent] at hstep
    cases hstep
  | some agent =>
    rw [hagent] at hstep
    dsimp only at hstep
    cases hcommands : agent.commands with
    | nil =>
      rw [hcommands] at hstep
      cases hstep
    | cons command commands =>
      rw [hcommands] at hstep
      cases hstep
      refine h.keepReplies ⟨rfl, rfl, rfl, rfl, rfl, rfl, rfl, rfl, rfl⟩
        (h.pipe.write hagent rfl fun last hlast => ⟨last, ?_, hlast⟩)
        (live_write hagent rfl) h.requests rfl
      cases command <;> rfl

end

/-! ## Requests for the history -/

variable {request : Nat}

theorem selection_setPhase {phase : HistoryPhase}
    (h : ∀ r ∈ s.requests, r.selection ≤ s.selection) :
    ∀ r ∈ (s.setPhase request phase).requests, r.selection ≤ s.selection := by
  intro r hr
  obtain ⟨j, hj⟩ := List.mem_iff_getElem?.mp hr
  rw [setPhase, List.getElem?_modify] at hj
  obtain ⟨r', hr', rfl⟩ := Option.map_eq_some_iff.mp hj
  have hle := h r' (List.mem_of_getElem? hr')
  split <;> exact hle

theorem Invariant.ask (h : s.Invariant identity) (hstep : s.step (.ask request) = some s') :
    s'.Invariant identity := by
  rw [step] at hstep
  split at hstep
  · rename_i agent _ hagent
    cases hstep
    exact h.keepPipe ⟨rfl, rfl, rfl, rfl, rfl, rfl, rfl, rfl, rfl⟩
      ⟨rfl, rfl, rfl, agent_update hagent rfl rfl⟩ (selection_setPhase h.requests) rfl
  · cases hstep

theorem Invariant.respondHistory (h : s.Invariant identity) {history : Option WebSessionHistory}
    (hcomplete : ∀ r, s.requests[request]? = some r → r.selection = s.selection →
      ∀ given, history = some given → s.Complete identity [] given.events given.cursor) :
    (s.respondHistory request history).Invariant identity := by
  rw [WebStream.respondHistory]
  cases hrequest : s.requests[request]? with
  | none => exact h
  | some r =>
    have hpipe : SamePipe s { s.setPhase request .returned with
        replies := s.replies ++ [(r.selection, history)] } :=
      ⟨rfl, rfl, rfl, fun agent' hagent' => ⟨agent', hagent', rfl, rfl⟩⟩
    refine h.frame ⟨rfl, rfl, rfl, rfl, rfl, rfl, rfl, rfl, rfl⟩ (hpipe.pipe h.pipe) hpipe.live
      (selection_setPhase h.requests) fun reply hreply => ?_
    obtain hreply | hreply := List.mem_append.mp hreply
    · exact Or.inl hreply
    · obtain rfl := List.mem_singleton.mp hreply
      exact Or.inr ⟨h.requests r (List.mem_of_getElem? hrequest), hcomplete r hrequest⟩

theorem Invariant.refuse (h : s.Invariant identity) (request : Nat) :
    (s.respondHistory request none).Invariant identity :=
  h.respondHistory fun _ _ _ _ hnone => by cases hnone

theorem shown_traces (events : List WebStreamEvent) (traces : List Json) :
    shown (events ++ traces.map .traceEvent) = shown events := by
  have hsame : ∀ entries, (traces.map WebStreamEvent.traceEvent).foldl addToDisplay entries =
      entries := by
    induction traces with
    | nil => exact fun _ => rfl
    | cons trace traces ih => exact fun entries => ih entries
  rw [shown, build_append, hsame]
  rfl

theorem complete_history {messages : List AgentMessage} (hcurrent : s.Current identity messages)
    (hcursor : s.nextCursor = s.appended.length) (traces : List Json) :
    s.Complete identity [] (historyEventsFromMessages messages ++ traces.map .traceEvent)
      s.nextCursor := by
  obtain ⟨hsame, hlive⟩ := hcurrent
  refine ⟨Nat.le_of_eq hcursor, ?_, fun role hrole => absurd hrole (hlive role)⟩
  have hshown : shown (historyEventsFromMessages messages) = visible messages :=
    finished_historyEvents messages []
  rw [hcursor, List.drop_length, List.append_nil, shown_traces, hshown, List.nil_append]
  exact hsame

theorem Invariant.resume (h : s.Invariant identity) {traces : List Json}
    (hcond : s.Cond identity (.resume request traces)) (hstep : s.resume request traces = some s') :
    s'.Invariant identity := by
  rw [WebStream.resume] at hstep
  split at hstep
  · rename_i process messages agent _ hagent
    split at hstep
    · cases hstep
      exact h.keepPipe ⟨rfl, rfl, rfl, rfl, rfl, rfl, rfl, rfl, rfl⟩
        ⟨rfl, rfl, rfl, agent_update hagent rfl rfl⟩ (selection_setPhase h.requests) rfl
    · cases hstep
      exact h.refuse request
  · cases hstep
    exact h.refuse request
  · rename_i messages isStreaming hphase
    cases hstep
    refine h.respondHistory fun r hrequest hselection history hhistory => ?_
    obtain rfl := Option.some.inj hhistory
    refine complete_history (hcond messages isStreaming ?_) h.cursor traces
    rw [phase, hrequest] at hphase
    obtain ⟨selection, phase⟩ := r
    obtain rfl : selection = s.selection := hselection
    obtain rfl : phase = _ := Option.some.inj hphase
    exact hrequest
  · cases hstep

/-! ## Lines -/

theorem lineProgress_of_brackets {before after : List ProcessLine} {line : ProcessLine}
    {reading last : Option (Nat × EntryType)}
    (h : (before ++ line :: after).foldlM lineProgress reading = some last)
    (hbefore : isMessage line = true → ∀ earlier ∈ before, isMessage earlier = false) :
    ∃ next, lineProgress reading line = some next ∧
      (before ++ after).foldlM lineProgress next = some last := by
  rw [List.foldlM_append] at h
  obtain ⟨middle, hmiddle, h⟩ := Option.bind_eq_some_iff.mp h
  rw [List.foldlM_cons] at h
  obtain ⟨next, hnext, hlast⟩ := Option.bind_eq_some_iff.mp h
  cases hmessage : isMessage line with
  | true =>
    have hskip := foldlM_of_not_isMessage (hbefore hmessage)
    rw [hskip] at hmiddle
    obtain rfl := Option.some.inj hmiddle
    refine ⟨next, hnext, ?_⟩
    rw [List.foldlM_append, hskip]
    exact hlast
  | false =>
    rw [lineProgress_of_not_isMessage hmessage] at hnext
    obtain rfl := Option.some.inj hnext
    refine ⟨reading, lineProgress_of_not_isMessage hmessage reading, ?_⟩
    rw [List.foldlM_append, hmiddle]
    exact hlast

/-- `reading` after a line. -/
theorem reading_eq (line : ProcessLine) {event : WebStreamEvent}
    {reading next : Option (Nat × EntryType)} (hevent : lineEvent line = some event)
    (h : lineProgress reading line = some next) :
    (match event.phase with
      | none => reading
      | some (.finish, _) => none
      | some (_, role) => some (line.process, role)) = next := by
  rw [lineProgress, hevent] at h
  dsimp only at h
  cases hphase : event.phase with
  | none =>
    rw [hphase] at h
    exact Option.some.inj h
  | some x =>
    obtain ⟨phase, role⟩ := x
    rw [hphase, if_pos (show (some (phase, role)).isSome = true from rfl),
      WebStreamEvent.progress, hphase] at h
    cases phase with
    | start => exact Option.some.inj h
    | update =>
      dsimp only at h ⊢
      split at h
      · rename_i hrole
        rw [hrole] at h
        exact Option.some.inj h
      · cases h
    | finish =>
      dsimp only at h ⊢
      split at h
      · exact Option.some.inj h
      · cases h

/-- What the pipe is after a line was taken from it. -/
structure Taken (s s' : WebStream) (line : ProcessLine) : Prop where
  mem : line ∈ s.stdout
  subset : ∀ line' ∈ s'.stdout, line' ∈ s.stdout
  agent : s'.agent = s.agent
  processes : s'.processes = s.processes
  progress : lineProgress s.reading line = some s'.reading
  brackets : ∀ last, s.stdout.foldlM lineProgress s.reading = some last →
    s'.stdout.foldlM lineProgress s'.reading = some last

theorem Taken.active {line : ProcessLine} (h : Taken s s' line) {process : Nat}
    (hactive : s'.Active process) : s.Active process := by
  obtain ⟨line', hline', rfl⟩ | ⟨agent, hagent, rfl⟩ := hactive
  · exact Or.inl ⟨line', h.subset line' hline', rfl⟩
  · exact Or.inr ⟨agent, h.agent ▸ hagent, rfl⟩

theorem Taken.pipe {line : ProcessLine} (h : Taken s s' line) (hpipe : s.PipeInvariant) :
    s'.PipeInvariant := by
  obtain ⟨last, hlast, hbrackets⟩ := hpipe.brackets
  refine ⟨fun process hactive => ?_, ?_, last, h.brackets last hlast, ?_⟩
  · rw [h.processes]
    exact hpipe.active process (h.active hactive)
  · rw [h.processes]
    exact foldlM_process [line] (by simpa using h.progress)
      (fun line' hline' => hpipe.active _ (Or.inl ⟨line', by
        rw [List.mem_singleton.mp hline']; exact h.mem, rfl⟩)) hpipe.reading
  · rw [h.agent]
    exact hbrackets

variable {events : List WebStreamEvent} {origin : List AgentMessage} {cursor : Nat}

theorem Taken.complete {line : ProcessLine} {event : WebStreamEvent} (h : Taken s s' line)
    (hevent : lineEvent line = some event) (happended : s'.appended = s.appended ++ [event])
    (hread : s'.read = s.read ++ event.ends)
    (hcomplete : s.Complete identity origin events cursor) :
    s'.Complete identity origin events cursor := by
  have hends : lineEnds line = event.ends := by rw [lineEnds_eq, hevent]; rfl
  have hadd : addLine (buildDisplayEntries (events ++ s.appended.drop cursor)) line =
      buildDisplayEntries (events ++ s'.appended.drop cursor) := by
    rw [happended, List.drop_append_of_le_length hcomplete.le, ← List.append_assoc, build_concat,
      addLine, hevent]
    rfl
  have hstep : finished (buildDisplayEntries (events ++ s'.appended.drop cursor)) =
      finished (buildDisplayEntries (events ++ s.appended.drop cursor)) ++ event.ends ∧
      ∀ role, s'.Live role →
        Unfinished (buildDisplayEntries (events ++ s'.appended.drop cursor)) role := by
    rw [← hadd, ← hends]
    cases hmessage : isMessage line with
    | true =>
      obtain ⟨hfinished, hnext⟩ := addLine_of_isMessage hmessage h.progress fun role hreading =>
        hcomplete.live role ⟨line.process, hreading, Or.inl ⟨line, h.mem, rfl⟩⟩
      refine ⟨hfinished, ?_⟩
      rintro role ⟨process, hreading, -⟩
      exact (hnext _ hreading).2
    | false =>
      have hview := addLine_of_not_isMessage hmessage
        (buildDisplayEntries (events ++ s.appended.drop cursor))
      rw [finished_of_view hview, lineEnds_of_not_isMessage hmessage, List.append_nil]
      refine ⟨rfl, ?_⟩
      rintro role ⟨process, hreading, hactive⟩
      refine unfinished_of_view hview ?_
      have hsame := h.progress
      rw [lineProgress_of_not_isMessage hmessage] at hsame
      exact hcomplete.live role
        ⟨process, (Option.some.inj hsame).trans hreading, h.active hactive⟩
  refine ⟨?_, ?_, hstep.2⟩
  · rw [happended, List.length_append]
    exact Nat.le_trans hcomplete.le (Nat.le_add_right _ _)
  · have hshown : shown (events ++ s'.appended.drop cursor) =
        shown (events ++ s.appended.drop cursor) ++ event.ends := hstep.1
    rw [hshown, hread, ← List.append_assoc, List.map_append, hcomplete.shown, List.map_append]

theorem buffer_append {limit : Nat} (hlimit : 0 < limit) (appended : List WebStreamEvent)
    (event : WebStreamEvent) {buffer : List BufferedWebStreamEvent}
    (h : buffer = (numberedFrom 0 appended).drop (appended.length - limit) ++
      [⟨appended.length + 1, event⟩]) :
    (if buffer.length > limit then buffer.drop 1 else buffer) =
      (numberedFrom 0 (appended ++ [event])).drop (appended.length + 1 - limit) := by
  have hnumbered : numberedFrom 0 (appended ++ [event]) =
      numberedFrom 0 appended ++ [⟨appended.length + 1, event⟩] := by
    rw [numberedFrom_append, Nat.zero_add]
    rfl
  have hle : appended.length - limit ≤ (numberedFrom 0 appended).length := by
    rw [length_numberedFrom]
    exact Nat.sub_le _ _
  have hlength : buffer.length = appended.length - (appended.length - limit) + 1 := by
    rw [h, List.length_append, List.length_drop, length_numberedFrom]
    rfl
  rw [hnumbered]
  split
  · have hsum : appended.length + 1 - limit = appended.length - limit + 1 := by omega
    rw [hsum, ← List.drop_drop, List.drop_append_of_le_length hle, h]
  · have hzero : appended.length + 1 - limit = appended.length - limit := by omega
    rw [hzero, List.drop_append_of_le_length hle, h]

theorem heardAbove_append {event : WebStreamEvent} (happended : s'.appended = s.appended ++ [event])
    (hle : cursor ≤ s.appended.length) :
    s'.heardAbove cursor = s.heardAbove cursor ++
      [(⟨s.appended.length + 1, event⟩ : BufferedWebStreamEvent)].filter (·.event.heard) := by
  rw [heardAbove, heardAbove, happended, List.drop_append_of_le_length hle, numberedFrom_append,
    List.filter_append, List.length_drop, Nat.add_sub_cancel' hle]
  rfl

variable {source : EventSource}

theorem sendEvent_connected {item : BufferedWebStreamEvent} {lastCursor : Nat}
    {inFlight : List BufferedWebStreamEvent}
    (h : source.sendEvent item = .connected lastCursor inFlight) :
    ∃ lastCursor' inFlight', source = .connected lastCursor' inFlight' ∧
      (lastCursor' < item.cursor → lastCursor = item.cursor ∧ inFlight = inFlight' ++ [item]) := by
  cases source with
  | closed => cases h
  | connecting => cases h
  | connected lastCursor' inFlight' =>
    refine ⟨lastCursor', inFlight', rfl, fun hlt => ?_⟩
    rw [EventSource.sendEvent, if_neg (Nat.not_le.mpr hlt)] at h
    cases h
    exact ⟨rfl, rfl⟩

theorem sendEvent_closed {item : BufferedWebStreamEvent} (h : source.sendEvent item ≠ .closed) :
    source ≠ .closed := by
  rintro rfl
  exact h rfl

/-- `appendEvent`, for the invariant. -/
structure Appended (s s' : WebStream) (event : WebStreamEvent) : Prop where
  nextCursor : s'.nextCursor = s.nextCursor + 1
  eventBuffer : s'.eventBuffer =
    let buffer : List BufferedWebStreamEvent := s.eventBuffer ++ [⟨s.nextCursor + 1, event⟩]
    if buffer.length > maxBuffer then buffer.drop 1 else buffer
  source : s'.source = s.source.sendEvent ⟨s.nextCursor + 1, event⟩
  appended : s'.appended = s.appended ++ [event]
  read : s'.read = s.read ++ event.ends
  serverOrigin : s'.serverOrigin = s.serverOrigin
  origin : s'.origin = s.origin
  chat : s'.chat = s.chat
  selection : s'.selection = s.selection
  requests : s'.requests = s.requests
  replies : s'.replies = s.replies

theorem Invariant.event (h : s.Invariant identity) {line : ProcessLine} {event : WebStreamEvent}
    (htaken : Taken s s' line) (hevent : lineEvent line = some event)
    (happended : Appended s s' event) : s'.Invariant identity := by
  have hmono : ∀ {origin events cursor}, s.Complete identity origin events cursor →
      s'.Complete identity origin events cursor := fun hcomplete =>
    htaken.complete hevent happended.appended happended.read hcomplete
  have hlength : s'.appended.length = s.appended.length + 1 := by
    rw [happended.appended, List.length_append, List.length_singleton]
  refine ⟨htaken.pipe h.pipe, ?_, ?_, ?_, ?_, ?_, ?_, ?_, ?_⟩
  · rw [happended.nextCursor, h.cursor, hlength]
  · rw [happended.eventBuffer, hlength, happended.appended]
    have hmax : 0 < maxBuffer := by decide
    refine buffer_append hmax s.appended event ?_
    rw [h.buffer, h.cursor]
  · rw [happended.serverOrigin]
    exact hmono h.server
  · rw [happended.chat, happended.origin]
    exact fun hopen => ⟨hmono (h.client hopen).1, (h.client hopen).2⟩
  · rw [happended.source, happended.chat]
    exact fun hsource => h.source (sendEvent_closed hsource)
  · rw [happended.requests, happended.selection]
    exact h.requests
  · rw [happended.replies, happended.selection]
    intro reply hreply
    obtain ⟨hle, hcomplete⟩ := h.replies reply hreply
    exact ⟨hle, fun hselection history heq => hmono (hcomplete hselection history heq)⟩
  · rw [happended.source, happended.chat]
    intro lastCursor inFlight hsource
    obtain ⟨lastCursor', inFlight', hold, hsent⟩ := sendEvent_connected hsource
    obtain ⟨hlast, hpos, habove⟩ := h.connected lastCursor' inFlight' hold
    obtain ⟨rfl, rfl⟩ := hsent (by rw [hlast, h.cursor]; exact Nat.lt_succ_self _)
    have hle := (h.client (h.source (by rw [hold]; exact nofun))).1.le
    refine ⟨by rw [hlength, h.cursor], fun item hitem => ?_, ?_⟩
    · obtain hitem | hitem := List.mem_append.mp hitem
      · exact hpos item hitem
      · rw [List.mem_singleton.mp hitem]
        exact Nat.succ_pos _
    rw [List.filter_append, habove, heardAbove_append happended.appended hle, h.cursor]
    refine congrArg (s.heardAbove s.chat.cursor ++ ·) (List.filter_congr fun item hmem => ?_)
    obtain rfl := List.mem_singleton.mp hmem
    rw [decide_eq_true (Nat.lt_succ_of_le hle), Bool.true_and]

variable {index : Nat}

theorem taken_line (h : s.PipeInvariant) {line : ProcessLine} (hline : s.stdout[index]? = some line)
    (hcond : isMessage line = true → ∀ earlier ∈ s.stdout.take index, isMessage earlier = false) :
    ∃ next, lineProgress s.reading line = some next ∧
      ∀ s' : WebStream, s'.stdout = s.stdout.eraseIdx index → s'.agent = s.agent →
        s'.processes = s.processes → s'.reading = next → Taken s s' line := by
  obtain ⟨hlt, hget⟩ := List.getElem?_eq_some_iff.mp hline
  have hsplit : s.stdout = s.stdout.take index ++ line :: s.stdout.drop (index + 1) := by
    rw [← hget, ← List.drop_eq_getElem_cons hlt, List.take_append_drop]
  obtain ⟨last, hlast, -⟩ := h.brackets
  have hbrackets := hlast
  rw [hsplit] at hbrackets
  obtain ⟨next, hnext, hrest⟩ := lineProgress_of_brackets hbrackets hcond
  rw [← List.eraseIdx_eq_take_drop_succ] at hrest
  refine ⟨next, hnext, fun s' hstdout hagent hprocesses hreading =>
    ⟨List.mem_of_getElem? hline, fun line' hline' => ?_, hagent, hprocesses, ?_, ?_⟩⟩
  · rw [hstdout] at hline'
    exact List.mem_of_mem_eraseIdx hline'
  · rw [hreading]
    exact hnext
  · intro last' hlast'
    rw [hstdout, hreading, hrest]
    exact hlast.symm.trans hlast'

theorem Invariant.response (h : s.Invariant identity) {line : ProcessLine}
    (htaken : Taken s s' line) (hevent : lineEvent line = none) (hsame : SameStream s s')
    (hrequests : ∀ request ∈ s'.requests, request.selection ≤ s.selection)
    (hreplies : s'.replies = s.replies) : s'.Invariant identity := by
  refine h.keepReplies hsame (htaken.pipe h.pipe) ?_ hrequests hreplies
  rintro role ⟨process, hreading, hactive⟩
  have hprogress := htaken.progress
  rw [lineProgress, hevent] at hprogress
  exact ⟨process, (Option.some.inj hprogress).trans hreading, htaken.active hactive⟩

theorem Invariant.handleLine (h : s.Invariant identity) {line : ProcessLine}
    (hline : s.stdout[index]? = some line)
    (hcond : isMessage line = true → ∀ earlier ∈ s.stdout.take index, isMessage earlier = false) :
    Invariant identity
      (WebStream.handleLine { s with stdout := s.stdout.eraseIdx index } line) := by
  obtain ⟨next, hnext, htaken⟩ := taken_line h.pipe hline hcond
  obtain ⟨process, output⟩ := line
  cases output with
  | event event =>
    have hreading := reading_eq ⟨process, .event event⟩ rfl hnext
    refine h.event (htaken _ rfl rfl rfl ?_) rfl
      ⟨rfl, rfl, rfl, rfl, rfl, rfl, rfl, rfl, rfl, rfl, rfl⟩
    exact hreading
  | messages request messages =>
    obtain rfl : s.reading = next := Option.some.inj hnext
    rw [WebStream.handleLine]
    dsimp only
    split
    · split
      · exact h.response (htaken _ rfl rfl rfl rfl) rfl
          ⟨rfl, rfl, rfl, rfl, rfl, rfl, rfl, rfl, rfl⟩ (selection_setPhase h.requests) rfl
      · exact h.response (htaken _ rfl rfl rfl rfl) rfl
          ⟨rfl, rfl, rfl, rfl, rfl, rfl, rfl, rfl, rfl⟩ h.requests rfl
    · exact h.response (htaken _ rfl rfl rfl rfl) rfl
        ⟨rfl, rfl, rfl, rfl, rfl, rfl, rfl, rfl, rfl⟩ h.requests rfl
  | state request isStreaming =>
    obtain rfl : s.reading = next := Option.some.inj hnext
    rw [WebStream.handleLine]
    dsimp only
    split
    · split
      · exact h.response (htaken _ rfl rfl rfl rfl) rfl
          ⟨rfl, rfl, rfl, rfl, rfl, rfl, rfl, rfl, rfl⟩ (selection_setPhase h.requests) rfl
      · exact h.response (htaken _ rfl rfl rfl rfl) rfl
          ⟨rfl, rfl, rfl, rfl, rfl, rfl, rfl, rfl, rfl⟩ h.requests rfl
    · exact h.response (htaken _ rfl rfl rfl rfl) rfl
        ⟨rfl, rfl, rfl, rfl, rfl, rfl, rfl, rfl, rfl⟩ h.requests rfl

theorem Invariant.line (h : s.Invariant identity) (hcond : s.Cond identity (.line index))
    (hstep : s.takeLine index = some s') :
    s'.Invariant identity := by
  rw [takeLine] at hstep
  cases hline : s.stdout[index]? with
  | none =>
    rw [hline] at hstep
    cases hstep
  | some line =>
    rw [hline] at hstep
    dsimp only at hstep
    split at hstep
    · cases hstep
    · cases hstep
      exact h.handleLine hline (hcond line hline)

/-! ## The server and the client -/

theorem shown_append_of_phase {events later : List WebStreamEvent}
    (h : ∀ event ∈ later, event.phase = none) : shown (events ++ later) = shown events := by
  have hview : ∀ entries, finished (later.foldl addToDisplay entries) = finished entries := by
    induction later with
    | nil => exact fun _ => rfl
    | cons event later ih =>
      intro entries
      obtain ⟨hevent, hlater⟩ := List.forall_mem_cons.mp h
      rw [List.foldl_cons, ih hlater, finished_of_view (view_addToDisplay hevent entries)]
  rw [shown, build_append]
  exact hview _

theorem not_live_restartServer (role : EntryType) : ¬ s.restartServer.Live role := by
  rintro ⟨process, -, ⟨line, hline, -⟩ | ⟨agent, hagent, -⟩⟩
  · exact absurd hline List.not_mem_nil
  · cases hagent

theorem Complete.restartServer (h : s.Complete identity origin events cursor)
    (huntouched : s.Untouched cursor) : s.restartServer.Complete identity origin events cursor := by
  obtain ⟨rfl, happended, hstdout⟩ := huntouched
  refine ⟨Nat.le_refl _, ?_, fun role hlive => absurd hlive (not_live_restartServer role)⟩
  have hshown := h.shown
  rw [List.drop_zero, shown_append_of_phase happended] at hshown
  have hread : s.restartServer.read = s.read := by
    show s.read ++ s.stdout.flatMap lineEnds = s.read
    rw [ends_of_not_isMessage hstdout, List.append_nil]
  have hnone : s.restartServer.appended.drop 0 = [] := rfl
  rw [hread, hnone, List.append_nil]
  exact hshown

theorem Invariant.restartServer (h : s.Invariant identity)
    (hcond : s.Cond identity .restartServer) : s.restartServer.Invariant identity := by
  obtain ⟨hclient, hreplies⟩ := hcond
  refine ⟨⟨?_, h.pipe.reading, s.reading, rfl, fun _ hagent => by cases hagent⟩, rfl,
    List.drop_nil.symm,
    ⟨Nat.le_refl _, congrArg _ (List.append_nil _), fun role hlive =>
      absurd hlive (not_live_restartServer role)⟩, ?_, ?_, ?_, ?_, ?_⟩
  · rintro process (⟨line, hline, -⟩ | ⟨agent, hagent, -⟩)
    · exact absurd hline List.not_mem_nil
    · cases hagent
  · exact fun hopen => ⟨(h.client hopen).1.restartServer (hclient hopen), (h.client hopen).2⟩
  · intro hsource
    refine h.source fun hclosed => hsource ?_
    rw [WebStream.restartServer, hclosed]
  · intro request hrequest
    obtain ⟨old, hold, rfl⟩ := List.mem_map.mp hrequest
    exact h.requests old hold
  · intro reply hreply
    obtain hreply | hreply := List.mem_append.mp hreply
    · obtain ⟨hle, hcomplete⟩ := h.replies reply hreply
      exact ⟨hle, fun hselection history heq =>
        (hcomplete hselection history heq).restartServer (hreplies reply hreply hselection _ heq)⟩
    · obtain ⟨request, hrequest, rfl⟩ := List.mem_map.mp hreply
      exact ⟨h.requests request (List.mem_filter.mp hrequest).1,
        fun _ history hnone => by cases hnone⟩
  · intro lastCursor inFlight hsource
    have hconnecting : s.restartServer.source ≠ .connected lastCursor inFlight := by
      rw [WebStream.restartServer]
      cases s.source <;> exact EventSource.noConfusion
    exact absurd hsource hconnecting

theorem Invariant.reset (h : s.Invariant identity) {requests : List HistoryRequest}
    (hrequests : ∀ request ∈ requests, request.selection ≤ s.selection + 1) :
    (s.reset requests).Invariant identity := by
  have hpipe : SamePipe s (s.reset requests) :=
    ⟨rfl, rfl, rfl, fun agent' hagent' => ⟨agent', hagent', rfl, rfl⟩⟩
  refine ⟨hpipe.pipe h.pipe, h.cursor, h.buffer, h.server.mono rfl rfl hpipe.live,
    fun hopen => (by cases hopen), fun hsource => absurd rfl hsource, hrequests, ?_,
    fun _ _ hsource => (by cases hsource)⟩
  intro reply hreply
  have hle := (h.replies reply hreply).1
  refine ⟨Nat.le_succ_of_le hle, fun hselection => ?_⟩
  have hselection' : reply.1 = s.selection + 1 := hselection
  omega

variable {chat : ChatState}

/-- A client that is opened on complete events. -/
theorem Invariant.load (h : s.Invariant identity) {replies : List (Nat × Option WebSessionHistory)}
    (hreplies : ∀ reply ∈ replies, reply ∈ s.replies)
    (hcomplete : s.Complete identity origin chat.messages chat.cursor) (hopen : chat.isOpen = true)
    (hstream : chat.streamCursor ≤ chat.cursor) :
    Invariant identity { s with replies, chat, source := .connecting, origin } := by
  have hpipe : SamePipe s { s with replies, chat, source := .connecting, origin } :=
    ⟨rfl, rfl, rfl, fun agent' hagent' => ⟨agent', hagent', rfl, rfl⟩⟩
  refine ⟨hpipe.pipe h.pipe, h.cursor, h.buffer, h.server.mono rfl rfl hpipe.live,
    fun _ => ⟨hcomplete.mono rfl rfl hpipe.live, hstream⟩, fun _ => hopen, h.requests,
    fun reply hreply => ?_, fun _ _ hsource => (by cases hsource)⟩
  obtain ⟨hle, hold⟩ := h.replies reply (hreplies reply hreply)
  exact ⟨hle, fun hselection history heq =>
    (hold hselection history heq).mono rfl rfl hpipe.live⟩

theorem Invariant.handleReply (h : s.Invariant identity) {selection : Nat}
    {history : Option WebSessionHistory} (hreply : s.replies[index]? = some (selection, history)) :
    Invariant identity
      (WebStream.handleReply { s with replies := s.replies.eraseIdx index } selection history) := by
  have hmem := List.mem_of_getElem? hreply
  have hreplies : ∀ reply ∈ s.replies.eraseIdx index, reply ∈ s.replies := fun reply =>
    List.mem_of_mem_eraseIdx
  unfold WebStream.handleReply
  split
  · have hpipe : SamePipe s { s with replies := s.replies.eraseIdx index } :=
      ⟨rfl, rfl, rfl, fun agent' hagent' => ⟨agent', hagent', rfl, rfl⟩⟩
    exact h.frame ⟨rfl, rfl, rfl, rfl, rfl, rfl, rfl, rfl, rfl⟩ (hpipe.pipe h.pipe) hpipe.live
      h.requests fun reply hreply => Or.inl (hreplies reply hreply)
  · rename_i hselection
    have hsame : selection = s.selection := not_not.mp hselection
    cases history with
    | some history =>
      exact h.load hreplies ((h.replies _ hmem).2 hsame history rfl) rfl (Nat.le_refl _)
    | none => exact h.load hreplies h.server rfl (Nat.le_refl _)

/-! ## The stream of the client -/

theorem Invariant.stream (h : s.Invariant identity) (hchat : chat.isOpen = true)
    (hcomplete : s.Complete identity s.origin chat.messages chat.cursor)
    (hstream : chat.streamCursor ≤ chat.cursor)
    (hconnected : ∀ lastCursor inFlight, source = .connected lastCursor inFlight →
      lastCursor = s.appended.length ∧ (∀ item ∈ inFlight, 0 < item.cursor) ∧
        (inFlight.filter fun item => item.cursor > chat.cursor && item.event.heard) =
          s.heardAbove chat.cursor) :
    Invariant identity { s with source, chat } := by
  have hpipe : SamePipe s { s with source, chat } :=
    ⟨rfl, rfl, rfl, fun agent' hagent' => ⟨agent', hagent', rfl, rfl⟩⟩
  refine ⟨hpipe.pipe h.pipe, h.cursor, h.buffer, h.server.mono rfl rfl hpipe.live,
    fun _ => ⟨hcomplete.mono rfl rfl hpipe.live, hstream⟩, fun _ => hchat, h.requests,
    fun reply hreply => ?_, hconnected⟩
  obtain ⟨hle, hold⟩ := h.replies reply hreply
  exact ⟨hle, fun hselection history heq =>
    (hold hselection history heq).mono rfl rfl hpipe.live⟩

theorem filter_above {k c : Nat} (h : k ≤ c) :
    ((numberedFrom k events).filter fun item => item.cursor > c && item.event.heard) =
      (numberedFrom c (events.drop (c - k))).filter (·.event.heard) := by
  have hfilter := filter_numberedFrom k c events
  rw [Nat.max_eq_right h] at hfilter
  rw [← hfilter, List.filter_filter]
  exact List.filter_congr fun item _ => Bool.and_comm _ _

theorem addClient_connected (h : s.Invariant identity) (hopen : s.chat.isOpen = true)
    (hcapacity : s.nextCursor ≤ s.chat.cursor + maxBuffer) {lastCursor : Nat}
    {inFlight : List BufferedWebStreamEvent}
    (hsource : s.addClient s.chat.streamCursor = .connected lastCursor inFlight) :
    lastCursor = s.appended.length ∧ (∀ item ∈ inFlight, 0 < item.cursor) ∧
      (inFlight.filter fun item => item.cursor > s.chat.cursor && item.event.heard) =
        s.heardAbove s.chat.cursor := by
  obtain ⟨hcomplete, hstream⟩ := h.client hopen
  have hle := hcomplete.le
  rw [h.cursor] at hcapacity
  rw [addClient, getEventBuffer, h.buffer, drop_numberedFrom, Nat.zero_add, filter_numberedFrom,
    List.drop_drop] at hsource
  have hlimit : 0 < maxBuffer := by decide
  generalize maxBuffer = limit at hcapacity hsource hlimit
  have hindex : s.appended.length - limit +
      (s.chat.streamCursor - (s.appended.length - limit)) =
        max (s.appended.length - limit) s.chat.streamCursor := by omega
  have hbehind : max (s.appended.length - limit) s.chat.streamCursor ≤ s.chat.cursor := by omega
  rw [hindex, foldl_sendEvent _ _ (Nat.le_max_right _ _), List.nil_append] at hsource
  generalize hm : max (s.appended.length - limit) s.chat.streamCursor = m at hsource hbehind
  cases hsource
  refine ⟨?_, fun item hitem => Nat.zero_lt_of_lt (lt_of_mem_numberedFrom item hitem), ?_⟩
  · split
    · rename_i hnil
      have hend := List.drop_eq_nil_iff.mp hnil
      omega
    · rw [List.length_drop]
      omega
  · rw [filter_above hbehind, List.drop_drop, Nat.add_sub_cancel' hbehind]
    rfl

theorem Invariant.connect (h : s.Invariant identity) (hcond : s.Cond identity .connect)
    (hstep : s.step .connect = some s') : s'.Invariant identity := by
  rw [step] at hstep
  split at hstep
  · rename_i hsource _
    cases hstep
    have hopen := h.source (by rw [hsource]; exact nofun)
    obtain ⟨hcomplete, hstream⟩ := h.client hopen
    exact h.stream hopen hcomplete hstream fun _ _ hconnected =>
      addClient_connected h hopen hcond hconnected
  · cases hstep

theorem Invariant.disconnect (h : s.Invariant identity)
    (hstep : s.step .disconnect = some s') : s'.Invariant identity := by
  rw [step] at hstep
  split at hstep
  · rename_i lastCursor inFlight hsource
    cases hstep
    have hopen := h.source (by rw [hsource]; exact nofun)
    obtain ⟨hcomplete, hstream⟩ := h.client hopen
    exact h.stream hopen hcomplete hstream fun _ _ hconnected => by cases hconnected
  · cases hstep

theorem handleEvent_next (event : WebStreamEvent) (h : chat.cursor < cursor) :
    (chat.handleEvent event cursor).cursor = cursor ∧
      (chat.handleEvent event cursor).streamCursor = chat.streamCursor ∧
      (chat.handleEvent event cursor).isOpen = chat.isOpen ∧
      ∀ later, buildDisplayEntries ((chat.handleEvent event cursor).messages ++ later) =
        buildDisplayEntries (chat.messages ++ event :: later) := by
  unfold ChatState.handleEvent
  rw [if_neg (fun hold => Nat.not_le.mpr h hold.2)]
  have hmax : max chat.cursor cursor = cursor := Nat.max_eq_right (Nat.le_of_lt h)
  split
  · refine ⟨hmax, rfl, rfl, fun later => ?_⟩
    rw [build_append, build_append]
    rfl
  · exact ⟨hmax, rfl, rfl, fun later => congrArg _ (List.append_assoc _ [event] later)⟩

theorem Invariant.deliver (h : s.Invariant identity) (hstep : s.step .deliver = some s') :
    s'.Invariant identity := by
  rw [step] at hstep
  split at hstep
  · rename_i lastCursor item inFlight hsource
    cases hstep
    have hopen := h.source (by rw [hsource]; exact nofun)
    obtain ⟨hcomplete, hstream⟩ := h.client hopen
    obtain ⟨hlast, hpos, habove⟩ := h.connected _ _ hsource
    obtain ⟨hitem, hlater⟩ := List.forall_mem_cons.mp hpos
    by_cases hnext : s.chat.cursor < item.cursor ∧ item.event.heard = true
    · obtain ⟨hlt, hheard⟩ := hnext
      obtain ⟨hcursor, hsame, hopen', hbuild⟩ := handleEvent_next item.event hlt
      rw [List.filter_cons_of_pos (by simp [hlt, hheard])] at habove
      obtain ⟨skipped, later, hevents, hskipped, hnumber, hrest⟩ := first_heard habove.symm
      have hlength := congrArg List.length hevents
      rw [List.length_drop, List.length_append, List.length_cons] at hlength
      have hdrop : s.appended.drop item.cursor = later := by
        rw [hnumber, Nat.add_assoc, ← List.drop_drop, hevents, ← List.drop_drop, List.drop_left]
        rfl
      have hshow : buildDisplayEntries ((s.chat.handleEvent item.event item.cursor).messages ++
            s.appended.drop item.cursor) =
          buildDisplayEntries (s.chat.messages ++ s.appended.drop s.chat.cursor) := by
        rw [hdrop, hbuild, hevents, build_append, build_append, List.foldl_append,
          foldl_unheard hskipped]
      rw [if_pos (of_decide_eq_true hheard)]
      refine h.stream (hopen'.trans hopen) ⟨?_, ?_, ?_⟩ ?_ ?_
      · rw [hcursor]
        omega
      · rw [hcursor, shown, hshow]
        exact hcomplete.shown
      · rw [hcursor, hshow]
        exact hcomplete.live
      · rw [hcursor, hsame]
        exact Nat.le_of_lt (Nat.lt_of_le_of_lt hstream hlt)
      · intro lastCursor' inFlight' hconnected
        cases hconnected
        refine ⟨hlast, hlater, ?_⟩
        rw [hcursor, heardAbove, hdrop, ← hrest]
        have hall : ∀ next ∈ inFlight.filter
            (fun item => item.cursor > s.chat.cursor && item.event.heard),
            decide (next.cursor > item.cursor) = true := by
          intro next hmem
          rw [hrest] at hmem
          exact decide_eq_true (lt_of_mem_numberedFrom next (List.mem_filter.mp hmem).1)
        rw [← List.filter_eq_self.mpr hall, List.filter_filter]
        refine List.filter_congr fun next _ => ?_
        by_cases habove' : next.cursor > item.cursor
        · simp [habove', Nat.lt_trans hlt habove']
        · simp [habove']
    · have hchat : (if item.event.type ∈ eventTypes then
          s.chat.handleEvent item.event item.cursor else s.chat) = s.chat := by
        split
        · rename_i htype
          have hold : item.cursor ≤ s.chat.cursor := Nat.not_lt.mp fun hlt =>
            hnext ⟨hlt, decide_eq_true htype⟩
          unfold ChatState.handleEvent
          rw [if_pos ⟨hitem, hold⟩]
        · rfl
      rw [hchat]
      refine h.stream hopen hcomplete hstream fun lastCursor' inFlight' hconnected => ?_
      cases hconnected
      refine ⟨hlast, hlater, ?_⟩
      rw [List.filter_cons_of_neg (by simpa using hnext)] at habove
      exact habove
  · cases hstep

/-! ## Runs -/

/-- A session with what had ended before the server started. -/
def initial (before : List AgentMessage) : WebStream := { read := before, serverOrigin := before }

theorem invariant_initial (before : List AgentMessage) : (initial before).Invariant identity := by
  have hlive : ∀ role, ¬ (initial before).Live role := by
    rintro role ⟨process, hreading, -⟩
    cases hreading
  refine ⟨⟨?_, (fun _ hx => by cases hx), none, rfl, fun _ hagent => by cases hagent⟩, rfl,
    List.drop_nil.symm, ⟨Nat.le_refl _, congrArg _ (List.append_nil _), fun role hrole =>
      absurd hrole (hlive role)⟩, (fun hopen => by cases hopen), fun hsource => absurd rfl hsource,
    (fun _ h => absurd h List.not_mem_nil), (fun _ h => absurd h List.not_mem_nil),
    fun _ _ hsource => by cases hsource⟩
  rintro process (⟨line, hline, -⟩ | ⟨agent, hagent, -⟩)
  · exact absurd hline List.not_mem_nil
  · cases hagent

theorem Invariant.step (h : s.Invariant identity) {act : WebStreamAct}
    (hcond : s.Cond identity act) (hstep : s.step act = some s') : s'.Invariant identity := by
  cases act with
  | start messages => exact h.start hstep
  | setMessages messages =>
    obtain ⟨agent, hagent, rfl⟩ := Option.map_eq_some_iff.mp hstep
    exact h.setAgent hagent rfl rfl
  | setStreaming isStreaming =>
    obtain ⟨agent, hagent, rfl⟩ := Option.map_eq_some_iff.mp hstep
    exact h.setAgent hagent rfl rfl
  | emit event => exact h.emit hstep
  | respond => exact h.respond hstep
  | exit =>
    obtain ⟨agent, -, rfl⟩ := Option.map_eq_some_iff.mp hstep
    exact h.exit
  | line index => exact h.line hcond hstep
  | ask request => exact h.ask hstep
  | refuse request =>
    rw [WebStream.step] at hstep
    split at hstep
    · cases hstep
      exact h.refuse request
    · cases hstep
      exact h.refuse request
    · cases hstep
      exact h.refuse request
    · cases hstep
  | resume request traces => exact h.resume hcond hstep
  | restartServer =>
    cases hstep
    exact h.restartServer hcond
  | selectSession =>
    cases hstep
    refine h.reset fun request hrequest => ?_
    obtain hrequest | hrequest := List.mem_append.mp hrequest
    · exact Nat.le_succ_of_le (h.requests request hrequest)
    · exact Nat.le_of_eq (congrArg _ (List.mem_singleton.mp hrequest))
  | leaveSession =>
    cases hstep
    exact h.reset fun request hrequest => Nat.le_succ_of_le (h.requests request hrequest)
  | reply index =>
    rw [WebStream.step] at hstep
    split at hstep
    · cases hstep
    · rename_i selection history hreply
      cases hstep
      exact h.handleReply hreply
  | connect => exact h.connect hcond hstep
  | disconnect => exact h.disconnect hstep
  | deliver => exact h.deliver hstep

/-- In every state the client has, or is about to get, each message once. -/
theorem nothing_missed (identity : AgentMessage → κ) (before : List AgentMessage)
    (h : Machine.Reaches step (Cond identity) (initial before) s) : s.NothingMissed identity :=
  (h.invariant (invariant_initial before) fun _ _ _ hs hcond hstep =>
    hs.step hcond hstep).nothingMissed

def hello : AgentMessage := .user { content := some (.string "hello"), timestamp := 0 }

/-- A session is opened, then a message comes. -/
theorem message_shown :
    ∃ s : WebStream, s.source = .connected 2 [] ∧ shown s.chat.messages = [hello] ∧
      s.NothingMissed id := by
  have hline : ∀ s : WebStream, s.Cond id (.line 0) := fun _ _ _ _ _ hearlier =>
    absurd hearlier List.not_mem_nil
  have hasked : Machine.Reaches step (Cond id) (initial []) {
      agent := some { process := 0, messages := [], commands := [.getMessages 0] }, processes := 1
      requests := [⟨1, .messages 0⟩], selection := 1 } :=
    ((Machine.Reaches.refl.tail (a := .selectSession) (by exact trivial) rfl).tail
      (a := .start []) (by exact trivial) rfl).tail (a := .ask 0) (by exact trivial) rfl
  have hmessages : Machine.Reaches step (Cond id) (initial []) {
      agent := some { process := 0, messages := [] }, processes := 1
      requests := [⟨1, .gotMessages 0 []⟩], selection := 1 } :=
    (hasked.tail (a := .respond) (by exact trivial) rfl).tail (a := .line 0) (hline _) rfl
  have hstate : Machine.Reaches step (Cond id) (initial []) {
      agent := some { process := 0, messages := [] }, processes := 1
      requests := [⟨1, .gotState [] false⟩], selection := 1 } :=
    ((hmessages.tail (a := .resume 0 []) (by intro _ _ h; cases h) rfl).tail
      (a := .respond) (by exact trivial) rfl).tail (a := .line 0) (hline _) rfl
  have hopened : Machine.Reaches step (Cond id) (initial []) {
      agent := some { process := 0, messages := [] }, processes := 1
      requests := [⟨1, .returned⟩], selection := 1
      chat := { isOpen := true }, source := .connected 0 [] } :=
    ((hstate.tail (a := .resume 0 []) (by
      intro _ _ h
      cases h
      exact ⟨rfl, fun _ ⟨_, hreading, _⟩ => by cases hreading⟩) rfl).tail
      (a := .reply 0) (by exact trivial) rfl).tail (a := .connect) (Nat.zero_le _) rfl
  have hread : Machine.Reaches step (Cond id) (initial []) {
      agent := some { process := 0, messages := [] }, processes := 1
      requests := [⟨1, .returned⟩], selection := 1, chat := { isOpen := true }
      nextCursor := 2
      eventBuffer := [⟨1, .agent (.messageStart hello)⟩, ⟨2, .agent (.messageEnd hello)⟩]
      source := .connected 2
        [⟨1, .agent (.messageStart hello)⟩, ⟨2, .agent (.messageEnd hello)⟩]
      appended := [.agent (.messageStart hello), .agent (.messageEnd hello)], read := [hello] } :=
    (((hopened.tail (a := .emit (.agent (.messageStart hello))) (by exact trivial) rfl).tail
      (a := .emit (.agent (.messageEnd hello))) (by exact trivial) rfl).tail
      (a := .line 0) (hline _) rfl).tail (a := .line 0) (hline _) rfl
  have hdelivered := (hread.tail (a := .deliver) (by exact trivial) rfl).tail
    (a := .deliver) (by exact trivial) rfl
  exact ⟨_, rfl, rfl, nothing_missed id [] hdelivered⟩

/-- The same message, ended between the two answers: nothing is on its way, and
it is not shown. -/
theorem message_missed :
    ∃ s : WebStream, Machine.Reaches step (fun _ _ => True) (initial []) s ∧
      s.source = .connected 2 [] ∧ s.stdout = [] ∧ s.ended = [hello] ∧
      shown s.chat.messages = [] ∧ ¬ s.NothingMissed id := by
  have hmessages : Machine.Reaches step (fun _ _ => True) (initial []) {
      agent := some { process := 0, messages := [] }, processes := 1
      requests := [⟨1, .gotMessages 0 []⟩], selection := 1 } :=
    ((((Machine.Reaches.refl.tail (a := .selectSession) trivial rfl).tail
      (a := .start []) trivial rfl).tail (a := .ask 0) trivial rfl).tail
      (a := .respond) trivial rfl).tail (a := .line 0) trivial rfl
  have hended : Machine.Reaches step (fun _ _ => True) (initial []) {
      agent := some { process := 0, messages := [] }, processes := 1
      requests := [⟨1, .state 0 []⟩], selection := 1
      stdout := [⟨0, .event (.agent (.messageStart hello))⟩,
        ⟨0, .event (.agent (.messageEnd hello))⟩, ⟨0, .state 0 false⟩] } :=
    (((hmessages.tail (a := .resume 0 []) trivial rfl).tail
      (a := .emit (.agent (.messageStart hello))) trivial rfl).tail
      (a := .emit (.agent (.messageEnd hello))) trivial rfl).tail (a := .respond) trivial rfl
  have hstate : Machine.Reaches step (fun _ _ => True) (initial []) {
      agent := some { process := 0, messages := [] }, processes := 1
      requests := [⟨1, .gotState [] false⟩], selection := 1, nextCursor := 2
      eventBuffer := [⟨1, .agent (.messageStart hello)⟩, ⟨2, .agent (.messageEnd hello)⟩]
      appended := [.agent (.messageStart hello), .agent (.messageEnd hello)], read := [hello] } :=
    ((hended.tail (a := .line 0) trivial rfl).tail (a := .line 0) trivial rfl).tail
      (a := .line 0) trivial rfl
  have hrun := ((hstate.tail (a := .resume 0 []) trivial rfl).tail
    (a := .reply 0) trivial rfl).tail (a := .connect) trivial rfl
  refine ⟨_, hrun, rfl, rfl, rfl, rfl, fun hmissed => ?_⟩
  exact absurd (hmissed.settled 2 rfl fun _ hline => absurd hline List.not_mem_nil) nofun

end WebStream

end Eagent
