import Eagent.ProxyRebuild

/-!
# How a proxied stream ends

However the body is cut into chunks, its complete lines are processed in
order (`ProxyRun.readLoop_eq`), and an unterminated last line never is. So
the stream ends as it should when a complete line or an error ends it, the
terminal line is complete, and nothing after it changes the message
(`ProxyResponse.ends_well_iff`).
-/

namespace Eagent

variable {A U : Type} (codec : Codec A U)

/-! ## Lines -/

/-- The lines of a text and more are its complete lines, and those of the
unfinished one and more. -/
theorem splitLines_append_eq (a b : List Char) :
    splitLines (a ++ b) =
      (splitLines a).dropLast ++ splitLines ((splitLines a).getLastD [] ++ b) := by
  induction a with
  | nil => rfl
  | cons c cs ih =>
    obtain ⟨line, lines, hlines⟩ := List.exists_cons_of_ne_nil (splitLines_ne_nil cs)
    rw [List.cons_append, splitLines, splitLines]
    split
    · rw [hlines] at ih ⊢
      rw [ih]
      simp
    · rename_i hc
      rw [ih, hlines]
      cases lines with
      | nil =>
        obtain ⟨line', lines', hlines'⟩ :=
          List.exists_cons_of_ne_nil (splitLines_ne_nil (line ++ b))
        simp [splitLines, hc, hlines']
      | cons line' lines => simp

theorem splitLines_of_notMem {line : List Char} (h : '\n' ∉ line) : splitLines line = [line] := by
  induction line with
  | nil => rfl
  | cons c cs ih =>
    rw [List.mem_cons, not_or] at h
    rw [splitLines, if_neg (Ne.symm h.1), ih h.2]

theorem newline_notMem_splitLines (text : List Char) : ∀ line ∈ splitLines text, '\n' ∉ line := by
  induction text with
  | nil =>
    intro line hline
    obtain rfl := List.mem_singleton.mp hline
    exact List.not_mem_nil
  | cons c cs ih =>
    obtain ⟨first, lines, hlines⟩ := List.exists_cons_of_ne_nil (splitLines_ne_nil cs)
    rw [hlines] at ih
    rw [splitLines, hlines]
    split
    · intro line hline
      rcases List.mem_cons.mp hline with rfl | hline
      · exact List.not_mem_nil
      · exact ih line hline
    · rename_i hc
      intro line hline
      rcases List.mem_cons.mp hline with rfl | hline
      · rw [List.mem_cons, not_or]
        exact ⟨Ne.symm hc, ih first List.mem_cons_self⟩
      · exact ih line (List.mem_cons_of_mem _ hline)

theorem newline_notMem_last (text : List Char) : '\n' ∉ (splitLines text).getLastD [] := by
  obtain ⟨first, lines, hlines⟩ := List.exists_cons_of_ne_nil (splitLines_ne_nil text)
  refine newline_notMem_splitLines text _ ?_
  rw [hlines]
  exact List.getLast_mem (List.cons_ne_nil first lines)

namespace ProxyRun

variable {codec} {s : ProxyRun A U}

theorem processLine_buffer (buffer line : List Char) :
    processLine codec { s with buffer } line =
      (s.processLine codec line).map fun s' => { s' with buffer } := by
  unfold processLine
  split
  · rfl
  · cases codec.parse _ with
    | error message => rfl
    | ok e =>
      cases h : s.message.processProxyEvent codec e <;>
        simp [h, bind, Except.bind, Except.map, pure, Except.pure, look]

theorem processLines_buffer (buffer : List Char) (lines : List (List Char)) :
    processLines codec { s with buffer } lines =
      ({ (s.processLines codec lines).1 with buffer }, (s.processLines codec lines).2) := by
  induction lines generalizing s with
  | nil => rfl
  | cons line lines ih =>
    rw [processLines, processLines, processLine_buffer]
    cases s.processLine codec line with
    | error message => rfl
    | ok s' => exact ih

theorem processLines_append (lines lines' : List (List Char)) :
    s.processLines codec (lines ++ lines') = match s.processLines codec lines with
      | (s', none) => s'.processLines codec lines'
      | failed => failed := by
  induction lines generalizing s with
  | nil => rfl
  | cons line lines ih =>
    rw [List.cons_append, processLines, processLines]
    cases s.processLine codec line with
    | error message => rfl
    | ok s' => exact ih

variable (codec) in
/-- Reading processes the complete lines, however they are cut into chunks. -/
theorem readLoop_eq (reads : List (List Char × Bool)) (hbuffer : '\n' ∉ s.buffer) :
    ∃ buffer, s.readLoop codec reads =
      let lines := (splitLines (s.buffer ++ (reads.takeWhile (!·.2)).flatMap (·.1))).dropLast
      ({ (s.processLines codec lines).1 with buffer },
        match (s.processLines codec lines).2 with
        | some message => some (false, message)
        | none => if reads.any (·.2) then some (true, "Request aborted by user") else none) := by
  induction reads generalizing s with
  | nil =>
    refine ⟨s.buffer, ?_⟩
    have hlines : splitLines (s.buffer ++ []) = [s.buffer] := by
      rw [List.append_nil]
      exact splitLines_of_notMem hbuffer
    simp only [List.takeWhile_nil, List.flatMap_nil, hlines]
    rfl
  | cons read reads ih =>
    obtain ⟨text, aborted⟩ := read
    cases aborted with
    | true =>
      refine ⟨s.buffer, ?_⟩
      have hlines : splitLines (s.buffer ++ []) = [s.buffer] := by
        rw [List.append_nil]
        exact splitLines_of_notMem hbuffer
      simp only [List.takeWhile_cons, Bool.not_true, Bool.false_eq_true, if_false,
        List.flatMap_nil, hlines]
      rfl
    | false =>
      have htext : ∀ rest, (splitLines (s.buffer ++ (text ++ rest))).dropLast =
          (splitLines (s.buffer ++ text)).dropLast ++
            (splitLines ((splitLines (s.buffer ++ text)).getLastD [] ++ rest)).dropLast := by
        intro rest
        rw [← List.append_assoc, splitLines_append_eq, List.dropLast_append_of_ne_nil]
        exact splitLines_ne_nil _
      have hreads : (((text, false) :: reads).takeWhile (!·.2)).flatMap (·.1) =
          text ++ (reads.takeWhile (!·.2)).flatMap (·.1) := rfl
      have hany : ((text, false) :: reads).any (·.2) = reads.any (·.2) := rfl
      simp only [readLoop, Bool.false_eq_true, if_false, processChunk, processLines_buffer,
        hreads, hany, htext, processLines_append]
      cases hfirst : s.processLines codec (splitLines (s.buffer ++ text)).dropLast with
      | mk s' error =>
        cases error with
        | some message => exact ⟨_, rfl⟩
        | none =>
          obtain ⟨buffer, hrest⟩ :=
            ih (s := { s' with buffer := (splitLines (s.buffer ++ text)).getLastD [] })
              (newline_notMem_last _)
          refine ⟨buffer, ?_⟩
          dsimp only at hrest ⊢
          rw [hrest, processLines_buffer]

/-- The end of the reading, by an error of a line, by another one, or without. -/
def finish : ProxyRun A U × Option String → Option (Bool × String) → ProxyRun A U
  | (s, some message), _ => s.fail false message
  | (s, none), some (aborted, message) => s.fail aborted message
  | (s, none), none => look { s with stream := s.stream.end }

theorem finish_buffer (buffer : List Char) (error : Option String)
    (failure : Option (Bool × String)) :
    finish ({ s with buffer }, error) failure = { finish (s, error) failure with buffer } := by
  cases error with
  | some message => rfl
  | none =>
    cases failure with
    | some failure => rfl
    | none => rfl

end ProxyRun

/-! ## Before the terminal event -/

def eventsIn (lines : List (List Char)) : List (Except String (ProxyEvent U)) :=
  (lines.filterMap ProxyRun.dataOf).map codec.parse

theorem eventsIn_cons (line : List Char) (lines : List (List Char)) :
    eventsIn codec (line :: lines) = match ProxyRun.dataOf line with
      | some data => codec.parse data :: eventsIn codec lines
      | none => eventsIn codec lines := by
  unfold eventsIn
  cases h : ProxyRun.dataOf line <;> simp [h]

theorem kindAt_concat (events : List (ProxyEvent U)) (e : ProxyEvent U) :
    kindAt (events ++ [e]) = ProxyMessage.kindsAfter (kindAt events) e := by
  funext i
  unfold ProxyMessage.kindsAfter
  match hstarts : e.starts with
  | none => exact kindAt_of_not_starts events fun kind h => by rw [hstarts] at h; cases h
  | some (j, kind) =>
    dsimp only
    by_cases hsame : i = j
    · subst hsame
      rw [Function.update_self]
      exact kindAt_of_starts events hstarts
    · rw [Function.update_of_ne hsame]
      refine kindAt_of_not_starts events fun kind' h => hsame ?_
      rw [hstarts] at h
      cases h
      rfl

theorem Placed.concat {events : List (ProxyEvent U)} {e : ProxyEvent U} (h : Placed events)
    (he : e.misplaced (kindAt events) = none) : Placed (events ++ [e]) := by
  intro before e' after heq
  rcases List.eq_nil_or_concat after with rfl | ⟨after, last, rfl⟩
  · obtain ⟨rfl, hlast⟩ := List.append_inj' heq rfl
    obtain rfl := (List.cons.inj hlast).1
    exact he
  · rw [List.concat_eq_append, ← List.cons_append, ← List.append_assoc] at heq
    exact h before e' after (List.append_inj' heq rfl).1

theorem EndsLast.of_concat {events : List (ProxyEvent U)} {e : ProxyEvent U}
    (h : EndsLast (events ++ [e])) : EndsLast events ∧
      ∀ i delta, e = .toolcallDelta i delta → ∀ first since,
        afterStart i events = some (first, since) → ∀ e' ∈ since, e'.endsToolcall i = false := by
  constructor
  · intro before i delta after heq
    refine h before i delta (after ++ [e]) ?_
    rw [heq, List.append_assoc, List.cons_append]
  · rintro i delta rfl
    exact h events i delta [] rfl

def EventStream.pushed (stream : EventStream A) (event : Option (ProxyStreamEvent A)) :
    EventStream A :=
  event.elim stream stream.push

theorem EventStream.pushed_eq {stream : EventStream A} (h : stream.done = false)
    (event : Option (ProxyStreamEvent A)) :
    stream.pushed event =
      { events := stream.events ++ event.toList
        done := event.any (·.isComplete)
        settled := stream.settled || event.any (·.isComplete) } := by
  cases event with
  | none =>
    obtain ⟨events, done, settled⟩ := stream
    obtain rfl : done = false := h
    simp [EventStream.pushed]
  | some event => simp [EventStream.pushed, EventStream.push, h]

theorem EventStream.pushed_of_done {stream : EventStream A} (h : stream.done = true)
    (event : Option (ProxyStreamEvent A)) : stream.pushed event = stream := by
  cases event with
  | none => rfl
  | some event => exact if_pos h

/-- No terminal event has come up, and `events` have. -/
structure ProxyRun.Open (events : List (ProxyEvent U)) (s : ProxyRun A U) : Prop where
  done : s.stream.done = false
  settled : s.stream.settled = false
  delivered : ∀ event ∈ s.stream.events, event.isComplete = false
  seen : s.seen = []
  kinds : s.message.kinds = kindAt events
  message : EndsLast events → s.message = opened codec events

namespace ProxyRun

variable {codec} {s : ProxyRun A U} {events : List (ProxyEvent U)} {line data : List Char}

theorem open_start : Open codec [] (start codec) where
  done := rfl
  settled := rfl
  delivered _ h := absurd h List.not_mem_nil
  seen := rfl
  kinds := rfl
  message _ := rfl

theorem look_of_unsettled (h : s.stream.settled = false) : s.look = s := by
  rw [look, h]
  rfl

theorem processLine_none (h : dataOf line = none) : s.processLine codec line = .ok s.look := by
  rw [processLine, h]

theorem processLine_error {message : String} (h : dataOf line = some data)
    (hparse : codec.parse data = .error message) : s.processLine codec line = .error message := by
  rw [processLine, h]
  simp only [hparse]
  rfl

variable {e : ProxyEvent U}

theorem processLine_misplaced {message : String} (h : dataOf line = some data)
    (hparse : codec.parse data = .ok e) (he : e.misplaced s.message.kinds = some message) :
    s.processLine codec line = .error message := by
  rw [processLine, h]
  simp only [hparse, s.message.process_misplaced codec e he, bind, Except.bind]

theorem processLine_ok {next : ProxyMessage A U} {event : Option (ProxyStreamEvent A)}
    (h : dataOf line = some data) (hparse : codec.parse data = .ok e)
    (hprocess : s.message.processProxyEvent codec e = .ok (next, event)) :
    s.processLine codec line =
      .ok (look { s with message := next, stream := s.stream.pushed event }) := by
  rw [processLine, h]
  simp only [hparse, hprocess, bind, Except.bind]
  cases event <;> rfl

theorem Open.step (h : Open codec events s) (hdata : dataOf line = some data)
    (hparse : codec.parse data = .ok e) (hplaced : e.misplaced (kindAt events) = none)
    (hopen : e.isTerminal = false) :
    ∃ s', s.processLine codec line = .ok s' ∧ Open codec (events ++ [e]) s' := by
  obtain ⟨next, event, hprocess, hkinds, -, hcomplete⟩ :=
    s.message.process_placed codec e (h.kinds ▸ hplaced)
  rw [hopen] at hcomplete
  refine ⟨_, processLine_ok hdata hparse hprocess, ?_⟩
  rw [EventStream.pushed_eq h.done, hcomplete, look_of_unsettled (by simp [h.settled])]
  constructor
  case done => rfl
  case settled => simp [h.settled]
  case delivered =>
    intro event' hevent'
    rcases List.mem_append.mp hevent' with hevent' | hevent'
    · exact h.delivered event' hevent'
    · obtain rfl := Option.mem_toList.mp hevent'
      exact hcomplete
  case seen => exact h.seen
  case kinds => rw [hkinds, h.kinds, kindAt_concat]
  case message =>
    intro hends
    obtain ⟨hbefore, hdelta⟩ := hends.of_concat
    obtain ⟨event', hopened⟩ := process_opened codec events hplaced hdelta hopen
    rw [h.message hbefore, hopened] at hprocess
    exact (Prod.ext_iff.mp (Except.ok.inj hprocess)).1.symm

theorem Open.lines {evs : List (ProxyEvent U)} {lines : List (List Char)}
    (h : Open codec events s) (hlines : eventsIn codec lines = evs.map .ok)
    (hopen : ∀ e ∈ evs, e.isTerminal = false) (hplaced : Placed (events ++ evs)) :
    ∃ s', s.processLines codec lines = (s', none) ∧ Open codec (events ++ evs) s' := by
  induction lines generalizing s events evs with
  | nil =>
    obtain rfl := List.map_eq_nil_iff.mp hlines.symm
    exact ⟨s, rfl, by rwa [List.append_nil]⟩
  | cons line lines ih =>
    rw [eventsIn_cons] at hlines
    rw [processLines]
    cases hdata : dataOf line with
    | none =>
      rw [processLine_none hdata, look_of_unsettled h.settled]
      rw [hdata] at hlines
      exact ih h hlines hopen hplaced
    | some data =>
      rw [hdata] at hlines
      obtain ⟨e, evs, rfl, hparse, hrest⟩ := List.map_eq_cons_iff.mp hlines.symm
      obtain ⟨s', hs', hnext⟩ := h.step hdata hparse.symm
        (hplaced events e evs rfl) (hopen e List.mem_cons_self)
      rw [List.append_cons] at hplaced ⊢
      rw [hs']
      exact ih hnext hrest.symm (fun e he => hopen e (List.mem_cons_of_mem _ he)) hplaced

end ProxyRun

/-! ## After the terminal event -/

def EventStream.Delivers (stream : EventStream A) : Prop :=
  stream.settled = true ∧ ∃ before last, stream.events = before ++ [last] ∧
    last.isComplete = true ∧ ∀ event ∈ before, event.isComplete = false

def ProxyMessage.Keeps (m : ProxyMessage A U) :
    List (Except String (ProxyEvent U)) → Option (Bool × String) → Prop
  | [], none => True
  | [], some (aborted, message) => m.failed aborted message = m
  | .error message :: _, _ => m.failed false message = m
  | .ok e :: items, failure =>
      match e.misplaced m.kinds with
      | some message => m.failed false message = m
      | none => m.Harmless codec e ∧ Keeps m items failure

/-- A terminal event has come up. -/
structure ProxyRun.Closed (s : ProxyRun A U) : Prop where
  done : s.stream.done = true
  delivers : s.stream.Delivers

namespace ProxyRun

variable {codec} {s : ProxyRun A U} {line data : List Char}

theorem Closed.settled (h : s.Closed) : s.stream.settled = true :=
  h.delivers.1

theorem Closed.look (h : s.Closed) : s.look = { s with seen := s.seen ++ [s.message] } := by
  rw [ProxyRun.look, h.settled]
  rfl

theorem Closed.fail (h : s.Closed) (aborted : Bool) (message : String) :
    s.fail aborted message = { s with
      message := s.message.failed aborted message
      seen := s.seen ++ [s.message.failed aborted message] } := by
  obtain ⟨m, ⟨events, done, settled⟩, buffer, seen⟩ := s
  obtain rfl : done = true := h.done
  obtain rfl : settled = true := h.settled
  rfl

variable (codec) in
theorem Closed.processLine (h : s.Closed) (line : List Char) :
    (∃ message, s.processLine codec line = .error message) ∨
      ∃ next, s.processLine codec line =
        .ok { s with message := next, seen := s.seen ++ [next] } := by
  cases hdata : dataOf line with
  | none => exact .inr ⟨s.message, by rw [processLine_none hdata, h.look]⟩
  | some data =>
    cases hparse : codec.parse data with
    | error message => exact .inl ⟨message, processLine_error hdata hparse⟩
    | ok e =>
      cases hplaced : e.misplaced s.message.kinds with
      | some message => exact .inl ⟨message, processLine_misplaced hdata hparse hplaced⟩
      | none =>
        obtain ⟨next, event, hprocess, -⟩ := s.message.process_placed codec e hplaced
        refine .inr ⟨next, ?_⟩
        rw [processLine_ok hdata hparse hprocess, EventStream.pushed_of_done h.done]
        have hnext : Closed { s with message := next } := ⟨h.done, h.delivers⟩
        exact congrArg Except.ok hnext.look

/-- The stream ends with the event that has come up. -/
theorem Closed.finish (h : s.Closed) (lines : List (List Char)) (failure : Option (Bool × String)) :
    (ProxyRun.finish (s.processLines codec lines) failure).stream.Delivers ∧
      s.seen <+: (ProxyRun.finish (s.processLines codec lines) failure).seen := by
  induction lines generalizing s with
  | nil =>
    match failure with
    | some (aborted, message) =>
      rw [processLines, ProxyRun.finish, h.fail]
      exact ⟨h.delivers, List.prefix_append _ _⟩
    | none =>
      have hended : Closed { s with stream := s.stream.end } := ⟨rfl, h.delivers⟩
      rw [processLines, ProxyRun.finish, hended.look]
      exact ⟨h.delivers, List.prefix_append _ _⟩
  | cons line lines ih =>
    rw [processLines]
    rcases h.processLine codec line with ⟨message, hline⟩ | ⟨next, hline⟩
    · rw [hline]
      dsimp only
      rw [ProxyRun.finish, h.fail]
      exact ⟨h.delivers, List.prefix_append _ _⟩
    · rw [hline]
      have hnext : Closed { s with message := next, seen := s.seen ++ [next] } :=
        ⟨h.done, h.delivers⟩
      obtain ⟨hdelivers, hseen⟩ := ih hnext
      exact ⟨hdelivers, (List.prefix_append _ _).trans hseen⟩

theorem seen_concat_iff {seen : List (ProxyMessage A U)} {m next : ProxyMessage A U} :
    (∀ m' ∈ seen ++ [next], m' = m) ↔ (∀ m' ∈ seen, m' = m) ∧ next = m := by
  simp only [List.forall_mem_append, List.forall_mem_singleton]

/-- Everyone who looks sees the message of the terminal event if nothing
after it changes the message. -/
theorem Closed.seen_iff (h : s.Closed) (lines : List (List Char))
    (failure : Option (Bool × String)) :
    (∀ m ∈ (ProxyRun.finish (s.processLines codec lines) failure).seen, m = s.message) ↔
      (∀ m ∈ s.seen, m = s.message) ∧ s.message.Keeps codec (eventsIn codec lines) failure := by
  induction lines generalizing s with
  | nil =>
    cases failure with
    | some failure =>
      rw [processLines, ProxyRun.finish, h.fail]
      exact seen_concat_iff
    | none =>
      have hended : Closed { s with stream := s.stream.end } := ⟨rfl, h.delivers⟩
      rw [processLines, ProxyRun.finish, hended.look]
      exact seen_concat_iff.trans (and_congr_right fun _ => iff_of_true rfl trivial)
  | cons line lines ih =>
    rw [processLines, eventsIn_cons]
    have herror : ∀ message,
        (∀ m ∈ (ProxyRun.finish (s, some message) failure).seen, m = s.message) ↔
          (∀ m ∈ s.seen, m = s.message) ∧ s.message.failed false message = s.message := by
      intro message
      rw [ProxyRun.finish, h.fail]
      exact seen_concat_iff
    cases hdata : dataOf line with
    | none =>
      rw [processLine_none hdata, h.look]
      have hnext : Closed { s with seen := s.seen ++ [s.message] } := ⟨h.done, h.delivers⟩
      refine (ih hnext).trans (and_congr_left fun _ => ?_)
      exact seen_concat_iff.trans (and_iff_left rfl)
    | some data =>
      cases hparse : codec.parse data with
      | error message =>
        dsimp only
        rw [hparse, ProxyMessage.Keeps, processLine_error hdata hparse]
        exact herror message
      | ok e =>
        dsimp only
        rw [hparse, ProxyMessage.Keeps]
        cases hplaced : e.misplaced s.message.kinds with
        | some message =>
          rw [processLine_misplaced hdata hparse hplaced]
          exact herror message
        | none =>
          obtain ⟨next, event, hprocess, -, hharmless, -⟩ :=
            s.message.process_placed codec e hplaced
          have hnext : Closed { s with message := next, seen := s.seen ++ [next] } :=
            ⟨h.done, h.delivers⟩
          rw [processLine_ok hdata hparse hprocess, EventStream.pushed_of_done h.done]
          have hlook := Closed.look (s := { s with message := next }) ⟨h.done, h.delivers⟩
          dsimp only at hlook ⊢
          rw [hlook, ← hharmless]
          by_cases hsame : next = s.message
          · subst hsame
            refine (ih hnext).trans ?_
            rw [seen_concat_iff]
            simp only [and_true, true_and]
          · refine iff_of_false (fun hall => hsame (hall next ?_))
              fun hall => hsame hall.2.1
            exact (hnext.finish lines failure).2.mem
              (List.mem_append_right _ (List.mem_singleton_self next))

end ProxyRun

/-! ## The terminal event -/

section Terminal

variable {codec} {s : ProxyRun A U} {events : List (ProxyEvent U)} {line data : List Char}

theorem ProxyEvent.misplaced_of_isTerminal {e : ProxyEvent U} (h : e.isTerminal = true)
    (kinds : Nat → Option BlockKind) : e.misplaced kinds = none := by
  cases e <;> cases h <;> rfl

theorem ProxyRun.Open.terminal (h : Open codec events s) {t : ProxyEvent U}
    (hdata : dataOf line = some data) (hparse : codec.parse data = .ok t)
    (ht : t.isTerminal = true) :
    ∃ s', s.processLine codec line = .ok s' ∧ s'.Closed ∧ s'.seen = [s'.message] ∧
      (EndsLast events → s'.message = rebuilt codec events t) := by
  obtain ⟨next, event, hprocess, -, -, hcomplete⟩ :=
    s.message.process_placed codec t (ProxyEvent.misplaced_of_isTerminal ht _)
  rw [ht] at hcomplete
  obtain ⟨last, rfl, hlast⟩ := Option.any_eq_true _ _ |>.mp hcomplete
  refine ⟨_, processLine_ok hdata hparse hprocess, ?_⟩
  have hclosed : Closed { s with message := next, stream := s.stream.pushed (some last) } := by
    rw [EventStream.pushed_eq h.done, hcomplete]
    exact ⟨rfl, Bool.or_true _, s.stream.events, last, rfl, hlast, h.delivered⟩
  rw [hclosed.look]
  refine ⟨⟨hclosed.done, hclosed.delivers⟩, ?_, fun hends => ?_⟩
  · rw [h.seen]
    rfl
  · rw [h.message hends] at hprocess
    cases t <;> cases ht <;> cases hprocess <;> rfl

theorem ProxyRun.Open.fail (h : Open codec events s) (aborted : Bool) (message : String) :
    (s.fail aborted message).stream.Delivers ∧
      (s.fail aborted message).seen = [s.message.failed aborted message] := by
  obtain ⟨m, ⟨streamed, done, settled⟩, buffer, seen⟩ := s
  obtain rfl : done = false := h.done
  obtain rfl : settled = false := h.settled
  obtain rfl : seen = [] := h.seen
  exact ⟨⟨rfl, streamed, _, rfl, rfl, h.delivered⟩, rfl⟩

end Terminal

/-! ## Items -/

section Items

variable {codec} {lines : List (List Char)}

def Regular (events : List (ProxyEvent U)) : Prop :=
  (∀ e ∈ events, e.isTerminal = false) ∧ Placed events

def AllOpen (items : List (Except String (ProxyEvent U))) (events : List (ProxyEvent U)) : Prop :=
  items = events.map .ok ∧ Regular events

def ReachesTerminal (items : List (Except String (ProxyEvent U))) (events : List (ProxyEvent U))
    (t : ProxyEvent U) (tail : List (Except String (ProxyEvent U))) : Prop :=
  items = events.map .ok ++ .ok t :: tail ∧ Regular events ∧ t.isTerminal = true

def ReachesError (items : List (Except String (ProxyEvent U))) (events : List (ProxyEvent U))
    (message : String) : Prop :=
  ∃ item tail, items = events.map .ok ++ item :: tail ∧ Regular events ∧
    (item = .error message ∨ ∃ e, item = .ok e ∧ e.misplaced (kindAt events) = some message)

def Stops (events : List (ProxyEvent U)) (item : Except String (ProxyEvent U)) : Prop :=
  ∀ e, item = .ok e → e.isTerminal = true ∨ e.misplaced (kindAt events) ≠ none

theorem Regular.nil : Regular ([] : List (ProxyEvent U)) := by
  refine ⟨fun e he => absurd he List.not_mem_nil, fun before e after h => ?_⟩
  exact absurd h.symm (List.append_ne_nil_of_right_ne_nil before (List.cons_ne_nil e after))

variable {events : List (ProxyEvent U)}

theorem Regular.concat {e : ProxyEvent U} (h : Regular events) (hopen : e.isTerminal = false)
    (hplaced : e.misplaced (kindAt events) = none) :
    Regular (events ++ [e]) := by
  refine ⟨fun e' he' => ?_, h.2.concat hplaced⟩
  rcases List.mem_append.mp he' with he' | he'
  · exact h.1 e' he'
  · obtain rfl := List.mem_singleton.mp he'
    exact hopen

/-- One of the three. -/
theorem reaches_cases (items : List (Except String (ProxyEvent U))) :
    (∃ events, AllOpen items events) ∨ (∃ events t tail, ReachesTerminal items events t tail) ∨
      ∃ events message, ReachesError items events message := by
  induction items using List.reverseRecOn with
  | nil => exact .inl ⟨[], rfl, Regular.nil⟩
  | append_singleton items item ih =>
    rcases ih with ⟨events, rfl, hregular⟩ | ⟨events, t, tail, rfl, hrest⟩ |
      ⟨events, message, item', tail, rfl, hrest⟩
    · cases item with
      | error message =>
        exact .inr (.inr ⟨events, message, _, [], rfl, hregular, .inl rfl⟩)
      | ok e =>
        cases he : e.misplaced (kindAt events) with
        | some message =>
          exact .inr (.inr ⟨events, message, _, [], rfl, hregular, .inr ⟨e, rfl, he⟩⟩)
        | none =>
          cases ht : e.isTerminal with
          | true => exact .inr (.inl ⟨events, e, [], rfl, hregular, ht⟩)
          | false => exact .inl ⟨events ++ [e], by simp, hregular.concat ht he⟩
    · exact .inr (.inl ⟨events, t, tail ++ [item], by simp, hrest⟩)
    · exact .inr (.inr ⟨events, message, item', tail ++ [item], by simp, hrest⟩)

theorem Stops.of_isTerminal {t : ProxyEvent U} (h : t.isTerminal = true) :
    Stops events (.ok t) := by
  intro e he
  obtain rfl := Except.ok.inj he
  exact .inl h

variable {item : Except String (ProxyEvent U)}

theorem Stops.of_error {message : String}
    (h : item = .error message ∨ ∃ e, item = .ok e ∧ e.misplaced (kindAt events) = some message) :
    Stops events item := by
  rcases h with rfl | ⟨e, rfl, he⟩
  · nofun
  · intro e' he'
    obtain rfl := Except.ok.inj he'
    exact .inr (he ▸ Option.some_ne_none message)

theorem Regular.not_stops {before after : List (ProxyEvent U)} {e : ProxyEvent U}
    (h : Regular (before ++ e :: after)) : ¬ Stops before (.ok e) := by
  intro hstops
  rcases hstops e rfl with hterminal | hmisplaced
  · rw [h.1 e (List.mem_append_right _ List.mem_cons_self)] at hterminal
    cases hterminal
  · exact hmisplaced (h.2 before e after rfl)

theorem map_ok_inj {events events' : List (ProxyEvent U)}
    (h : events.map (.ok : _ → Except String (ProxyEvent U)) = events'.map .ok) : events = events' :=
  (List.map_inj_right fun _ _ => Except.ok.inj).mp h

theorem stops_append {events events' : List (ProxyEvent U)}
    {tail rest : List (Except String (ProxyEvent U))}
    (heq : events.map .ok ++ item :: tail = events'.map .ok ++ rest) (hstops : Stops events item)
    (hregular : Regular events') :
    ∃ events'', events = events' ++ events'' ∧ rest = events''.map .ok ++ item :: tail := by
  rcases List.append_eq_append_iff.mp heq with ⟨l, hl, hrest⟩ | ⟨l, hl, hrest⟩
  · cases l with
    | nil =>
      rw [List.append_nil] at hl
      exact ⟨[], by rw [List.append_nil, map_ok_inj hl], hrest.symm⟩
    | cons first l =>
      obtain rfl := (List.cons.inj hrest).1
      obtain ⟨before, after, rfl, hbefore, hafter⟩ := List.map_eq_append_iff.mp hl
      obtain ⟨e, after, rfl, rfl, -⟩ := List.map_eq_cons_iff.mp hafter
      obtain rfl := map_ok_inj hbefore
      exact absurd hstops hregular.not_stops
  · obtain ⟨before, after, rfl, hbefore, rfl⟩ := List.map_eq_append_iff.mp hl
    exact ⟨after, by rw [map_ok_inj hbefore], hrest⟩

theorem stops_unique {events events' : List (ProxyEvent U)}
    {item item' : Except String (ProxyEvent U)} {tail tail' : List (Except String (ProxyEvent U))}
    (heq : events.map .ok ++ item :: tail = events'.map .ok ++ item' :: tail')
    (hstops : Stops events item) (hstops' : Stops events' item') (hregular : Regular events)
    (hregular' : Regular events') : events = events' ∧ item = item' ∧ tail = tail' := by
  obtain ⟨more, rfl, hrest⟩ := stops_append heq hstops hregular'
  cases more with
  | nil =>
    obtain ⟨hitem, htail⟩ := List.cons.inj hrest
    exact ⟨List.append_nil _, hitem.symm, htail.symm⟩
  | cons e more =>
    obtain ⟨hitem, -⟩ := List.cons.inj hrest
    rw [hitem] at hstops'
    exact absurd hstops' hregular.not_stops

theorem eventsIn_eq_append {before after : List (Except String (ProxyEvent U))}
    (h : eventsIn codec lines = before ++ item :: after) :
    ∃ pre line data post, lines = pre ++ line :: post ∧ eventsIn codec pre = before ∧
      ProxyRun.dataOf line = some data ∧ codec.parse data = item ∧
      eventsIn codec post = after := by
  obtain ⟨datas, datas', hdatas, rfl, hrest⟩ := List.map_eq_append_iff.mp h
  obtain ⟨data, datas', rfl, hparse, rfl⟩ := List.map_eq_cons_iff.mp hrest
  obtain ⟨pre, rest, rfl, rfl, hlines⟩ := List.filterMap_eq_append_iff.mp hdatas
  obtain ⟨blank, line, post, rfl, hblank, hdata, rfl⟩ := List.filterMap_eq_cons_iff.mp hlines
  refine ⟨pre ++ blank, line, data, post, by simp, ?_, hdata, hparse, rfl⟩
  rw [eventsIn, List.filterMap_append, List.filterMap_eq_nil_iff.mpr hblank, List.append_nil]

theorem eventsIn_append (lines lines' : List (List Char)) :
    eventsIn codec (lines ++ lines') = eventsIn codec lines ++ eventsIn codec lines' := by
  rw [eventsIn, List.filterMap_append, List.map_append]
  rfl

end Items

namespace ProxyResponse

variable (x : ProxyResponse)

def completeLines : List (List Char) :=
  (splitLines x.received).dropLast

/-- What is read at the end without a newline. -/
def lastLine : List Char :=
  (splitLines x.received).getLastD []

theorem received_lines : splitLines x.received = x.completeLines ++ [x.lastLine] := by
  have hne := splitLines_ne_nil x.received
  rw [completeLines, lastLine, List.getLastD_eq_getLast?, List.getLast?_eq_some_getLast hne]
  exact (List.dropLast_append_getLast hne).symm

theorem streamProxy_eq : ∃ buffer, streamProxy codec x =
    { ProxyRun.finish ((ProxyRun.start codec).processLines codec x.completeLines) x.failure with
      buffer } := by
  cases x with
  | refused message aborted => exact ⟨[], rfl⟩
  | body reads failure aborted =>
    obtain ⟨buffer, hloop⟩ := ProxyRun.readLoop_eq codec (s := ProxyRun.start codec)
      reads List.not_mem_nil
    refine ⟨buffer, ?_⟩
    have hlines : (splitLines ((ProxyRun.start codec).buffer ++
        (reads.takeWhile (!·.2)).flatMap (·.1))).dropLast =
        completeLines (.body reads failure aborted) := rfl
    rw [← ProxyRun.finish_buffer, streamProxy, hloop]
    dsimp only
    rw [hlines]
    cases hrun : (ProxyRun.start codec).processLines codec
        (completeLines (.body reads failure aborted)) with
    | mk s error =>
      cases error with
      | some message => rfl
      | none =>
        cases hany : reads.any (·.2) with
        | true => simp only [ProxyResponse.failure, hany, if_true]; rfl
        | false =>
          cases failure with
          | some message => simp only [ProxyResponse.failure, hany]; rfl
          | none =>
            cases aborted with
            | true => simp only [ProxyResponse.failure, hany]; rfl
            | false => simp only [ProxyResponse.failure, hany]; rfl

def completeItems : List (Except String (ProxyEvent U)) :=
  eventsIn codec x.completeLines

def items : List (Except String (ProxyEvent U)) :=
  eventsIn codec (splitLines x.received)

theorem items_eq : x.items codec = x.completeItems codec ++ eventsIn codec [x.lastLine] := by
  rw [items, received_lines, eventsIn_append]
  rfl

/-- The result settles with one terminal event, the last; and where the body
has a terminal line, everyone who looks at the result sees the message of the
events up to it. -/
structure EndsWell : Prop where
  delivers : (streamProxy codec x).stream.Delivers
  result : ∀ events t tail, ReachesTerminal (x.items codec) events t tail → EndsLast events →
    ∀ m ∈ (streamProxy codec x).seen, m = rebuilt codec events t

/-- When the code manages that. -/
structure EndsInTime : Prop where
  /-- an error ends the reading, or a complete line does -/
  ends : x.failure ≠ none ∨ ¬ ∃ events, AllOpen (x.completeItems codec) events
  /-- what comes after a complete terminal line says nothing new -/
  keeps : ∀ events t tail, ReachesTerminal (x.completeItems codec) events t tail →
    EndsLast events → (rebuilt codec events t).Keeps codec tail x.failure
  /-- an error at a terminal line without a newline says the same -/
  uncut : ∀ events t aborted message, AllOpen (x.completeItems codec) events → EndsLast events →
    t.isTerminal = true → eventsIn codec [x.lastLine] = [.ok t] →
      x.failure = some (aborted, message) →
        t = .error (if aborted then "aborted" else "error") (some message) codec.noUsage

variable {codec x} {events : List (ProxyEvent U)} {t : ProxyEvent U}
  {tail : List (Except String (ProxyEvent U))} {message : String}

theorem run_allOpen (h : AllOpen (x.completeItems codec) events) : ∃ s buffer,
    streamProxy codec x = { ProxyRun.finish (s, none) x.failure with buffer } ∧
      ProxyRun.Open codec events s := by
  obtain ⟨buffer, hrun⟩ := streamProxy_eq codec x
  obtain ⟨s, hs, hopen⟩ := ProxyRun.open_start.lines h.1 h.2.1 h.2.2
  exact ⟨s, buffer, by rw [hrun, hs], hopen⟩

theorem run_error (h : ReachesError (x.completeItems codec) events message) : ∃ s buffer,
    streamProxy codec x = { ProxyRun.fail s false message with buffer } ∧
      ProxyRun.Open codec events s := by
  obtain ⟨item, tail, hitems, hregular, hitem⟩ := h
  obtain ⟨buffer, hrun⟩ := streamProxy_eq codec x
  obtain ⟨pre, line, data, post, hlines, hpre, hdata, hparse, -⟩ := eventsIn_eq_append hitems
  obtain ⟨s, hs, hopen⟩ := ProxyRun.open_start.lines hpre hregular.1 hregular.2
  refine ⟨s, buffer, ?_, hopen⟩
  have hline : s.processLine codec line = .error message := by
    rcases hitem with rfl | ⟨e, rfl, hmisplaced⟩
    · exact ProxyRun.processLine_error hdata hparse
    · exact ProxyRun.processLine_misplaced hdata hparse (hopen.kinds ▸ hmisplaced)
  rw [hrun, hlines, ProxyRun.processLines_append, hs]
  dsimp only
  rw [ProxyRun.processLines, hline]
  rfl

theorem run_terminal (h : ReachesTerminal (x.completeItems codec) events t tail) :
    ∃ (s : ProxyRun A U) (post : List (List Char)) (buffer : List Char),
      streamProxy codec x =
        { ProxyRun.finish (s.processLines codec post) x.failure with buffer } ∧
      eventsIn codec post = tail ∧ s.Closed ∧ s.seen = [s.message] ∧
        (EndsLast events → s.message = rebuilt codec events t) := by
  obtain ⟨hitems, hregular, ht⟩ := h
  obtain ⟨buffer, hrun⟩ := streamProxy_eq codec x
  obtain ⟨pre, line, data, post, hlines, hpre, hdata, hparse, hpost⟩ := eventsIn_eq_append hitems
  obtain ⟨s, hs, hopen⟩ := ProxyRun.open_start.lines hpre hregular.1 hregular.2
  obtain ⟨s', hline, hs'⟩ := hopen.terminal hdata hparse ht
  refine ⟨s', post, buffer, ?_, hpost, hs'⟩
  rw [hrun, hlines, ProxyRun.processLines_append, hs]
  dsimp only
  rw [ProxyRun.processLines, hline]

theorem seen_terminal (h : ReachesTerminal (x.completeItems codec) events t tail)
    (hends : EndsLast events) :
    (∀ m ∈ (streamProxy codec x).seen, m = rebuilt codec events t) ↔
      (rebuilt codec events t).Keeps codec tail x.failure := by
  obtain ⟨s, post, buffer, hrun, rfl, hclosed, hseen, hmessage⟩ := run_terminal h
  rw [hrun, ← hmessage hends]
  refine (hclosed.seen_iff post x.failure).trans (and_iff_right fun m hm => ?_)
  rw [hseen] at hm
  exact List.mem_singleton.mp hm

theorem failed_eq_rebuilt_iff (ht : t.isTerminal = true) (aborted : Bool) :
    (opened codec events).failed aborted message = rebuilt codec events t ↔
      t = .error (if aborted then "aborted" else "error") (some message) codec.noUsage := by
  cases t with
  | done reason usage => simp [ProxyMessage.failed, rebuilt, opened]
  | error reason errorMessage usage =>
    simp [ProxyMessage.failed, rebuilt, opened, eq_comm]
  | _ => cases ht

theorem seen_unfinished {aborted : Bool} (h : AllOpen (x.completeItems codec) events)
    (hends : EndsLast events) (ht : t.isTerminal = true)
    (hfailure : x.failure = some (aborted, message)) :
    (∀ m ∈ (streamProxy codec x).seen, m = rebuilt codec events t) ↔
      t = .error (if aborted then "aborted" else "error") (some message) codec.noUsage := by
  obtain ⟨s, buffer, hrun, hopen⟩ := run_allOpen h
  have hseen : (streamProxy codec x).seen = [(opened codec events).failed aborted message] := by
    rw [hrun, hfailure, ProxyRun.finish, ← hopen.message hends]
    exact (hopen.fail aborted message).2
  rw [hseen, List.forall_mem_singleton, failed_eq_rebuilt_iff ht]

theorem delivers_iff : (streamProxy codec x).stream.Delivers ↔
    (x.failure ≠ none ∨ ¬ ∃ events, AllOpen (x.completeItems codec) events) := by
  rcases reaches_cases (x.completeItems codec) with ⟨events, h⟩ | ⟨events, t, tail, h⟩ |
    ⟨events, message, h⟩
  · obtain ⟨s, buffer, hrun, hopen⟩ := run_allOpen h
    rw [hrun]
    match x.failure with
    | some (aborted, message) =>
      exact iff_of_true (hopen.fail aborted message).1 (.inl (Option.some_ne_none _))
    | none =>
      refine iff_of_false (fun hdelivers => ?_)
        (not_or.mpr ⟨not_not_intro rfl, not_not_intro ⟨events, h⟩⟩)
      have hsettled : s.stream.settled = true := hdelivers.1
      rw [hopen.settled] at hsettled
      cases hsettled
  · obtain ⟨s, post, buffer, hrun, -, hclosed, -⟩ := run_terminal h
    rw [hrun]
    refine iff_of_true (hclosed.finish post x.failure).1 (.inr ?_)
    rintro ⟨events', h'⟩
    have hitems := h.1.symm.trans (h'.1.trans (List.append_nil _).symm)
    obtain ⟨more, -, hmore⟩ := stops_append hitems (Stops.of_isTerminal h.2.2) h'.2
    simp at hmore
  · obtain ⟨s, buffer, hrun, hopen⟩ := run_error h
    rw [hrun]
    refine iff_of_true (hopen.fail false message).1 (.inr ?_)
    rintro ⟨events', h'⟩
    obtain ⟨item, tail, hitems, hregular, hitem⟩ := h
    have hall := hitems.symm.trans (h'.1.trans (List.append_nil _).symm)
    obtain ⟨more, -, hmore⟩ := stops_append hall (Stops.of_error hitem) h'.2
    simp at hmore

variable (x) in
theorem reachesTerminal_items (h : ReachesTerminal (x.completeItems codec) events t tail) :
    ReachesTerminal (x.items codec) events t (tail ++ eventsIn codec [x.lastLine]) := by
  refine ⟨?_, h.2⟩
  rw [items_eq, h.1, List.append_assoc, List.cons_append]

variable (codec x) in
theorem lastItems : eventsIn codec [x.lastLine] = [] ∨
    ∃ item, eventsIn codec [x.lastLine] = [item] := by
  rw [eventsIn_cons]
  cases ProxyRun.dataOf x.lastLine with
  | none => exact .inl rfl
  | some data => exact .inr ⟨codec.parse data, rfl⟩

theorem reachesTerminal_cases (h : ReachesTerminal (x.items codec) events t tail) :
    (∃ tail', ReachesTerminal (x.completeItems codec) events t tail') ∨
      AllOpen (x.completeItems codec) events ∧ eventsIn codec [x.lastLine] = [.ok t] := by
  obtain ⟨hitems, hregular, ht⟩ := h
  rw [items_eq] at hitems
  rcases reaches_cases (x.completeItems codec) with ⟨events', h'⟩ | ⟨events', t', tail', h'⟩ |
    ⟨events', message, h'⟩
  · rw [h'.1] at hitems
    obtain ⟨more, rfl, hmore⟩ := stops_append hitems.symm (Stops.of_isTerminal ht) h'.2
    rcases lastItems codec x with hlast | ⟨item, hlast⟩
    · rw [hlast] at hmore
      exact absurd hmore.symm (List.append_ne_nil_of_right_ne_nil _ (List.cons_ne_nil _ _))
    · rw [hlast] at hmore ⊢
      cases more with
      | nil =>
        obtain ⟨rfl, -⟩ := List.cons.inj hmore
        exact .inr ⟨by rwa [List.append_nil], rfl⟩
      | cons e more =>
        exact absurd (List.cons.inj hmore).2.symm
          (List.append_ne_nil_of_right_ne_nil _ (List.cons_ne_nil _ _))
  · rw [h'.1, List.append_assoc, List.cons_append] at hitems
    obtain ⟨rfl, heq, -⟩ := stops_unique hitems.symm (Stops.of_isTerminal ht)
      (Stops.of_isTerminal h'.2.2) hregular h'.2.1
    obtain rfl := Except.ok.inj heq
    exact .inl ⟨tail', h'⟩
  · obtain ⟨item, tail', hitems', hregular', hitem⟩ := h'
    rw [hitems', List.append_assoc, List.cons_append] at hitems
    obtain ⟨rfl, rfl, -⟩ := stops_unique hitems.symm (Stops.of_isTerminal ht)
      (Stops.of_error hitem) hregular hregular'
    rcases hitem with hitem | ⟨e, hitem, hmisplaced⟩
    · cases hitem
    · obtain rfl := Except.ok.inj hitem
      rw [ProxyEvent.misplaced_of_isTerminal ht] at hmisplaced
      cases hmisplaced

variable (codec x) in
theorem ends_well_iff : x.EndsWell codec ↔ x.EndsInTime codec := by
  constructor
  · intro h
    refine ⟨delivers_iff.mp h.delivers, fun events t tail hreaches hends => ?_,
      fun events t aborted message hall hends ht hlast hfailure => ?_⟩
    · exact (seen_terminal hreaches hends).mp
        (h.result events t _ (x.reachesTerminal_items hreaches) hends)
    · refine (seen_unfinished hall hends ht hfailure).mp
        (h.result events t [] ⟨?_, hall.2, ht⟩ hends)
      rw [items_eq, hall.1, hlast]
  · intro h
    refine ⟨delivers_iff.mpr h.ends, fun events t tail hreaches hends => ?_⟩
    rcases reachesTerminal_cases hreaches with ⟨tail', hcomplete⟩ | ⟨hall, hlast⟩
    · exact (seen_terminal hcomplete hends).mpr (h.keeps events t tail' hcomplete hends)
    · have ht := hreaches.2.2
      cases hfailure : x.failure with
      | none => exact absurd ⟨events, hall⟩ (h.ends.resolve_left (not_not_intro hfailure))
      | some failure =>
          obtain ⟨aborted, message⟩ := failure
          exact (seen_unfinished hall hends ht hfailure).mpr
            (h.uncut events t aborted message hall hends ht hlast hfailure)

def doneCodec : Codec Unit Unit where
  parse data :=
    if data = "\x7b\"type\":\"done\",\"reason\":\"stop\",\"usage\":\x7b\x7d\x7d".toList then
      .ok (.done "stop" ())
    else .error "Unexpected token in JSON"
  parseStreamingJson _ := ()
  emptyArguments := ()
  noUsage := ()

/-- A body whose last line has no newline leaves the result pending. -/
theorem done_unterminated_pending :
    let line := "data: \x7b\"type\":\"done\",\"reason\":\"stop\",\"usage\":\x7b\x7d\x7d"
    ¬ (body [(line.toList, false)] none false).EndsWell doneCodec ∧
      (streamProxy doneCodec (body [(line.toList, false)] none false)).stream.events = [] := by
  refine ⟨fun h => ?_, by decide⟩
  exact absurd h.delivers.1 (by decide)

end ProxyResponse

end Eagent
