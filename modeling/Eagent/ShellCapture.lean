import Eagent.ShellOutput

/-!
# The full-output file

The file that `executeShellWithCapture` names holds every sanitised chunk
once, and is the only one, if and only if nothing asks for a file while one
is being created: `fullOutputPath` is set only when `createTempFile` is
done, so a chunk that arrives before that creates a second one.
-/

namespace Eagent.ShellOutput

open Utf8Text

def Write.isCreate : Write → Bool
  | .create _ => true
  | .append _ _ => false

/-- A `createTempFile` has been asked for and is not done. -/
def Capture.creating (s : Capture) : Bool := s.writeChain.any Write.isCreate

namespace Execution

/-- The sanitised chunks in order. -/
def whole (s : Execution) : List Char := (s.received.map Capture.sanitized).flatten

/-- Nothing that needs the file happens while it is being created. -/
def Timely (s : Execution) : Event → Prop
  | .chunk _ _ => s.capture.creating = false
  | .exec .rejected => True
  | .exec _ => s.capture.creating = false ∨ s.capture.truncationResult.truncated = false
  | _ => True

instance (s : Execution) (e : Event) : Decidable (s.Timely e) := by
  unfold Timely
  split <;> infer_instance

/-- Where the chunks are. -/
inductive Covers (s : Execution) : Prop
  | buffered (hpath : s.capture.fullOutputPath = none) (hchain : s.capture.writeChain = [])
      (hfiles : s.files = [])
      (hchunks : s.capture.chunks.outputChunks = s.received.map Capture.sanitized)
      (hlength : s.capture.chunks.outputBytes ≤ s.capture.totalBytes)
      (hfew : s.capture.totalBytes ≤ defaultMaxBytes)
  | creating (hpath : s.capture.fullOutputPath = none)
      (hchain : s.capture.writeChain = [.create s.whole]) (hfiles : s.files = [])
      (hmany : s.phase = .executing → defaultMaxBytes < s.capture.totalBytes)
  | writing (path : String) (content : List Char) (texts : List (List Char))
      (hpath : s.capture.fullOutputPath = some path)
      (hchain : s.capture.writeChain = texts.map (.append path))
      (hfiles : s.files = [(path, content)]) (hwhole : content ++ texts.flatten = s.whole)

/-- What holds whenever the chunks arrive. -/
structure Sound (s : Execution) : Prop where
  named : s.files ≠ [] → s.capture.fullOutputPath.isSome = true
  returned : ∀ r, s.phase = .returned (some r) → s.capture.captureError = false ∧
    s.capture.writeChain = [] ∧ r.fullOutputPath = s.capture.fullOutputPath

/-- There are two files, or there will be. -/
def Doubled (s : Execution) : Prop :=
  2 ≤ s.files.length + s.capture.writeChain.countP Write.isCreate

theorem whole_concat (s : Execution) (chunk : List Char) :
    ((s.received ++ [chunk]).map Capture.sanitized).flatten =
      s.whole ++ Capture.sanitized chunk := by
  rw [List.map_append, List.flatten_append, List.map_singleton, List.flatten_singleton, whole]

/-! ## Steps -/

section Steps

variable {s s' : Execution}

theorem covers_chunk {chunk : List Char} (h : s.Covers) (herror : s.capture.captureError = false)
    (hok : s.capture.creating = false) :
    Covers { s with
      capture := s.capture.onChunk chunk false
      received := s.received ++ [chunk] } := by
  have hlength : utf16Length (Capture.sanitized chunk) ≤ byteLength chunk := by
    rw [Capture.sanitized, removeReturns, sanitizeBinaryOutput, List.filter_filter]
    exact utf16Length_filter_le _ chunk
  cases h with
  | creating hpath hchain hfiles hmany =>
    rw [Capture.creating, hchain] at hok
    cases hok
  | writing path content texts hpath hchain hfiles hwhole =>
    refine .writing path content (texts ++ [Capture.sanitized chunk]) ?_ ?_ hfiles ?_
    · simp [Capture.onChunk, Capture.appendFullOutput, hpath, herror]
    · simp [Capture.onChunk, Capture.appendFullOutput, hpath, herror, hchain]
    · rw [whole, whole_concat, ← hwhole, List.flatten_append, List.flatten_singleton,
        List.append_assoc]
  | buffered hpath hchain hfiles hchunks hbytes hfew =>
    by_cases hmany : s.capture.totalBytes + byteLength chunk > defaultMaxBytes
    · refine .creating ?_ ?_ hfiles fun _ => ?_
      · simp [Capture.onChunk, Capture.ensureFullOutputFile, hpath, herror, hmany]
      · rw [whole, whole_concat]
        simp [Capture.onChunk, Capture.ensureFullOutputFile, hpath, herror, hmany, hchain,
          OutputChunks.text, hchunks, whole]
      · simp [Capture.onChunk, Capture.ensureFullOutputFile, hpath, herror, hmany]
    · have hpush : s.capture.chunks.push (Capture.sanitized chunk) =
          ⟨s.capture.chunks.outputChunks ++ [Capture.sanitized chunk],
            s.capture.chunks.outputBytes + utf16Length (Capture.sanitized chunk)⟩ := by
        refine OutputChunks.trim_of_le ?_ _
        omega
      refine .buffered ?_ ?_ hfiles ?_ ?_ ?_ <;>
        simp only [Capture.onChunk, Capture.appendFullOutput, hpath, hmany, decide_false,
          Bool.false_and, Bool.false_eq_true, if_false, hpush]
      · exact hchain
      · rw [hchunks, List.map_append, List.map_singleton]
      · omega
      · omega

/-- Once the command has ended, it does not matter how. -/
theorem Covers.ends (h : s.Covers) {phase : Phase} (hphase : phase ≠ .executing) :
    Covers { s with phase } := by
  cases h with
  | buffered hpath hchain hfiles hchunks hbytes hfew =>
    exact .buffered hpath hchain hfiles hchunks hbytes hfew
  | creating hpath hchain hfiles hmany => exact .creating hpath hchain hfiles (absurd · hphase)
  | writing path content texts hpath hchain hfiles hwhole =>
    exact .writing path content texts hpath hchain hfiles hwhole

theorem covers_complete {result : ExecResult} (h : s.Covers)
    (herror : s.capture.captureError = false)
    (hok : s.capture.creating = false ∨ s.capture.truncationResult.truncated = false) :
    Covers { s with capture := s.capture.complete, phase := .completing result } := by
  by_cases hneed : (s.capture.truncationResult.truncated && s.capture.fullOutputPath.isNone) = true
  · obtain ⟨htruncated, hnone⟩ := Bool.and_eq_true_iff.mp hneed
    cases h with
    | buffered hpath hchain hfiles hchunks hbytes hfew =>
      refine .creating ?_ ?_ hfiles Phase.noConfusion
      · simp [Capture.complete, htruncated, Capture.ensureFullOutputFile, hpath, herror]
      · simp [Capture.complete, htruncated, Capture.ensureFullOutputFile, hpath, herror, hchain,
          OutputChunks.text, hchunks, whole]
    | creating hpath hchain hfiles hmany =>
      rw [Capture.creating, hchain, htruncated] at hok
      simp [Write.isCreate] at hok
    | writing path content texts hpath hchain hfiles hwhole =>
      rw [hpath] at hnone
      cases hnone
  · have hsame : s.capture.complete = s.capture := by rw [Capture.complete, if_neg hneed]
    rw [hsame]
    exact h.ends Phase.noConfusion

theorem appendFile_only (path : String) (content text : List Char) :
    appendFile path text [(path, content)] = [(path, content ++ text)] := by
  rw [appendFile, List.map_singleton, if_pos rfl]

theorem length_appendFile (path : String) (text : List Char) (files : List (String × List Char)) :
    (appendFile path text files).length = files.length := List.length_map _

variable {e : Event}

theorem Covers.step (h : s.capture.captureError = false → s.Covers) (hok : s.Timely e)
    (hstep : s.step e = some s') (herror : s'.capture.captureError = false) : s'.Covers := by
  rcases step_cases hstep with ⟨chunk, throws, rfl, -, rfl⟩ | ⟨rfl, -, rfl⟩ |
    ⟨result, hresult, rfl, -, rfl⟩ | ⟨path, initialContent, rest, rfl, -, hhead, rfl⟩ |
    ⟨path, text, rest, rfl, hhead, rfl⟩ | ⟨aborted, result, rfl, -, hnil, rfl⟩
  · obtain ⟨writes, hwrites⟩ := s.capture.onChunk_frame chunk throws
    rw [hwrites, Bool.or_eq_false_iff] at herror
    obtain ⟨hbefore, rfl⟩ := herror
    exact covers_chunk (h hbefore) hbefore hok
  · exact (h herror).ends Phase.noConfusion
  · obtain ⟨writes, hwrites⟩ := s.capture.complete_frame
    rw [hwrites] at herror
    refine covers_complete (h herror) herror ?_
    cases result with
    | rejected => exact absurd rfl hresult
    | ok exitCode => exact hok
    | error aborted => exact hok
  · cases h herror with
    | buffered hpath hchain hfiles hchunks hbytes hfew =>
      rw [hchain] at hhead
      cases hhead
    | creating hpath hchain hfiles hmany =>
      rw [hchain] at hhead
      cases hhead
      exact .writing path [] [s.whole] rfl rfl (by rw [hfiles]; rfl) (by simp [whole])
    | writing path' content texts hpath hchain hfiles hwhole =>
      rw [hchain] at hhead
      cases texts <;> cases hhead
  · cases h herror with
    | buffered hpath hchain hfiles hchunks hbytes hfew =>
      rw [hchain] at hhead
      cases hhead
    | creating hpath hchain hfiles hmany =>
      rw [hchain] at hhead
      cases hhead
    | writing path' content texts hpath hchain hfiles hwhole =>
      rw [hchain] at hhead
      cases texts with
      | nil => cases hhead
      | cons text' texts =>
        cases hhead
        refine .writing path (content ++ text) texts hpath rfl ?_ ?_
        · dsimp only
          rw [hfiles, appendFile_only]
        · rw [whole, List.append_assoc, ← List.flatten_cons, hwhole, whole]
  · exact (h herror).ends Phase.noConfusion

theorem path_result {capture : Capture} {exec : ExecResult} {aborted : Bool}
    {r : ShellCaptureResult} (h : capture.result exec aborted = some r) :
    capture.captureError = false ∧ r.fullOutputPath = capture.fullOutputPath := by
  unfold Capture.result at h
  obtain ⟨herror, hr⟩ := Option.ite_none_left_eq_some.mp h
  refine ⟨Bool.eq_false_iff.mpr herror, ?_⟩
  cases exec with
  | ok exitCode =>
    cases hr
    rfl
  | error execAborted =>
    obtain ⟨-, hr⟩ := Option.ite_none_right_eq_some.mp hr
    cases hr
    rfl
  | rejected => cases hr

theorem Sound.step (h : s.Sound) (hstep : s.step e = some s') : s'.Sound := by
  rcases step_cases hstep with ⟨chunk, throws, -, hphase, rfl⟩ | ⟨-, -, rfl⟩ |
    ⟨result, -, -, -, rfl⟩ | ⟨path, initialContent, rest, -, -, hhead, rfl⟩ |
    ⟨path, text, rest, -, hhead, rfl⟩ | ⟨aborted, result, -, -, hnil, rfl⟩
  · obtain ⟨writes, hwrites⟩ := s.capture.onChunk_frame chunk throws
    refine ⟨fun hfiles => ?_, fun r hr => ?_⟩
    · rw [hwrites]
      exact h.named hfiles
    · rw [hphase] at hr
      cases hr
  · exact ⟨h.named, fun r hr => by cases hr⟩
  · obtain ⟨writes, hwrites⟩ := s.capture.complete_frame
    refine ⟨fun hfiles => ?_, fun r hr => by cases hr⟩
    rw [hwrites]
    exact h.named hfiles
  · refine ⟨fun _ => rfl, fun r hr => ?_⟩
    rw [(h.returned r hr).2.1] at hhead
    cases hhead
  · refine ⟨fun hfiles => h.named fun hnil => hfiles ?_, fun r hr => ?_⟩
    · dsimp only
      rw [hnil]
      rfl
    · rw [(h.returned r hr).2.1] at hhead
      cases hhead
  · refine ⟨h.named, fun r hr => ?_⟩
    obtain ⟨herror, hpath⟩ := path_result (Phase.returned.inj hr)
    exact ⟨herror, hnil, hpath⟩

theorem Doubled.step (h : s.Doubled) (hstep : s.step e = some s') : s'.Doubled := by
  unfold Doubled at h ⊢
  rcases step_cases hstep with ⟨chunk, throws, -, -, rfl⟩ | ⟨-, -, rfl⟩ |
    ⟨result, -, -, -, rfl⟩ | ⟨path, initialContent, rest, -, -, hhead, rfl⟩ |
    ⟨path, text, rest, -, hhead, rfl⟩ | ⟨aborted, result, -, -, hnil, rfl⟩
  · obtain ⟨writes, hwrites⟩ := s.capture.onChunk_frame chunk throws
    rw [hwrites, List.countP_append]
    dsimp only
    omega
  · exact h
  · obtain ⟨writes, hwrites⟩ := s.capture.complete_frame
    rw [hwrites, List.countP_append]
    dsimp only
    omega
  · rw [hhead, List.countP_cons_of_pos rfl] at h
    dsimp only
    rw [List.length_append, List.countP_cons_of_neg Bool.false_ne_true, List.length_singleton]
    omega
  · rw [hhead, List.countP_cons_of_neg Bool.false_ne_true] at h
    dsimp only
    rwa [length_appendFile]
  · exact h

theorem error_step (h : s.capture.captureError = true) (hstep : s.step e = some s') :
    s'.capture.captureError = true := by
  rcases step_cases hstep with ⟨chunk, throws, -, -, rfl⟩ | ⟨-, -, rfl⟩ |
    ⟨result, -, -, -, rfl⟩ | ⟨path, initialContent, rest, -, -, -, rfl⟩ |
    ⟨path, text, rest, -, -, rfl⟩ | ⟨aborted, result, -, -, -, rfl⟩
  · obtain ⟨writes, hwrites⟩ := s.capture.onChunk_frame chunk throws
    rw [hwrites, h, Bool.true_or]
  · exact h
  · obtain ⟨writes, hwrites⟩ := s.capture.complete_frame
    rwa [hwrites]
  all_goals exact h

/-- A step that is not in time asks for a second file. -/
theorem Covers.doubles (h : s.Covers) (herror : s.capture.captureError = false)
    (hlate : ¬ s.Timely e) (hstep : s.step e = some s') : s'.Doubled := by
  have hcreating : s.capture.creating = true := by
    cases e with
    | chunk chunk throws => exact Bool.not_eq_false _ ▸ hlate
    | exec result =>
      cases result with
      | rejected => exact absurd trivial hlate
      | ok exitCode => exact Bool.not_eq_false _ ▸ (not_or.mp hlate).1
      | error aborted => exact Bool.not_eq_false _ ▸ (not_or.mp hlate).1
    | created path => exact absurd trivial hlate
    | appended => exact absurd trivial hlate
    | settled aborted => exact absurd trivial hlate
  cases h with
  | buffered hpath hchain hfiles hchunks hbytes hfew =>
    rw [Capture.creating, hchain] at hcreating
    cases hcreating
  | writing path content texts hpath hchain hfiles hwhole =>
    rw [Capture.creating, hchain] at hcreating
    simp [Write.isCreate] at hcreating
  | creating hpath hchain hfiles hmany =>
    rcases step_cases hstep with ⟨chunk, throws, rfl, hphase, rfl⟩ | ⟨rfl, -, -⟩ |
      ⟨result, hresult, rfl, -, rfl⟩ | ⟨path, initialContent, rest, rfl, -⟩ |
      ⟨path, text, rest, rfl, -⟩ | ⟨aborted, result, rfl, -⟩
    · have hover : defaultMaxBytes < s.capture.totalBytes + byteLength chunk :=
        Nat.lt_of_lt_of_le (hmany hphase) (Nat.le_add_right _ _)
      simp [Doubled, Capture.onChunk, Capture.ensureFullOutputFile, hpath, herror, hover, hchain,
        List.countP_cons, Write.isCreate]
    · exact absurd trivial hlate
    · have htruncated : s.capture.truncationResult.truncated = true := by
        cases result with
        | rejected => exact absurd rfl hresult
        | ok exitCode => exact Bool.not_eq_false _ ▸ (not_or.mp hlate).2
        | error aborted => exact Bool.not_eq_false _ ▸ (not_or.mp hlate).2
      simp [Doubled, Capture.complete, htruncated, Capture.ensureFullOutputFile, hpath, herror,
        hchain, List.countP_cons, Write.isCreate]
    all_goals exact absurd trivial hlate

end Steps

/-! ## Runs -/

theorem run_cons {ok : Execution → Event → Prop} [∀ s e, Decidable (ok s e)] {s s' : Execution}
    {e : Event} {events : List Event} (h : Machine.run step ok s (e :: events) = some s') :
    ok s e ∧ ∃ next, s.step e = some next ∧ Machine.run step ok next events = some s' := by
  obtain ⟨hok, hrest⟩ := Option.ite_none_right_eq_some.mp h
  exact ⟨hok, Option.bind_eq_some_iff.mp hrest⟩

/-- Either all steps of a run are in time and the chunks are covered, or two
files are asked for, or the caller's `onChunk` has thrown. -/
theorem run_cases {events : List Event} {s s' : Execution}
    (h : s.capture.captureError = false → s.Covers)
    (hrun : Machine.run step (fun _ _ => True) s events = some s') :
    (Machine.run step Timely s events = some s' ∧
        (s'.capture.captureError = false → s'.Covers)) ∨
      s'.Doubled ∨ s'.capture.captureError = true := by
  induction events generalizing s with
  | nil =>
    obtain rfl := Option.some.inj hrun
    exact .inl ⟨rfl, h⟩
  | cons e events ih =>
    obtain ⟨-, next, hstep, hrest⟩ := run_cons hrun
    by_cases hok : s.Timely e
    · have hnext := ih (Covers.step h hok hstep) hrest
      rw [Machine.run, if_pos hok, hstep]
      exact hnext
    · cases herror : s.capture.captureError with
      | true => exact .inr (.inr (run_keeps (fun _ _ _ => error_step) herror hrun))
      | false =>
        have hdoubled := (h herror).doubles herror hok hstep
        exact .inr (.inl (run_keeps (fun _ _ _ => Doubled.step) hdoubled hrest))

theorem covers_start : Covers {} :=
  .buffered rfl rfl rfl rfl (Nat.le_refl 0) (Nat.zero_le _)

theorem sound_start : Sound {} := ⟨fun h => absurd rfl h, fun r hr => by cases hr⟩

end Execution

open ShellOutput.Execution

def shortEvents : List Event := [.chunk ['a', '\n'] false, .exec (.ok 0), .settled false]

theorem byteLength_replicate (n : Nat) : byteLength (List.replicate n 'a') = n := by
  induction n with
  | zero => rfl
  | succ n ih =>
    have hsize : ('a').utf8Size = 1 := by decide
    rw [List.replicate_succ, byteLength_cons, ih, hsize, Nat.add_comm]

def lateEvents (chunk : List Char) : List Event :=
  [.chunk chunk false, .chunk ['b'] false, .created "first", .appended, .created "second",
    .appended, .exec (.ok 0), .settled false]

theorem onChunk_over {s : Capture} {chunk : List Char} (hpath : s.fullOutputPath = none)
    (herror : s.captureError = false) (hover : defaultMaxBytes < s.totalBytes + byteLength chunk) :
    s.onChunk chunk false = { s with
      chunks := s.chunks.push (Capture.sanitized chunk)
      totalBytes := s.totalBytes + byteLength chunk
      writeChain := s.writeChain ++ [.create (s.chunks.text ++ Capture.sanitized chunk)] } := by
  simp [Capture.onChunk, Capture.ensureFullOutputFile, hpath, herror, hover]

theorem run_lateEvents {chunk : List Char} (hover : defaultMaxBytes < byteLength chunk) :
    ∃ s r, Machine.run step (fun _ _ => True) {} (lateEvents chunk) = some s ∧
      s.phase = .returned (some r) ∧ r.fullOutputPath = some "second" ∧ s.files.length = 2 := by
  have hfirst : Capture.onChunk {} chunk false = _ :=
    onChunk_over (s := {}) rfl rfl (by rwa [Nat.zero_add])
  obtain ⟨first, hfirst'⟩ : ∃ c, Capture.onChunk {} chunk false = c := ⟨_, rfl⟩
  have hsecond : first.onChunk ['b'] false = _ :=
    onChunk_over (s := first) (by rw [← hfirst', hfirst]) (by rw [← hfirst', hfirst])
      (by rw [← hfirst', hfirst]; dsimp only; omega)
  obtain ⟨second, hsecond'⟩ : ∃ c, first.onChunk ['b'] false = c := ⟨_, rfl⟩
  have hpath : second.fullOutputPath = none := by rw [← hsecond', hsecond, ← hfirst', hfirst]
  have herror : second.captureError = false := by rw [← hsecond', hsecond, ← hfirst', hfirst]
  obtain ⟨t, t', hchain⟩ : ∃ t t', second.writeChain = [.create t, .create t'] := by
    rw [← hsecond', hsecond, ← hfirst', hfirst]
    exact ⟨_, _, rfl⟩
  simp [lateEvents, Machine.run, step, hfirst', hsecond', hchain, appendFile, Capture.complete,
    Capture.result, herror]

end Eagent.ShellOutput
