import Eagent.Json
import Eagent.Machine
import Eagent.OutputTail
import Eagent.Utf16Text

/-!
# Captured shell output

`executeShellWithCapture`: the chunks of a command's output are sanitised,
kept in a rolling list, and written to a temporary file once there are too
many bytes. Creating the file and appending to it are asynchronous and run
one after another in `writeChain`; chunks go on arriving meanwhile.

A chunk is a text of whole characters, as the decoder of `exec` gives it.
-/

namespace Eagent

open Utf8Text

def defaultMaxLines : Nat := 2000

def defaultMaxBytes : Nat := 50 * 1024

/-! ## Sanitising -/

def sanitizeBinaryOutput (str : List Char) : List Char :=
  str.filter fun char =>
    let code := char.toNat
    if code = 0x09 ∨ code = 0x0a ∨ code = 0x0d then true
    else if code ≤ 0x1f then false
    else if 0xfff9 ≤ code ∧ code ≤ 0xfffb then false
    else true

/-- `.replace(/\r/g, "")` -/
def removeReturns (str : List Char) : List Char := str.filter (· ≠ '\r')

/-! ## The rolling list -/

structure OutputChunks where
  outputChunks : List (List Char) := []
  outputBytes : Nat := 0
deriving DecidableEq

namespace OutputChunks

/-- `while (outputBytes > maxOutputBytes && outputChunks.length > 1)` -/
def trim (maxOutputBytes : Nat) : List (List Char) → Nat → OutputChunks
  | removed :: next :: rest, outputBytes =>
      if outputBytes > maxOutputBytes then
        trim maxOutputBytes (next :: rest) (outputBytes - utf16Length removed)
      else ⟨removed :: next :: rest, outputBytes⟩
  | outputChunks, outputBytes => ⟨outputChunks, outputBytes⟩

def push (s : OutputChunks) (text : List Char) : OutputChunks :=
  trim (defaultMaxBytes * 2) (s.outputChunks ++ [text]) (s.outputBytes + utf16Length text)

def ofTexts (texts : List (List Char)) : OutputChunks := texts.foldl push {}

/-- `outputChunks.join("")` -/
def text (s : OutputChunks) : List Char := s.outputChunks.flatten

theorem trim_of_le {maxOutputBytes outputBytes : Nat} (h : outputBytes ≤ maxOutputBytes)
    (outputChunks : List (List Char)) :
    trim maxOutputBytes outputChunks outputBytes = ⟨outputChunks, outputBytes⟩ := by
  unfold trim
  split
  · rw [if_neg (Nat.not_lt.mpr h)]
  · rfl

end OutputChunks

/-! ## Lengths -/

def charLength (c : Char) : Nat := if c.toNat < 0x10000 then 1 else 2

theorem foldl_charLength (text : List Char) (n : Nat) :
    text.foldl (fun n c => n + if c.toNat < 0x10000 then 1 else 2) n = n + utf16Length text := by
  rw [utf16Length]
  induction text generalizing n with
  | nil => rfl
  | cons c text ih =>
    rw [List.foldl_cons, List.foldl_cons, ih, ih (0 + _), Nat.zero_add, Nat.add_assoc]

@[simp] theorem utf16Length_nil : utf16Length [] = 0 := rfl

@[simp] theorem utf16Length_cons (c : Char) (text : List Char) :
    utf16Length (c :: text) = charLength c + utf16Length text := by
  rw [utf16Length, List.foldl_cons, foldl_charLength, Nat.zero_add, charLength]

@[simp] theorem utf16Length_append (a b : List Char) :
    utf16Length (a ++ b) = utf16Length a + utf16Length b := by
  rw [utf16Length, List.foldl_append, foldl_charLength]
  rfl

theorem charLength_le (c : Char) : charLength c ≤ c.utf8Size := by
  have hpos := c.utf8Size_pos
  unfold charLength
  split
  · exact hpos
  · rename_i hplane
    rw [Utf16Text.utf8Size_eq, if_neg (by omega), if_neg (by omega), if_neg (by omega)]
    decide

/-- A text has no more units than bytes, and what is left of it neither. -/
theorem utf16Length_filter_le (keep : Char → Bool) (text : List Char) :
    utf16Length (text.filter keep) ≤ byteLength text := by
  induction text with
  | nil => exact Nat.le_refl 0
  | cons c text ih =>
    have hc := charLength_le c
    rw [byteLength_cons, List.filter_cons]
    split
    · rw [utf16Length_cons]
      omega
    · omega

namespace ShellOutput

/-! ## The tail -/

/-- The lines that the harness counts: an empty text has one. -/
def linesOf (content : List Char) : List (List Char) :=
  let lines := splitLines content
  if lines.length > 1 ∧ lines.getLast? = some [] then lines.dropLast else lines

/-- `truncateTail` of the harness. Its loop is that of the tools: both cut a
line that is too long at the same character. -/
def truncateTail (content : List Char) (maxLines maxBytes : Nat) : TruncationResult :=
  let totalBytes := byteLength content
  let lines := linesOf content
  let totalLines := lines.length
  if totalLines ≤ maxLines ∧ totalBytes ≤ maxBytes then
    { content, truncated := false, truncatedBy := none, totalLines, totalBytes
      outputLines := totalLines, outputBytes := totalBytes, lastLinePartial := false
      firstLineExceedsLimit := false, maxLines, maxBytes }
  else
    let s := tailLoop maxLines maxBytes lines.reverse ⟨[], 0, .lines, false⟩
    let outputContent := joinLines s.outputLinesArr
    { content := outputContent, truncated := true
      truncatedBy := some (if s.outputLinesArr.length ≥ maxLines ∧
        s.outputBytesCount ≤ maxBytes then .lines else s.truncatedBy)
      totalLines, totalBytes
      outputLines := s.outputLinesArr.length, outputBytes := byteLength outputContent
      lastLinePartial := s.lastLinePartial, firstLineExceedsLimit := false, maxLines, maxBytes }

/-! ## The capture -/

/-- What is left of a link of `writeChain`. -/
inductive Write where
  | create (initialContent : List Char)
  | append (path : String) (text : List Char)
deriving DecidableEq

/-- The variables of `executeShellWithCapture`. -/
structure Capture where
  chunks : OutputChunks := {}
  totalBytes : Nat := 0
  fullOutputPath : Option String := none
  writeChain : List Write := []
  captureError : Bool := false
deriving DecidableEq

namespace Capture

def appendFullOutput (s : Capture) (text : List Char) : Capture :=
  match s.fullOutputPath with
  | some path =>
      if s.captureError then s else { s with writeChain := s.writeChain ++ [.append path text] }
  | none => s

def ensureFullOutputFile (s : Capture) (initialContent : List Char) : Capture :=
  if s.fullOutputPath.isSome || s.captureError then s
  else { s with writeChain := s.writeChain ++ [.create initialContent] }

/-- The text that a chunk gives. -/
def sanitized (chunk : List Char) : List Char := removeReturns (sanitizeBinaryOutput chunk)

/-- `throws` says whether the caller's `onChunk` does. -/
def onChunk (s : Capture) (chunk : List Char) (throws : Bool) : Capture :=
  let s := { s with totalBytes := s.totalBytes + byteLength chunk }
  let text := sanitized chunk
  let s :=
    if s.totalBytes > defaultMaxBytes && s.fullOutputPath.isNone then
      s.ensureFullOutputFile (s.chunks.text ++ text)
    else s.appendFullOutput text
  { s with chunks := s.chunks.push text, captureError := s.captureError || throws }

/-- `truncateTail(outputChunks.join(""))` -/
def truncationResult (s : Capture) : TruncationResult :=
  truncateTail s.chunks.text defaultMaxLines defaultMaxBytes

/-- What happens between the end of the command and `await writeChain`. -/
def complete (s : Capture) : Capture :=
  if s.truncationResult.truncated && s.fullOutputPath.isNone then
    s.ensureFullOutputFile s.chunks.text
  else s

variable (s : Capture)

theorem appendFullOutput_frame (text : List Char) :
    ∃ writes, s.appendFullOutput text = { s with writeChain := s.writeChain ++ writes } := by
  unfold appendFullOutput
  split
  · split
    · exact ⟨[], by rw [List.append_nil]⟩
    · exact ⟨_, rfl⟩
  · exact ⟨[], by rw [List.append_nil]⟩

theorem ensureFullOutputFile_frame (initialContent : List Char) :
    ∃ writes, s.ensureFullOutputFile initialContent =
      { s with writeChain := s.writeChain ++ writes } := by
  unfold ensureFullOutputFile
  split
  · exact ⟨[], by rw [List.append_nil]⟩
  · exact ⟨_, rfl⟩

/-- What a chunk changes whatever is written. -/
theorem onChunk_frame (chunk : List Char) (throws : Bool) :
    ∃ writes, s.onChunk chunk throws = { s with
      chunks := s.chunks.push (sanitized chunk)
      totalBytes := s.totalBytes + byteLength chunk
      writeChain := s.writeChain ++ writes
      captureError := s.captureError || throws } := by
  unfold onChunk
  dsimp only
  split
  · obtain ⟨writes, hwrites⟩ := ensureFullOutputFile_frame
      { s with totalBytes := s.totalBytes + byteLength chunk } (s.chunks.text ++ sanitized chunk)
    exact ⟨writes, by rw [hwrites]⟩
  · obtain ⟨writes, hwrites⟩ := appendFullOutput_frame
      { s with totalBytes := s.totalBytes + byteLength chunk } (sanitized chunk)
    exact ⟨writes, by rw [hwrites]⟩

theorem complete_frame :
    ∃ writes, s.complete = { s with writeChain := s.writeChain ++ writes } := by
  unfold complete
  split
  · exact ensureFullOutputFile_frame s _
  · exact ⟨[], by rw [List.append_nil]⟩

end Capture

structure ShellCaptureResult where
  output : List Char
  exitCode : Option Int
  cancelled : Bool
  truncated : Bool
  fullOutputPath : Option String
deriving DecidableEq

/-- How `env.exec` ends. -/
inductive ExecResult where
  | ok (exitCode : Int)
  | error (aborted : Bool)
  | rejected
deriving DecidableEq

inductive Phase where
  | executing
  | completing (result : ExecResult)
  /-- `none` is an error -/
  | returned (result : Option ShellCaptureResult)
deriving DecidableEq

/-- A call with its environment: the temporary files in the order of their
creation, and the chunks that have been delivered. -/
structure Execution where
  capture : Capture := {}
  phase : Phase := .executing
  files : List (String × List Char) := []
  received : List (List Char) := []
deriving DecidableEq

inductive Event where
  | chunk (chunk : List Char) (throws : Bool)
  | exec (result : ExecResult)
  /-- `createTempFile` is done -/
  | created (path : String)
  /-- `appendFile` is done -/
  | appended
  /-- `await writeChain` is done -/
  | settled (aborted : Bool)
deriving DecidableEq

def appendFile (path : String) (text : List Char) (files : List (String × List Char)) :
    List (String × List Char) :=
  files.map fun file => if file.1 = path then (file.1, file.2 ++ text) else file

/-- The result after `await writeChain`; `aborted` is
`options?.abortSignal?.aborted`. -/
def Capture.result (s : Capture) (exec : ExecResult) (aborted : Bool) :
    Option ShellCaptureResult :=
  let result (exitCode : Option Int) (cancelled : Bool) : ShellCaptureResult :=
    { output := if s.truncationResult.truncated then s.truncationResult.content else s.chunks.text
      exitCode, cancelled, truncated := s.truncationResult.truncated
      fullOutputPath := s.fullOutputPath }
  if s.captureError then none
  else match exec with
    | .ok exitCode => some (result (if aborted then none else some exitCode) aborted)
    | .error execAborted => if execAborted || aborted then some (result none true) else none
    | .rejected => none

namespace Execution

/-- The calls of `createTempFile` and `appendFile` succeed; a temporary file
is new. -/
def step (s : Execution) : Event → Option Execution
  | .chunk chunk throws =>
      if s.phase = .executing then
        some { s with
          capture := s.capture.onChunk chunk throws
          received := s.received ++ [chunk] }
      else none
  | .exec result =>
      if s.phase = .executing then
        match result with
        | .rejected => some { s with phase := .returned none }
        | result => some { s with capture := s.capture.complete, phase := .completing result }
      else none
  | .created path =>
      match s.capture.writeChain with
      | .create initialContent :: rest =>
          if path ∈ s.files.map Prod.fst then none
          else some { s with
            capture := { s.capture with
              fullOutputPath := some path
              writeChain := .append path initialContent :: rest }
            files := s.files ++ [(path, [])] }
      | _ => none
  | .appended =>
      match s.capture.writeChain with
      | .append path text :: rest =>
          some { s with
            capture := { s.capture with writeChain := rest }
            files := appendFile path text s.files }
      | _ => none
  | .settled aborted =>
      match s.phase, s.capture.writeChain with
      | .completing result, [] =>
          some { s with phase := .returned (s.capture.result result aborted) }
      | _, _ => none

variable {s s' : Execution}

theorem step_cases {e : Event} (h : s.step e = some s') :
    (∃ chunk throws, e = .chunk chunk throws ∧ s.phase = .executing ∧
      s' = { s with
        capture := s.capture.onChunk chunk throws
        received := s.received ++ [chunk] }) ∨
    (e = .exec .rejected ∧ s.phase = .executing ∧ s' = { s with phase := .returned none }) ∨
    (∃ result, result ≠ .rejected ∧ e = .exec result ∧ s.phase = .executing ∧
      s' = { s with capture := s.capture.complete, phase := .completing result }) ∨
    (∃ path initialContent rest, e = .created path ∧ path ∉ s.files.map Prod.fst ∧
      s.capture.writeChain = .create initialContent :: rest ∧
      s' = { s with
        capture := { s.capture with
          fullOutputPath := some path
          writeChain := .append path initialContent :: rest }
        files := s.files ++ [(path, [])] }) ∨
    (∃ path text rest, e = .appended ∧ s.capture.writeChain = .append path text :: rest ∧
      s' = { s with
        capture := { s.capture with writeChain := rest }
        files := appendFile path text s.files }) ∨
    (∃ aborted result, e = .settled aborted ∧ s.phase = .completing result ∧
      s.capture.writeChain = [] ∧
      s' = { s with phase := .returned (s.capture.result result aborted) }) := by
  cases e with
  | chunk chunk throws =>
    obtain ⟨hphase, hs'⟩ := Option.ite_none_right_eq_some.mp h
    exact .inl ⟨chunk, throws, rfl, hphase, (Option.some.inj hs').symm⟩
  | exec result =>
    obtain ⟨hphase, hs'⟩ := Option.ite_none_right_eq_some.mp h
    cases result with
    | rejected => exact .inr (.inl ⟨rfl, hphase, (Option.some.inj hs').symm⟩)
    | ok exitCode =>
      exact .inr (.inr (.inl ⟨_, ExecResult.noConfusion, rfl, hphase,
        (Option.some.inj hs').symm⟩))
    | error aborted =>
      exact .inr (.inr (.inl ⟨_, ExecResult.noConfusion, rfl, hphase,
        (Option.some.inj hs').symm⟩))
  | created path =>
    cases hchain : s.capture.writeChain with
    | nil =>
      rw [step, hchain] at h
      cases h
    | cons write rest =>
      cases write with
      | append path text =>
        rw [step, hchain] at h
        cases h
      | create initialContent =>
        rw [step, hchain] at h
        obtain ⟨hnew, hs'⟩ := Option.ite_none_left_eq_some.mp h
        exact .inr (.inr (.inr (.inl ⟨path, initialContent, rest, rfl, hnew, rfl,
          (Option.some.inj hs').symm⟩)))
  | appended =>
    cases hchain : s.capture.writeChain with
    | nil =>
      rw [step, hchain] at h
      cases h
    | cons write rest =>
      cases write with
      | create initialContent =>
        rw [step, hchain] at h
        cases h
      | append path text =>
        rw [step, hchain] at h
        exact .inr (.inr (.inr (.inr (.inl ⟨path, text, rest, rfl, rfl,
          (Option.some.inj h).symm⟩))))
  | settled aborted =>
    cases hphase : s.phase with
    | executing =>
      rw [step, hphase] at h
      cases h
    | returned result =>
      rw [step, hphase] at h
      cases h
    | completing result =>
      cases hchain : s.capture.writeChain with
      | cons write rest =>
        rw [step, hphase, hchain] at h
        cases h
      | nil =>
        rw [step, hphase, hchain] at h
        exact .inr (.inr (.inr (.inr (.inr ⟨aborted, result, rfl, rfl, rfl,
          (Option.some.inj h).symm⟩))))

theorem run_keeps {I : Execution → Prop} (hkeep : ∀ s e s', I s → s.step e = some s' → I s')
    {events : List Event} {s s' : Execution} (hs : I s)
    (h : Machine.run step (fun _ _ => True) s events = some s') : I s' :=
  (Machine.reaches_of_run h).invariant hs fun s e s' hs _ hstep => hkeep s e s' hs hstep

end Execution

end ShellOutput

end Eagent
