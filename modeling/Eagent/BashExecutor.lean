import Eagent.AnsiStrip
import Eagent.ShellOutput

/-!
# The bash executor

`executeBashWithOperations`: the bytes of a command are decoded, stripped of
escape sequences and sanitised chunk by chunk. The rolling list and the tail
are those of `executeShellWithCapture`; the temporary file is a stream that
is written at once.
-/

namespace Eagent.BashExecutor

open Utf8Text

variable {decoder : StreamDecoder}

/-- The variables of `executeBashWithOperations`. The file is what has been
written to its stream. -/
structure Execution (decoder : StreamDecoder) where
  chunks : OutputChunks := {}
  tempFile : Option (List (List Char)) := none
  totalBytes : Nat := 0
  decoding : decoder.State := decoder.start

def ensureTempFile (s : Execution decoder) : Execution decoder :=
  match s.tempFile with
  | some _ => s
  | none => { s with tempFile := some s.chunks.outputChunks }

def sanitized (text : List Char) : List Char :=
  removeReturns (sanitizeBinaryOutput (stripAnsi text))

def onData (s : Execution decoder) (data : List UInt8) : Execution decoder :=
  let s := { s with totalBytes := s.totalBytes + data.length }
  let (decoding, decoded) := decoder.decode s.decoding data
  let text := sanitized decoded
  let s := { s with decoding }
  let s := if s.totalBytes > defaultMaxBytes then ensureTempFile s else s
  { s with
    tempFile := s.tempFile.map (· ++ [text])
    chunks := s.chunks.push text }

structure BashResult where
  output : List Char
  exitCode : Option Int
  cancelled : Bool
  truncated : Bool
  fullOutputPath : Option String
deriving DecidableEq

/-- `operations.exec` resolves, or it throws. -/
inductive ExecResult where
  | exit (exitCode : Option Int)
  | threw
deriving DecidableEq

/-- The end of the call; `none` is a rethrown error. `tempFilePath` is the
name that `ensureTempFile` draws. -/
def complete (s : Execution decoder) (tempFilePath : String) (exec : ExecResult) (aborted : Bool) :
    Option BashResult :=
  let fullOutput := s.chunks.text
  let truncationResult := truncateTail fullOutput defaultMaxLines defaultMaxBytes
  let s := if truncationResult.truncated then ensureTempFile s else s
  let result (exitCode : Option Int) (cancelled : Bool) : BashResult :=
    { output := if truncationResult.truncated then truncationResult.content else fullOutput
      exitCode, cancelled, truncated := truncationResult.truncated
      fullOutputPath := s.tempFile.map fun _ => tempFilePath }
  match exec with
  | .exit exitCode => some (result (if aborted then none else exitCode) aborted)
  | .threw => if aborted then some (result none true) else none

def executeBashWithOperations (decoder : StreamDecoder) (output : List (List UInt8))
    (tempFilePath : String) (exec : ExecResult) (aborted : Bool) : Option BashResult :=
  complete (output.foldl onData ({} : Execution decoder)) tempFilePath exec aborted

/-! ## The texts -/

def decodingAfter (decoder : StreamDecoder) (st : decoder.State) (output : List (List UInt8)) :
    decoder.State := output.foldl (fun st data => (decoder.decode st data).1) st

/-- The decoded text of each chunk. -/
def texts (decoder : StreamDecoder) : decoder.State → List (List UInt8) → List (List Char)
  | _, [] => []
  | st, data :: rest =>
      (decoder.decode st data).2 :: texts decoder (decoder.decode st data).1 rest

theorem decodedTexts_eq (st : decoder.State) (output : List (List UInt8)) :
    OutputAccumulator.decodedTexts decoder st output =
      texts decoder st output ++ [decoder.flush (decodingAfter decoder st output)] := by
  induction output generalizing st with
  | nil => rfl
  | cons data output ih =>
    rw [OutputAccumulator.decodedTexts, ih]
    rfl

theorem onData_eq (s : Execution decoder) (data : List UInt8) :
    (onData s data).chunks = s.chunks.push (sanitized (decoder.decode s.decoding data).2) ∧
      (onData s data).decoding = (decoder.decode s.decoding data).1 := by
  unfold onData ensureTempFile
  dsimp only
  split
  · split <;> exact ⟨rfl, rfl⟩
  · exact ⟨rfl, rfl⟩

theorem chunks_foldl (s : Execution decoder) (output : List (List UInt8)) :
    (output.foldl onData s).chunks =
      ((texts decoder s.decoding output).map sanitized).foldl OutputChunks.push s.chunks := by
  induction output generalizing s with
  | nil => rfl
  | cons data output ih =>
    obtain ⟨hchunks, hdecoding⟩ := onData_eq s data
    rw [List.foldl_cons, ih, hchunks, hdecoding]
    rfl

theorem result_eq {output : List (List UInt8)} {tempFilePath : String} {exec : ExecResult}
    {aborted : Bool} {r : BashResult}
    (h : executeBashWithOperations decoder output tempFilePath exec aborted = some r) :
    let kept := (OutputChunks.ofTexts ((texts decoder decoder.start output).map sanitized)).text
    r.output = (truncateTail kept defaultMaxLines defaultMaxBytes).content ∧
      r.truncated = (truncateTail kept defaultMaxLines defaultMaxBytes).truncated := by
  intro kept
  have hkept : (output.foldl onData ({} : Execution decoder)).chunks.text = kept := by
    rw [chunks_foldl]
    rfl
  have houtput : (if (truncateTail kept defaultMaxLines defaultMaxBytes).truncated = true then
      (truncateTail kept defaultMaxLines defaultMaxBytes).content else kept) =
        (truncateTail kept defaultMaxLines defaultMaxBytes).content := by
    by_cases hfits : WithinLimits defaultMaxLines defaultMaxBytes kept
    · rw [truncateTail_content, if_pos hfits, ite_self]
    · have hlimits := hfits
      simp only [WithinLimits] at hlimits
      simp only [truncateTail, if_neg hlimits, if_true]
  unfold executeBashWithOperations complete at h
  rw [hkept] at h
  cases exec with
  | exit exitCode =>
    cases h
    exact ⟨houtput, rfl⟩
  | threw =>
    obtain ⟨-, hr⟩ := Option.ite_none_right_eq_some.mp h
    cases hr
    exact ⟨houtput, rfl⟩

end Eagent.BashExecutor
