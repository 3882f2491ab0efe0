import Mathlib.Algebra.GroupWithZero.Nat
import Mathlib.Data.List.DropRight
import Eagent.JsonlFile
import Eagent.Utf8Text

/-!
# The tail of an output

`truncateTail`, and `OutputAccumulator`, which decodes an output chunk by
chunk, keeps a rolling tail of it, and takes its snapshot from that tail.
The temp file is what is written to it.
-/

namespace Eagent

open Utf8Text

/-! ## Truncation -/

inductive TruncatedBy where
  | lines
  | bytes
deriving Repr, DecidableEq

structure TruncationResult where
  content : List Char
  truncated : Bool
  truncatedBy : Option TruncatedBy
  totalLines : Nat
  totalBytes : Nat
  outputLines : Nat
  outputBytes : Nat
  lastLinePartial : Bool
  firstLineExceedsLimit : Bool
  maxLines : Nat
  maxBytes : Nat
deriving Repr, DecidableEq

/-- `content.endsWith("\n")` -/
def endsWithNewline (content : List Char) : Bool := content.getLast? = some '\n'

def splitLinesForCounting (content : List Char) : List (List Char) :=
  if content.length = 0 then []
  else if endsWithNewline content then (splitLines content).dropLast
  else splitLines content

/-- `lines.join("\n")` -/
def joinLines (lines : List (List Char)) : List Char := ['\n'].intercalate lines

def truncateStringToBytesFromEnd (str : List Char) (maxBytes : Nat) : List Char :=
  let buf := encode str
  if buf.length ≤ maxBytes then str
  else charsFrom str (align buf (buf.length - maxBytes))

/-- The variables of the loop of `truncateTail`. -/
structure TailLoop where
  outputLinesArr : List (List Char)
  outputBytesCount : Nat
  truncatedBy : TruncatedBy
  lastLinePartial : Bool

def tailLoop (maxLines maxBytes : Nat) : List (List Char) → TailLoop → TailLoop
  | [], s => s
  | line :: above, s =>
      if s.outputLinesArr.length < maxLines then
        let lineBytes := byteLength line + if s.outputLinesArr.length > 0 then 1 else 0
        if s.outputBytesCount + lineBytes > maxBytes then
          if s.outputLinesArr.length = 0 then
            let truncatedLine := truncateStringToBytesFromEnd line maxBytes
            { outputLinesArr := [truncatedLine], outputBytesCount := byteLength truncatedLine
              truncatedBy := .bytes, lastLinePartial := true }
          else { s with truncatedBy := .bytes }
        else
          tailLoop maxLines maxBytes above
            { s with
              outputLinesArr := line :: s.outputLinesArr
              outputBytesCount := s.outputBytesCount + lineBytes }
      else s

def truncateTail (content : List Char) (maxLines maxBytes : Nat) : TruncationResult :=
  let totalBytes := byteLength content
  let lines := splitLinesForCounting content
  let totalLines := lines.length
  if totalLines ≤ maxLines ∧ totalBytes ≤ maxBytes then
    { content, truncated := false, truncatedBy := none, totalLines, totalBytes
      outputLines := totalLines, outputBytes := totalBytes, lastLinePartial := false
      firstLineExceedsLimit := false, maxLines, maxBytes }
  else
    let s := tailLoop maxLines maxBytes lines.reverse ⟨[], 0, .lines, false⟩
    let outputContent := joinLines s.outputLinesArr
    { content := outputContent, truncated := true
      truncatedBy := some (if s.outputLinesArr.length ≥ maxLines ∧ s.outputBytesCount ≤ maxBytes then
        .lines else s.truncatedBy)
      totalLines, totalBytes
      outputLines := s.outputLinesArr.length, outputBytes := byteLength outputContent
      lastLinePartial := s.lastLinePartial, firstLineExceedsLimit := false, maxLines, maxBytes }

/-! ## Decoding -/

/-- A streaming decoder: whatever the chunks, it gives the text of all the
bytes. -/
structure StreamDecoder where
  State : Type
  start : State
  decode : State → List UInt8 → State × List Char
  flush : State → List Char
  text : List UInt8 → List Char
  sound : ∀ chunks : List (List UInt8),
    let s := chunks.foldl (fun s chunk => ((decode s.1 chunk).1, s.2 ++ (decode s.1 chunk).2))
      (start, [])
    s.2 ++ flush s.1 = text chunks.flatten

/-! ## The accumulator -/

/-- What has been written, and whether the stream is still open. -/
structure TempFile where
  path : String
  written : List (List UInt8)
  isOpen : Bool
deriving DecidableEq

def TempFile.write (file : TempFile) (data : List UInt8) : TempFile :=
  if file.isOpen then { file with written := file.written ++ [data] } else file

structure OutputAccumulator (decoder : StreamDecoder) where
  maxLines : Nat
  maxBytes : Nat
  tempFilePath : String
  decoderState : decoder.State
  rawChunks : List (List UInt8)
  tailText : List Char
  tailBytes : Nat
  tailStartsAtLineBoundary : Bool
  totalRawBytes : Nat
  totalDecodedBytes : Nat
  completedLines : Nat
  totalLines : Nat
  currentLineBytes : Nat
  hasOpenLine : Bool
  finished : Bool
  tempFile : Option TempFile

structure OutputSnapshot where
  content : List Char
  truncation : TruncationResult
  fullOutputPath : Option String
deriving DecidableEq

namespace OutputAccumulator

variable {decoder : StreamDecoder}

/-- The constructor; `tempFilePath` is the path a temp file will get. -/
def new (decoder : StreamDecoder) (maxLines maxBytes : Nat) (tempFilePath : String) :
    OutputAccumulator decoder where
  maxLines
  maxBytes
  tempFilePath
  decoderState := decoder.start
  rawChunks := []
  tailText := []
  tailBytes := 0
  tailStartsAtLineBoundary := true
  totalRawBytes := 0
  totalDecodedBytes := 0
  completedLines := 0
  totalLines := 0
  currentLineBytes := 0
  hasOpenLine := false
  finished := false
  tempFile := none

def maxRollingBytes (s : OutputAccumulator decoder) : Nat := max (s.maxBytes * 2) 1

def trimTail (s : OutputAccumulator decoder) : OutputAccumulator decoder :=
  let buffer := encode s.tailText
  if buffer.length ≤ s.maxRollingBytes then { s with tailBytes := buffer.length }
  else
    let start := align buffer (buffer.length - s.maxRollingBytes)
    let tailText := charsFrom s.tailText start
    { s with
      tailStartsAtLineBoundary :=
        if start = 0 then s.tailStartsAtLineBoundary else buffer[start - 1]? = some 0x0a
      tailText
      tailBytes := byteLength tailText }

/-- What comes after the last line end. -/
def afterLastNewline (text : List Char) : List Char := text.rtakeWhile (· ≠ '\n')

def countLines (s : OutputAccumulator decoder) (text : List Char) : OutputAccumulator decoder :=
  let newlines := text.count '\n'
  let counted :=
    if newlines = 0 then
      { s with
        currentLineBytes := s.currentLineBytes + byteLength text
        hasOpenLine := true }
    else
      let tail := afterLastNewline text
      { s with
        completedLines := s.completedLines + newlines
        currentLineBytes := byteLength tail
        hasOpenLine := tail.length > 0 }
  { counted with totalLines := counted.completedLines + if counted.hasOpenLine then 1 else 0 }

def appendDecodedText (s : OutputAccumulator decoder) (text : List Char) :
    OutputAccumulator decoder :=
  if text.length = 0 then s
  else
    let bytes := byteLength text
    let kept :=
      { s with
        totalDecodedBytes := s.totalDecodedBytes + bytes
        tailText := s.tailText ++ text
        tailBytes := s.tailBytes + bytes }
    countLines (if kept.tailBytes > kept.maxRollingBytes * 2 then kept.trimTail else kept) text

def shouldUseTempFile (s : OutputAccumulator decoder) : Bool :=
  s.totalRawBytes > s.maxBytes ∨ s.totalDecodedBytes > s.maxBytes ∨ s.totalLines > s.maxLines

def ensureTempFile (s : OutputAccumulator decoder) : OutputAccumulator decoder :=
  match s.tempFile with
  | some _ => s
  | none => { s with tempFile := some ⟨s.tempFilePath, s.rawChunks, true⟩, rawChunks := [] }

/-- `append`; no result when it throws. -/
def append (s : OutputAccumulator decoder) (data : List UInt8) :
    Option (OutputAccumulator decoder) :=
  if s.finished then none
  else
    let (decoderState, text) := decoder.decode s.decoderState data
    let s := appendDecodedText
      { s with totalRawBytes := s.totalRawBytes + data.length, decoderState } text
    if s.tempFile.any (·.isOpen) ∨ s.shouldUseTempFile then
      let s := s.ensureTempFile
      some { s with tempFile := s.tempFile.map (TempFile.write · data) }
    else if data.length > 0 then some { s with rawChunks := s.rawChunks ++ [data] }
    else some s

def finish (s : OutputAccumulator decoder) : OutputAccumulator decoder :=
  if s.finished then s
  else
    let s := appendDecodedText { s with finished := true } (decoder.flush s.decoderState)
    if s.shouldUseTempFile then s.ensureTempFile else s

def getSnapshotText (s : OutputAccumulator decoder) : List Char :=
  if s.tailStartsAtLineBoundary then s.tailText
  else match s.tailText.dropWhile (· ≠ '\n') with
    | [] => s.tailText
    | _ :: rest => rest

def snapshot (s : OutputAccumulator decoder) (persistIfTruncated : Bool) :
    OutputAccumulator decoder × OutputSnapshot :=
  let tailTruncation := truncateTail s.getSnapshotText s.maxLines s.maxBytes
  let truncated : Bool := s.totalLines > s.maxLines ∨ s.totalDecodedBytes > s.maxBytes
  let truncation : TruncationResult :=
    { tailTruncation with
      truncated
      truncatedBy :=
        if truncated then
          some (tailTruncation.truncatedBy.getD
            (if s.totalDecodedBytes > s.maxBytes then .bytes else .lines))
        else none
      totalLines := s.totalLines
      totalBytes := s.totalDecodedBytes
      maxLines := s.maxLines
      maxBytes := s.maxBytes }
  let s := if persistIfTruncated ∧ truncation.truncated then s.ensureTempFile else s
  (s, ⟨truncation.content, truncation, s.tempFile.map (·.path)⟩)

/-- `append` of one chunk after another, then `finish`. -/
def run (s : OutputAccumulator decoder) (chunks : List (List UInt8)) :
    Option (OutputAccumulator decoder) :=
  (chunks.foldlM append s).map finish

end OutputAccumulator

end Eagent
