import Eagent.EditOccurrences

/-!
# Buffering of terminal input

`StdinBuffer`: the text that arrives is split into complete escape
sequences, single units and bracketed pastes. A call returns the new state
and the items it produces in order: the emitted `data` and `paste` events,
and, where nothing is emitted, the unit that was suppressed. Strings are
lists of UTF-16 units.
-/

namespace Eagent

namespace Tui

open EditTool (indexOf)

/-! ## Units and markers -/

def esc : UInt16 := 0x1b

/-- `[` -/
def openBracket : UInt16 := 0x5b

/-- `\x1b[200~` -/
def BRACKETED_PASTE_START : Text := [esc, openBracket, 0x32, 0x30, 0x30, 0x7e]

/-- `\x1b[201~` -/
def BRACKETED_PASTE_END : Text := [esc, openBracket, 0x32, 0x30, 0x31, 0x7e]

/-- `\d` -/
def isDigitUnit (u : UInt16) : Bool := 0x30 ≤ u && u ≤ 0x39

/-- `/^\d+$/` -/
def isDigits (text : Text) : Bool := !text.isEmpty && text.all isDigitUnit

/-! ## Complete sequences -/

inductive SequenceStatus where
  | complete
  | incomplete
  | notEscape
deriving Repr, DecidableEq

def afterDigits (rest : Text → Bool) (text : Text) : Bool :=
  !(text.takeWhile isDigitUnit).isEmpty && rest (text.dropWhile isDigitUnit)

/-- `;`, and then what the rest has to be. -/
def afterSemicolon (rest : Text → Bool) : Text → Bool
  | [] => false
  | u :: text => u = 0x3b && rest text

/-- `[Mm]` -/
def isMouseFinal (u : UInt16) : Bool := u = 0x4d || u = 0x6d

/-- `/^<\d+;\d+;\d+[Mm]$/` -/
def mouseMatch : Text → Bool
  | [] => false
  | u :: text =>
      u = 0x3c && afterDigits (afterSemicolon (afterDigits (afterSemicolon (afterDigits
        fun final => final.length = 1 && final.all isMouseFinal)))) text

/-- The final byte of a CSI sequence. -/
def isFinalUnit (u : UInt16) : Bool := 0x40 ≤ u && u ≤ 0x7e

/-- `ESC [` … final byte; `data` begins with `ESC [`. -/
def isCompleteCsiSequence (data : Text) : SequenceStatus :=
  if data.length < 3 then .incomplete
  else
    let payload := data.drop 2
    match payload.getLast? with
    | none => .incomplete
    | some lastChar =>
        if isFinalUnit lastChar then
          if payload.head? = some 0x3c then
            if mouseMatch payload then .complete
            else
              let parts := (payload.drop 1).dropLast.splitOn 0x3b
              if isMouseFinal lastChar && parts.length = 3 && parts.all isDigits then .complete
              else .incomplete
          else .complete
        else .incomplete

/-- `ESC \` -/
def stringTerminator : Text := [esc, 0x5c]

/-- `ESC ]` … `ESC \` or BEL. -/
def isCompleteOscSequence (data : Text) : SequenceStatus :=
  if stringTerminator.isSuffixOf data || data.getLast? = some 0x07 then .complete
  else .incomplete

/-- `ESC P` … `ESC \` -/
def isCompleteDcsSequence (data : Text) : SequenceStatus :=
  if stringTerminator.isSuffixOf data then .complete else .incomplete

/-- `ESC _` … `ESC \` -/
def isCompleteApcSequence (data : Text) : SequenceStatus :=
  if stringTerminator.isSuffixOf data then .complete else .incomplete

def isCompleteSequence (data : Text) : SequenceStatus :=
  match data with
  | [] => .notEscape
  | u :: afterEsc =>
      if u ≠ esc then .notEscape
      else match afterEsc with
        | [] => .incomplete
        | v :: rest =>
            if v = openBracket then
              if rest.head? = some 0x4d then
                if data.length ≥ 6 then .complete else .incomplete
              else isCompleteCsiSequence data
            else if v = 0x5d then isCompleteOscSequence data
            else if v = 0x50 then isCompleteDcsSequence data
            else if v = 0x5f then isCompleteApcSequence data
            else if v = 0x4f then if afterEsc.length ≥ 2 then .complete else .incomplete
            else .complete

/-! ## Extracting sequences -/

structure Extracted where
  sequences : List Text
  remainder : Text
deriving Repr, DecidableEq

/-- `[`, `]`, `O`, `P` and `_` begin a new escape sequence. -/
def beginsSequence (nextChar : Option UInt16) : Bool :=
  nextChar = some openBracket || nextChar = some 0x5d || nextChar = some 0x4f ||
    nextChar = some 0x50 || nextChar = some 0x5f

def Extracted.push (sequence : Text) (e : Extracted) : Extracted :=
  { e with sequences := sequence :: e.sequences }

/-- The first `seqEnd` at which the text is not incomplete. -/
def findSeqEnd (remaining : Text) : Option Nat :=
  (List.range' 1 remaining.length).find? fun seqEnd =>
    isCompleteSequence (remaining.take seqEnd) ≠ .incomplete

/-- The loop over the positions, each turn taking a sequence or a unit. -/
def extractLoop : Nat → Text → Extracted
  | 0, remaining => ⟨[], remaining⟩
  | _, [] => ⟨[], []⟩
  | n + 1, u :: rest =>
      let remaining := u :: rest
      if u = esc then
        match findSeqEnd remaining with
        | none => ⟨[], remaining⟩
        | some seqEnd =>
            let candidate := remaining.take seqEnd
            if candidate = [esc, esc] && beginsSequence remaining[seqEnd]? then
              (extractLoop n (remaining.drop 1)).push [esc]
            else (extractLoop n (remaining.drop seqEnd)).push candidate
      else (extractLoop n rest).push [u]

def extractCompleteSequences (buffer : Text) : Extracted := extractLoop buffer.length buffer

/-! ## Kitty duplicates -/

/-- `parseInt` of a run of digits. -/
def parseDigits (text : Text) : Nat :=
  text.foldl (fun n u => n * 10 + (u.toNat - 0x30)) 0

/-- `(?::\d*)?(?::\d+)?u$` -/
def isKittyTail (text : Text) : Bool :=
  match text with
  | [u] => u = 0x75
  | u :: rest =>
      u = 0x3a &&
        match rest.dropWhile isDigitUnit with
        | [v] => v = 0x75
        | v :: rest => v = 0x3a && afterDigits (fun final => final = [0x75]) rest
        | [] => false
  | [] => false

/-- The codepoint of `/^\x1b\[(\d+)(?::\d*)?(?::\d+)?u$/`, from 32 on. -/
def parseUnmodifiedKittyPrintableCodepoint (sequence : Text) : Option Nat :=
  match sequence with
  | e :: b :: rest =>
      if e = esc && b = openBracket && afterDigits isKittyTail rest then
        let codepoint := parseDigits (rest.takeWhile isDigitUnit)
        if codepoint ≥ 32 then some codepoint else none
      else none
  | _ => none

/-! ## The buffer -/

structure StdinBuffer where
  buffer : Text := []
  pasteMode : Bool := false
  pasteBuffer : Text := []
  pendingKittyPrintableCodepoint : Option Nat := none
deriving Repr, DecidableEq

/-- What a call produces; `suppressed` is a unit that is not emitted, and
`flushed` what `flush` returns. -/
inductive Item where
  | data (sequence : Text)
  | suppressed (unit : UInt16)
  | paste (content : Text)
  | flushed (sequence : Text)
deriving Repr, DecidableEq

/-- `sequence.length === 1 ? sequence.codePointAt(0) : undefined` -/
def rawCodepoint : Text → Option UInt16
  | [u] => some u
  | _ => none

def emitDataSequence (pending : Option Nat) (sequence : Text) : Option Nat × Item :=
  match rawCodepoint sequence with
  | some u =>
      if pending = some u.toNat then (none, .suppressed u)
      else (parseUnmodifiedKittyPrintableCodepoint sequence, .data sequence)
  | none => (parseUnmodifiedKittyPrintableCodepoint sequence, .data sequence)

def emitAll : Option Nat → List Text → Option Nat × List Item
  | pending, [] => (pending, [])
  | pending, sequence :: rest =>
      let (pending, item) := emitDataSequence pending sequence
      let (pending, items) := emitAll pending rest
      (pending, item :: items)

namespace StdinBuffer

/-- Content that follows a paste start: kept while the paste is open, else
the paste is emitted and what stands behind its end goes through `process`. -/
def readPaste (process : StdinBuffer → Text → StdinBuffer × List Item) (s : StdinBuffer)
    (pasteBuffer : Text) : StdinBuffer × List Item :=
  match indexOf BRACKETED_PASTE_END pasteBuffer with
  | none => ({ s with buffer := [], pasteMode := true, pasteBuffer }, [])
  | some endIndex =>
      let pastedContent := pasteBuffer.take endIndex
      let remaining := pasteBuffer.drop (endIndex + BRACKETED_PASTE_END.length)
      if remaining.length > 0 then
        let (s, items) := process {} remaining
        (s, .paste pastedContent :: items)
      else ({}, [.paste pastedContent])

/-- `process`, the calls for the text behind a paste counted. -/
def processLoop : Nat → StdinBuffer → Text → StdinBuffer × List Item
  | 0, s, _ => (s, [])
  | n + 1, s, str =>
      if str.length = 0 ∧ s.buffer.length = 0 then
        let (pending, item) := emitDataSequence s.pendingKittyPrintableCodepoint []
        ({ s with pendingKittyPrintableCodepoint := pending }, [item])
      else
        let buffer := s.buffer ++ str
        if s.pasteMode then readPaste (processLoop n) s (s.pasteBuffer ++ buffer)
        else match indexOf BRACKETED_PASTE_START buffer with
          | some startIndex =>
              let result := extractCompleteSequences (buffer.take startIndex)
              let (_, items) := emitAll s.pendingKittyPrintableCodepoint result.sequences
              let (s, pasted) := readPaste (processLoop n)
                { s with pendingKittyPrintableCodepoint := none }
                (buffer.drop (startIndex + BRACKETED_PASTE_START.length))
              (s, items ++ pasted)
          | none =>
              let result := extractCompleteSequences buffer
              let (pending, items) := emitAll s.pendingKittyPrintableCodepoint result.sequences
              ({ s with
                buffer := result.remainder
                pendingKittyPrintableCodepoint := pending }, items)

def process (s : StdinBuffer) (str : Text) : StdinBuffer × List Item :=
  processLoop (s.pasteBuffer.length + s.buffer.length + str.length + 1) s str

/-- The buffer is returned, whatever it holds. -/
def flush (s : StdinBuffer) : StdinBuffer × List Text :=
  if s.buffer.length = 0 then (s, [])
  else ({ s with buffer := [], pendingKittyPrintableCodepoint := none }, [s.buffer])

/-- The timer: what `flush` returns is emitted. -/
def timeout (s : StdinBuffer) : StdinBuffer × List Item :=
  let (s, flushed) := s.flush
  let (pending, items) := emitAll s.pendingKittyPrintableCodepoint flushed
  ({ s with pendingKittyPrintableCodepoint := pending }, items)

end StdinBuffer

/-- What happens to the buffer from outside. -/
inductive InputAction where
  | chunk (str : Text)
  | flush
  | timeout
deriving Repr, DecidableEq

def StdinBuffer.act (s : StdinBuffer) : InputAction → StdinBuffer × List Item
  | .chunk str => s.process str
  | .flush => (s.flush.1, s.flush.2.map Item.flushed)
  | .timeout => s.timeout

def StdinBuffer.run : StdinBuffer → List InputAction → StdinBuffer × List Item
  | s, [] => (s, [])
  | s, action :: rest =>
      let (s, items) := s.act action
      let (s, more) := s.run rest
      (s, items ++ more)

end Tui

end Eagent
