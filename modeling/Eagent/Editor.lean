import Eagent.Input

/-!
# The editor

The state of `Editor` and its commands on the text: typing, line breaks,
deletions, kills and yanks, pastes, the prompt history, completions and undo.
Lines and columns are counted in UTF-16 units.

A command returns the new state. What is drawn, the picker of the completions
and the callbacks are left out; a completion is the text its provider returns.
-/

namespace Eagent

namespace Tui

open EditTool (indexOf lf)

/-! ## Arrays -/

/-- `array.splice(start, deleteCount, ...items)` -/
def splice {α : Type} (array : List α) (start deleteCount : Nat) (items : List α) : List α :=
  array.take start ++ items ++ array.drop (start + deleteCount)

/-- `text.split("\n")` -/
def splitLines (text : Text) : List Text := text.splitOn lf

/-- `lines.join("\n")` -/
def joinLines (lines : List Text) : Text := [lf].intercalate lines

/-- `text.lastIndexOf(char, position)`; a negative position counts as 0. -/
def lastIndexOf (char text : Text) (position : Option Int) : Option Nat :=
  let start := match position with
    | some position => min position.toNat text.length
    | none => text.length
  (List.range (start + 1)).reverse.find? fun i => char.isPrefixOf (text.drop i)

/-! ## The state -/

structure EditorState where
  lines : List Text
  cursorLine : Nat
  cursorCol : Nat
deriving DecidableEq

/-- The undo stack has its top first; `historyIndex` is `none` where the
history is not browsed. -/
structure Editor where
  state : EditorState := ⟨[[]], 0, 0⟩
  lastWidth : Nat := 80
  pastes : OrdMap Int Text := OrdMap.empty
  pasteCounter : Int := 0
  history : List Text := []
  historyIndex : Option Nat := none
  historyDraft : Option EditorState := none
  killRing : KillRing := KillRing.empty
  lastAction : Option LastAction := none
  preferredVisualCol : Option Nat := none
  snappedFromCursorCol : Option Nat := none
  undoStack : List EditorState := []

namespace Editor

variable (m : Measures) (e : Editor)

def currentLine : Text := e.state.lines.getD e.state.cursorLine []

def beforeCursor : Text := e.currentLine.take e.state.cursorCol

def afterCursor : Text := e.currentLine.drop e.state.cursorCol

def getText : Text := joinLines e.state.lines

def validPasteIds : List Nat := e.pastes.keys.filterMap Int.toNat?

/-- `this.segment(text, "grapheme")` -/
def graphemes (text : Text) : List SegmentData :=
  segmentWithMarkers text (m.graphemeSegments text) e.validPasteIds

/-- `this.segment(text, "word")` -/
def words (text : Text) : List SegmentData :=
  segmentWithMarkers text (m.wordSegments text) e.validPasteIds

def setCursorCol (col : Nat) : Editor :=
  { e with
    state := { e.state with cursorCol := col }
    preferredVisualCol := none
    snappedFromCursorCol := none }

def setLines (lines : List Text) : Editor := { e with state := { e.state with lines } }

def setCursorLine (cursorLine : Nat) : Editor := { e with state := { e.state with cursorLine } }

/-- `this.state.lines[this.state.cursorLine] = line` -/
def setCurrentLine (line : Text) : Editor :=
  e.setLines (e.state.lines.set e.state.cursorLine line)

def exitHistoryBrowsing : Editor := { e with historyIndex := none, historyDraft := none }

def pushUndoSnapshot : Editor := { e with undoStack := e.state :: e.undoStack }

def undo : Editor :=
  match e.undoStack with
  | [] => e.exitHistoryBrowsing
  | snapshot :: undoStack =>
      { e.exitHistoryBrowsing with
        state := snapshot
        undoStack
        lastAction := none
        preferredVisualCol := none }

/-! ## Inserting -/

/-- Line ends become line feeds and a tab four spaces. -/
def normalizeText (text : Text) : Text :=
  (EditTool.normalizeToLF text).flatMap fun u => if u = 9 then [0x20, 0x20, 0x20, 0x20] else [u]

def insertTextAtCursorInternal (text : Text) : Editor :=
  if text = [] then e
  else
    let normalized := normalizeText text
    let insertedLines := splitLines normalized
    let before := e.beforeCursor
    let after := e.afterCursor
    if insertedLines.length = 1 then
      (e.setCurrentLine (before ++ normalized ++ after)).setCursorCol
        (e.state.cursorCol + normalized.length)
    else
      let last := insertedLines.getLastD []
      let lines := e.state.lines.take e.state.cursorLine ++ [before ++ insertedLines.headD []] ++
        insertedLines.tail.dropLast ++ [last ++ after] ++
        e.state.lines.drop (e.state.cursorLine + 1)
      let e := (e.setLines lines).setCursorLine (e.state.cursorLine + (insertedLines.length - 1))
      e.setCursorCol last.length

def insertCharacter (char : Text) : Editor :=
  let e := e.exitHistoryBrowsing
  let e := if isWhitespaceChar char = true ∨ e.lastAction ≠ some .typeWord then e.pushUndoSnapshot
    else e
  let e := { e with lastAction := some .typeWord }
  (e.setCurrentLine (e.beforeCursor ++ char ++ e.afterCursor)).setCursorCol
    (e.state.cursorCol + char.length)

def insertTextAtCursor (text : Text) : Editor :=
  if text = [] then e
  else
    ({ e.pushUndoSnapshot with lastAction := none }).exitHistoryBrowsing.insertTextAtCursorInternal
      text

def addNewLine : Editor :=
  let e := ({ e.exitHistoryBrowsing with lastAction := none }).pushUndoSnapshot
  let lines := splice (e.state.lines.set e.state.cursorLine e.beforeCursor)
    (e.state.cursorLine + 1) 0 [e.afterCursor]
  ((e.setLines lines).setCursorLine (e.state.cursorLine + 1)).setCursorCol 0

/-! ## Pasting -/

/-- A control character that was sent as `ESC [ code ; 5 u`. -/
def decodeControl (text : Text) : Option (Text × Nat) := do
  let (digits, rest) ← takeDigits (← text.dropPrefix? [esc, openBracket])
  let rest ← rest.dropPrefix? (unitsOf ";5u")
  let cp := numberOf digits
  let length := text.length - rest.length
  if 97 ≤ cp ∧ cp ≤ 122 then some ([UInt16.ofNat (cp - 96)], length)
  else if 65 ≤ cp ∧ cp ≤ 90 then some ([UInt16.ofNat (cp - 64)], length)
  else some (text.take length, length)

/-- The control characters of a pasted text are decoded; `skip` units of the
last one are still to be passed over. -/
def decodeControls : Nat → Text → Text
  | _, [] => []
  | skip + 1, _ :: rest => decodeControls skip rest
  | 0, u :: rest =>
      match decodeControl (u :: rest) with
      | some (decoded, length) => decoded ++ decodeControls (length - 1) rest
      | none => u :: decodeControls 0 rest

/-- `\w` -/
def isWordUnit (u : UInt16) : Bool :=
  isDigitUnit u || (0x41 ≤ u && u ≤ 0x5a) || (0x61 ≤ u && u ≤ 0x7a) || u = 0x5f

/-- What a paste inserts or stores. -/
def cleanPaste (pastedText : Text) : Text :=
  let filtered := (normalizeText (decodeControls 0 pastedText)).filter fun u => u = lf || 32 ≤ u
  if filtered.head?.any (· ∈ [0x2f, 0x7e, 0x2e]) && e.beforeCursor.getLast?.any isWordUnit then
    0x20 :: filtered
  else filtered

def markerText (pasteId : Int) (lines chars : Nat) : Text :=
  if 10 < lines then unitsOf "[paste #" ++ unitsOf (toString pasteId) ++ unitsOf " +" ++
    unitsOf (toString lines) ++ unitsOf " lines]"
  else unitsOf "[paste #" ++ unitsOf (toString pasteId) ++ unitsOf " " ++
    unitsOf (toString chars) ++ unitsOf " chars]"

def handlePaste (pastedText : Text) : Editor :=
  let e := ({ e.exitHistoryBrowsing with lastAction := none }).pushUndoSnapshot
  let filteredText := e.cleanPaste pastedText
  let lines := (splitLines filteredText).length
  if 10 < lines ∨ 1000 < filteredText.length then
    let pasteId := e.pasteCounter + 1
    let e := { e with pasteCounter := pasteId, pastes := e.pastes.set pasteId filteredText }
    e.insertTextAtCursorInternal (markerText pasteId lines filteredText.length)
  else e.insertTextAtCursorInternal filteredText

/-! ## Deleting -/

def mergeWithPrevious : Editor :=
  let previousLine := e.state.lines.getD (e.state.cursorLine - 1) []
  let lines := (e.state.lines.set (e.state.cursorLine - 1) (previousLine ++ e.currentLine)).eraseIdx
    e.state.cursorLine
  ((e.setLines lines).setCursorLine (e.state.cursorLine - 1)).setCursorCol previousLine.length

def mergeWithNext : Editor :=
  let nextLine := e.state.lines.getD (e.state.cursorLine + 1) []
  e.setLines ((e.state.lines.set e.state.cursorLine (e.currentLine ++ nextLine)).eraseIdx
    (e.state.cursorLine + 1))

/-- The text of a marker once the marker `targetId` is gone. -/
def renumber (targetId : Nat) (fullMatch : Text) (marker : Marker) : Text :=
  if marker.id ≤ targetId then fullMatch
  else unitsOf "[paste #" ++ unitsOf (toString ((marker.id : Int) - 1)) ++
    marker.suffix.getD (unitsOf "undefined") ++ unitsOf "]"

def movePaste (targetId : Nat) (pastes : OrdMap Int Text) (marker : Marker) : OrdMap Int Text :=
  if marker.id ≤ targetId then pastes
  else
    let content := (pastes.get marker.id).getD (renumber targetId [] marker)
    (pastes.set ((marker.id : Int) - 1) content).delete marker.id

/-- The marker `targetId` is removed: later ones count one less. -/
def removePaste (targetId : Nat) : Editor :=
  let pastes := e.pastes.delete targetId
  { e with
    pasteCounter := e.pasteCounter - 1
    state := { e.state with lines := e.state.lines.map (replaceMarkers (renumber targetId) 0) }
    pastes := (e.state.lines.flatMap (markersFrom 0 0)).foldl
      (fun pastes marker => movePaste targetId pastes marker.2) pastes }

def handleBackspace : Editor :=
  let e := { e.exitHistoryBrowsing with lastAction := none }
  if 0 < e.state.cursorCol then
    let e := e.pushUndoSnapshot
    let lastGrapheme := (e.graphemes m e.beforeCursor).getLast?
    let graphemeLength := (lastGrapheme.map (·.segment.length)).getD 1
    let e := match lastGrapheme with
      | some last =>
          match matchMarker last.segment with
          | some marker =>
              if marker.length = last.segment.length then e.removePaste marker.id else e
          | none => e
      | none => e
    let before := e.currentLine.take (e.state.cursorCol - graphemeLength)
    (e.setCurrentLine (before ++ e.afterCursor)).setCursorCol (e.state.cursorCol - graphemeLength)
  else if 0 < e.state.cursorLine then e.pushUndoSnapshot.mergeWithPrevious
  else e

def handleForwardDelete : Editor :=
  let e := { e.exitHistoryBrowsing with lastAction := none }
  if e.state.cursorCol < e.currentLine.length then
    let e := e.pushUndoSnapshot
    let graphemeLength := ((e.graphemes m e.afterCursor).head?.map (·.segment.length)).getD 1
    e.setCurrentLine (e.beforeCursor ++ e.currentLine.drop (e.state.cursorCol + graphemeLength))
  else if e.state.cursorLine < e.state.lines.length - 1 then e.pushUndoSnapshot.mergeWithNext
  else e

/-! ## Moving within and between lines -/

def moveToLineStart : Editor := ({ e with lastAction := none }).setCursorCol 0

def moveToLineEnd : Editor := ({ e with lastAction := none }).setCursorCol e.currentLine.length

def moveWordBackwards : Editor :=
  let e := { e with lastAction := none }
  if e.state.cursorCol = 0 then
    if 0 < e.state.cursorLine then
      (e.setCursorLine (e.state.cursorLine - 1)).setCursorCol
        (e.state.lines.getD (e.state.cursorLine - 1) []).length
    else e
  else
    e.setCursorCol (findWordBackward (e.words m) isPasteMarker e.currentLine e.state.cursorCol)

def moveWordForwards : Editor :=
  let e := { e with lastAction := none }
  if e.currentLine.length ≤ e.state.cursorCol then
    if e.state.cursorLine < e.state.lines.length - 1 then
      (e.setCursorLine (e.state.cursorLine + 1)).setCursorCol 0
    else e
  else
    e.setCursorCol (findWordForward (e.words m) isPasteMarker e.currentLine e.state.cursorCol)

/-! ## Killing and yanking -/

def kill (text : Text) (prepend : Bool) : Editor :=
  { e with
    killRing := e.killRing.push text prepend (e.lastAction = some .kill)
    lastAction := some .kill }

def deleteToStartOfLine : Editor :=
  let e := e.exitHistoryBrowsing
  if 0 < e.state.cursorCol then
    ((e.pushUndoSnapshot.kill e.beforeCursor true).setCurrentLine e.afterCursor).setCursorCol 0
  else if 0 < e.state.cursorLine then (e.pushUndoSnapshot.kill [lf] true).mergeWithPrevious
  else e

def deleteToEndOfLine : Editor :=
  let e := e.exitHistoryBrowsing
  if e.state.cursorCol < e.currentLine.length then
    (e.pushUndoSnapshot.kill e.afterCursor false).setCurrentLine e.beforeCursor
  else if e.state.cursorLine < e.state.lines.length - 1 then
    (e.pushUndoSnapshot.kill [lf] false).mergeWithNext
  else e

def deleteWordBackwards : Editor :=
  let e := e.exitHistoryBrowsing
  if e.state.cursorCol = 0 then
    if 0 < e.state.cursorLine then (e.pushUndoSnapshot.kill [lf] true).mergeWithPrevious else e
  else
    let deleteFrom := (e.moveWordBackwards m).state.cursorCol
    let deletedText := slice e.currentLine deleteFrom e.state.cursorCol
    let line := e.currentLine.take deleteFrom ++ e.afterCursor
    ((e.pushUndoSnapshot.kill deletedText true).setCurrentLine line).setCursorCol deleteFrom

def deleteWordForward : Editor :=
  let e := e.exitHistoryBrowsing
  if e.currentLine.length ≤ e.state.cursorCol then
    if e.state.cursorLine < e.state.lines.length - 1 then
      (e.pushUndoSnapshot.kill [lf] false).mergeWithNext
    else e
  else
    let deleteTo := (e.moveWordForwards m).state.cursorCol
    let deletedText := slice e.currentLine e.state.cursorCol deleteTo
    let line := e.beforeCursor ++ e.currentLine.drop deleteTo
    ((e.pushUndoSnapshot.kill deletedText false).setCursorCol e.state.cursorCol).setCurrentLine line

def insertLines (lines : List Text) (position : Nat) : List Text → List Text
  | [] => lines
  | line :: rest => insertLines (splice lines position 0 [line]) (position + 1) rest

def insertYankedText (text : Text) : Editor :=
  let e := e.exitHistoryBrowsing
  let lines := splitLines text
  let before := e.beforeCursor
  let after := e.afterCursor
  if lines.length = 1 then
    (e.setCurrentLine (before ++ text ++ after)).setCursorCol (e.state.cursorCol + text.length)
  else
    let lastLineIndex := e.state.cursorLine + lines.length - 1
    let all := e.state.lines.set e.state.cursorLine (before ++ lines.headD [])
    let all := insertLines all (e.state.cursorLine + 1) lines.tail.dropLast
    let all := splice all lastLineIndex 0 [lines.getLastD [] ++ after]
    ((e.setLines all).setCursorLine lastLineIndex).setCursorCol (lines.getLastD []).length

def deleteYankedText : Editor :=
  match e.killRing.peek with
  | none => e
  | some yankedText =>
      if yankedText = [] then e
      else
        let yankLines := splitLines yankedText
        if yankLines.length = 1 then
          let before := e.currentLine.take (e.state.cursorCol - yankedText.length)
          (e.setCurrentLine (before ++ e.afterCursor)).setCursorCol
            (e.state.cursorCol - yankedText.length)
        else
          let startLine := e.state.cursorLine - (yankLines.length - 1)
          let line := e.state.lines.getD startLine []
          let startCol := line.length - (yankLines.headD []).length
          let lines := splice e.state.lines startLine yankLines.length
            [line.take startCol ++ e.afterCursor]
          ((e.setLines lines).setCursorLine startLine).setCursorCol startCol

def yank : Editor :=
  match e.killRing.peek with
  | none => e
  | some text =>
      { e.pushUndoSnapshot.insertYankedText text with lastAction := some .yank }

def yankPop : Editor :=
  if e.lastAction ≠ some .yank ∨ e.killRing.length ≤ 1 then e
  else
    let e := e.pushUndoSnapshot.deleteYankedText
    let e := { e with killRing := e.killRing.rotate }
    { e.insertYankedText (e.killRing.peek.getD []) with lastAction := some .yank }

/-! ## The history of prompts -/

inductive CursorPlacement where
  | start
  | «end»

def setTextInternal (text : Text) (cursorPlacement : CursorPlacement) : Editor :=
  let lines := splitLines text
  match cursorPlacement with
  | .start => ((e.setLines lines).setCursorLine 0).setCursorCol 0
  | .end =>
      ((e.setLines lines).setCursorLine (lines.length - 1)).setCursorCol (lines.getLastD []).length

/-- The index before the one shown, or before the text itself. -/
def olderIndex : Option Nat → Nat
  | none => 0
  | some i => i + 1

def navigateHistoryUp : Editor :=
  let e := { e with lastAction := none }
  let newIndex := olderIndex e.historyIndex
  if e.history.length ≤ newIndex then e
  else
    let e := if e.historyIndex = none then
        { e.pushUndoSnapshot with historyDraft := some e.state }
      else e
    ({ e with historyIndex := some newIndex }).setTextInternal (e.history.getD newIndex []) .start

def navigateHistoryDown : Editor :=
  let e := { e with lastAction := none }
  match e.historyIndex with
  | none => e
  | some 0 =>
      if e.history = [] then e
      else
        match e.historyDraft with
        | some draft =>
            { e with
              historyIndex := none
              historyDraft := none
              state := draft
              preferredVisualCol := none
              snappedFromCursorCol := none }
        | none => ({ e with historyIndex := none }).setTextInternal [] .end
  | some (i + 1) =>
      if e.history.length ≤ i then e
      else ({ e with historyIndex := some i }).setTextInternal (e.history.getD i []) .end

/-! ## Completions -/

/-- The text and the cursor that `applyCompletion` returned are taken. -/
def applyCompletion (result : EditorState) : Editor :=
  (({ e.pushUndoSnapshot with lastAction := none }).setLines result.lines |>.setCursorLine
    result.cursorLine).setCursorCol result.cursorCol

def setText (text : Text) : Editor :=
  let e := { e.exitHistoryBrowsing with
    lastAction := none
    pastes := OrdMap.empty
    pasteCounter := 0 }
  let normalized := normalizeText text
  (if e.getText ≠ normalized then e.pushUndoSnapshot else e).setTextInternal normalized .end

/-! ## Jumping to a character -/

/-- The lines from the cursor's on; `searchFrom` on the first of them. -/
def jumpForward (char : Text) : List Text → Nat → Nat → Option (Nat × Nat)
  | [], _, _ => none
  | line :: lines, lineIdx, searchFrom =>
      match (indexOf char (line.drop searchFrom)).map (· + searchFrom) with
      | some idx => some (lineIdx, idx)
      | none => jumpForward char lines (lineIdx + 1) 0

def jumpBackward (char : Text) (lines : List Text) : Nat → Option Int → Option (Nat × Nat)
  | lineIdx, searchFrom =>
      match lastIndexOf char (lines.getD lineIdx []) searchFrom with
      | some idx => some (lineIdx, idx)
      | none =>
          match lineIdx with
          | 0 => none
          | lineIdx + 1 => jumpBackward char lines lineIdx none

def jumpToChar (char : Text) (direction : Direction) : Editor :=
  let e := { e with lastAction := none }
  let found := match direction with
    | .forward =>
        jumpForward char (e.state.lines.drop e.state.cursorLine) e.state.cursorLine
          (e.state.cursorCol + 1)
    | .backward =>
        jumpBackward char e.state.lines e.state.cursorLine (some (e.state.cursorCol - 1 : Int))
  match found with
  | some (lineIdx, idx) => (e.setCursorLine lineIdx).setCursorCol idx
  | none => e

end Editor

end Tui

end Eagent
