import Eagent.EditorText
import Eagent.Killing

/-!
# The single-line input

The state of `Input` and its commands. The cursor is an integer: a yank-pop
moves it by the length of the entry that was yanked, wherever it is.
-/

namespace Eagent

namespace Tui

/-! ## Slices with negative positions -/

/-- A position of `String.prototype.slice`. -/
def resolve (text : Text) (position : Int) : Nat :=
  if position < 0 then (text.length + position).toNat else position.toNat

/-- `text.slice(0, stop)` -/
def sliceTo (text : Text) (stop : Int) : Text := text.take (resolve text stop)

/-- `text.slice(start)` -/
def sliceFrom (text : Text) (start : Int) : Text := text.drop (resolve text start)

/-- `text.slice(start, stop)` -/
def sliceBetween (text : Text) (start stop : Int) : Text :=
  slice text (resolve text start) (resolve text stop)

/-! ## The state -/

structure InputState where
  value : Text
  cursor : Int
deriving DecidableEq

inductive LastAction where
  | kill
  | yank
  | typeWord
deriving DecidableEq

inductive KillCommand where
  | toStartOfLine
  | toEndOfLine
  | wordBackwards
  | wordForward
deriving DecidableEq

/-- The undo stack has its top first. -/
structure Input where
  value : Text := []
  cursor : Int := 0
  killRing : KillRing := KillRing.empty
  lastAction : Option LastAction := none
  undoStack : List InputState := []
deriving DecidableEq

namespace Input

variable (m : Measures) (i : Input)

def setValue (value : Text) : Input := { i with value, cursor := min i.cursor value.length }

def pushUndo : Input := { i with undoStack := ⟨i.value, i.cursor⟩ :: i.undoStack }

def undo : Input :=
  match i.undoStack with
  | [] => i
  | snapshot :: undoStack =>
      { i with value := snapshot.value, cursor := snapshot.cursor, undoStack, lastAction := none }

def insertText (text : Text) : Input :=
  { i with
    value := sliceTo i.value i.cursor ++ text ++ sliceFrom i.value i.cursor
    cursor := i.cursor + text.length }

def insertCharacter (char : Text) : Input :=
  let i := if isWhitespaceChar char = true ∨ i.lastAction ≠ some .typeWord then i.pushUndo else i
  ({ i with lastAction := some .typeWord }).insertText char

def graphemeBefore : Nat :=
  (((m.graphemes (sliceTo i.value i.cursor)).getLast?).map List.length).getD 1

def graphemeAfter : Nat :=
  (((m.graphemes (sliceFrom i.value i.cursor)).head?).map List.length).getD 1

def handleBackspace : Input :=
  let i := { i with lastAction := none }
  if 0 < i.cursor then
    let i := i.pushUndo
    let graphemeLength := i.graphemeBefore m
    { i with
      value := sliceTo i.value (i.cursor - graphemeLength) ++ sliceFrom i.value i.cursor
      cursor := i.cursor - graphemeLength }
  else i

def handleForwardDelete : Input :=
  let i := { i with lastAction := none }
  if i.cursor < i.value.length then
    let i := i.pushUndo
    { i with
      value := sliceTo i.value i.cursor ++ sliceFrom i.value (i.cursor + i.graphemeAfter m) }
  else i

/-! ## Moving -/

def cursorLeft : Input :=
  let i := { i with lastAction := none }
  if 0 < i.cursor then { i with cursor := i.cursor - i.graphemeBefore m } else i

def cursorRight : Input :=
  let i := { i with lastAction := none }
  if i.cursor < i.value.length then { i with cursor := i.cursor + i.graphemeAfter m } else i

def cursorLineStart : Input := { i with lastAction := none, cursor := 0 }

def cursorLineEnd : Input := { i with lastAction := none, cursor := i.value.length }

/-- `findWordBackward(value, cursor)`, without atomic segments. -/
def wordBackward (value : Text) (cursor : Int) : Int :=
  findWordBackward m.wordSegments (fun _ => false) value cursor.toNat

/-- `findWordForward(value, cursor)`, without atomic segments. -/
def wordForward (value : Text) (cursor : Int) : Int :=
  if value.length ≤ cursor then value.length
  else cursor + findWordForward m.wordSegments (fun _ => false) (sliceFrom value cursor) 0

def moveWordBackwards : Input :=
  if i.cursor = 0 then i
  else { i with lastAction := none, cursor := wordBackward m i.value i.cursor }

def moveWordForwards : Input :=
  if i.value.length ≤ i.cursor then i
  else { i with lastAction := none, cursor := wordForward m i.value i.cursor }

/-! ## Killing and yanking -/

def kill (text : Text) (prepend : Bool) : Input :=
  { i with
    killRing := i.killRing.push text prepend (i.lastAction = some .kill)
    lastAction := some .kill }

def deleteToLineStart : Input :=
  if i.cursor = 0 then i
  else
    let i := i.pushUndo.kill (sliceTo i.value i.cursor) true
    { i with value := sliceFrom i.value i.cursor, cursor := 0 }

def deleteToLineEnd : Input :=
  if i.value.length ≤ i.cursor then i
  else
    let i := i.pushUndo.kill (sliceFrom i.value i.cursor) false
    { i with value := sliceTo i.value i.cursor }

def deleteWordBackwards : Input :=
  if i.cursor = 0 then i
  else
    let deleteFrom := (i.moveWordBackwards m).cursor
    let i := i.pushUndo.kill (sliceBetween i.value deleteFrom i.cursor) true
    { i with
      value := sliceTo i.value deleteFrom ++ sliceFrom i.value i.cursor
      cursor := deleteFrom }

def deleteWordForward : Input :=
  if i.value.length ≤ i.cursor then i
  else
    let deleteTo := (i.moveWordForwards m).cursor
    let i := i.pushUndo.kill (sliceBetween i.value i.cursor deleteTo) false
    { i with value := sliceTo i.value i.cursor ++ sliceFrom i.value deleteTo }

def yank : Input :=
  match i.killRing.peek with
  | none => i
  | some text => { i.pushUndo.insertText text with lastAction := some .yank }

def yankPop : Input :=
  if i.lastAction ≠ some .yank ∨ i.killRing.length ≤ 1 then i
  else
    let i := i.pushUndo
    let prevText := i.killRing.peek.getD []
    let i := { i with
      value := sliceTo i.value (i.cursor - prevText.length) ++ sliceFrom i.value i.cursor
      cursor := i.cursor - prevText.length }
    let i := { i with killRing := i.killRing.rotate }
    { i.insertText (i.killRing.peek.getD []) with lastAction := some .yank }

/-- Line ends are removed and a tab becomes four spaces. -/
def cleanPaste (pastedText : Text) : Text :=
  (pastedText.filter fun u => u ≠ 13 ∧ u ≠ 10).flatMap fun u =>
    if u = 9 then [0x20, 0x20, 0x20, 0x20] else [u]

def handlePaste (pastedText : Text) : Input :=
  ({ i with lastAction := none }).pushUndo.insertText (cleanPaste pastedText)

/-! ## Commands -/

def runKill : KillCommand → Input
  | .toStartOfLine => i.deleteToLineStart
  | .toEndOfLine => i.deleteToLineEnd
  | .wordBackwards => i.deleteWordBackwards m
  | .wordForward => i.deleteWordForward m

/-- What an input or a caller does; a submit and a cancel change nothing. -/
inductive Command where
  | setValue (value : Text)
  | report
  | undo
  | backspace
  | forwardDelete
  | kill (command : KillCommand)
  | yank
  | yankPop
  | left
  | right
  | lineStart
  | lineEnd
  | wordLeft
  | wordRight
  | insert (char : Text)
  | paste (pastedText : Text)
deriving DecidableEq

def step : Command → Input
  | .setValue value => i.setValue value
  | .report => i
  | .undo => i.undo
  | .backspace => i.handleBackspace m
  | .forwardDelete => i.handleForwardDelete m
  | .kill command => i.runKill m command
  | .yank => i.yank
  | .yankPop => i.yankPop
  | .left => i.cursorLeft m
  | .right => i.cursorRight m
  | .lineStart => i.cursorLineStart
  | .lineEnd => i.cursorLineEnd
  | .wordLeft => i.moveWordBackwards m
  | .wordRight => i.moveWordForwards m
  | .insert char => i.insertCharacter char
  | .paste pastedText => i.handlePaste pastedText

end Input

end Tui

end Eagent
