import Mathlib.Data.List.DropRight
import Eagent.TrackerCodes

/-!
# Wrapping a text with escape sequences

`wrapTextWithAnsi` wraps the lines of a text one by one, each behind the codes
that are active before it. A line is split into tokens, which carry the codes
before them; a token that is too long is broken at a grapheme. At the end of a
wrapped line what would bleed into the padding is closed, at the start of the
next one the active codes are opened again.
-/

namespace Eagent

namespace Tui

open EditTool (isWhitespace lf)

/-! ## Tokens -/

/-- `currentKind`: whether the current token is one of spaces. -/
structure TokenState where
  tokens : List Text := []
  current : Text := []
  pendingAnsi : Text := []
  isSpace : Option Bool := none

namespace TokenState

variable (s : TokenState)

def flushCurrent : TokenState :=
  if s.current = [] then s
  else { s with tokens := s.tokens ++ [s.current], current := [], isSpace := none }

def pushCjk (segment : Text) : TokenState :=
  let s := s.flushCurrent
  { s with tokens := s.tokens ++ [s.pendingAnsi ++ segment], pendingAnsi := [] }

def extend (segmentIsSpace : Bool) (segment : Text) : TokenState :=
  let s := if s.current ≠ [] ∧ s.isSpace ≠ some segmentIsSpace then s.flushCurrent else s
  { s with
    current := s.current ++ s.pendingAnsi ++ segment
    pendingAnsi := []
    isSpace := some segmentIsSpace }

def attachPending : TokenState :=
  if s.pendingAnsi = [] then s
  else if s.current ≠ [] then { s with current := s.current ++ s.pendingAnsi }
  else
    match s.tokens.getLast? with
    | some last => { s with tokens := s.tokens.dropLast ++ [last ++ s.pendingAnsi] }
    | none => { s with current := s.pendingAnsi }

def finish : List Text :=
  let s := s.attachPending
  if s.current = [] then s.tokens else s.tokens ++ [s.current]

end TokenState

/-- The current line of a wrapping, and the lines before it. -/
structure WrapLines where
  lines : List Text := []
  currentLine : Text := []
  visibleLength : Nat := 0
  tracker : AnsiCodeTracker := {}

namespace WrapLines

variable (s : WrapLines)

def nextLine (line : Text) : WrapLines :=
  { s with
    lines := s.lines ++ [line ++ s.tracker.getLineEndReset]
    currentLine := s.tracker.getActiveCodes
    visibleLength := 0 }

def append (text : Text) (width : Nat) : WrapLines :=
  { s with currentLine := s.currentLine ++ text, visibleLength := s.visibleLength + width }

end WrapLines

def trimEnd (text : Text) : Text := text.rdropWhile isWhitespace

/-- `token.trim() === ""` -/
def isBlankToken (token : Text) : Bool := token.all isWhitespace

namespace Glyphs

variable (g : Glyphs)

def tokenStep (s : TokenState) : AnsiItem → TokenState
  | .ansi code => { s with pendingAnsi := s.pendingAnsi ++ code }
  | .grapheme segment =>
      let segmentIsSpace := segment = [space]
      if ¬ segmentIsSpace ∧ g.isCjk segment then s.pushCjk segment
      else s.extend segmentIsSpace segment

def splitIntoTokensWithAnsi (text : Text) : List Text :=
  ((g.items text).foldl g.tokenStep {}).finish

/-! ## Long words -/

def breakStep (width : Nat) (s : WrapLines) : AnsiItem → WrapLines
  | .ansi code => { s with currentLine := s.currentLine ++ code, tracker := s.tracker.process code }
  | .grapheme segment =>
      if segment = [] then s
      else
        let graphemeWidth := g.visibleWidth segment
        let s := if width < s.visibleLength + graphemeWidth then s.nextLine s.currentLine else s
        s.append segment graphemeWidth

def breakLongWord (word : Text) (width : Nat) (tracker : AnsiCodeTracker) :
    List Text × AnsiCodeTracker :=
  let s := (g.items word).foldl (g.breakStep width)
    { currentLine := tracker.getActiveCodes, tracker }
  let lines := if s.currentLine = [] then s.lines else s.lines ++ [s.currentLine]
  (if lines = [] then [[]] else lines, s.tracker)

/-! ## Lines -/

def pushLongToken (width : Nat) (s : WrapLines) (token : Text) : WrapLines :=
  let lines := if s.currentLine = [] then s.lines
    else s.lines ++ [s.currentLine ++ s.tracker.getLineEndReset]
  let (broken, tracker) := g.breakLongWord token width s.tracker
  let currentLine := broken.getLastD []
  { lines := lines ++ broken.dropLast
    currentLine
    visibleLength := g.visibleWidth currentLine
    tracker }

def wrapStep (width : Nat) (s : WrapLines) (token : Text) : WrapLines :=
  let tokenVisibleLength := g.visibleWidth token
  let isBlank := isBlankToken token
  if width < tokenVisibleLength ∧ ¬ isBlank then g.pushLongToken width s token
  else
    let s :=
      if width < s.visibleLength + tokenVisibleLength ∧ 0 < s.visibleLength then
        let s := s.nextLine (trimEnd s.currentLine)
        if isBlank then s else s.append token tokenVisibleLength
      else s.append token tokenVisibleLength
    { s with tracker := updateTrackerFromText token s.tracker }

def wrapSingleLine (line : Text) (width : Nat) : List Text :=
  if line = [] then [[]]
  else if g.visibleWidth line ≤ width then [line]
  else
    let s := (g.splitIntoTokensWithAnsi line).foldl (g.wrapStep width) {}
    let wrapped := if s.currentLine = [] then s.lines else s.lines ++ [s.currentLine]
    if wrapped = [] then [[]] else wrapped.map trimEnd

def wrapInputLine (width : Nat) (s : List Text × AnsiCodeTracker) (inputLine : Text) :
    List Text × AnsiCodeTracker :=
  let opening := if s.1 = [] then [] else s.2.getActiveCodes
  (s.1 ++ g.wrapSingleLine (opening ++ inputLine) width, updateTrackerFromText inputLine s.2)

def wrapTextWithAnsi (text : Text) (width : Nat) : List Text :=
  if text = [] then [[]]
  else
    let result := ((text.splitOn lf).foldl (g.wrapInputLine width) ([], {})).1
    if result = [] then [[]] else result

end Glyphs

example : unitGlyphs.wrapTextWithAnsi (unitsOf "ab \u001b[4mcd ef") 5 =
    [unitsOf "ab \u001b[4mcd\u001b[24m", unitsOf "\u001b[4mef"] := by decide

end Tui

end Eagent
