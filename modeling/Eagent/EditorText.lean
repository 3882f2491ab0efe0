import Mathlib.Algebra.GroupWithZero.Nat
import Eagent.OrdMap
import Eagent.SessionManager
import Eagent.StdinBuffer
import Eagent.Utf16Text

/-!
# The texts of an editor

What `Editor` and `Input` compute on one line: its paste markers, its
segments with a marker as one segment, its words. Lines are lists of UTF-16
units. The segmenters of `Intl`, the width of a text and the class of the CJK
characters are parameters (`Measures`).
-/

namespace Eagent

namespace Tui

open EditTool (indexOf)

/-! ## Units -/

def unitsOf (literal : String) : Text := Utf16Text.units literal.toList

/-- `text.slice(start, stop)` -/
def slice (text : Text) (start stop : Nat) : Text := (text.take stop).drop start

/-- `\s` -/
def isSpaceUnit (u : UInt16) : Bool := SessionManager.isJsSpace (Char.ofNat u.toNat)

def isWhitespaceChar (char : Text) : Bool := char.any isSpaceUnit

/-- `PUNCTUATION_REGEX` -/
def isPunctuationUnit (u : UInt16) : Bool :=
  u ∈ [0x21, 0x22, 0x23, 0x24, 0x25, 0x26, 0x27, 0x28, 0x29, 0x2a, 0x2b, 0x2c, 0x2d, 0x2e, 0x2f,
    0x3a, 0x3b, 0x3c, 0x3d, 0x3e, 0x3f, 0x40, 0x5b, 0x5c, 0x5d, 0x5e, 0x60, 0x7b, 0x7c, 0x7d, 0x7e]

/-! ## Paste markers -/

/-- A match of `PASTE_MARKER_REGEX`; the suffix is its second group. -/
structure Marker where
  id : Nat
  suffix : Option Text
  length : Nat
deriving DecidableEq

def takeDigits (text : Text) : Option (Text × Text) :=
  if text.takeWhile isDigitUnit = [] then none
  else some (text.takeWhile isDigitUnit, text.dropWhile isDigitUnit)

/-- `Number` of a run of digits. -/
def numberOf (digits : Text) : Nat := digits.foldl (fun n u => 10 * n + (u.toNat - 0x30)) 0

/-- What follows the digits after `opening` and then `closing`. -/
def stripCount (opening closing text : Text) : Option Text := do
  let (_, rest) ← takeDigits (← text.dropPrefix? opening)
  rest.dropPrefix? closing

/-- What follows `( (\+\d+ lines|\d+ chars))`. -/
def stripSuffix (text : Text) : Option Text :=
  stripCount (unitsOf " +") (unitsOf " lines") text <|>
    stripCount (unitsOf " ") (unitsOf " chars") text

/-- The match of `PASTE_MARKER_REGEX` at the start of a text. -/
def matchMarker (text : Text) : Option Marker := do
  let (digits, rest) ← takeDigits (← text.dropPrefix? (unitsOf "[paste #"))
  let after := (stripSuffix rest).getD rest
  let end_ ← after.dropPrefix? (unitsOf "]")
  some
    { id := numberOf digits
      suffix := (stripSuffix rest).map fun after => rest.take (rest.length - after.length)
      length := text.length - end_.length }

/-- `text.matchAll(PASTE_MARKER_REGEX)`, each match with its index; `skip`
units of the last match are still to be passed over. -/
def markersFrom : Nat → Nat → Text → List (Nat × Marker)
  | _, _, [] => []
  | index, skip + 1, _ :: rest => markersFrom (index + 1) skip rest
  | index, 0, u :: rest =>
      match matchMarker (u :: rest) with
      | some marker => (index, marker) :: markersFrom (index + 1) (marker.length - 1) rest
      | none => markersFrom (index + 1) 0 rest

/-- `text.replace(PASTE_MARKER_REGEX, replacer)` -/
def replaceMarkers (replacer : Text → Marker → Text) : Nat → Text → Text
  | _, [] => []
  | skip + 1, _ :: rest => replaceMarkers replacer skip rest
  | 0, u :: rest =>
      match matchMarker (u :: rest) with
      | some marker =>
          replacer ((u :: rest).take marker.length) marker ++
            replaceMarkers replacer (marker.length - 1) rest
      | none => u :: replaceMarkers replacer 0 rest

def isPasteMarker (segment : Text) : Bool :=
  10 ≤ segment.length && (matchMarker segment).any fun marker => marker.length = segment.length

example : matchMarker (unitsOf "[paste #12 +345 lines] x") =
    some ⟨12, some (unitsOf " +345 lines"), 22⟩ := by decide

/-! ## Segments -/

/-- `Intl.SegmentData` -/
structure SegmentData where
  segment : Text
  index : Nat
  isWordLike : Bool := false
deriving DecidableEq

def SegmentData.stop (s : SegmentData) : Nat := s.index + s.segment.length

/-- The segmenters, the widths and the character class a line is laid out with. -/
structure Measures where
  graphemes : Text → List Text
  /-- the words, and whether they are word-like -/
  words : Text → List (Text × Bool)
  visibleWidth : Text → Nat
  /-- `cjkBreakRegex` -/
  isCjk : Text → Bool

def segmentsFrom : Nat → List (Text × Bool) → List SegmentData
  | _, [] => []
  | index, (segment, isWordLike) :: rest =>
      ⟨segment, index, isWordLike⟩ :: segmentsFrom (index + segment.length) rest

namespace Measures

variable (m : Measures)

def graphemeSegments (text : Text) : List SegmentData :=
  segmentsFrom 0 ((m.graphemes text).map (·, false))

def wordSegments (text : Text) : List SegmentData := segmentsFrom 0 (m.words text)

end Measures

/-- The loop of `segmentWithMarkers`: a span of the list becomes one segment. -/
def mergeSegments (text : Text) : List (Nat × Nat) → List SegmentData → List SegmentData
  | _, [] => []
  | markers, seg :: rest =>
      match markers.dropWhile fun marker => marker.2 ≤ seg.index with
      | [] => seg :: mergeSegments text [] rest
      | (start, stop) :: markers =>
          if start ≤ seg.index ∧ seg.index < stop then
            if seg.index = start then
              ⟨slice text start stop, start, false⟩ ::
                mergeSegments text ((start, stop) :: markers) rest
            else mergeSegments text ((start, stop) :: markers) rest
          else seg :: mergeSegments text ((start, stop) :: markers) rest

def segmentWithMarkers (text : Text) (base : List SegmentData) (validIds : List Nat) :
    List SegmentData :=
  if validIds = [] ∨ indexOf (unitsOf "[paste #") text = none then base
  else
    let markers := (markersFrom 0 0 text).filterMap fun (start, marker) =>
      if marker.id ∈ validIds then some (start, start + marker.length) else none
    if markers = [] then base else mergeSegments text markers base

/-! ## Words -/

def lengthOf (segments : List SegmentData) : Nat :=
  (segments.map fun s => s.segment.length).sum

section Words

variable (segment : Text → List SegmentData) (isAtomic : Text → Bool)

def isBlank (s : SegmentData) : Bool := !isAtomic s.segment && isWhitespaceChar s.segment

def isPunctuationRun (s : SegmentData) : Bool :=
  !isAtomic s.segment && !s.isWordLike && !isWhitespaceChar s.segment

def findWordBackward (text : Text) (cursor : Nat) : Nat :=
  if cursor = 0 then 0
  else
    let segments := (segment (text.take cursor)).reverse
    let newCursor := cursor - lengthOf (segments.takeWhile (isBlank isAtomic))
    let segments := segments.dropWhile (isBlank isAtomic)
    match segments with
    | [] => newCursor
    | last :: _ =>
        if isAtomic last.segment then newCursor - last.segment.length
        else if last.isWordLike then
          -- what follows the last punctuation of the word
          newCursor - (last.segment.reverse.takeWhile fun u => !isPunctuationUnit u).length
        else newCursor - lengthOf (segments.takeWhile (isPunctuationRun isAtomic))

def findWordForward (text : Text) (cursor : Nat) : Nat :=
  if text.length ≤ cursor then text.length
  else
    let segments := segment (text.drop cursor)
    let newCursor := cursor + lengthOf (segments.takeWhile (isBlank isAtomic))
    let segments := segments.dropWhile (isBlank isAtomic)
    match segments with
    | [] => newCursor
    | next :: _ =>
        if isAtomic next.segment then newCursor + next.segment.length
        else if next.isWordLike then
          newCursor + (next.segment.takeWhile fun u => !isPunctuationUnit u).length
        else newCursor + lengthOf (segments.takeWhile (isPunctuationRun isAtomic))

theorem findWordBackward_le (text : Text) (cursor : Nat) :
    findWordBackward segment isAtomic text cursor ≤ cursor := by
  unfold findWordBackward
  split
  · exact Nat.zero_le _
  · dsimp only
    split
    · exact Nat.sub_le _ _
    · split
      · omega
      · split <;> omega

theorem le_findWordForward {text : Text} {cursor : Nat} (h : cursor ≤ text.length) :
    cursor ≤ findWordForward segment isAtomic text cursor := by
  unfold findWordForward
  split
  · exact h
  · dsimp only
    split
    · exact Nat.le_add_right _ _
    · split
      · omega
      · split <;> omega

theorem lengthOf_cons (s : SegmentData) (segments : List SegmentData) :
    lengthOf (s :: segments) = s.segment.length + lengthOf segments := rfl

theorem lengthOf_append (xs ys : List SegmentData) :
    lengthOf (xs ++ ys) = lengthOf xs + lengthOf ys := by
  simp [lengthOf]

theorem lengthOf_takeWhile_le (p : SegmentData → Bool) (segments : List SegmentData) :
    lengthOf (segments.takeWhile p) ≤ lengthOf segments := by
  have hparts := lengthOf_append (segments.takeWhile p) (segments.dropWhile p)
  rw [List.takeWhile_append_dropWhile] at hparts
  omega

theorem lengthOf_segmentsFrom (index : Nat) (segments : List (Text × Bool)) :
    lengthOf (segmentsFrom index segments) = (segments.map Prod.fst).flatten.length := by
  induction segments generalizing index with
  | nil => rfl
  | cons s rest ih =>
    obtain ⟨segment, isWordLike⟩ := s
    rw [segmentsFrom, lengthOf_cons, ih, List.map_cons, List.flatten_cons, List.length_append]

theorem findWordForward_le {text : Text} {cursor : Nat}
    (hparts : lengthOf (segment (text.drop cursor)) ≤ (text.drop cursor).length) :
    findWordForward segment isAtomic text cursor ≤ text.length := by
  unfold findWordForward
  split
  · exact Nat.le_refl _
  · have hsplit := lengthOf_append ((segment (text.drop cursor)).takeWhile (isBlank isAtomic))
      ((segment (text.drop cursor)).dropWhile (isBlank isAtomic))
    rw [List.takeWhile_append_dropWhile] at hsplit
    rw [List.length_drop] at hparts
    dsimp only
    split
    · omega
    · rename_i next rest hrest
      rw [hrest] at hsplit
      have hrun := lengthOf_takeWhile_le (isPunctuationRun isAtomic) (next :: rest)
      rw [lengthOf_cons] at hsplit hrun
      split
      · omega
      · split
        · have hword := (List.takeWhile_prefix (fun u => !isPunctuationUnit u)
            (l := next.segment)).length_le
          omega
        · rw [hrest]
          omega

end Words

end Tui

end Eagent
