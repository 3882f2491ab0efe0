import Eagent.VisualLines

/-!
# Vertical movement

`moveCursor` in all four directions, of which up and down are what is looked
into. The cursor keeps the column it started from
(`Sticky`): on a shorter visual line it is at its end, and in a segment of
several units it is put to the start, with the column remembered. A way down
and back therefore ends where it began, as long as no column is in a segment
that begins on an earlier visual line.
-/

namespace Eagent

namespace Tui

inductive VerticalMove where
  | up
  | down
deriving DecidableEq

inductive HorizontalMove where
  | left
  | right
deriving DecidableEq

/-- The last column of a visual line; one that is not the last of its line
leaves out its end. -/
def maxVisualCol (visualLines : List VisualLine) (index : Nat) (vl : VisualLine) : Nat :=
  if isLastSegmentOfLine vl visualLines[index + 1]? then vl.length else vl.length - 1

def computeVerticalMoveColumn (preferredVisualCol : Option Nat)
    (currentVisualCol sourceMaxVisualCol targetMaxVisualCol : Nat) : Nat × Option Nat :=
  let moved := if targetMaxVisualCol < currentVisualCol then
      (targetMaxVisualCol, some currentVisualCol)
    else (currentVisualCol, none)
  match preferredVisualCol with
  | none => moved
  | some preferred =>
      if currentVisualCol < sourceMaxVisualCol then moved
      else if targetMaxVisualCol < currentVisualCol ∨ targetMaxVisualCol < preferred then
        (targetMaxVisualCol, some preferred)
      else (preferred, none)

namespace Editor

variable (m : Measures) (e : Editor)

/-- The segment of several units that a column is in. -/
def segmentAt (line : Text) (col : Nat) : Option SegmentData :=
  ((e.graphemes m line).takeWhile fun seg => seg.index ≤ col).find? fun seg =>
    1 < seg.segment.length && col < seg.stop

def currentVisualCol (visualLines : List VisualLine) (currentVL : VisualLine) : Nat :=
  match e.snappedFromCursorCol with
  | some snapped =>
      let vlIndex := findVisualLineAt visualLines currentVL.logicalLine snapped
      snapped - ((visualLines[vlIndex]?).map (·.startCol)).getD 0
  | none => e.state.cursorCol - currentVL.startCol

def placeOn (visualLines : List VisualLine) (current target : Nat)
    (currentVL targetVL : VisualLine) : Editor :=
  let (moveToVisualCol, preferredVisualCol) := computeVerticalMoveColumn e.preferredVisualCol
    (e.currentVisualCol visualLines currentVL) (maxVisualCol visualLines current currentVL)
    (maxVisualCol visualLines target targetVL)
  let logicalLine := e.state.lines.getD targetVL.logicalLine []
  { e with
    preferredVisualCol
    state := { e.state with
      cursorLine := targetVL.logicalLine
      cursorCol := min (targetVL.startCol + moveToVisualCol) logicalLine.length } }

def snapTo (seg : SegmentData) : Editor :=
  { e with
    snappedFromCursorCol := some e.state.cursorCol
    state := { e.state with cursorCol := seg.index } }

def firstPast (visualLines : List VisualLine) (target line stop : Nat) : Nat :=
  target + 1 + ((visualLines.drop (target + 1)).takeWhile fun vl =>
    vl.logicalLine = line && vl.startCol < stop).length

/-- Each call of itself is for a later visual line, so `calls` of them are
enough where that many are left. -/
def moveToVisualLine (visualLines : List VisualLine) (current : Nat) : Nat → Nat → Editor → Editor
  | 0, _, e => e
  | calls + 1, target, e =>
      match visualLines[current]?, visualLines[target]? with
      | some currentVL, some targetVL =>
          let e := e.placeOn visualLines current target currentVL targetVL
          match e.segmentAt m e.currentLine e.state.cursorCol with
          | none => { e with snappedFromCursorCol := none }
          | some seg =>
              if seg.index < targetVL.startCol ∧ current < target then
                let next := firstPast visualLines target targetVL.logicalLine seg.stop
                if next < visualLines.length then
                  moveToVisualLine visualLines current calls next e
                else e.snapTo seg
              else e.snapTo seg
      | _, _ => e

/-- `moveCursor(-1, 0)` and `moveCursor(1, 0)` -/
def moveCursor (depth : Nat) (move : VerticalMove) : Option Editor :=
  let e := { e with lastAction := none }
  (e.buildVisualLineMap m depth e.lastWidth).map fun visualLines =>
    let currentVisualLine := e.findCurrentVisualLine visualLines
    let calls := visualLines.length
    match move with
    | .up =>
        if currentVisualLine = 0 then e
        else e.moveToVisualLine m visualLines currentVisualLine calls (currentVisualLine - 1)
    | .down =>
        if currentVisualLine + 1 < visualLines.length then
          e.moveToVisualLine m visualLines currentVisualLine calls (currentVisualLine + 1)
        else e

/-- `moveCursor(0, -1)` and `moveCursor(0, 1)` -/
def moveCursorBy (depth : Nat) (move : HorizontalMove) : Option Editor :=
  let e := { e with lastAction := none }
  (e.buildVisualLineMap m depth e.lastWidth).map fun visualLines =>
    let currentVisualLine := e.findCurrentVisualLine visualLines
    match move with
    | .right =>
        if e.state.cursorCol < e.currentLine.length then
          let firstGrapheme := (e.graphemes m e.afterCursor).head?
          e.setCursorCol (e.state.cursorCol + (firstGrapheme.map (·.segment.length)).getD 1)
        else if e.state.cursorLine < e.state.lines.length - 1 then
          (e.setCursorLine (e.state.cursorLine + 1)).setCursorCol 0
        else
          match visualLines[currentVisualLine]? with
          | some currentVL =>
              { e with preferredVisualCol := some (e.state.cursorCol - currentVL.startCol) }
          | none => e
    | .left =>
        if 0 < e.state.cursorCol then
          let lastGrapheme := (e.graphemes m e.beforeCursor).getLast?
          e.setCursorCol (e.state.cursorCol - (lastGrapheme.map (·.segment.length)).getD 1)
        else if 0 < e.state.cursorLine then
          let e := e.setCursorLine (e.state.cursorLine - 1)
          e.setCursorCol e.currentLine.length
        else e

end Editor

/-! ## The order of the visual lines -/

def VisualLine.Before (a b : VisualLine) : Prop :=
  a.logicalLine < b.logicalLine ∨
    a.logicalLine = b.logicalLine ∧ 0 < a.length ∧ a.startCol + a.length ≤ b.startCol

variable {m : Measures} {line : Text} {chunks : List TextChunk} {visualLines : List VisualLine}
  {e : Editor} {depth width : Nat}

theorem ordered_chunks {i start stop : Nat} (h : Tiles line start chunks stop) :
    (chunks.map (TextChunk.visualLine i)).Pairwise VisualLine.Before ∧
      ∀ vl ∈ chunks.map (TextChunk.visualLine i), start ≤ vl.startCol ∧
        vl.startCol + vl.length ≤ stop := by
  induction chunks generalizing start with
  | nil => exact ⟨List.Pairwise.nil, List.forall_mem_nil _⟩
  | cons c rest ih =>
    obtain ⟨rfl, hlt, -, hrest⟩ := h
    obtain ⟨hpairwise, hwithin⟩ := ih hrest
    have hend : c.startIndex + (c.endIndex - c.startIndex) = c.endIndex := by omega
    refine ⟨List.pairwise_cons.mpr ⟨fun vl hvl => ?_, hpairwise⟩,
      List.forall_mem_cons.mpr ⟨⟨Nat.le_refl _, ?_⟩, fun vl hvl => ?_⟩⟩
    · obtain ⟨d, -, rfl⟩ := List.mem_map.mp hvl
      refine .inr ⟨rfl, Nat.sub_pos_of_lt hlt, ?_⟩
      exact hend.symm ▸ (hwithin _ hvl).1
    · exact hend.symm ▸ hrest.le
    · obtain ⟨hstart, hstop⟩ := hwithin vl hvl
      exact ⟨by omega, hstop⟩

theorem ordered_collect (hm : m.Lawful) (hwidth : 0 < width) {i : Nat} {lines : List Text}
    (h : collect (e.visualLinesOf m depth width) i lines = some visualLines) :
    visualLines.Pairwise VisualLine.Before ∧ ∀ vl ∈ visualLines, i ≤ vl.logicalLine ∧
      vl.startCol + vl.length ≤ (lines.getD (vl.logicalLine - i) []).length := by
  induction lines generalizing i visualLines with
  | nil =>
    cases h
    exact ⟨List.Pairwise.nil, List.forall_mem_nil _⟩
  | cons line rest ih =>
    obtain ⟨here, hhere, h⟩ := Option.bind_eq_some_iff.mp h
    obtain ⟨below, hbelow, rfl⟩ := Option.map_eq_some_iff.mp h
    obtain ⟨hpairwise, hwithin⟩ := ih hbelow
    have hlogical := Editor.mem_visualLinesOf hm hhere
    have hone : here.Pairwise VisualLine.Before ∧
        ∀ vl ∈ here, vl.startCol + vl.length ≤ line.length := by
      rw [Editor.visualLinesOf_eq hm] at hhere
      obtain ⟨chunks, hchunks, rfl⟩ := Option.map_eq_some_iff.mp hhere
      by_cases hline : line = []
      · subst hline
        obtain rfl := Editor.lineChunks_nil hm hchunks
        exact ⟨List.pairwise_singleton _ _, List.forall_mem_singleton.mpr (Nat.le_refl 0)⟩
      · obtain ⟨htiles, -⟩ := Editor.tiles_lineChunks hm hwidth hline hchunks
        obtain ⟨hpairwise, hwithin⟩ := ordered_chunks (i := i) htiles
        exact ⟨hpairwise, fun vl hvl => (hwithin vl hvl).2⟩
    refine ⟨List.pairwise_append.mpr ⟨hone.1, hpairwise, fun a ha b hb => ?_⟩,
      List.forall_mem_append.mpr ⟨fun vl hvl => ?_, fun vl hvl => ?_⟩⟩
    · have hlater := (hwithin b hb).1
      rw [← hlogical a ha] at hlater
      exact .inl hlater
    · rw [hlogical vl hvl, Nat.sub_self]
      exact ⟨Nat.le_refl i, hone.2 vl hvl⟩
    · obtain ⟨hlater, hlength⟩ := hwithin vl hvl
      have hindex : vl.logicalLine - i = vl.logicalLine - (i + 1) + 1 := by omega
      rw [hindex]
      exact ⟨Nat.le_of_succ_le hlater, hlength⟩

variable {vl : VisualLine}

theorem findFrom_ordered {col : Nat} (base j : Nat)
    (hordered : visualLines.Pairwise VisualLine.Before) (hvl : visualLines[j]? = some vl)
    (hat : isAt vl.logicalLine col vl visualLines[j + 1]? = true) :
    findFrom vl.logicalLine col base visualLines = some (base + j) := by
  induction visualLines generalizing base j with
  | nil => cases hvl
  | cons a rest ih =>
    obtain ⟨hbefore, hrest⟩ := List.pairwise_cons.mp hordered
    cases j with
    | zero =>
      obtain rfl := Option.some.inj hvl
      have hhead : rest.head? = (a :: rest)[0 + 1]? := List.head?_eq_getElem?
      rw [findFrom, hhead, if_pos hat]
      rfl
    | succ j =>
      have hvl' : rest[j]? = some vl := hvl
      have hmem : vl ∈ rest := List.mem_of_getElem? hvl'
      have hnot : ¬ isAt vl.logicalLine col a rest.head? = true := by
        intro hat'
        obtain ⟨hsame, -, hin⟩ := isAt_eq_true.mp hat'
        obtain hless | ⟨-, hpos, hend⟩ := hbefore vl hmem
        · omega
        · obtain ⟨-, hstart, -⟩ := isAt_eq_true.mp hat
          obtain hlt | ⟨hlast, -⟩ := hin
          · omega
          · -- the visual line after `a` is one of the same line
            obtain ⟨next, hnext⟩ : ∃ next, rest.head? = some next := by
              cases rest with
              | nil => cases hmem
              | cons next rest => exact ⟨next, rfl⟩
            rw [isLastSegmentOfLine, hnext, Option.all_some, decide_eq_true_iff] at hlast
            obtain ⟨tail, rfl⟩ := List.head?_eq_some_iff.mp hnext
            have hle : next.logicalLine ≤ vl.logicalLine := by
              rcases List.mem_cons.mp hmem with rfl | htail
              · exact Nat.le_refl _
              · obtain hlt | ⟨heq, -⟩ := (List.pairwise_cons.mp hrest).1 vl htail
                · exact Nat.le_of_lt hlt
                · exact Nat.le_of_eq heq
            obtain hlt | ⟨heq, -⟩ := hbefore next List.mem_cons_self
            · omega
            · exact hlast heq.symm
      rw [findFrom, if_neg hnot, ih (base + 1) j hrest hvl' hat, Nat.add_assoc, Nat.add_comm 1]

theorem findVisualLineAt_ordered {col j : Nat} (hordered : visualLines.Pairwise VisualLine.Before)
    (hvl : visualLines[j]? = some vl)
    (hat : isAt vl.logicalLine col vl visualLines[j + 1]? = true) :
    findVisualLineAt visualLines vl.logicalLine col = j := by
  rw [findVisualLineAt, findFrom_ordered 0 j hordered hvl hat, Option.getD_some, Nat.zero_add]

theorem isAt_of_le {col j : Nat} (hordered : visualLines.Pairwise VisualLine.Before)
    (hvl : visualLines[j]? = some vl) (hstart : vl.startCol ≤ col)
    (hmax : col - vl.startCol ≤ maxVisualCol visualLines j vl) :
    isAt vl.logicalLine col vl visualLines[j + 1]? = true := by
  unfold maxVisualCol at hmax
  split at hmax
  · rename_i hlast
    exact isAt_eq_true.mpr ⟨rfl, hstart, (Nat.lt_or_eq_of_le hmax).imp_right fun h => ⟨hlast, h⟩⟩
  · rename_i hnotLast
    have hpos : 0 < vl.length := by
      cases hnext : visualLines[j + 1]? with
      | none =>
        rw [hnext] at hnotLast
        exact absurd rfl hnotLast
      | some next =>
        rw [hnext, isLastSegmentOfLine, Option.all_some, decide_eq_true_iff, not_not] at hnotLast
        obtain ⟨hj, rfl⟩ := List.getElem?_eq_some_iff.mp hvl
        obtain ⟨hj', rfl⟩ := List.getElem?_eq_some_iff.mp hnext
        obtain hlt | ⟨-, hpos, -⟩ :=
          List.pairwise_iff_getElem.mp hordered j (j + 1) hj hj' (Nat.lt_succ_self j)
        · omega
        · exact hpos
    exact isAt_eq_true.mpr ⟨rfl, hstart, .inl (by omega)⟩

theorem le_maxVisualCol {line col j : Nat} (hat : isAt line col vl visualLines[j + 1]? = true) :
    col - vl.startCol ≤ maxVisualCol visualLines j vl := by
  obtain ⟨-, -, hin⟩ := isAt_eq_true.mp hat
  unfold maxVisualCol
  split
  · obtain hlt | ⟨-, heq⟩ := hin
    · exact Nat.le_of_lt hlt
    · exact Nat.le_of_eq heq
  · rename_i hnotLast
    obtain hlt | ⟨hlast, -⟩ := hin
    · omega
    · exact absurd hlast hnotLast

theorem maxVisualCol_le (vl : VisualLine) (j : Nat) :
    maxVisualCol visualLines j vl ≤ vl.length := by
  unfold maxVisualCol
  split
  · exact Nat.le_refl _
  · exact Nat.sub_le _ _

end Tui

end Eagent
