import Eagent.VerticalMove

/-!
# The sticky column

The invariant of vertical movement (`Sticky`): on each visual line the cursor
is where the column of the start puts it, clamped to the visual line and
snapped to the start of a segment. The position depends on the visual line
alone, so every walk that comes back to the visual line of its start ends in
the position of the start (`vertical_round_trip`).
-/

namespace Eagent

namespace Tui

variable {m : Measures} {visualLines : List VisualLine} {depth : Nat}

/-- The column a position is snapped to. -/
def Editor.snapCol (m : Measures) (e : Editor) (line : Text) (col : Nat) : Nat :=
  ((e.segmentAt m line col).map (·.index)).getD col

/-- Where the column `r` is on a visual line, before it is snapped. -/
def rawCol (visualLines : List VisualLine) (r j : Nat) (vl : VisualLine) : Nat :=
  vl.startCol + min r (maxVisualCol visualLines j vl)

/-- The column `r` of the `j`-th visual line is in no segment that begins on an
earlier one. -/
def ClearAt (m : Measures) (e : Editor) (visualLines : List VisualLine) (r j : Nat) : Prop :=
  ∀ vl, visualLines[j]? = some vl → ∀ seg,
    e.segmentAt m (e.state.lines.getD vl.logicalLine []) (rawCol visualLines r j vl) = some seg →
      vl.startCol ≤ seg.index

/-- The cursor of `e` is on the `j`-th visual line, where the column `r` of
the text of `start` puts it. -/
structure Sticky (m : Measures) (visualLines : List VisualLine) (start : Editor) (r : Nat)
    (e : Editor) (j : Nat) (vl : VisualLine) : Prop where
  lines : e.state.lines = start.state.lines
  pastes : e.pastes = start.pastes
  lastWidth : e.lastWidth = start.lastWidth
  line : e.state.cursorLine = vl.logicalLine
  raw : e.snappedFromCursorCol.getD e.state.cursorCol = rawCol visualLines r j vl
  col : e.state.cursorCol = start.snapCol m (start.state.lines.getD vl.logicalLine [])
    (rawCol visualLines r j vl)
  within : vl.startCol ≤ e.state.cursorCol
  preferred : e.preferredVisualCol = none ∧ r ≤ maxVisualCol visualLines j vl ∨
    e.preferredVisualCol = some r ∧ maxVisualCol visualLines j vl ≤ r

/-! ## The column -/

theorem computeVerticalMoveColumn_sticky {preferred : Option Nat} {r source : Nat} (target : Nat)
    (h : preferred = none ∧ r ≤ source ∨ preferred = some r ∧ source ≤ r) :
    ∃ preferred', computeVerticalMoveColumn preferred (min r source) source target =
        (min r target, preferred') ∧
      (preferred' = none ∧ r ≤ target ∨ preferred' = some r ∧ target ≤ r) := by
  unfold computeVerticalMoveColumn
  obtain ⟨rfl, hle⟩ | ⟨rfl, hle⟩ := h
  · rw [Nat.min_eq_left hle]
    dsimp only
    split
    · rename_i hshort
      have hle' : target ≤ r := Nat.le_of_lt hshort
      exact ⟨some r, by rw [Nat.min_eq_right hle'], .inr ⟨rfl, hle'⟩⟩
    · rename_i hfits
      have hle' : r ≤ target := Nat.not_lt.mp hfits
      exact ⟨none, by rw [Nat.min_eq_left hle'], .inl ⟨rfl, hle'⟩⟩
  · rw [Nat.min_eq_right hle]
    dsimp only
    rw [if_neg (Nat.lt_irrefl source)]
    split
    · rename_i hshort
      have hle' : target ≤ r := by omega
      exact ⟨some r, by rw [Nat.min_eq_right hle'], .inr ⟨rfl, hle'⟩⟩
    · rename_i hfits
      have hle' : r ≤ target := by omega
      exact ⟨none, by rw [Nat.min_eq_left hle'], .inl ⟨rfl, hle'⟩⟩

variable {e : Editor}

theorem segmentAt_le {line : Text} {col : Nat} {seg : SegmentData}
    (h : e.segmentAt m line col = some seg) : seg.index ≤ col := by
  have hmem := List.mem_of_find?_eq_some h
  have hle := List.mem_takeWhile_imp hmem
  exact of_decide_eq_true hle

theorem snapCol_le (e : Editor) (line : Text) (col : Nat) : e.snapCol m line col ≤ col := by
  unfold Editor.snapCol
  cases hseg : e.segmentAt m line col with
  | none => exact Nat.le_refl col
  | some seg => exact segmentAt_le hseg

/-! ## The same text -/

theorem graphemes_congr {e e' : Editor} (h : e.pastes = e'.pastes) :
    e.graphemes m = e'.graphemes m := by
  funext text
  rw [Editor.graphemes, Editor.graphemes, Editor.validPasteIds, Editor.validPasteIds, h]

theorem segmentAt_congr {e e' : Editor} (h : e.pastes = e'.pastes) :
    e.segmentAt m = e'.segmentAt m := by
  funext line col
  rw [Editor.segmentAt, Editor.segmentAt, graphemes_congr h]

theorem buildVisualLineMap_congr {e e' : Editor} (hlines : e.state.lines = e'.state.lines)
    (hpastes : e.pastes = e'.pastes) (width : Nat) :
    e.buildVisualLineMap m depth width = e'.buildVisualLineMap m depth width := by
  have hline : e.visualLinesOf m depth width = e'.visualLinesOf m depth width := by
    funext i line
    rw [Editor.visualLinesOf, Editor.visualLinesOf, graphemes_congr hpastes]
  rw [Editor.buildVisualLineMap, Editor.buildVisualLineMap, hline, hlines]

/-! ## Steps -/

namespace Sticky

variable {start e : Editor} {r j : Nat} {vl : VisualLine}

theorem forget (h : Sticky m visualLines start r e j vl) :
    Sticky m visualLines start r { e with lastAction := none } j vl :=
  ⟨h.lines, h.pastes, h.lastWidth, h.line, h.raw, h.col, h.within, h.preferred⟩

theorem rawCol_sub (r j : Nat) (vl : VisualLine) :
    rawCol visualLines r j vl - vl.startCol = min r (maxVisualCol visualLines j vl) :=
  Nat.add_sub_cancel_left _ _

section

variable (h : Sticky m visualLines start r e j vl)
include h

section

variable (hordered : visualLines.Pairwise VisualLine.Before)
include hordered

theorem findCurrentVisualLine (hvl : visualLines[j]? = some vl) :
    e.findCurrentVisualLine visualLines = j := by
  have hle : e.state.cursorCol ≤ rawCol visualLines r j vl := by
    rw [h.col]
    exact snapCol_le _ _ _
  have hmax := Nat.min_le_right r (maxVisualCol visualLines j vl)
  rw [← rawCol_sub r j vl] at hmax
  rw [Editor.findCurrentVisualLine, h.line]
  exact findVisualLineAt_ordered hordered hvl
    (isAt_of_le hordered hvl h.within (Nat.le_trans (Nat.sub_le_sub_right hle _) hmax))

theorem currentVisualCol (hvl : visualLines[j]? = some vl) :
    e.currentVisualCol visualLines vl = min r (maxVisualCol visualLines j vl) := by
  have hraw := h.raw
  unfold Editor.currentVisualCol
  split
  · rename_i snapped hsnapped
    rw [hsnapped, Option.getD_some] at hraw
    have hat : isAt vl.logicalLine snapped vl visualLines[j + 1]? = true := by
      refine isAt_of_le hordered hvl ?_ ?_
      · rw [hraw]
        exact Nat.le_add_right _ _
      · rw [hraw, rawCol_sub]
        exact Nat.min_le_right _ _
    dsimp only
    rw [findVisualLineAt_ordered hordered hvl hat, hvl, Option.map_some, Option.getD_some, hraw,
      rawCol_sub]
  · rename_i hnone
    rw [hnone, Option.getD_none] at hraw
    rw [hraw, rawCol_sub]

theorem moveToVisualLine
    (hwithin : ∀ vl ∈ visualLines, vl.startCol + vl.length ≤ (start.state.lines.getD vl.logicalLine []).length)
    (hvl : visualLines[j]? = some vl) {target : Nat} {targetVL : VisualLine}
    (htarget : visualLines[target]? = some targetVL) (hclear : ClearAt m start visualLines r target)
    (calls : Nat) :
    Sticky m visualLines start r
      (Editor.moveToVisualLine m visualLines j (calls + 1) target e) target targetVL := by
  obtain ⟨preferred', hcompute, hpreferred'⟩ :=
    computeVerticalMoveColumn_sticky (maxVisualCol visualLines target targetVL) h.preferred
  have hmax : maxVisualCol visualLines target targetVL ≤ targetVL.length :=
    maxVisualCol_le targetVL target
  have hbound := hwithin targetVL (List.mem_of_getElem? htarget)
  have hcol : min (rawCol visualLines r target targetVL)
      (start.state.lines.getD targetVL.logicalLine []).length =
        rawCol visualLines r target targetVL := by
    refine Nat.min_eq_left ?_
    unfold rawCol
    omega
  have hplaced : e.placeOn visualLines j target vl targetVL = { e with
      preferredVisualCol := preferred'
      state := ⟨start.state.lines, targetVL.logicalLine,
        rawCol visualLines r target targetVL⟩ } := by
    unfold Editor.placeOn
    rw [h.currentVisualCol hordered hvl, hcompute]
    dsimp only
    rw [h.lines]
    exact congrArg (fun col => { e with
      preferredVisualCol := preferred'
      state := ⟨start.state.lines, targetVL.logicalLine, col⟩ }) hcol
  unfold Editor.moveToVisualLine
  rw [hvl, htarget]
  dsimp only
  rw [hplaced]
  have hsegment : Editor.segmentAt m ({ e with
      preferredVisualCol := preferred'
      state := ⟨start.state.lines, targetVL.logicalLine,
        rawCol visualLines r target targetVL⟩ } : Editor) = start.segmentAt m :=
    segmentAt_congr h.pastes
  have hline : Editor.currentLine { e with
      preferredVisualCol := preferred'
      state := ⟨start.state.lines, targetVL.logicalLine,
        rawCol visualLines r target targetVL⟩ } =
        start.state.lines.getD targetVL.logicalLine [] := rfl
  rw [hsegment, hline]
  dsimp only
  split
  · rename_i hnone
    refine ⟨rfl, h.pastes, h.lastWidth, rfl, rfl, ?_, Nat.le_add_right _ _, hpreferred'⟩
    rw [Editor.snapCol, hnone]
    rfl
  · rename_i seg hsome
    have hseg := hclear targetVL htarget seg hsome
    rw [if_neg fun hskip => Nat.not_lt.mpr hseg hskip.1]
    refine ⟨rfl, h.pastes, h.lastWidth, rfl, rfl, ?_, hseg, hpreferred'⟩
    rw [Editor.snapCol, hsome]
    rfl

end

end

end Sticky

/-! ## Walks -/

namespace Editor

/-- The moves one after the other. -/
def moveCursors (m : Measures) (depth : Nat) : Editor → List VerticalMove → Option Editor
  | e, [] => some e
  | e, move :: rest => (e.moveCursor m depth move).bind fun e => moveCursors m depth e rest

end Editor

/-- The moves lead over visual lines that are clear. -/
def Walks (clear : Nat → Prop) (length : Nat) : Nat → List VerticalMove → Nat → Prop
  | j, [], last => j = last
  | j, .up :: rest, last => 0 < j ∧ clear (j - 1) ∧ Walks clear length (j - 1) rest last
  | j, .down :: rest, last => j + 1 < length ∧ clear (j + 1) ∧ Walks clear length (j + 1) rest last

variable {clear : Nat → Prop}

theorem Walks.append {length j middle last : Nat} {xs ys : List VerticalMove}
    (hxs : Walks clear length j xs middle) (hys : Walks clear length middle ys last) :
    Walks clear length j (xs ++ ys) last := by
  induction xs generalizing j with
  | nil =>
    obtain rfl : j = middle := hxs
    exact hys
  | cons move xs ih =>
    cases move with
    | up => exact ⟨hxs.1, hxs.2.1, ih hxs.2.2⟩
    | down => exact ⟨hxs.1, hxs.2.1, ih hxs.2.2⟩

theorem walks_down {length : Nat} (j k : Nat) (hlength : j + k < length)
    (hclear : ∀ i, j < i → i ≤ j + k → clear i) :
    Walks clear length j (List.replicate k .down) (j + k) := by
  induction k generalizing j with
  | zero => exact rfl
  | succ k ih =>
    rw [List.replicate_succ, Nat.add_comm k 1, ← Nat.add_assoc]
    exact ⟨by omega, hclear _ (by omega) (by omega),
      ih (j + 1) (by omega) fun i hlow hhigh => hclear i (by omega) (by omega)⟩

theorem walks_up {length : Nat} (j k : Nat) (hclear : ∀ i, j ≤ i → i < j + k → clear i) :
    Walks clear length (j + k) (List.replicate k .up) j := by
  induction k with
  | zero => exact rfl
  | succ k ih =>
    exact ⟨by omega, hclear _ (by omega) (by omega),
      ih fun i hlow hhigh => hclear i hlow (by omega)⟩

namespace Sticky

variable {start e : Editor} {r j : Nat} {vl : VisualLine}

/-- A walk keeps the column. -/
theorem moveCursors (h : Sticky m visualLines start r e j vl)
    (hordered : visualLines.Pairwise VisualLine.Before)
    (hwithin : ∀ vl ∈ visualLines,
      vl.startCol + vl.length ≤ (start.state.lines.getD vl.logicalLine []).length)
    (hmap : start.buildVisualLineMap m depth start.lastWidth = some visualLines)
    (hvl : visualLines[j]? = some vl) {moves : List VerticalMove} {last : Nat}
    (hwalks : Walks (ClearAt m start visualLines r) visualLines.length j moves last) :
    ∃ e' vl', e.moveCursors m depth moves = some e' ∧ visualLines[last]? = some vl' ∧
      Sticky m visualLines start r e' last vl' := by
  induction moves generalizing e j vl with
  | nil =>
    obtain rfl : j = last := hwalks
    exact ⟨e, vl, rfl, hvl, h⟩
  | cons move rest ih =>
    have hforget := h.forget
    have hmap' : Editor.buildVisualLineMap m depth { e with lastAction := none } e.lastWidth =
        some visualLines := by
      rw [buildVisualLineMap_congr hforget.lines hforget.pastes, h.lastWidth, hmap]
    have hcurrent := hforget.findCurrentVisualLine hordered hvl
    obtain ⟨calls, hcalls⟩ : ∃ calls, visualLines.length = calls + 1 := by
      refine Nat.exists_eq_succ_of_ne_zero fun hnil => ?_
      rw [List.length_eq_zero_iff.mp hnil] at hvl
      cases hvl
    have hj := (List.getElem?_eq_some_iff.mp hvl).1
    have hstep (target : Nat) (htarget : target < visualLines.length)
        (hclear : ClearAt m start visualLines r target)
        (hmove : e.moveCursor m depth move = some (Editor.moveToVisualLine m visualLines j
          (calls + 1) target { e with lastAction := none }))
        (hrest : Walks (ClearAt m start visualLines r) visualLines.length target rest last) :
        ∃ e' vl', e.moveCursors m depth (move :: rest) = some e' ∧
          visualLines[last]? = some vl' ∧ Sticky m visualLines start r e' last vl' := by
      have hvl' := List.getElem?_eq_getElem htarget
      have hmoved := hforget.moveToVisualLine hordered hwithin hvl hvl' hclear calls
      obtain ⟨e', vl', hrun, hlast, hsticky⟩ := ih hmoved hvl' hrest
      refine ⟨e', vl', ?_, hlast, hsticky⟩
      rw [Editor.moveCursors, hmove]
      exact hrun
    cases move with
    | up =>
      obtain ⟨hpos, hclear, hrest⟩ := hwalks
      refine hstep (j - 1) (by omega) hclear ?_ hrest
      unfold Editor.moveCursor
      dsimp only
      rw [hmap', Option.map_some, hcurrent, hcalls, if_neg (Nat.ne_of_gt hpos)]
    | down =>
      obtain ⟨hlength, hclear, hrest⟩ := hwalks
      refine hstep (j + 1) hlength hclear ?_ hrest
      unfold Editor.moveCursor
      dsimp only
      rw [hmap', Option.map_some, hcurrent, if_pos hlength, hcalls]

end Sticky

/-! ## Round trips -/

theorem isAt_of_findFrom {line col base j : Nat}
    (h : findFrom line col base visualLines = some j) :
    ∃ i vl, j = base + i ∧ visualLines[i]? = some vl ∧
      isAt line col vl visualLines[i + 1]? = true := by
  induction visualLines generalizing base with
  | nil => cases h
  | cons a rest ih =>
    unfold findFrom at h
    split at h
    · rename_i hat
      obtain rfl := Option.some.inj h
      rw [List.head?_eq_getElem?] at hat
      exact ⟨0, a, rfl, rfl, hat⟩
    · obtain ⟨i, vl, rfl, hvl, hat⟩ := ih h
      exact ⟨i + 1, vl, by omega, hvl, hat⟩

theorem isAt_findCurrentVisualLine (hm : m.Lawful) {width : Nat} (hwidth : 0 < width)
    (hin : e.InText) (hmap : e.buildVisualLineMap m depth width = some visualLines) :
    ∃ vl, visualLines[e.findCurrentVisualLine visualLines]? = some vl ∧
      isAt e.state.cursorLine e.state.cursorCol vl
        visualLines[e.findCurrentVisualLine visualLines + 1]? = true := by
  obtain ⟨above, before, after, below, hat⟩ : ∃ above before after below,
      e.At above before after below := ⟨_, _, _, _, hin.at⟩
  unfold Editor.buildVisualLineMap at hmap
  rw [hat.lines] at hmap
  obtain ⟨mapped, rest, hmapped, hrest, rfl⟩ := collect_append hmap
  rw [Nat.zero_add, ← hat.line] at hrest
  obtain ⟨here, hhere, hrest⟩ := Option.bind_eq_some_iff.mp hrest
  obtain ⟨mappedBelow, hmappedBelow, rfl⟩ := Option.map_eq_some_iff.mp hrest
  rw [Editor.visualLinesOf_eq hm] at hhere
  obtain ⟨chunks, hchunks, rfl⟩ := Option.map_eq_some_iff.mp hhere
  have hmappedOther : ∀ vl ∈ mapped, vl.logicalLine ≠ e.state.cursorLine :=
    forall_collect hmapped fun j _ hhigh line here h vl hvl => by
      rw [Editor.mem_visualLinesOf hm h vl hvl, hat.line]
      omega
  have hbelowOther : ∀ vl ∈ mappedBelow, vl.logicalLine ≠ e.state.cursorLine :=
    forall_collect hmappedBelow fun j hlow _ line here h vl hvl => by
      rw [Editor.mem_visualLinesOf hm h vl hvl]
      omega
  have hcol : e.state.cursorCol ≤ (before ++ after).length := by
    rw [hat.col, List.length_append]
    exact Nat.le_add_right _ _
  obtain ⟨k, -, hfind⟩ := Editor.cursorAt_lineChunks hm hwidth (0 + mapped.length) hchunks hcol
    fun next hnext => hbelowOther next (List.mem_of_mem_head? hnext)
  rw [← findFrom_append hmappedOther] at hfind
  obtain ⟨i, vl, hi, hvl, hisAt⟩ := isAt_of_findFrom hfind
  have hcurrent : e.findCurrentVisualLine (mapped ++
      (chunks.map (TextChunk.visualLine e.state.cursorLine) ++ mappedBelow)) = i := by
    rw [Editor.findCurrentVisualLine, findVisualLineAt, hfind, Option.getD_some, hi, Nat.zero_add]
  rw [hcurrent]
  exact ⟨vl, hvl, hisAt⟩

/-- Where a horizontal move leaves the cursor: at the start of a segment or the
end of the line. To the right of the end of the text the column is preferred. -/
structure Horizontal (m : Measures) (visualLines : List VisualLine) (e : Editor) : Prop where
  snapped : e.snappedFromCursorCol = none
  boundary : ∀ seg, e.segmentAt m e.currentLine e.state.cursorCol = some seg →
    seg.index = e.state.cursorCol
  preferred : e.preferredVisualCol = none ∨ e.state.cursorCol = e.currentLine.length ∧
    ∀ vl, visualLines[e.findCurrentVisualLine visualLines]? = some vl →
      e.preferredVisualCol = some (e.state.cursorCol - vl.startCol)

theorem segmentAt_zero (e : Editor) (line : Text) (seg : SegmentData)
    (h : e.segmentAt m line 0 = some seg) : seg.index = 0 :=
  Nat.le_zero.mp (segmentAt_le h)

theorem Segments.stop_le {line : Text} {lower : Nat} {segs : List SegmentData}
    (h : Segments line lower segs) : ∀ seg ∈ segs, seg.stop ≤ line.length := by
  induction segs generalizing lower with
  | nil => exact List.forall_mem_nil _
  | cons seg rest ih =>
    obtain ⟨-, hne, hslice, hrest⟩ := h
    refine List.forall_mem_cons.mpr ⟨?_, ih hrest⟩
    have hlength : seg.segment.length = min seg.stop line.length - seg.index := by
      conv_lhs => rw [hslice]
      rw [slice, List.length_drop, List.length_take]
    have hpos := List.length_pos_iff.mpr hne
    have hstop : seg.stop = seg.index + seg.segment.length := rfl
    omega

theorem segmentAt_length (hm : m.Lawful) (e : Editor) (line : Text) :
    e.segmentAt m line line.length = none := by
  unfold Editor.segmentAt
  refine List.find?_eq_none.mpr fun seg hseg hinside => ?_
  have hstop := (e.segments_graphemes hm line).stop_le seg ((List.takeWhile_prefix _).subset hseg)
  rw [Bool.and_eq_true, decide_eq_true_eq, decide_eq_true_eq] at hinside
  exact absurd hstop (Nat.not_le.mpr hinside.2)

namespace Horizontal

variable {e e' : Editor}

theorem moveToLineStart (e : Editor) : Horizontal m visualLines e.moveToLineStart :=
  ⟨rfl, segmentAt_zero _ _, .inl rfl⟩

theorem moveToLineEnd (hm : m.Lawful) (e : Editor) : Horizontal m visualLines e.moveToLineEnd := by
  refine ⟨rfl, fun seg hseg => ?_, .inl rfl⟩
  have hnone : e.moveToLineEnd.segmentAt m e.moveToLineEnd.currentLine
      e.moveToLineEnd.state.cursorCol = none := segmentAt_length hm _ _
  rw [hnone] at hseg
  cases hseg

theorem moveCursorBy (h : Horizontal m visualLines e) (hin : e.InText)
    (hmap : e.buildVisualLineMap m depth e.lastWidth = some visualLines) {move : HorizontalMove}
    (hmove : e.moveCursorBy m depth move = some e')
    (hboundary : ∀ seg, e'.segmentAt m e'.currentLine e'.state.cursorCol = some seg →
      seg.index = e'.state.cursorCol) :
    Horizontal m visualLines e' := by
  have hmap' : Editor.buildVisualLineMap m depth { e with lastAction := none } e.lastWidth =
      some visualLines := hmap
  unfold Editor.moveCursorBy at hmove
  dsimp only at hmove
  rw [hmap', Option.map_some] at hmove
  cases move with
  | left =>
    obtain rfl := Option.some.inj hmove
    dsimp only at hboundary ⊢
    split at hboundary
    · rename_i hinside
      rw [if_pos hinside]
      exact ⟨rfl, hboundary, .inl rfl⟩
    · rename_i hatStart
      rw [if_neg hatStart]
      split at hboundary
      · rename_i habove
        rw [if_pos habove]
        exact ⟨rfl, hboundary, .inl rfl⟩
      · rename_i hfirst
        rw [if_neg hfirst]
        exact ⟨h.snapped, h.boundary, h.preferred⟩
  | right =>
    obtain rfl := Option.some.inj hmove
    dsimp only at hboundary ⊢
    split at hboundary
    · rename_i hinside
      rw [if_pos hinside]
      exact ⟨rfl, hboundary, .inl rfl⟩
    · rename_i hatEnd
      rw [if_neg hatEnd]
      split at hboundary
      · rename_i hbelow
        rw [if_pos hbelow]
        exact ⟨rfl, hboundary, .inl rfl⟩
      · rename_i hlast
        rw [if_neg hlast]
        split
        · rename_i currentVL hcurrent
          have hend : e.state.cursorCol = e.currentLine.length :=
            Nat.le_antisymm hin.col (Nat.not_lt.mp hatEnd)
          refine ⟨h.snapped, h.boundary, .inr ⟨hend, fun vl hvl => ?_⟩⟩
          obtain rfl : currentVL = vl := Option.some.inj (hcurrent.symm.trans hvl)
          rfl
        · exact ⟨h.snapped, h.boundary, h.preferred⟩

end Horizontal

variable {vl : VisualLine}

theorem Horizontal.sticky (h : Horizontal m visualLines e) {j : Nat}
    (hj : j = e.findCurrentVisualLine visualLines) (hvl : visualLines[j]? = some vl)
    (hwithin : vl.startCol + vl.length ≤ (e.state.lines.getD vl.logicalLine []).length)
    (hat : isAt e.state.cursorLine e.state.cursorCol vl visualLines[j + 1]? = true) :
    Sticky m visualLines e (e.state.cursorCol - vl.startCol) e j vl := by
  obtain ⟨hline, hstart, -⟩ := isAt_eq_true.mp hat
  have hmax := le_maxVisualCol hat
  have hraw : rawCol visualLines (e.state.cursorCol - vl.startCol) j vl = e.state.cursorCol := by
    rw [rawCol, Nat.min_eq_left hmax]
    omega
  have hcurrent : e.state.lines.getD vl.logicalLine [] = e.currentLine := by rw [hline]; rfl
  refine ⟨rfl, rfl, rfl, hline.symm, ?_, ?_, hstart, ?_⟩
  · rw [h.snapped, hraw]
    rfl
  · rw [hraw, hcurrent, Editor.snapCol]
    cases hseg : e.segmentAt m e.currentLine e.state.cursorCol with
    | none => rfl
    | some seg => exact (h.boundary seg hseg).symm
  · rcases h.preferred with hnone | ⟨hend, hsome⟩
    · exact .inl ⟨hnone, hmax⟩
    · have hle : maxVisualCol visualLines j vl ≤ vl.length := maxVisualCol_le vl j
      rw [hcurrent, ← hend] at hwithin
      exact .inr ⟨hsome vl (hj ▸ hvl), by omega⟩

theorem Horizontal.clearAt (h : Horizontal m visualLines e) {j : Nat}
    (hvl : visualLines[j]? = some vl)
    (hat : isAt e.state.cursorLine e.state.cursorCol vl visualLines[j + 1]? = true) :
    ClearAt m e visualLines (e.state.cursorCol - vl.startCol) j := by
  obtain ⟨hline, hstart, -⟩ := isAt_eq_true.mp hat
  intro vl' hvl' seg hseg
  obtain rfl : vl = vl' := Option.some.inj (hvl.symm.trans hvl')
  have hraw : rawCol visualLines (e.state.cursorCol - vl.startCol) j vl = e.state.cursorCol := by
    rw [rawCol, Nat.min_eq_left (le_maxVisualCol hat)]
    omega
  rw [hraw, hline] at hseg
  rw [h.boundary seg hseg]
  exact hstart

theorem Sticky.state_eq {start e : Editor} {r j : Nat} (h : Sticky m visualLines start r start j vl)
    (h' : Sticky m visualLines start r e j vl) :
    e.state = start.state := by
  have hlines := h'.lines
  have hline := h'.line.trans h.line.symm
  have hcol := h'.col.trans h.col.symm
  cases hs : e.state
  cases hs' : start.state
  rw [hs, hs'] at hlines hline hcol
  dsimp only at hlines hline hcol
  rw [hlines, hline, hcol]

/-- A walk over clear visual lines that comes back to its start ends in the
text and the position of the start. -/
theorem walk_returns (hm : m.Lawful) (hwidth : 0 < e.lastWidth) (hin : e.InText)
    (hmap : e.buildVisualLineMap m depth e.lastWidth = some visualLines)
    (hstart : Horizontal m visualLines e)
    (hvl : visualLines[e.findCurrentVisualLine visualLines]? = some vl) {moves : List VerticalMove}
    (hwalks : Walks (ClearAt m e visualLines (e.state.cursorCol - vl.startCol)) visualLines.length
      (e.findCurrentVisualLine visualLines) moves (e.findCurrentVisualLine visualLines)) :
    (e.moveCursors m depth moves).map (·.state) = some e.state := by
  obtain ⟨hordered, hlength⟩ := ordered_collect hm hwidth hmap
  have hwithin : ∀ vl ∈ visualLines,
      vl.startCol + vl.length ≤ (e.state.lines.getD vl.logicalLine []).length :=
    fun vl hmem => (hlength vl hmem).2
  obtain ⟨vl', hvl', hat⟩ := isAt_findCurrentVisualLine hm hwidth hin hmap
  obtain rfl : vl' = vl := Option.some.inj (hvl'.symm.trans hvl)
  have hsticky := hstart.sticky rfl hvl (hwithin _ (List.mem_of_getElem? hvl)) hat
  obtain ⟨e', vl'', hrun, hlast, hsticky'⟩ :=
    hsticky.moveCursors hordered hwithin hmap hvl hwalks
  obtain rfl : vl'' = vl' := Option.some.inj (hlast.symm.trans hvl)
  rw [hrun, Option.map_some, hsticky.state_eq hsticky']

/-- `k` moves down and `k` up, or up and down, end where they began if the
column of the start is in no segment that begins on an earlier visual line, on
any visual line of the way. -/
theorem vertical_round_trip (hm : m.Lawful) {e : Editor} (hwidth : 0 < e.lastWidth) (hin : e.InText)
    (hmap : e.buildVisualLineMap m depth e.lastWidth = some visualLines)
    (hstart : Horizontal m visualLines e) {vl : VisualLine}
    (hvl : visualLines[e.findCurrentVisualLine visualLines]? = some vl) (k : Nat) :
    (e.findCurrentVisualLine visualLines + k < visualLines.length →
      (∀ j, e.findCurrentVisualLine visualLines < j →
        j ≤ e.findCurrentVisualLine visualLines + k →
        ClearAt m e visualLines (e.state.cursorCol - vl.startCol) j) →
      (e.moveCursors m depth (List.replicate k .down ++ List.replicate k .up)).map (·.state) =
        some e.state) ∧
    (k ≤ e.findCurrentVisualLine visualLines →
      (∀ j, e.findCurrentVisualLine visualLines - k ≤ j →
        j < e.findCurrentVisualLine visualLines →
        ClearAt m e visualLines (e.state.cursorCol - vl.startCol) j) →
      (e.moveCursors m depth (List.replicate k .up ++ List.replicate k .down)).map (·.state) =
        some e.state) := by
  obtain ⟨vl', hvl', hat⟩ := isAt_findCurrentVisualLine hm hwidth hin hmap
  obtain rfl : vl' = vl := Option.some.inj (hvl'.symm.trans hvl)
  have hhere := hstart.clearAt hvl hat
  constructor
  · intro hlength hclear
    refine walk_returns hm hwidth hin hmap hstart hvl ((walks_down _ k hlength hclear).append
      (walks_up _ k ?_))
    intro i hlow hhigh
    obtain rfl | hlt := Nat.eq_or_lt_of_le hlow
    · exact hhere
    · exact hclear i hlt (Nat.le_of_lt hhigh)
  · intro hle hclear
    obtain ⟨j, hj⟩ := Nat.exists_eq_add_of_le' hle
    have hlength := (List.getElem?_eq_some_iff.mp hvl).1
    refine walk_returns hm hwidth hin hmap hstart hvl ?_
    rw [hj, Nat.add_sub_cancel] at hclear
    rw [hj] at hlength hhere ⊢
    refine (walks_up j k hclear).append (walks_down j k hlength ?_)
    intro i hlow hhigh
    obtain rfl | hlt := Nat.eq_or_lt_of_le hhigh
    · exact hhere
    · exact hclear i (Nat.le_of_lt hlow) hlt

/-- A short line between two long ones. -/
def threeLines : Editor :=
  { state := ⟨[unitsOf "abcdef", unitsOf "ab", unitsOf "abcdef"], 0, 4⟩, lastWidth := 80 }

theorem vertical_round_trip_threeLines :
    (threeLines.moveCursors columns 1 [.down, .down, .up, .up]).map (·.state) =
      some threeLines.state := by
  have hnone : ∀ line ∈ threeLines.state.lines, ∀ col < 7,
      threeLines.segmentAt columns line col = none := by decide
  have hmap : threeLines.buildVisualLineMap columns 1 threeLines.lastWidth =
      some [⟨0, 0, 6⟩, ⟨1, 0, 2⟩, ⟨2, 0, 6⟩] := by decide
  have hstart : Horizontal columns [⟨0, 0, 6⟩, ⟨1, 0, 2⟩, ⟨2, 0, 6⟩] threeLines := by
    refine ⟨rfl, fun seg hseg => ?_, .inl rfl⟩
    rw [hnone threeLines.currentLine (by decide) threeLines.state.cursorCol (by decide)] at hseg
    cases hseg
  have hvl : [(⟨0, 0, 6⟩ : VisualLine), ⟨1, 0, 2⟩, ⟨2, 0, 6⟩][threeLines.findCurrentVisualLine
      [⟨0, 0, 6⟩, ⟨1, 0, 2⟩, ⟨2, 0, 6⟩]]? = some ⟨0, 0, 6⟩ := by decide
  refine (vertical_round_trip lawful_columns (by decide) ⟨by decide, by decide⟩ hmap hstart hvl 2).1
    (by decide) ?_
  intro j hlow hhigh vl hj seg hseg
  have hlow : 0 < j := hlow
  have hhigh : j ≤ 2 := hhigh
  obtain rfl | rfl : j = 1 ∨ j = 2 := by omega
  · obtain rfl := Option.some.inj hj
    rw [hnone _ (by decide) _ (by decide)] at hseg
    cases hseg
  · obtain rfl := Option.some.inj hj
    rw [hnone _ (by decide) _ (by decide)] at hseg
    cases hseg

/-- A marker that takes two visual lines, with the cursor at its start. -/
def wrappedMarker : Editor :=
  { state := ⟨[unitsOf "top", unitsOf "[paste #12]", unitsOf "01234567", unitsOf "end"], 1, 0⟩
    lastWidth := 8
    pastes := OrdMap.empty.set 12 [] }

/-- A move down from a wrapped marker takes the column of the visual line it
skips for its own, and the move up does not come back. -/
theorem vertical_trip_of_marker :
    wrappedMarker.snappedFromCursorCol = none ∧ wrappedMarker.preferredVisualCol = none ∧
    (wrappedMarker.moveCursors columns 2 [.down]).map (·.state.cursorCol) = some 7 ∧
    (wrappedMarker.moveCursors columns 2 [.down, .up]).map (·.state.cursorCol) = some 11 := by
  decide

end Tui

end Eagent
