import Eagent.EditorCursor
import Eagent.WrapFits

/-!
# Visual lines

What the editor draws (`layoutText`) and the map from visual lines to the text
that the movements use (`buildVisualLineMap`). Both wrap each line the same
way and decide on their own to which chunk a column belongs; they agree
(`layoutText_agrees_iff`).
-/

namespace Eagent

namespace Tui

structure LayoutLine where
  text : Text
  hasCursor : Bool
  cursorPos : Option Nat := none
deriving DecidableEq

structure VisualLine where
  logicalLine : Nat
  startCol : Nat
  length : Nat
deriving DecidableEq

def collect {β : Type} (lineOf : Nat → Text → Option (List β)) : Nat → List Text → Option (List β)
  | _, [] => some []
  | i, line :: rest =>
      (lineOf i line).bind fun here => (collect lineOf (i + 1) rest).map fun below => here ++ below

/-- The chunks of a line; the last takes the cursor from its start on, the
others up to their end. -/
def layoutChunks (isCurrentLine : Bool) (cursorPos : Nat) : List TextChunk → List LayoutLine
  | [] => []
  | chunk :: rest =>
      let isLastChunk := rest.isEmpty
      let hasCursorInChunk := isCurrentLine && (chunk.startIndex ≤ cursorPos &&
        (isLastChunk || cursorPos < chunk.endIndex))
      let adjustedCursorPos := if isLastChunk then cursorPos - chunk.startIndex
        else min (cursorPos - chunk.startIndex) chunk.text.length
      (if hasCursorInChunk then ⟨chunk.text, true, some adjustedCursorPos⟩
        else ⟨chunk.text, false, none⟩) :: layoutChunks isCurrentLine cursorPos rest

namespace Editor

variable (m : Measures) (depth : Nat) (e : Editor)

def layoutLine (contentWidth i : Nat) (line : Text) : Option (List LayoutLine) :=
  let isCurrentLine : Bool := i = e.state.cursorLine
  if m.visibleWidth line ≤ contentWidth then
    some [⟨line, isCurrentLine, if isCurrentLine then some e.state.cursorCol else none⟩]
  else
    (wordWrapLine m depth line contentWidth (some (e.graphemes m line))).map
      (layoutChunks isCurrentLine e.state.cursorCol)

def layoutText (contentWidth : Nat) : Option (List LayoutLine) :=
  if e.state.lines = [] ∨ e.state.lines = [[]] then some [⟨[], true, some 0⟩]
  else collect (e.layoutLine m depth contentWidth) 0 e.state.lines

def visualLinesOf (width i : Nat) (line : Text) : Option (List VisualLine) :=
  if line = [] then some [⟨i, 0, 0⟩]
  else if m.visibleWidth line ≤ width then some [⟨i, 0, line.length⟩]
  else
    (wordWrapLine m depth line width (some (e.graphemes m line))).map fun chunks =>
      chunks.map fun chunk => ⟨i, chunk.startIndex, chunk.endIndex - chunk.startIndex⟩

def buildVisualLineMap (width : Nat) : Option (List VisualLine) :=
  collect (e.visualLinesOf m depth width) 0 e.state.lines

end Editor

def isLastSegmentOfLine (vl : VisualLine) (next : Option VisualLine) : Bool :=
  next.all fun next => next.logicalLine ≠ vl.logicalLine

def isAt (line col : Nat) (vl : VisualLine) (next : Option VisualLine) : Bool :=
  vl.logicalLine = line && vl.startCol ≤ col && (col - vl.startCol < vl.length ||
    (isLastSegmentOfLine vl next && col - vl.startCol = vl.length))

def findFrom (line col : Nat) : Nat → List VisualLine → Option Nat
  | _, [] => none
  | i, vl :: rest => if isAt line col vl rest.head? then some i else findFrom line col (i + 1) rest

def findVisualLineAt (visualLines : List VisualLine) (line col : Nat) : Nat :=
  (findFrom line col 0 visualLines).getD (visualLines.length - 1)

def Editor.findCurrentVisualLine (e : Editor) (visualLines : List VisualLine) : Nat :=
  findVisualLineAt visualLines e.state.cursorLine e.state.cursorCol

/-! ## The segments of the editor -/

variable {m : Measures}

theorem markersFrom_mem {index skip : Nat} {text : Text} {start : Nat} {marker : Marker}
    (h : (start, marker) ∈ markersFrom index skip text) :
    0 < marker.length ∧ start + marker.length ≤ index + text.length := by
  induction text generalizing index skip with
  | nil => cases h
  | cons u rest ih =>
    have hlength : index + 1 + rest.length = index + (u :: rest).length := by
      rw [List.length_cons, Nat.add_assoc, Nat.add_comm 1]
    cases skip with
    | succ skip =>
      rw [← hlength]
      exact ih h
    | zero =>
      unfold markersFrom at h
      split at h
      · rename_i found hfound
        rcases List.mem_cons.mp h with heq | hrest
        · obtain ⟨rfl, rfl⟩ := Prod.mk.inj heq
          obtain ⟨taken, after, htext, -, hne, htaken⟩ := matchMarker_eq_some hfound
          have hpos := List.length_pos_iff.mpr hne
          rw [htext, List.length_append, htaken]
          omega
        · rw [← hlength]
          exact ih hrest
      · rw [← hlength]
        exact ih h

/-- Merged segments follow one another as the segments they are made of. The
last one emitted ends at `from_`, which can be in a marker. -/
theorem segments_mergeSegments {text : Text} {base : List SegmentData} {lower last : Nat}
    {markers : List (Nat × Nat)} (hbase : Segments text lower base)
    (hmarkers : ∀ span ∈ markers, span.1 < span.2 ∧ span.2 ≤ text.length)
    (hlast : last ≤ lower ∨ ∃ start rest, markers = (start, last) :: rest ∧ start < lower) :
    Segments text last (mergeSegments text markers base) := by
  induction base generalizing lower last markers with
  | nil =>
    rcases hlast with hle | ⟨start, rest, rfl, -⟩
    · exact Nat.le_trans hle hbase
    · exact (hmarkers _ List.mem_cons_self).2
  | cons seg rest ih =>
    obtain ⟨hlower, hne, hslice, hrest⟩ := hbase
    have hstop : seg.index < seg.stop := Nat.lt_add_of_pos_right (List.length_pos_iff.mpr hne)
    have hsub : ∀ span ∈ markers.dropWhile fun marker => marker.2 ≤ seg.index,
        span.1 < span.2 ∧ span.2 ≤ text.length :=
      fun span hspan => hmarkers span ((List.dropWhile_sublist _).subset hspan)
    -- the segment is after the last one, or in the marker that was emitted
    have hplace : last ≤ seg.index ∨ ∃ start markers', seg.index < last ∧ start < seg.index ∧
        (markers.dropWhile fun marker => marker.2 ≤ seg.index) = (start, last) :: markers' := by
      by_cases hafter : last ≤ seg.index
      · exact .inl hafter
      · rcases hlast with hle | ⟨start, rest', rfl, hstart⟩
        · exact .inl (Nat.le_trans hle hlower)
        · refine .inr ⟨start, rest', Nat.not_le.mp hafter, by omega, ?_⟩
          exact List.dropWhile_cons_of_neg (by simpa using hafter)
    unfold mergeSegments
    split
    · rename_i hnil
      rcases hplace with hle | ⟨start, markers', -, -, hsome⟩
      · exact ⟨hle, hne, hslice, ih hrest (List.forall_mem_nil _) (.inl (Nat.le_refl _))⟩
      · rw [hnil] at hsome
        cases hsome
    · rename_i start stop markers' hsome
      rw [hsome] at hsub hplace
      obtain ⟨hspan, hbound⟩ := hsub _ List.mem_cons_self
      split
      · rename_i hin
        split
        · rename_i hfirst
          rcases hplace with hle | ⟨start', markers'', -, hlt, heq⟩
          · have hlength : (slice text start stop).length = stop - start := by
              rw [slice, List.length_drop, List.length_take_of_le hbound]
            have hend : start + (slice text start stop).length = stop := by omega
            refine ⟨hfirst ▸ hle, ?_, ?_, ?_⟩
            · rw [← List.length_pos_iff, hlength]
              omega
            · change slice text start stop = slice text start _
              rw [SegmentData.stop, hend]
            · change Segments text (start + (slice text start stop).length) _
              rw [hend]
              exact ih hrest hsub (.inr ⟨start, markers', rfl, by omega⟩)
          · obtain ⟨⟨rfl, -⟩, -⟩ := by simpa using heq
            omega
        · rcases hplace with hle | ⟨start', markers'', -, hlt, heq⟩
          · exact ih hrest hsub (.inl (by omega))
          · rw [heq] at hsub ⊢
            exact ih hrest hsub (.inr ⟨start', markers'', rfl, by omega⟩)
      · rename_i hout
        rcases hplace with hle | ⟨start', markers'', hgt, hlt, heq⟩
        · exact ⟨hle, hne, hslice, ih hrest hsub (.inl (Nat.le_refl _))⟩
        · obtain ⟨⟨rfl, rfl⟩, -⟩ := by simpa using heq
          exact absurd ⟨Nat.le_of_lt hlt, hgt⟩ hout

theorem Editor.segments_graphemes (hm : m.Lawful) (e : Editor) (line : Text) :
    Segments line 0 (e.graphemes m line) := by
  unfold Editor.graphemes segmentWithMarkers
  split
  · exact hm.segments line
  · dsimp only
    split
    · exact hm.segments line
    · refine segments_mergeSegments (hm.segments line) ?_ (.inl (Nat.le_refl 0))
      intro span hspan
      obtain ⟨⟨start, marker⟩, hmem, hsome⟩ := List.mem_filterMap.mp hspan
      dsimp only at hsome
      split at hsome
      · obtain rfl := Option.some.inj hsome
        obtain ⟨hpos, hle⟩ := markersFrom_mem hmem
        rw [Nat.zero_add] at hle
        exact ⟨Nat.lt_add_of_pos_right hpos, hle⟩
      · cases hsome

/-! ## One line -/

def TextChunk.visualLine (i : Nat) (chunk : TextChunk) : VisualLine :=
  ⟨i, chunk.startIndex, chunk.endIndex - chunk.startIndex⟩

def Editor.lineChunks (m : Measures) (depth : Nat) (e : Editor) (width : Nat) (line : Text) :
    Option (List TextChunk) :=
  if m.visibleWidth line ≤ width then some [⟨line, 0, line.length⟩]
  else wordWrapLine m depth line width (some (e.graphemes m line))

variable {depth width i : Nat} {e : Editor} {line : Text} {chunks : List TextChunk}

theorem Editor.layoutLine_eq : e.layoutLine m depth width i line =
    (e.lineChunks m depth width line).map
      (layoutChunks (i = e.state.cursorLine) e.state.cursorCol) := by
  unfold Editor.layoutLine Editor.lineChunks
  dsimp only
  split
  · by_cases hcurrent : i = e.state.cursorLine
    · simp [layoutChunks, hcurrent]
    · simp [layoutChunks, hcurrent]
  · rfl

theorem Measures.Lawful.width_nil (hm : m.Lawful) : m.visibleWidth [] = 0 :=
  hm.width_printable [] rfl

theorem Editor.visualLinesOf_eq (hm : m.Lawful) : e.visualLinesOf m depth width i line =
    (e.lineChunks m depth width line).map (·.map (TextChunk.visualLine i)) := by
  unfold Editor.visualLinesOf Editor.lineChunks
  by_cases hline : line = []
  · rw [if_pos hline, hline, if_pos (by rw [hm.width_nil]; exact Nat.zero_le width)]
    rfl
  · rw [if_neg hline]
    split
    · rfl
    · rfl

/-- One line carries the cursor, and it is the `k`-th. -/
def CursorAt (layout : List LayoutLine) (k : Nat) : Prop :=
  ∃ before l after, layout = before ++ l :: after ∧ before.length = k ∧ l.hasCursor = true ∧
    ∀ x ∈ before ++ after, x.hasCursor = false

theorem length_layoutChunks (isCurrentLine : Bool) (col : Nat) :
    (layoutChunks isCurrentLine col chunks).length = chunks.length := by
  induction chunks with
  | nil => rfl
  | cons chunk rest ih => exact congrArg (· + 1) ih

theorem hasCursor_layoutChunks_other (col : Nat) :
    ∀ x ∈ layoutChunks false col chunks, x.hasCursor = false := by
  induction chunks with
  | nil => exact List.forall_mem_nil _
  | cons chunk rest ih => exact List.forall_mem_cons.mpr ⟨rfl, ih⟩

theorem hasCursor_layoutChunks_after {start stop col : Nat} (h : Tiles line start chunks stop)
    (hcol : col < start) : ∀ x ∈ layoutChunks true col chunks, x.hasCursor = false := by
  induction chunks generalizing start with
  | nil => exact List.forall_mem_nil _
  | cons chunk rest ih =>
    obtain ⟨hstart, hlt, -, hrest⟩ := h
    refine List.forall_mem_cons.mpr ⟨?_, ih hrest (Nat.lt_trans hcol hlt)⟩
    have hbehind : ¬ chunk.startIndex ≤ col := by omega
    simp [hbehind]

theorem CursorAt.cons {layout : List LayoutLine} {k : Nat} {l : LayoutLine}
    (h : CursorAt layout k) (hl : l.hasCursor = false) : CursorAt (l :: layout) (k + 1) := by
  obtain ⟨before, x, after, rfl, rfl, hx, hother⟩ := h
  exact ⟨l :: before, x, after, rfl, rfl, hx, List.forall_mem_cons.mpr ⟨hl, hother⟩⟩

theorem CursorAt.between {layout above below : List LayoutLine} {k : Nat} (h : CursorAt layout k)
    (habove : ∀ x ∈ above, x.hasCursor = false) (hbelow : ∀ x ∈ below, x.hasCursor = false) :
    CursorAt (above ++ (layout ++ below)) (above.length + k) := by
  obtain ⟨before, x, after, rfl, rfl, hx, hother⟩ := h
  rw [List.forall_mem_append] at hother
  refine ⟨above ++ before, x, after ++ below, ?_, List.length_append, hx, ?_⟩
  · simp only [List.append_assoc, List.cons_append]
  · rw [List.forall_mem_append, List.forall_mem_append, List.forall_mem_append]
    exact ⟨⟨habove, hother.1⟩, hother.2, hbelow⟩

theorem isAt_eq_true {line col : Nat} {vl : VisualLine} {next : Option VisualLine} :
    isAt line col vl next = true ↔ vl.logicalLine = line ∧ vl.startCol ≤ col ∧
      (col - vl.startCol < vl.length ∨
        isLastSegmentOfLine vl next = true ∧ col - vl.startCol = vl.length) := by
  rw [isAt, Bool.and_eq_true, Bool.and_eq_true, Bool.or_eq_true, Bool.and_eq_true,
    decide_eq_true_iff, decide_eq_true_iff, decide_eq_true_iff, decide_eq_true_iff, and_assoc]

theorem cursorAt_chunks {start stop col : Nat} (base : Nat) (h : Tiles line start chunks stop)
    (hne : chunks ≠ []) (hstart : start ≤ col) (hstop : col ≤ stop) {below : List VisualLine}
    (hbelow : ∀ next ∈ below.head?, next.logicalLine ≠ i) :
    ∃ k, CursorAt (layoutChunks true col chunks) k ∧
      findFrom i col base (chunks.map (TextChunk.visualLine i) ++ below) = some (base + k) := by
  induction chunks generalizing start base with
  | nil => exact absurd rfl hne
  | cons chunk rest ih =>
    obtain ⟨rfl, hlt, -, hrest⟩ := h
    cases rest with
    | nil =>
      obtain rfl : chunk.endIndex = stop := hrest
      have hlast : isLastSegmentOfLine (chunk.visualLine i) below.head? = true := by
        rw [isLastSegmentOfLine, Option.all_eq_true]
        exact fun next hnext => decide_eq_true (hbelow next hnext)
      refine ⟨0, ⟨[], _, [], rfl, rfl, ?_, List.forall_mem_nil _⟩, ?_⟩
      · simp [hstart]
      · have hin : col - chunk.startIndex < chunk.endIndex - chunk.startIndex ∨
            col - chunk.startIndex = chunk.endIndex - chunk.startIndex := by omega
        have hat : isAt i col (chunk.visualLine i) below.head? = true :=
          isAt_eq_true.mpr ⟨rfl, hstart, hin.imp_right fun heq => ⟨hlast, heq⟩⟩
        rw [List.map_singleton, List.singleton_append, findFrom, if_pos hat]
        rfl
    | cons next rest =>
      obtain ⟨hnext, -, -, -⟩ := id hrest
      have hnotLast : isLastSegmentOfLine (chunk.visualLine i)
          ((next :: rest).map (TextChunk.visualLine i) ++ below).head? = false := by
        simp [isLastSegmentOfLine, TextChunk.visualLine]
      rw [List.map_cons, List.cons_append, findFrom]
      by_cases hin : col < chunk.endIndex
      · refine ⟨0, ⟨[], _, layoutChunks true col (next :: rest), rfl, rfl, ?_, ?_⟩, ?_⟩
        · simp [hstart, hin]
        · exact hasCursor_layoutChunks_after hrest hin
        · have hlt' : col - chunk.startIndex < chunk.endIndex - chunk.startIndex := by omega
          exact if_pos (isAt_eq_true.mpr ⟨rfl, hstart, .inl hlt'⟩)
      · obtain ⟨k, hcursor, hfind⟩ :=
          ih (base + 1) hrest (List.cons_ne_nil _ _) (Nat.not_lt.mp hin)
        refine ⟨k + 1, hcursor.cons ?_, ?_⟩
        · simp [hin]
        · rw [if_neg, hfind, Nat.add_assoc, Nat.add_comm 1]
          intro hat
          obtain ⟨-, -, hbefore | ⟨hlast, -⟩⟩ := isAt_eq_true.mp hat
          · have hnot : ¬ col - chunk.startIndex < chunk.endIndex - chunk.startIndex := by omega
            exact hnot hbefore
          · rw [hnotLast] at hlast
            cases hlast

/-! ## All lines -/

section Collect

variable {β : Type} {lineOf : Nat → Text → Option (List β)}

theorem collect_returns_iff {R : Text → Prop}
    (hreturns : ∀ i line, (∃ items, lineOf i line = some items) ↔ R line) {i : Nat}
    {lines : List Text} :
    (∃ items, collect lineOf i lines = some items) ↔ ∀ line ∈ lines, R line := by
  induction lines generalizing i with
  | nil => exact ⟨fun _ => List.forall_mem_nil _, fun _ => ⟨[], rfl⟩⟩
  | cons line rest ih =>
    rw [List.forall_mem_cons, ← hreturns i line, ← ih (i := i + 1)]
    constructor
    · rintro ⟨items, h⟩
      obtain ⟨here, hhere, h⟩ := Option.bind_eq_some_iff.mp h
      obtain ⟨below, hbelow, -⟩ := Option.map_eq_some_iff.mp h
      exact ⟨⟨here, hhere⟩, below, hbelow⟩
    · rintro ⟨⟨here, hhere⟩, below, hbelow⟩
      refine ⟨here ++ below, ?_⟩
      rw [collect, hhere, Option.bind_some, hbelow, Option.map_some]

theorem collect_append {i : Nat} {above lines : List Text} {items : List β}
    (h : collect lineOf i (above ++ lines) = some items) :
    ∃ xs ys, collect lineOf i above = some xs ∧ collect lineOf (i + above.length) lines = some ys ∧
      items = xs ++ ys := by
  induction above generalizing i items with
  | nil => exact ⟨[], items, rfl, h, rfl⟩
  | cons line above ih =>
    obtain ⟨here, hhere, h⟩ := Option.bind_eq_some_iff.mp h
    obtain ⟨rest, hrest, rfl⟩ := Option.map_eq_some_iff.mp h
    obtain ⟨xs, ys, hxs, hys, rfl⟩ := ih hrest
    refine ⟨here ++ xs, ys, ?_, ?_, (List.append_assoc _ _ _).symm⟩
    · rw [collect, hhere, Option.bind_some, hxs, Option.map_some]
    · rw [List.length_cons, Nat.add_comm above.length, ← Nat.add_assoc]
      exact hys

theorem forall_collect {P : β → Prop} {i : Nat} {lines : List Text} {items : List β}
    (h : collect lineOf i lines = some items)
    (hline : ∀ j, i ≤ j → j < i + lines.length → ∀ line here, lineOf j line = some here →
      ∀ x ∈ here, P x) : ∀ x ∈ items, P x := by
  induction lines generalizing i items with
  | nil =>
    cases h
    exact List.forall_mem_nil _
  | cons line rest ih =>
    obtain ⟨here, hhere, h⟩ := Option.bind_eq_some_iff.mp h
    obtain ⟨below, hbelow, rfl⟩ := Option.map_eq_some_iff.mp h
    rw [List.length_cons] at hline
    refine List.forall_mem_append.mpr ⟨hline i (Nat.le_refl i) (by omega) line here hhere, ?_⟩
    exact ih hbelow fun j hlow hhigh => hline j (by omega) (by omega)

end Collect

theorem findFrom_append {line col base : Nat} {above : List VisualLine}
    (habove : ∀ vl ∈ above, vl.logicalLine ≠ line) (rest : List VisualLine) :
    findFrom line col base (above ++ rest) = findFrom line col (base + above.length) rest := by
  induction above generalizing base with
  | nil => rfl
  | cons vl above ih =>
    rw [List.forall_mem_cons] at habove
    have hnot : ¬ isAt line col vl (above ++ rest).head? = true := fun hat =>
      habove.1 (isAt_eq_true.mp hat).1
    rw [List.cons_append, findFrom, if_neg hnot, ih habove.2, List.length_cons, Nat.add_assoc,
      Nat.add_comm 1]

namespace Editor

theorem mem_layoutLine_other {i : Nat} (hother : i ≠ e.state.cursorLine) {here : List LayoutLine}
    (h : e.layoutLine m depth width i line = some here) : ∀ x ∈ here, x.hasCursor = false := by
  rw [layoutLine_eq, decide_eq_false hother] at h
  obtain ⟨chunks, -, rfl⟩ := Option.map_eq_some_iff.mp h
  exact hasCursor_layoutChunks_other _

section

variable (hm : m.Lawful)
include hm

theorem mem_visualLinesOf {here : List VisualLine}
    (h : e.visualLinesOf m depth width i line = some here) : ∀ vl ∈ here, vl.logicalLine = i := by
  rw [visualLinesOf_eq hm] at h
  obtain ⟨chunks, -, rfl⟩ := Option.map_eq_some_iff.mp h
  exact List.forall_mem_map.mpr fun chunk _ => rfl

/-- Both maps have the same number of lines. -/
theorem length_collect {lines : List Text} {layout : List LayoutLine}
    {visualLines : List VisualLine}
    (hlayout : collect (e.layoutLine m depth width) i lines = some layout)
    (hmap : collect (e.visualLinesOf m depth width) i lines = some visualLines) :
    visualLines.length = layout.length := by
  induction lines generalizing i layout visualLines with
  | nil =>
    cases hlayout
    cases hmap
    rfl
  | cons line rest ih =>
    obtain ⟨here, hhere, hlayout⟩ := Option.bind_eq_some_iff.mp hlayout
    obtain ⟨below, hbelow, rfl⟩ := Option.map_eq_some_iff.mp hlayout
    obtain ⟨here', hhere', hmap⟩ := Option.bind_eq_some_iff.mp hmap
    obtain ⟨below', hbelow', rfl⟩ := Option.map_eq_some_iff.mp hmap
    rw [layoutLine_eq] at hhere
    rw [visualLinesOf_eq hm] at hhere'
    obtain ⟨chunks, hchunks, rfl⟩ := Option.map_eq_some_iff.mp hhere
    rw [hchunks, Option.map_some] at hhere'
    obtain rfl := Option.some.inj hhere'
    rw [List.length_append, List.length_append, ih hbelow hbelow', length_layoutChunks,
      List.length_map]

theorem lineChunks_returns_iff (hwidth : 0 < width) (e : Editor) (line : Text) :
    ((∃ depth chunks, e.lineChunks m depth width line = some chunks) ↔
        Wrappable m width line (e.graphemes m line)) ∧
      (Wrappable m width line (e.graphemes m line) →
        ∃ chunks, e.lineChunks m 2 width line = some chunks) := by
  unfold lineChunks
  by_cases hfits : m.visibleWidth line ≤ width
  · simp [hfits, Wrappable]
  · have hline : line ≠ [] := by
      rintro rfl
      rw [hm.width_nil] at hfits
      exact hfits (Nat.zero_le width)
    simp only [if_neg hfits]
    exact wordWrapLine_returns_iff hm hwidth hline (e.segments_graphemes hm line).ne_nil

theorem tiles_lineChunks (hwidth : 0 < width) (hline : line ≠ [])
    (h : e.lineChunks m depth width line = some chunks) :
    Tiles line 0 chunks line.length ∧ chunks ≠ [] := by
  unfold lineChunks at h
  split at h
  · obtain rfl := Option.some.inj h
    refine ⟨⟨rfl, List.length_pos_iff.mpr hline, ?_, rfl⟩, List.cons_ne_nil _ _⟩
    rw [slice, List.take_length, List.drop_zero]
  · refine ⟨wordWrapLine_tiles hm hwidth hline ?_ h, wordWrapLine_ne_nil h⟩
    rintro segs hsegs
    obtain rfl := Option.some.inj hsegs
    exact e.segments_graphemes hm line

theorem lineChunks_nil (h : e.lineChunks m depth width [] = some chunks) :
    chunks = [⟨[], 0, 0⟩] := by
  unfold lineChunks at h
  rw [if_pos (by rw [hm.width_nil]; exact Nat.zero_le width)] at h
  exact (Option.some.inj h).symm

theorem cursorAt_lineChunks (hwidth : 0 < width) (base : Nat)
    (h : e.lineChunks m depth width line = some chunks) {col : Nat} (hcol : col ≤ line.length)
    {below : List VisualLine} (hbelow : ∀ next ∈ below.head?, next.logicalLine ≠ i) :
    ∃ k, CursorAt (layoutChunks true col chunks) k ∧
      findFrom i col base (chunks.map (TextChunk.visualLine i) ++ below) = some (base + k) := by
  by_cases hline : line = []
  · subst hline
    obtain rfl := lineChunks_nil hm h
    obtain rfl := Nat.le_zero.mp hcol
    have hlast : isLastSegmentOfLine (TextChunk.visualLine i ⟨[], 0, 0⟩) below.head? = true := by
      rw [isLastSegmentOfLine, Option.all_eq_true]
      exact fun next hnext => decide_eq_true (hbelow next hnext)
    exact ⟨0, ⟨[], _, [], rfl, rfl, rfl, List.forall_mem_nil _⟩,
      if_pos (isAt_eq_true.mpr ⟨rfl, Nat.le_refl 0, .inr ⟨hlast, rfl⟩⟩)⟩
  · obtain ⟨htiles, hne⟩ := tiles_lineChunks hm hwidth hline h
    exact cursorAt_chunks base htiles hne (Nat.zero_le col) hcol hbelow

theorem cursorAt_layoutText (hwidth : 0 < width) (hin : e.InText) {layout : List LayoutLine}
    {visualLines : List VisualLine} (hlayout : e.layoutText m depth width = some layout)
    (hmap : e.buildVisualLineMap m depth width = some visualLines) :
    CursorAt layout (e.findCurrentVisualLine visualLines) := by
  obtain ⟨above, before, after, below, hat⟩ : ∃ above before after below,
      e.At above before after below := ⟨_, _, _, _, hin.at⟩
  unfold layoutText at hlayout
  split at hlayout
  · rename_i hempty
    obtain rfl := Option.some.inj hlayout
    have hlines : e.state.lines = [[]] := hempty.resolve_left fun hnil => by
      have hline := hin.line
      rw [hnil] at hline
      exact absurd hline (Nat.not_lt_zero _)
    rw [hat.lines] at hlines
    have habove : above = [] := by
      rw [← List.length_eq_zero_iff]
      have hlength := congrArg List.length hlines
      rw [List.length_append, List.length_cons, List.length_singleton] at hlength
      omega
    rw [habove, List.nil_append, List.cons.injEq, List.append_eq_nil_iff] at hlines
    obtain ⟨⟨hbefore, hafter⟩, hbelow⟩ := hlines
    rw [habove, hbefore, hafter, hbelow] at hat
    unfold buildVisualLineMap at hmap
    rw [hat.lines] at hmap
    cases hmap
    rw [findCurrentVisualLine, hat.line, hat.col]
    exact ⟨[], _, [], rfl, rfl, rfl, List.forall_mem_nil _⟩
  · unfold buildVisualLineMap at hmap
    rw [hat.lines] at hlayout hmap
    obtain ⟨drawn, rest, hdrawn, hrest, rfl⟩ := collect_append hlayout
    obtain ⟨mapped, rest', hmapped, hrest', rfl⟩ := collect_append hmap
    rw [Nat.zero_add, ← hat.line] at hrest hrest'
    obtain ⟨here, hhere, hrest⟩ := Option.bind_eq_some_iff.mp hrest
    obtain ⟨drawnBelow, hdrawnBelow, rfl⟩ := Option.map_eq_some_iff.mp hrest
    obtain ⟨here', hhere', hrest'⟩ := Option.bind_eq_some_iff.mp hrest'
    obtain ⟨mappedBelow, hmappedBelow, rfl⟩ := Option.map_eq_some_iff.mp hrest'
    have hlength := length_collect hm hdrawn hmapped
    rw [layoutLine_eq, decide_eq_true rfl] at hhere
    rw [visualLinesOf_eq hm] at hhere'
    obtain ⟨chunks, hchunks, rfl⟩ := Option.map_eq_some_iff.mp hhere
    rw [hchunks, Option.map_some] at hhere'
    obtain rfl := Option.some.inj hhere'
    -- the other lines do not carry the cursor, and are other lines of the text
    have hdrawnOther : ∀ x ∈ drawn, x.hasCursor = false :=
      forall_collect hdrawn fun j _ hhigh line here h =>
        mem_layoutLine_other (by rw [hat.line]; omega) h
    have hbelowOther : ∀ x ∈ drawnBelow, x.hasCursor = false :=
      forall_collect hdrawnBelow fun j hlow _ line here h => mem_layoutLine_other (by omega) h
    have hmappedOther : ∀ vl ∈ mapped, vl.logicalLine ≠ e.state.cursorLine :=
      forall_collect hmapped fun j _ hhigh line here h vl hvl => by
        rw [mem_visualLinesOf hm h vl hvl, hat.line]
        omega
    have hmappedBelowOther : ∀ vl ∈ mappedBelow, vl.logicalLine ≠ e.state.cursorLine :=
      forall_collect hmappedBelow fun j hlow _ line here h vl hvl => by
        rw [mem_visualLinesOf hm h vl hvl]
        omega
    have hcol : e.state.cursorCol ≤ (before ++ after).length := by
      rw [hat.col, List.length_append]
      exact Nat.le_add_right _ _
    obtain ⟨k, hcursor, hfind⟩ := cursorAt_lineChunks hm hwidth (0 + mapped.length) hchunks hcol
      fun next hnext => hmappedBelowOther next (List.mem_of_mem_head? hnext)
    rw [findCurrentVisualLine, findVisualLineAt, findFrom_append hmappedOther, hfind,
      Option.getD_some, Nat.zero_add, hlength]
    exact hcursor.between hdrawnOther hbelowOther

theorem layoutText_agrees_iff (hwidth : 0 < width) (hin : e.InText) :
    (∃ depth layout visualLines, e.layoutText m depth width = some layout ∧
        e.buildVisualLineMap m depth width = some visualLines ∧
        CursorAt layout (e.findCurrentVisualLine visualLines)) ↔
      ∀ line ∈ e.state.lines, Wrappable m width line (e.graphemes m line) := by
  have hlines (depth : Nat) {i : Nat} : (∃ items,
      collect (e.visualLinesOf m depth width) i e.state.lines = some items) ↔
        ∀ line ∈ e.state.lines, ∃ chunks, e.lineChunks m depth width line = some chunks :=
    collect_returns_iff fun i line => by
      rw [visualLinesOf_eq hm]
      simp [Option.map_eq_some_iff]
  have hlayouts (depth : Nat) {i : Nat} : (∃ items,
      collect (e.layoutLine m depth width) i e.state.lines = some items) ↔
        ∀ line ∈ e.state.lines, ∃ chunks, e.lineChunks m depth width line = some chunks :=
    collect_returns_iff fun i line => by
      rw [layoutLine_eq]
      simp [Option.map_eq_some_iff]
  constructor
  · rintro ⟨depth, layout, visualLines, -, hmap, -⟩ line hline
    obtain ⟨chunks, hchunks⟩ := (hlines depth).mp ⟨visualLines, hmap⟩ line hline
    exact (lineChunks_returns_iff hm hwidth e line).1.mp ⟨depth, chunks, hchunks⟩
  · intro h
    have hall : ∀ line ∈ e.state.lines, ∃ chunks, e.lineChunks m 2 width line = some chunks :=
      fun line hline => (lineChunks_returns_iff hm hwidth e line).2 (h line hline)
    obtain ⟨visualLines, hmap⟩ := (hlines 2).mpr hall
    obtain ⟨layout, hlayout⟩ : ∃ layout, e.layoutText m 2 width = some layout := by
      unfold layoutText
      split
      · exact ⟨_, rfl⟩
      · exact (hlayouts 2).mpr hall
    exact ⟨2, layout, visualLines, hlayout, hmap, cursorAt_layoutText hm hwidth hin hlayout hmap⟩

end

end Editor

/-! ## Wrapping -/

/-- The chunks of a line tile it, and each fits or is one grapheme. -/
structure WrapsWell (m : Measures) (maxWidth : Nat) (line : Text) (chunks : List TextChunk) :
    Prop where
  tiles : Tiles line 0 chunks line.length
  fits : ∀ c ∈ chunks, m.visibleWidth c.text ≤ maxWidth ∨ m.graphemes c.text = [c.text]

/-- A line is wrapped well where it fits or no grapheme is wider than the
width, and never ends otherwise; and the two maps of the cursor agree where
each line is. -/
theorem wrapping_iff (hm : m.Lawful) (hwidth : 0 < width) :
    (∀ segs, wordWrapLine m 1 [] width segs = some [⟨[], 0, 0⟩]) ∧
    (∀ line pieces, line ≠ [] → Groups m line pieces →
      ((∃ depth chunks, wordWrapLine m depth line width (some (segmentsOf 0 pieces)) = some chunks ∧
          WrapsWell m width line chunks) ↔
        Wrappable m width line (segmentsOf 0 pieces))) ∧
    (∀ e : Editor, e.InText →
      ((∃ depth layout visualLines, e.layoutText m depth width = some layout ∧
          e.buildVisualLineMap m depth width = some visualLines ∧
          CursorAt layout (e.findCurrentVisualLine visualLines)) ↔
        ∀ line ∈ e.state.lines, Wrappable m width line (e.graphemes m line))) := by
  refine ⟨fun _ => rfl, fun line pieces hline hgroups => ?_,
    fun e hin => Editor.layoutText_agrees_iff hm hwidth hin⟩
  have hnonempty : ∀ p ∈ pieces.map (·, false), p.1 ≠ [] := by
    intro p hp hnil
    obtain ⟨piece, hpiece, rfl⟩ := List.mem_map.mp hp
    obtain rfl : piece = [] := hnil
    rcases hgroups.piece [] hpiece with hself | hmarker
    · have hflatten := hm.nonempty []
      rw [hself] at hflatten
      exact hflatten (List.mem_singleton_self [])
    · cases hmarker
  have hflatten : ((pieces.map (·, false)).map Prod.fst).flatten = line := by
    have hfirst : (pieces.map (·, false)).map Prod.fst = pieces := by
      rw [List.map_map]
      exact List.map_id _
    rw [hfirst, hgroups.flatten hm]
  have hsegs : Segments line 0 (segmentsOf 0 pieces) :=
    segments_segmentsFrom [] _ hnonempty (by rw [hflatten, List.nil_append])
  rw [← (wordWrapLine_returns_iff hm hwidth hline hsegs.ne_nil).1]
  refine exists_congr fun depth => exists_congr fun chunks => and_iff_left_of_imp fun h => ?_
  refine ⟨wordWrapLine_tiles hm hwidth hline ?_ h, fun c hc => .inl ?_⟩
  · rintro segs hsome
    obtain rfl := Option.some.inj hsome
    exact hsegs
  · exact wordWrapLine_fits hm hwidth hline hgroups rfl h c hc

/-- Each unit is a grapheme, and the wide ones take two columns. -/
def columns : Measures where
  graphemes text := text.map ([·])
  words text := [(text, true)]
  visibleWidth text := (text.map fun u => if u < 0x1100 then 1 else 2).sum
  isCjk text := text.any (0x1100 ≤ ·)

theorem lawful_columns : columns.Lawful := by
  refine ⟨flatten_units, ?_, ?_, fun _ _ => rfl, ?_, ?_⟩
  · intro text hnil
    obtain ⟨u, -, hu⟩ := List.mem_map.mp hnil
    cases hu
  · intro text g hg
    obtain ⟨u, -, rfl⟩ := List.mem_map.mp hg
    rfl
  · intro text h
    induction text with
    | nil => rfl
    | cons u text ih =>
      rw [List.all_cons, Bool.and_eq_true, isPrintableUnit, Bool.and_eq_true,
        decide_eq_true_iff, decide_eq_true_iff] at h
      have hnarrow : u < 0x1100 := Nat.lt_of_le_of_lt h.1.2 (by decide)
      have hrest : (text.map fun u => if u < 0x1100 then 1 else 2).sum = text.length := ih h.2
      change ((u :: text).map fun u => if u < 0x1100 then 1 else 2).sum = _
      rw [List.map_cons, List.sum_cons, if_pos hnarrow, hrest, List.length_cons, Nat.add_comm]
  · intro text parts hinfix
    clear hinfix
    induction parts with
    | nil => exact Nat.le_refl 0
    | cons part parts ih =>
      have happend : columns.visibleWidth (part ++ parts.flatten) =
          columns.visibleWidth part + columns.visibleWidth parts.flatten := by
        change (List.map _ (_ ++ _)).sum = _
        rw [List.map_append, List.sum_append]
        rfl
      rw [List.flatten_cons, happend, List.map_cons, List.sum_cons]
      exact Nat.add_le_add_left ih _

/-- A character of two columns. -/
def wideCharacter : Text := [0x4e2d]

theorem wrapping_iff_columns : ∃ depth chunks,
    wordWrapLine columns depth (unitsOf "one two" ++ wideCharacter) 4
        (some (segmentsOf 0 ((unitsOf "one two" ++ wideCharacter).map ([·])))) = some chunks ∧
      WrapsWell columns 4 (unitsOf "one two" ++ wideCharacter) chunks := by
  refine ((wrapping_iff lawful_columns (by decide)).2.1 _ _ (by decide)
    (lawful_columns.groups _)).mpr (.inr ?_)
  decide

/-- A character of two columns in a width of one: the wrapper calls itself
without end, and so do both maps of an editor with this text. -/
theorem wrapping_never_ends :
    (Groups columns wideCharacter [wideCharacter] ∧ ¬ ∃ depth chunks,
      wordWrapLine columns depth wideCharacter 1 (some (segmentsOf 0 [wideCharacter])) =
        some chunks) ∧
    ¬ ∃ depth visualLines, ({ state := ⟨[wideCharacter], 0, 0⟩ } : Editor).buildVisualLineMap
      columns depth 1 = some visualLines := by
  have hnone : ¬ ∃ depth chunks, wordWrapLine columns depth wideCharacter 1
      (some (segmentsOf 0 [wideCharacter])) = some chunks := by
    intro h
    have hne : ∀ seg ∈ segmentsOf 0 [wideCharacter], seg.segment ≠ [] := by decide
    have hwrappable := (wordWrapLine_returns_iff lawful_columns (by decide) (by decide) hne).1.mp h
    revert hwrappable
    unfold Wrappable
    decide
  refine ⟨⟨lawful_columns.groups wideCharacter, hnone⟩, ?_⟩
  rintro ⟨depth, visualLines, h⟩
  obtain ⟨here, hhere, -⟩ := Option.bind_eq_some_iff.mp h
  rw [Editor.visualLinesOf_eq lawful_columns] at hhere
  obtain ⟨chunks, hchunks, -⟩ := Option.map_eq_some_iff.mp hhere
  have hwide : ¬ columns.visibleWidth wideCharacter ≤ 1 := by decide
  exact hnone ⟨depth, chunks, (if_neg hwide).symm.trans hchunks⟩

end Tui

end Eagent
