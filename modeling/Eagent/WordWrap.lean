import Mathlib.Data.List.Infix
import Eagent.EditorText

/-!
# Word wrapping

`wordWrapLine` splits a line into chunks of at most a width. It keeps the last
place where a line may break, and splits a segment that is wider than the
width by a call of itself, of which a stack has room for so many (`depth`).

The chunks tile the line (`wordWrapLine_tiles`) and fit (`wordWrapLine_fits`);
there are any exactly where no grapheme is wider than the width
(`wordWrapLine_returns_iff`).
-/

namespace Eagent

namespace Tui

structure TextChunk where
  text : Text
  startIndex : Nat
  endIndex : Nat
deriving DecidableEq

/-- A chunk of a segment, as one of the line. -/
def TextChunk.shift (charIndex : Nat) (c : TextChunk) : TextChunk :=
  { c with startIndex := charIndex + c.startIndex, endIndex := charIndex + c.endIndex }

/-- The chunks so far, and the open one; `wrapOpp` is the last place where a
line may break, with the width before it. -/
structure WrapState where
  chunks : List TextChunk := []
  currentWidth : Nat := 0
  chunkStart : Nat := 0
  wrapOpp : Option (Nat × Nat) := none

/-- White space where a line may break. -/
def isWs (segment : Text) : Bool := !isPasteMarker segment && isWhitespaceChar segment

def isCjkSegment (m : Measures) (segment : Text) : Bool := !isPasteMarker segment && m.isCjk segment

def mayBreak (m : Measures) (segment next : Text) : Bool :=
  if isWs segment then isPasteMarker next || !isWhitespaceChar next
  else !isWhitespaceChar next && (isCjkSegment m segment || isCjkSegment m next)

namespace WrapState

variable (m : Measures) (line : Text) (maxWidth : Nat) (s : WrapState)

/-- The open chunk ends at a position. -/
def pushChunk (stop : Nat) : WrapState :=
  { s with
    chunks := s.chunks ++ [⟨slice line s.chunkStart stop, s.chunkStart, stop⟩]
    chunkStart := stop
    wrapOpp := none }

def forceBreak (charIndex : Nat) : WrapState :=
  if s.chunkStart < charIndex then { s.pushChunk line charIndex with currentWidth := 0 }
  else { s with wrapOpp := none }

/-- What is done before a segment that the open chunk has no room for. -/
def breakBefore (gWidth charIndex : Nat) : WrapState :=
  match s.wrapOpp with
  | some (index, width) =>
      if s.currentWidth - width + gWidth ≤ maxWidth then
        { s.pushChunk line index with currentWidth := s.currentWidth - width }
      else s.forceBreak line charIndex
  | none => s.forceBreak line charIndex

/-- A segment is added to the open chunk. -/
def advance (seg : SegmentData) (next : Option SegmentData) : WrapState :=
  let currentWidth := s.currentWidth + m.visibleWidth seg.segment
  { s with
    currentWidth
    wrapOpp := match next with
      | some next =>
          if mayBreak m seg.segment next.segment then some (next.index, currentWidth) else s.wrapOpp
      | none => s.wrapOpp }

/-- The chunks of a wide segment, the last of which stays open. -/
def rewrap (charIndex : Nat) (subChunks : List TextChunk) : Option WrapState :=
  subChunks.getLast?.map fun last =>
    { chunks := s.chunks ++ subChunks.dropLast.map (TextChunk.shift charIndex)
      currentWidth := m.visibleWidth last.text
      chunkStart := charIndex + last.startIndex
      wrapOpp := none }

/-- One round of the loop; `wrap` splits a wide segment. -/
def wrapSegment (wrap : Text → Option (List TextChunk)) (seg : SegmentData)
    (next : Option SegmentData) : Option WrapState :=
  let gWidth := m.visibleWidth seg.segment
  let s := if maxWidth < s.currentWidth + gWidth then s.breakBefore line maxWidth gWidth seg.index
    else s
  if maxWidth < gWidth then (wrap seg.segment).bind (s.rewrap m seg.index)
  else some (s.advance m seg next)

def wrapLoop (wrap : Text → Option (List TextChunk)) :
    WrapState → List SegmentData → Option WrapState
  | s, [] => some s
  | s, seg :: rest =>
      (s.wrapSegment m line maxWidth wrap seg rest.head?).bind fun s => wrapLoop wrap s rest

end WrapState

/-- With room for `depth` calls on the stack; a call without room gives nothing. -/
def wordWrapLine (m : Measures) : Nat → Text → Nat → Option (List SegmentData) →
    Option (List TextChunk)
  | 0, _, _, _ => none
  | depth + 1, line, maxWidth, preSegmented =>
      if line = [] ∨ maxWidth = 0 then some [⟨[], 0, 0⟩]
      else if m.visibleWidth line ≤ maxWidth then some [⟨line, 0, line.length⟩]
      else
        let segments := preSegmented.getD (m.graphemeSegments line)
        let wrap := fun segment => wordWrapLine m depth segment maxWidth none
        (WrapState.wrapLoop m line maxWidth wrap {} segments).map fun s =>
          s.chunks ++ [⟨line.drop s.chunkStart, s.chunkStart, line.length⟩]

/-! ## Segments of a line -/

def Segments (line : Text) : Nat → List SegmentData → Prop
  | lower, [] => lower ≤ line.length
  | lower, seg :: rest => lower ≤ seg.index ∧ seg.segment ≠ [] ∧
      seg.segment = slice line seg.index seg.stop ∧ Segments line seg.stop rest

/-- Chunks that follow one another from one position of a line to another. -/
def Tiles (line : Text) : Nat → List TextChunk → Nat → Prop
  | start, [], stop => start = stop
  | start, c :: rest, stop => c.startIndex = start ∧ start < c.endIndex ∧
      c.text = slice line start c.endIndex ∧ Tiles line c.endIndex rest stop

variable {m : Measures} {line : Text} {maxWidth : Nat}

theorem Tiles.append {start middle stop : Nat} {xs ys : List TextChunk}
    (hxs : Tiles line start xs middle) (hys : Tiles line middle ys stop) :
    Tiles line start (xs ++ ys) stop := by
  induction xs generalizing start with
  | nil =>
    obtain rfl : start = middle := hxs
    exact hys
  | cons c xs ih =>
    obtain ⟨hstart, hlt, htext, hrest⟩ := hxs
    exact ⟨hstart, hlt, htext, ih hrest⟩

variable {chunks : List TextChunk}

theorem Tiles.concat {start middle stop : Nat} (h : Tiles line start chunks middle)
    (hlt : middle < stop) :
    Tiles line start (chunks ++ [⟨slice line middle stop, middle, stop⟩]) stop :=
  h.append ⟨rfl, hlt, rfl, rfl⟩

theorem Tiles.le {start stop : Nat} (h : Tiles line start chunks stop) :
    start ≤ stop := by
  induction chunks generalizing start with
  | nil => exact Nat.le_of_eq h
  | cons c rest ih =>
    obtain ⟨-, hlt, -, hrest⟩ := h
    exact Nat.le_trans (Nat.le_of_lt hlt) (ih hrest)

theorem Tiles.getLast {start stop : Nat} (h : Tiles line start chunks stop) {last : TextChunk}
    (hlast : chunks.getLast? = some last) :
    Tiles line start chunks.dropLast last.startIndex ∧ last.startIndex < stop ∧
      last.text = slice line last.startIndex stop := by
  induction chunks generalizing start with
  | nil => cases hlast
  | cons c rest ih =>
    obtain ⟨hstart, hlt, htext, hrest⟩ := h
    cases rest with
    | nil =>
      cases hlast
      obtain rfl : c.endIndex = stop := hrest
      subst hstart
      exact ⟨rfl, hlt, htext⟩
    | cons d rest =>
      rw [List.getLast?_cons_cons] at hlast
      obtain ⟨htiles, hlt', htext'⟩ := ih hrest hlast
      exact ⟨⟨hstart, hlt, htext, htiles⟩, hlt', htext'⟩

theorem slice_slice (text : Text) (offset start stop : Nat) {length : Nat} (h : stop ≤ length) :
    slice (slice text offset (offset + length)) start stop =
      slice text (offset + start) (offset + stop) := by
  rw [slice, slice, slice, List.take_drop, List.take_take, Nat.min_eq_left (by omega),
    List.drop_drop]

theorem Tiles.shift {segment : Text} {charIndex start stop : Nat}
    (h : Tiles segment start chunks stop) (hstop : stop ≤ segment.length)
    (hsegment : segment = slice line charIndex (charIndex + segment.length)) :
    Tiles line (charIndex + start) (chunks.map (TextChunk.shift charIndex)) (charIndex + stop) := by
  induction chunks generalizing start with
  | nil => exact congrArg (charIndex + ·) h
  | cons c rest ih =>
    obtain ⟨hstart, hlt, htext, hrest⟩ := h
    have hend : c.endIndex ≤ segment.length := Nat.le_trans hrest.le hstop
    refine ⟨?_, Nat.add_lt_add_left hlt charIndex, ?_, ih hrest⟩
    · rw [TextChunk.shift, hstart]
    · rw [TextChunk.shift, htext]
      conv_lhs => rw [hsegment]
      exact slice_slice line charIndex start c.endIndex hend

/-! ## The chunks tile the line -/

namespace WrapState

/-- The chunks end where the open one starts, before the segments to come and
before the place where a line may break. -/
structure Placed (line : Text) (s : WrapState) (lower : Nat) (rest : List SegmentData) : Prop where
  tiles : Tiles line 0 s.chunks s.chunkStart
  start : s.chunkStart < lower ∨ s.chunkStart = 0 ∧ lower = 0
  opp : ∀ index width, s.wrapOpp = some (index, width) →
    s.chunkStart < index ∧ ∀ next ∈ rest.head?, index ≤ next.index

variable {s s' : WrapState} {lower : Nat} {seg : SegmentData} {rest : List SegmentData}

section

variable (h : s.Placed line lower (seg :: rest))
include h

theorem Placed.forceBreak (hseg : lower ≤ seg.index) :
    Tiles line 0 (s.forceBreak line seg.index).chunks (s.forceBreak line seg.index).chunkStart ∧
      (s.forceBreak line seg.index).chunkStart = seg.index ∧
      (s.forceBreak line seg.index).wrapOpp = none := by
  unfold WrapState.forceBreak
  split
  · rename_i hlt
    exact ⟨h.tiles.concat hlt, rfl, rfl⟩
  · rename_i hge
    have hstart := h.start
    exact ⟨h.tiles, by dsimp only; omega, rfl⟩

theorem Placed.breakBefore (hseg : lower ≤ seg.index) (maxWidth gWidth : Nat) :
    Tiles line 0 (s.breakBefore line maxWidth gWidth seg.index).chunks
        (s.breakBefore line maxWidth gWidth seg.index).chunkStart ∧
      (s.breakBefore line maxWidth gWidth seg.index).chunkStart ≤ seg.index ∧
      (s.breakBefore line maxWidth gWidth seg.index).wrapOpp = none ∧
      (maxWidth < gWidth →
        (s.breakBefore line maxWidth gWidth seg.index).chunkStart = seg.index) := by
  obtain ⟨htiles, hstart, hnone⟩ := h.forceBreak hseg
  unfold WrapState.breakBefore
  split
  · rename_i index width hopp
    split
    · obtain ⟨hlt, hle⟩ := h.opp index width hopp
      exact ⟨h.tiles.concat hlt, hle seg rfl, rfl, fun hwide => by omega⟩
    · exact ⟨htiles, Nat.le_of_eq hstart, hnone, fun _ => hstart⟩
  · exact ⟨htiles, Nat.le_of_eq hstart, hnone, fun _ => hstart⟩

theorem Placed.makeRoom (hseg : lower ≤ seg.index) (m : Measures) (maxWidth : Nat) :
    ∃ s₁, s₁ = (if maxWidth < s.currentWidth + m.visibleWidth seg.segment then
        s.breakBefore line maxWidth (m.visibleWidth seg.segment) seg.index else s) ∧
      Tiles line 0 s₁.chunks s₁.chunkStart ∧ s₁.chunkStart ≤ seg.index ∧
      (maxWidth < m.visibleWidth seg.segment → s₁.chunkStart = seg.index) ∧
      ∀ index width, s₁.wrapOpp = some (index, width) →
        s₁.chunkStart < index ∧ index ≤ seg.index := by
  refine ⟨_, rfl, ?_⟩
  split
  · obtain ⟨htiles, hle, hnone, hwide⟩ :=
      h.breakBefore hseg maxWidth (m.visibleWidth seg.segment)
    refine ⟨htiles, hle, hwide, fun index width hopp => ?_⟩
    rw [hnone] at hopp
    cases hopp
  · have hstart := h.start
    refine ⟨h.tiles, by omega, fun hwide => by omega, fun index width hopp => ?_⟩
    obtain ⟨hlt, hle⟩ := h.opp index width hopp
    exact ⟨hlt, hle seg rfl⟩

theorem Placed.wrapSegment {wrap : Text → Option (List TextChunk)}
    (hsegs : Segments line lower (seg :: rest))
    (hwrap : ∀ subs, wrap seg.segment = some subs → Tiles seg.segment 0 subs seg.segment.length)
    (hrun : s.wrapSegment m line maxWidth wrap seg rest.head? = some s') :
    s'.Placed line seg.stop rest := by
  obtain ⟨hseg, hne, hslice, hrest⟩ := hsegs
  have hlength : 0 < seg.segment.length := List.length_pos_iff.mpr hne
  have hstop : seg.stop = seg.index + seg.segment.length := rfl
  have hnext : ∀ next ∈ rest.head?, seg.stop ≤ next.index := by
    intro next hmem
    obtain ⟨rest', rfl⟩ := List.head?_eq_some_iff.mp hmem
    exact hrest.1
  obtain ⟨s₁, hs₁, htiles, hle, hwide, hopp⟩ := h.makeRoom hseg m maxWidth
  unfold WrapState.wrapSegment at hrun
  dsimp only at hrun
  rw [← hs₁] at hrun
  split at hrun
  · -- a wide segment: its chunks begin where it does
    rename_i hover
    obtain ⟨subs, hsubs, hrewrap⟩ := Option.bind_eq_some_iff.mp hrun
    obtain ⟨last, hlast, rfl⟩ := Option.map_eq_some_iff.mp hrewrap
    obtain ⟨hsub, hlt, -⟩ := (hwrap subs hsubs).getLast hlast
    have hshift := hsub.shift (Nat.le_of_lt hlt) (hstop ▸ hslice)
    have hstart := hwide hover
    rw [Nat.add_zero, ← hstart] at hshift
    refine ⟨?_, .inl ?_, fun index width hnone => by cases hnone⟩
    · dsimp only
      rw [← hstart]
      exact htiles.append hshift
    · dsimp only
      omega
  · obtain rfl := Option.some.inj hrun
    refine ⟨htiles, .inl (by change s₁.chunkStart < _; omega), fun index width hsome => ?_⟩
    have hold (hsome : s₁.wrapOpp = some (index, width)) :
        s₁.chunkStart < index ∧ ∀ next ∈ rest.head?, index ≤ next.index := by
      obtain ⟨hlt, hle'⟩ := hopp index width hsome
      exact ⟨hlt, fun next hmem => by have := hnext next hmem; omega⟩
    unfold advance at hsome
    dsimp only at hsome
    split at hsome
    · rename_i next hhead
      split at hsome
      · obtain ⟨rfl, -⟩ := Prod.mk.inj (Option.some.inj hsome)
        have hle' := hnext next hhead
        refine ⟨by change s₁.chunkStart < _; omega, fun next' hmem => ?_⟩
        rw [hhead] at hmem
        cases hmem
        exact Nat.le_refl _
      · exact hold hsome
    · exact hold hsome

end

theorem Placed.wrapLoop {wrap : Text → Option (List TextChunk)} (segs : List SegmentData)
    (h : s.Placed line lower segs) (hsegs : Segments line lower segs)
    (hwrap : ∀ seg ∈ segs, ∀ subs, wrap seg.segment = some subs →
      Tiles seg.segment 0 subs seg.segment.length)
    (hrun : WrapState.wrapLoop m line maxWidth wrap s segs = some s') :
    ∃ upper ≤ line.length, s'.Placed line upper [] := by
  induction segs generalizing s lower with
  | nil =>
    obtain rfl := Option.some.inj hrun
    exact ⟨lower, hsegs, h⟩
  | cons seg rest ih =>
    obtain ⟨s₁, hstep, hrest⟩ := Option.bind_eq_some_iff.mp hrun
    have hplaced := h.wrapSegment hsegs (hwrap seg List.mem_cons_self) hstep
    exact ih hplaced hsegs.2.2.2 (fun seg hmem => hwrap seg (List.mem_cons_of_mem _ hmem)) hrest

end WrapState

/-- A character of ASCII that takes a column. -/
def isPrintableUnit (u : UInt16) : Bool := 0x20 ≤ u && u ≤ 0x7e

/-- What is known of the segmenter of graphemes and of the widths. -/
structure Measures.Lawful (m : Measures) : Prop where
  flatten : ∀ text, (m.graphemes text).flatten = text
  nonempty : ∀ text, [] ∉ m.graphemes text
  /-- a grapheme is one when it stands alone -/
  single : ∀ text, ∀ g ∈ m.graphemes text, m.graphemes g = [g]
  printable : ∀ text : Text, text.all isPrintableUnit = true → m.graphemes text = text.map ([·])
  width_printable : ∀ text : Text, text.all isPrintableUnit = true →
    m.visibleWidth text = text.length
  /-- consecutive graphemes take no more than each takes alone -/
  width_le : ∀ text parts, parts <:+: m.graphemes text →
    m.visibleWidth parts.flatten ≤ (parts.map m.visibleWidth).sum

theorem segments_segmentsFrom (before : Text) (pieces : List (Text × Bool))
    (hnonempty : ∀ p ∈ pieces, p.1 ≠ []) (hline : line = before ++ (pieces.map Prod.fst).flatten) :
    Segments line before.length (segmentsFrom before.length pieces) := by
  induction pieces generalizing before with
  | nil =>
    change before.length ≤ line.length
    rw [hline, List.length_append]
    exact Nat.le_add_right _ _
  | cons p rest ih =>
    obtain ⟨segment, isWordLike⟩ := p
    rw [List.map_cons, List.flatten_cons] at hline
    have hslice : slice line before.length (before.length + segment.length) = segment := by
      rw [slice, hline, List.take_length_add_append, List.take_left, List.drop_left]
    refine ⟨Nat.le_refl _, hnonempty _ List.mem_cons_self, hslice.symm, ?_⟩
    have hrest := ih (before ++ segment) (fun p hp => hnonempty p (List.mem_cons_of_mem _ hp))
      (by rw [hline, List.append_assoc])
    rw [List.length_append] at hrest
    exact hrest

theorem Measures.Lawful.segments (hm : m.Lawful) (line : Text) :
    Segments line 0 (m.graphemeSegments line) := by
  refine segments_segmentsFrom [] _ ?_ ?_
  · intro p hp hnil
    obtain ⟨g, hg, rfl⟩ := List.mem_map.mp hp
    obtain rfl : g = [] := hnil
    exact hm.nonempty line hg
  · have hfirst : ((m.graphemes line).map (·, false)).map Prod.fst = m.graphemes line := by
      rw [List.map_map]
      exact List.map_id _
    rw [hfirst, hm.flatten, List.nil_append]

theorem Segments.ne_nil {lower : Nat} {segs : List SegmentData} (h : Segments line lower segs) :
    ∀ seg ∈ segs, seg.segment ≠ [] := by
  induction segs generalizing lower with
  | nil => exact List.forall_mem_nil _
  | cons seg rest ih =>
    obtain ⟨-, hne, -, hrest⟩ := h
    exact List.forall_mem_cons.mpr ⟨hne, ih hrest⟩

variable {preSegmented : Option (List SegmentData)}

theorem wordWrapLine_tiles (hm : m.Lawful) (hmax : 0 < maxWidth) {depth : Nat} (hline : line ≠ [])
    (hsegs : ∀ segs ∈ preSegmented, Segments line 0 segs)
    (h : wordWrapLine m depth line maxWidth preSegmented = some chunks) :
    Tiles line 0 chunks line.length := by
  induction depth generalizing line preSegmented chunks with
  | zero => cases h
  | succ depth ih =>
    have hlength := List.length_pos_iff.mpr hline
    unfold wordWrapLine at h
    rw [if_neg (not_or.mpr ⟨hline, Nat.ne_of_gt hmax⟩)] at h
    split at h
    · obtain rfl := Option.some.inj h
      refine ⟨rfl, hlength, ?_, rfl⟩
      rw [slice, List.take_length, List.drop_zero]
    · obtain ⟨s, hrun, rfl⟩ := Option.map_eq_some_iff.mp h
      have hsegs' : Segments line 0 (preSegmented.getD (m.graphemeSegments line)) := by
        cases preSegmented with
        | none => exact hm.segments line
        | some segs => exact hsegs segs rfl
      have hstart : WrapState.Placed line {} 0 (preSegmented.getD (m.graphemeSegments line)) :=
        ⟨rfl, .inr ⟨rfl, rfl⟩, fun index width hopp => by cases hopp⟩
      have hwrap : ∀ seg ∈ preSegmented.getD (m.graphemeSegments line), ∀ subs,
          wordWrapLine m depth seg.segment maxWidth none = some subs →
            Tiles seg.segment 0 subs seg.segment.length := fun seg hmem subs hsubs =>
        ih (hsegs'.ne_nil seg hmem) (fun segs hnone => by cases hnone) hsubs
      obtain ⟨upper, hupper, hplaced⟩ := hstart.wrapLoop _ hsegs' hwrap hrun
      have hplace := hplaced.start
      have hrest : line.drop s.chunkStart = slice line s.chunkStart line.length := by
        rw [slice, List.take_length]
      rw [hrest]
      exact hplaced.tiles.concat (by omega)

/-! ## Where there are chunks -/

def Wrappable (m : Measures) (maxWidth : Nat) (line : Text) (segs : List SegmentData) : Prop :=
  m.visibleWidth line ≤ maxWidth ∨ ∀ seg ∈ segs, m.visibleWidth seg.segment ≤ maxWidth ∨
    ∀ g ∈ m.graphemes seg.segment, m.visibleWidth g ≤ maxWidth

theorem wrapLoop_returns_iff (wrap : Text → Option (List TextChunk)) (s : WrapState)
    (segs : List SegmentData) : (∃ s', WrapState.wrapLoop m line maxWidth wrap s segs = some s') ↔
      ∀ seg ∈ segs, m.visibleWidth seg.segment ≤ maxWidth ∨
        ∃ subs, wrap seg.segment = some subs ∧ subs ≠ [] := by
  induction segs generalizing s with
  | nil => exact ⟨fun _ => List.forall_mem_nil _, fun _ => ⟨s, rfl⟩⟩
  | cons seg rest ih =>
    rw [List.forall_mem_cons, WrapState.wrapLoop, WrapState.wrapSegment]
    generalize (if maxWidth < s.currentWidth + m.visibleWidth seg.segment then
      s.breakBefore line maxWidth (m.visibleWidth seg.segment) seg.index else s) = s₁
    by_cases hover : maxWidth < m.visibleWidth seg.segment
    · rw [if_pos hover]
      constructor
      · rintro ⟨s', hrun⟩
        obtain ⟨s₂, hstep, hrest⟩ := Option.bind_eq_some_iff.mp hrun
        obtain ⟨subs, hsubs, hrewrap⟩ := Option.bind_eq_some_iff.mp hstep
        obtain ⟨last, hlast, -⟩ := Option.map_eq_some_iff.mp hrewrap
        refine ⟨.inr ⟨subs, hsubs, ?_⟩, (ih s₂).mp ⟨s', hrest⟩⟩
        rintro rfl
        cases hlast
      · rintro ⟨hseg, hrest⟩
        obtain ⟨subs, hsubs, hne⟩ := hseg.resolve_left (Nat.not_le.mpr hover)
        have hlast := List.getLast?_eq_some_getLast hne
        rw [hsubs, Option.bind_some, WrapState.rewrap, hlast, Option.map_some, Option.bind_some]
        exact (ih _).mpr hrest
    · rw [if_neg hover, Option.bind_some, ih]
      exact ⟨fun hrest => ⟨.inl (Nat.not_lt.mp hover), hrest⟩, And.right⟩

theorem wordWrapLine_ne_nil {depth : Nat}
    (h : wordWrapLine m depth line maxWidth preSegmented = some chunks) :
    chunks ≠ [] := by
  cases depth with
  | zero => cases h
  | succ depth =>
    unfold wordWrapLine at h
    split at h
    · cases h
      exact List.cons_ne_nil _ _
    · split at h
      · cases h
        exact List.cons_ne_nil _ _
      · obtain ⟨s, -, rfl⟩ := Option.map_eq_some_iff.mp h
        exact List.append_ne_nil_of_right_ne_nil _ (List.cons_ne_nil _ _)

theorem wordWrapLine_succ (depth : Nat) (preSegmented : Option (List SegmentData))
    (hline : line ≠ []) (hmax : 0 < maxWidth) :
    wordWrapLine m (depth + 1) line maxWidth preSegmented =
      if m.visibleWidth line ≤ maxWidth then some [⟨line, 0, line.length⟩]
      else (WrapState.wrapLoop m line maxWidth
        (fun segment => wordWrapLine m depth segment maxWidth none) {}
        (preSegmented.getD (m.graphemeSegments line))).map fun s =>
          s.chunks ++ [⟨line.drop s.chunkStart, s.chunkStart, line.length⟩] := by
  rw [wordWrapLine, if_neg (not_or.mpr ⟨hline, Nat.ne_of_gt hmax⟩)]

theorem returns_succ_iff {depth : Nat} (hline : line ≠ []) (hmax : 0 < maxWidth) :
    (∃ chunks, wordWrapLine m (depth + 1) line maxWidth preSegmented = some chunks) ↔
      m.visibleWidth line ≤ maxWidth ∨
        ∀ seg ∈ preSegmented.getD (m.graphemeSegments line), m.visibleWidth seg.segment ≤ maxWidth ∨
          ∃ subs, wordWrapLine m depth seg.segment maxWidth none = some subs := by
  have hsubs (segment : Text) : (∃ subs, wordWrapLine m depth segment maxWidth none = some subs ∧
      subs ≠ []) ↔ ∃ subs, wordWrapLine m depth segment maxWidth none = some subs :=
    exists_congr fun subs => and_iff_left_of_imp wordWrapLine_ne_nil
  rw [wordWrapLine_succ depth preSegmented hline hmax]
  by_cases hfits : m.visibleWidth line ≤ maxWidth
  · rw [if_pos hfits]
    exact ⟨fun _ => .inl hfits, fun _ => ⟨_, rfl⟩⟩
  · rw [if_neg hfits, or_iff_right hfits]
    have hloop : (∃ s', WrapState.wrapLoop m line maxWidth
        (fun segment => wordWrapLine m depth segment maxWidth none) {}
        (preSegmented.getD (m.graphemeSegments line)) = some s') ↔ _ := wrapLoop_returns_iff _ _ _
    simp only [hsubs] at hloop
    rw [← hloop]
    constructor
    · rintro ⟨chunks, h⟩
      obtain ⟨s, hs, -⟩ := Option.map_eq_some_iff.mp h
      exact ⟨s, hs⟩
    · rintro ⟨s, hs⟩
      exact ⟨_, Option.map_eq_some_iff.mpr ⟨s, hs, rfl⟩⟩

theorem map_segment_segmentsFrom (index : Nat) (pieces : List (Text × Bool)) :
    (segmentsFrom index pieces).map (·.segment) = pieces.map Prod.fst := by
  induction pieces generalizing index with
  | nil => rfl
  | cons p rest ih => exact congrArg (p.1 :: ·) (ih _)

theorem forall_graphemeSegments (text : Text) (P : Text → Prop) :
    (∀ seg ∈ m.graphemeSegments text, P seg.segment) ↔ ∀ g ∈ m.graphemes text, P g := by
  have hsegments : (m.graphemeSegments text).map (·.segment) = m.graphemes text := by
    rw [Measures.graphemeSegments, map_segment_segmentsFrom, List.map_map]
    exact List.map_id _
  rw [← hsegments, List.forall_mem_map]

theorem Measures.Lawful.ne_nil (hm : m.Lawful) {text g : Text} (hg : g ∈ m.graphemes text) :
    g ≠ [] := by
  rintro rfl
  exact hm.nonempty text hg

/-- A call on a grapheme that is too wide never returns: it calls itself. -/
theorem wordWrapLine_wide (hm : m.Lawful) (hmax : 0 < maxWidth) {text g : Text}
    (hg : g ∈ m.graphemes text) (hwide : maxWidth < m.visibleWidth g) (depth : Nat) :
    ¬ ∃ chunks, wordWrapLine m depth g maxWidth none = some chunks := by
  induction depth with
  | zero =>
    rintro ⟨chunks, h⟩
    cases h
  | succ depth ih =>
    rw [returns_succ_iff (hm.ne_nil hg) hmax, or_iff_right (Nat.not_le.mpr hwide)]
    have hself : g ∈ m.graphemes g := by
      rw [hm.single text g hg]
      exact List.mem_singleton_self g
    intro hall
    have hreturns := (forall_graphemeSegments g fun g => m.visibleWidth g ≤ maxWidth ∨
      ∃ subs, wordWrapLine m depth g maxWidth none = some subs).mp hall g hself
    exact hreturns.elim (Nat.not_le.mpr hwide) ih

/-- Two calls on the stack are enough, and no number of them is where a
grapheme is too wide. -/
theorem wordWrapLine_returns_iff (hm : m.Lawful) (hmax : 0 < maxWidth) (hline : line ≠ [])
    {segs : List SegmentData} (hsegs : ∀ seg ∈ segs, seg.segment ≠ []) :
    ((∃ depth chunks, wordWrapLine m depth line maxWidth (some segs) = some chunks) ↔
        Wrappable m maxWidth line segs) ∧
      (Wrappable m maxWidth line segs →
        ∃ chunks, wordWrapLine m 2 line maxWidth (some segs) = some chunks) := by
  have hreturns (depth : Nat) {segment : Text} (hne : segment ≠ []) :
      (∃ chunks, wordWrapLine m (depth + 1) segment maxWidth none = some chunks) ↔
        m.visibleWidth segment ≤ maxWidth ∨
          ∀ g ∈ m.graphemes segment, m.visibleWidth g ≤ maxWidth := by
    rw [returns_succ_iff hne hmax]
    refine or_congr_right ((forall_graphemeSegments segment fun g => m.visibleWidth g ≤ maxWidth ∨
      ∃ subs, wordWrapLine m depth g maxWidth none = some subs).trans
        ⟨fun h g hg => ?_, fun h g hg => ?_⟩)
    · by_contra hwide
      exact (h g hg).elim hwide
        (wordWrapLine_wide hm hmax hg (Nat.not_le.mp hwide) depth)
    · exact .inl (h g hg)
  have hsucc (depth : Nat) : (∃ chunks, wordWrapLine m (depth + 2) line maxWidth (some segs) =
      some chunks) ↔ Wrappable m maxWidth line segs := by
    rw [returns_succ_iff hline hmax]
    refine or_congr_right (forall₂_congr fun seg hseg => ?_)
    rw [hreturns depth (hsegs seg hseg), ← or_assoc, or_self]
  refine ⟨⟨fun h => ?_, fun h => ⟨2, (hsucc 0).mpr h⟩⟩, (hsucc 0).mpr⟩
  obtain ⟨depth, hchunks⟩ := h
  cases depth with
  | zero =>
    obtain ⟨chunks, h⟩ := hchunks
    cases h
  | succ depth =>
    cases depth with
    | succ depth => exact (hsucc depth).mp hchunks
    | zero =>
      -- one call has no room for those of a wide segment
      refine ((returns_succ_iff hline hmax).mp hchunks).imp_right fun h seg hseg => ?_
      refine (h seg hseg).imp_right fun hsub => ?_
      obtain ⟨subs, hsubs⟩ := hsub
      cases hsubs

end Tui

end Eagent
