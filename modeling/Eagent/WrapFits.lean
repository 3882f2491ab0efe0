import Eagent.WordWrap

/-!
# The widths of the chunks

A segmentation of a line groups its graphemes: each segment is a grapheme or a
paste marker (`Groups`). The open chunk of `wordWrapLine` is a run of
graphemes that takes no more than its width (`Fitted`), so each chunk fits.
-/

namespace Eagent

namespace Tui

variable {m : Measures} {line : Text} {maxWidth : Nat}

/-! ## Paste markers -/

theorem takeDigits_eq_some {text digits rest : Text} (h : takeDigits text = some (digits, rest)) :
    text = digits ++ rest ∧ digits.all isDigitUnit = true := by
  unfold takeDigits at h
  split at h
  · cases h
  · obtain ⟨rfl, rfl⟩ := Prod.mk.inj (Option.some.inj h)
    exact ⟨List.takeWhile_append_dropWhile.symm, List.all_takeWhile⟩

theorem dropPrefix_eq_some {text opening rest : Text} (h : text.dropPrefix? opening = some rest) :
    text = opening ++ rest := by
  obtain ⟨taken, htext, heq⟩ := List.dropPrefix?_eq_some_iff.mp h
  rw [htext, eq_of_beq heq]

theorem printable_digits {digits : Text} (h : digits.all isDigitUnit = true) :
    digits.all isPrintableUnit = true := by
  rw [List.all_eq_true] at h ⊢
  intro u hu
  have hdigit := h u hu
  rw [isDigitUnit, Bool.and_eq_true, decide_eq_true_iff, decide_eq_true_iff] at hdigit
  rw [isPrintableUnit, Bool.and_eq_true, decide_eq_true_iff, decide_eq_true_iff]
  exact ⟨UInt16.le_trans (by decide) hdigit.1, UInt16.le_trans hdigit.2 (by decide)⟩

theorem stripCount_eq_some {opening closing text rest : Text}
    (hopening : opening.all isPrintableUnit = true) (hclosing : closing.all isPrintableUnit = true)
    (h : stripCount opening closing text = some rest) :
    ∃ taken, text = taken ++ rest ∧ taken.all isPrintableUnit = true := by
  obtain ⟨afterOpening, hopen, h⟩ := Option.bind_eq_some_iff.mp h
  obtain ⟨⟨digits, afterDigits⟩, hdigits, hclose⟩ := Option.bind_eq_some_iff.mp h
  obtain ⟨hafter, hall⟩ := takeDigits_eq_some hdigits
  refine ⟨opening ++ (digits ++ closing), ?_, ?_⟩
  · rw [dropPrefix_eq_some hopen, hafter, dropPrefix_eq_some hclose, List.append_assoc,
      List.append_assoc]
  · rw [List.all_append, List.all_append, hopening, hclosing, printable_digits hall]
    rfl

theorem stripSuffix_eq_some {text rest : Text} (h : stripSuffix text = some rest) :
    ∃ taken, text = taken ++ rest ∧ taken.all isPrintableUnit = true := by
  unfold stripSuffix at h
  cases hlines : stripCount (unitsOf " +") (unitsOf " lines") text with
  | some after =>
    rw [hlines] at h
    obtain rfl : after = rest := Option.some.inj h
    exact stripCount_eq_some (by decide) (by decide) hlines
  | none =>
    rw [hlines] at h
    exact stripCount_eq_some (by decide) (by decide) h

theorem matchMarker_eq_some {text : Text} {marker : Marker} (h : matchMarker text = some marker) :
    ∃ taken rest, text = taken ++ rest ∧ taken.all isPrintableUnit = true ∧ taken ≠ [] ∧
      marker.length = taken.length := by
  obtain ⟨afterOpening, hopen, h⟩ := Option.bind_eq_some_iff.mp h
  obtain ⟨⟨digits, afterDigits⟩, hdigits, h⟩ := Option.bind_eq_some_iff.mp h
  obtain ⟨rest, hclose, h⟩ := Option.bind_eq_some_iff.mp h
  obtain ⟨hafter, hall⟩ := takeDigits_eq_some hdigits
  obtain ⟨suffix, hsuffix, hprintable⟩ : ∃ suffix,
      afterDigits = suffix ++ (stripSuffix afterDigits).getD afterDigits ∧
        suffix.all isPrintableUnit = true := by
    cases hstrip : stripSuffix afterDigits with
    | none => exact ⟨[], rfl, rfl⟩
    | some after => exact stripSuffix_eq_some hstrip
  have htext : text = unitsOf "[paste #" ++ (digits ++ (suffix ++ unitsOf "]")) ++ rest := by
    rw [dropPrefix_eq_some hopen, hafter, hsuffix, dropPrefix_eq_some hclose]
    simp only [List.append_assoc]
  refine ⟨_, rest, htext, ?_, ?_, ?_⟩
  · rw [List.all_append, List.all_append, List.all_append, printable_digits hall, hprintable]
    decide
  · exact List.append_ne_nil_of_left_ne_nil (by decide) _
  · cases h
    dsimp only
    rw [htext, List.length_append, Nat.add_sub_cancel]

theorem printable_of_isPasteMarker {segment : Text} (h : isPasteMarker segment = true) :
    segment.all isPrintableUnit = true := by
  rw [isPasteMarker, Bool.and_eq_true, Option.any_eq_true] at h
  obtain ⟨-, marker, hmatch, hlength⟩ := h
  obtain ⟨taken, rest, htext, hall, -, htaken⟩ := matchMarker_eq_some hmatch
  rw [decide_eq_true_iff, htaken, htext, List.length_append] at hlength
  have hrest : rest = [] := List.length_eq_zero_iff.mp (by omega)
  rw [htext, hrest, List.append_nil]
  exact hall

/-! ## Graphemes -/

/-- The segments of a line are its graphemes, with those of a marker together. -/
structure Groups (m : Measures) (line : Text) (pieces : List Text) : Prop where
  graphemes : pieces.flatMap m.graphemes = m.graphemes line
  piece : ∀ p ∈ pieces, m.graphemes p = [p] ∨ isPasteMarker p = true

theorem Groups.flatten {pieces : List Text} (h : Groups m line pieces) (hm : m.Lawful) :
    pieces.flatten = line := by
  have hpieces : (pieces.flatMap m.graphemes).flatten = pieces.flatten := by
    clear h
    induction pieces with
    | nil => rfl
    | cons p rest ih =>
      rw [List.flatMap_cons, List.flatten_append, hm.flatten, ih, List.flatten_cons]
  rw [← hpieces, h.graphemes, hm.flatten]

theorem Measures.Lawful.groups (hm : m.Lawful) (text : Text) :
    Groups m text (m.graphemes text) := by
  refine ⟨?_, fun g hg => .inl (hm.single text g hg)⟩
  exact (List.flatMap_congr (hm.single text)).trans (List.flatMap_singleton' _)

def segmentsOf (index : Nat) (pieces : List Text) : List SegmentData :=
  segmentsFrom index (pieces.map (·, false))

/-- What parts take when each stands alone. -/
def widthSum (m : Measures) (parts : List Text) : Nat := (parts.map m.visibleWidth).sum

theorem widthSum_append (xs ys : List Text) :
    widthSum m (xs ++ ys) = widthSum m xs + widthSum m ys := by
  rw [widthSum, List.map_append, List.sum_append]
  rfl

theorem flatten_units (text : Text) : (text.map ([·])).flatten = text := by
  induction text with
  | nil => rfl
  | cons u text ih => exact congrArg (u :: ·) ih

theorem widthSum_units (hm : m.Lawful) {text : Text} (h : text.all isPrintableUnit = true) :
    widthSum m (text.map ([·])) = text.length := by
  induction text with
  | nil => rfl
  | cons u text ih =>
    rw [List.all_cons, Bool.and_eq_true] at h
    have hunit : m.visibleWidth [u] = 1 := hm.width_printable [u] (by simp [h.1])
    have hrest := ih h.2
    rw [widthSum] at hrest ⊢
    rw [List.map_cons, List.map_cons, List.sum_cons, hunit, hrest, List.length_cons, Nat.add_comm]

/-- A segment takes what its graphemes take. -/
theorem widthSum_piece (hm : m.Lawful) {p : Text}
    (h : m.graphemes p = [p] ∨ isPasteMarker p = true) :
    widthSum m (m.graphemes p) = m.visibleWidth p := by
  rcases h with hself | hmarker
  · rw [hself]
    exact Nat.add_zero _
  · have hprintable := printable_of_isPasteMarker hmarker
    rw [hm.printable p hprintable, widthSum_units hm hprintable, hm.width_printable p hprintable]

/-- A part of the line between two positions among its graphemes. -/
theorem slice_parts (hm : m.Lawful) {before parts after : List Text}
    (h : before ++ parts ++ after = m.graphemes line) :
    slice line before.flatten.length (before ++ parts).flatten.length = parts.flatten := by
  have hline : line = before.flatten ++ parts.flatten ++ after.flatten := by
    rw [← hm.flatten line, ← h, List.flatten_append, List.flatten_append]
  rw [slice, hline, List.flatten_append, List.take_left, List.drop_left]

theorem width_parts (hm : m.Lawful) {before parts after : List Text}
    (h : before ++ parts ++ after = m.graphemes line) :
    m.visibleWidth parts.flatten ≤ widthSum m parts :=
  hm.width_le line parts ⟨before, after, h⟩

theorem widthSum_le_left {xs ys : List Text} {width : Nat} (h : widthSum m (xs ++ ys) ≤ width) :
    widthSum m xs ≤ width := by
  rw [widthSum_append] at h
  omega

namespace WrapState

/-- The open chunk is a run of graphemes that takes no more than its width. -/
structure Fitted (m : Measures) (line : Text) (maxWidth : Nat) (s : WrapState)
    (before parts after : List Text) : Prop where
  graphemes : before ++ parts ++ after = m.graphemes line
  start : s.chunkStart = before.flatten.length
  width : widthSum m parts ≤ s.currentWidth
  fits : s.currentWidth ≤ maxWidth
  opp : ∀ index width, s.wrapOpp = some (index, width) → ∃ xs ys, parts = xs ++ ys ∧
    index = (before ++ xs).flatten.length ∧ width + widthSum m ys ≤ s.currentWidth
  chunks : ∀ c ∈ s.chunks, m.visibleWidth c.text ≤ maxWidth

variable {s s' : WrapState} {before parts after : List Text}

section

variable (h : s.Fitted m line maxWidth before parts after)
include h

theorem Fitted.pushChunk (hm : m.Lawful) {xs ys : List Text} (hparts : parts = xs ++ ys) :
    ∀ c ∈ (s.pushChunk line (before ++ xs).flatten.length).chunks,
      m.visibleWidth c.text ≤ maxWidth := by
  have hgraphemes := h.graphemes
  have hwidth := h.width
  rw [hparts] at hgraphemes hwidth
  rw [← List.append_assoc before, List.append_assoc (before ++ xs)] at hgraphemes
  intro c hc
  rcases List.mem_append.mp hc with hold | hnew
  · exact h.chunks c hold
  · obtain rfl := List.mem_singleton.mp hnew
    dsimp only
    rw [h.start, slice_parts hm hgraphemes]
    exact Nat.le_trans (width_parts hm hgraphemes)
      (Nat.le_trans (widthSum_le_left hwidth) h.fits)

/-- An open chunk without units has no graphemes. -/
theorem Fitted.parts_nil (hm : m.Lawful)
    (hlength : (before ++ parts).flatten.length ≤ s.chunkStart) : parts = [] := by
  rw [h.start, List.flatten_append, List.length_append] at hlength
  have hflatten : parts.flatten = [] := List.length_eq_zero_iff.mp (by omega)
  rw [List.eq_nil_iff_forall_not_mem]
  intro g hg
  have hmem : g ∈ m.graphemes line := by
    rw [← h.graphemes]
    exact List.mem_append_left _ (List.mem_append_right _ hg)
  exact hm.ne_nil hmem (List.flatten_eq_nil_iff.mp hflatten g hg)

theorem Fitted.forceBreak (hm : m.Lawful) (hempty : parts = [] → s.currentWidth = 0) :
    (s.forceBreak line (before ++ parts).flatten.length).Fitted m line maxWidth (before ++ parts) []
        after ∧
      (s.forceBreak line (before ++ parts).flatten.length).currentWidth = 0 := by
  have hgraphemes : before ++ parts ++ [] ++ after = m.graphemes line := by
    rw [List.append_nil]
    exact h.graphemes
  unfold WrapState.forceBreak
  split
  · refine ⟨⟨hgraphemes, rfl, Nat.zero_le _, Nat.zero_le _, fun index width hopp => ?_, ?_⟩, rfl⟩
    · cases hopp
    · exact h.pushChunk hm (List.append_nil parts).symm
  · rename_i hge
    have hparts := h.parts_nil hm (Nat.not_lt.mp hge)
    have hzero := hempty hparts
    refine ⟨⟨hgraphemes, ?_, Nat.zero_le _, h.fits, fun index width hopp => ?_, h.chunks⟩, hzero⟩
    · rw [hparts, List.append_nil]
      exact h.start
    · cases hopp

theorem Fitted.breakBefore (hm : m.Lawful) (hempty : parts = [] → s.currentWidth = 0)
    (gWidth : Nat) :
    ∃ before' parts', before' ++ parts' = before ++ parts ∧
      (s.breakBefore line maxWidth gWidth (before ++ parts).flatten.length).Fitted m line maxWidth
        before' parts' after ∧
      (gWidth ≤ maxWidth → (s.breakBefore line maxWidth gWidth
        (before ++ parts).flatten.length).currentWidth + gWidth ≤ maxWidth) ∧
      (maxWidth < gWidth → parts' = []) := by
  obtain ⟨hforced, hzero⟩ := h.forceBreak hm hempty
  have hforce : ∃ before' parts', before' ++ parts' = before ++ parts ∧
      (s.forceBreak line (before ++ parts).flatten.length).Fitted m line maxWidth before' parts'
        after ∧
      (gWidth ≤ maxWidth →
        (s.forceBreak line (before ++ parts).flatten.length).currentWidth + gWidth ≤ maxWidth) ∧
      (maxWidth < gWidth → parts' = []) :=
    ⟨before ++ parts, [], List.append_nil _, hforced, fun hle => by omega, fun _ => rfl⟩
  unfold WrapState.breakBefore
  split
  · rename_i index width hopp
    split
    · rename_i hroom
      obtain ⟨xs, ys, hparts, hindex, hwidth⟩ := h.opp index width hopp
      have hsplit : before ++ xs ++ ys = before ++ parts := by rw [hparts, List.append_assoc]
      have hfits := h.fits
      refine ⟨before ++ xs, ys, hsplit, ⟨?_, hindex, ?_, ?_, fun index width hnone => ?_, ?_⟩,
        fun _ => hroom, fun hwide => by omega⟩
      · rw [hsplit]
        exact h.graphemes
      · dsimp only
        omega
      · dsimp only
        omega
      · cases hnone
      · rw [hindex]
        exact h.pushChunk hm hparts
    · exact hforce
  · exact hforce

/-- What the open chunk has no room for begins a new one. -/
theorem Fitted.makeRoom (hm : m.Lawful) (hempty : parts = [] → s.currentWidth = 0) (gWidth : Nat) :
    ∃ s₁ before' parts', s₁ = (if maxWidth < s.currentWidth + gWidth then
        s.breakBefore line maxWidth gWidth (before ++ parts).flatten.length else s) ∧
      before' ++ parts' = before ++ parts ∧ s₁.Fitted m line maxWidth before' parts' after ∧
      (gWidth ≤ maxWidth → s₁.currentWidth + gWidth ≤ maxWidth) ∧
      (maxWidth < gWidth → parts' = []) := by
  by_cases hover : maxWidth < s.currentWidth + gWidth
  · obtain ⟨before', parts', hsplit, hfitted, hroom, hwide⟩ := h.breakBefore hm hempty gWidth
    exact ⟨_, before', parts', (if_pos hover).symm, hsplit, hfitted, hroom, hwide⟩
  · refine ⟨s, before, parts, (if_neg hover).symm, rfl, h, fun _ => Nat.not_lt.mp hover, ?_⟩
    exact fun hwide => by omega

end

theorem Fitted.advance {seg : SegmentData} {next : Option SegmentData}
    (h : s.Fitted m line maxWidth before parts (m.graphemes seg.segment ++ after))
    (hsum : widthSum m (m.graphemes seg.segment) = m.visibleWidth seg.segment)
    (hroom : s.currentWidth + m.visibleWidth seg.segment ≤ maxWidth)
    (hnext : ∀ n ∈ next,
      n.index = (before ++ (parts ++ m.graphemes seg.segment)).flatten.length) :
    (s.advance m seg next).Fitted m line maxWidth before (parts ++ m.graphemes seg.segment)
      after := by
  have hwidth := h.width
  have hold (index width : Nat) (hopp : s.wrapOpp = some (index, width)) :
      ∃ xs ys, parts ++ m.graphemes seg.segment = xs ++ ys ∧
        index = (before ++ xs).flatten.length ∧
        width + widthSum m ys ≤ s.currentWidth + m.visibleWidth seg.segment := by
    obtain ⟨xs, ys, hparts, hindex, hle⟩ := h.opp index width hopp
    refine ⟨xs, ys ++ m.graphemes seg.segment, ?_, hindex, ?_⟩
    · rw [hparts, List.append_assoc]
    · rw [widthSum_append]
      omega
  refine ⟨?_, h.start, ?_, hroom, fun index width hopp => ?_, h.chunks⟩
  · rw [← h.graphemes]
    simp only [List.append_assoc]
  · rw [widthSum_append, hsum]
    exact Nat.add_le_add_right hwidth _
  · unfold WrapState.advance at hopp ⊢
    dsimp only at hopp ⊢
    split at hopp
    · split at hopp
      · obtain ⟨rfl, rfl⟩ := Prod.mk.inj (Option.some.inj hopp)
        exact ⟨_, [], (List.append_nil _).symm, hnext _ rfl, Nat.le_refl _⟩
      · exact hold index width hopp
    · exact hold index width hopp

theorem Fitted.rewrap {p : Text} {subs : List TextChunk}
    (h : s.Fitted m line maxWidth before [] (m.graphemes p ++ after)) (hm : m.Lawful)
    (hmarker : isPasteMarker p = true) (htiles : Tiles p 0 subs p.length)
    (hfits : ∀ c ∈ subs, m.visibleWidth c.text ≤ maxWidth)
    (hrun : s.rewrap m before.flatten.length subs = some s') :
    ∃ before' parts', s'.Fitted m line maxWidth before' parts' after ∧ parts' ≠ [] := by
  obtain ⟨last, hlast, rfl⟩ := Option.map_eq_some_iff.mp hrun
  obtain ⟨-, hlt, htext⟩ := htiles.getLast hlast
  have hprintable := printable_of_isPasteMarker hmarker
  have hunits := hm.printable p hprintable
  have htail : last.text = p.drop last.startIndex := by
    rw [htext, slice, List.take_length]
  have hsplit : m.graphemes p = (p.take last.startIndex).map ([·]) ++
      (p.drop last.startIndex).map ([·]) := by
    rw [hunits, ← List.map_append, List.take_append_drop]
  have hdrop : (p.drop last.startIndex).all isPrintableUnit = true := by
    rw [List.all_eq_true] at hprintable ⊢
    exact fun u hu => hprintable u (List.mem_of_mem_drop hu)
  have hwidth : m.visibleWidth last.text = (p.drop last.startIndex).length := by
    rw [htail, hm.width_printable _ hdrop]
  refine ⟨before ++ (p.take last.startIndex).map ([·]), (p.drop last.startIndex).map ([·]),
    ⟨?_, ?_, ?_, ?_, fun index width hopp => ?_, fun c hc => ?_⟩, ?_⟩
  · rw [← h.graphemes, hsplit, List.append_nil]
    simp only [List.append_assoc]
  · dsimp only
    rw [List.flatten_append, List.length_append, flatten_units, List.length_take_of_le (by omega)]
  · dsimp only
    rw [widthSum_units hm hdrop, hwidth]
  · exact hfits last (List.mem_of_getLast? hlast)
  · cases hopp
  · rcases List.mem_append.mp hc with hold | hsub
    · exact h.chunks c hold
    · obtain ⟨sub, hmem, rfl⟩ := List.mem_map.mp hsub
      exact hfits sub (List.mem_of_mem_dropLast hmem)
  · rw [ne_eq, List.map_eq_nil_iff, List.drop_eq_nil_iff]
    omega

/-- Where the segments are those of pieces, one round keeps the open chunk. -/
theorem Fitted.wrapSegment {wrap : Text → Option (List TextChunk)} {p : Text} {rest : List Text}
    {index : Nat} (h : s.Fitted m line maxWidth before parts
      (m.graphemes p ++ rest.flatMap m.graphemes)) (hm : m.Lawful)
    (hempty : parts = [] → s.currentWidth = 0) (hindex : index = (before ++ parts).flatten.length)
    (hp : m.graphemes p = [p] ∨ isPasteMarker p = true)
    (hwrap : ∀ subs, wrap p = some subs → maxWidth < m.visibleWidth p → isPasteMarker p = true ∧
      Tiles p 0 subs p.length ∧ ∀ c ∈ subs, m.visibleWidth c.text ≤ maxWidth)
    (hrun : s.wrapSegment m line maxWidth wrap ⟨p, index, false⟩
      (segmentsOf (index + p.length) rest).head? = some s') :
    ∃ before' parts', s'.Fitted m line maxWidth before' parts' (rest.flatMap m.graphemes) ∧
      parts' ≠ [] := by
  obtain ⟨s₁, before₁, parts₁, hs₁, hsplit, hfitted, hroom, hwide⟩ :=
    h.makeRoom hm hempty (m.visibleWidth p)
  have hlength : index = (before₁ ++ parts₁).flatten.length := by rw [hindex, hsplit]
  rw [← hindex] at hs₁
  unfold WrapState.wrapSegment at hrun
  dsimp only at hrun
  rw [← hs₁] at hrun
  split at hrun
  · rename_i hover
    obtain ⟨subs, hsubs, hrewrap⟩ := Option.bind_eq_some_iff.mp hrun
    obtain ⟨hmarker, htiles, hfits⟩ := hwrap subs hsubs hover
    obtain rfl := hwide hover
    rw [List.append_nil] at hlength
    rw [hlength] at hrewrap
    exact hfitted.rewrap hm hmarker htiles hfits hrewrap
  · rename_i hnarrow
    obtain rfl := Option.some.inj hrun
    have hnext : ∀ n ∈ (segmentsOf (index + p.length) rest).head?,
        n.index = (before₁ ++ (parts₁ ++ m.graphemes p)).flatten.length := by
      intro n hn
      cases rest with
      | nil => cases hn
      | cons q rest =>
        cases hn
        rw [← List.append_assoc, List.flatten_append, hm.flatten, List.length_append, ← hlength]
    have hroom' := hroom (Nat.not_lt.mp hnarrow)
    refine ⟨before₁, parts₁ ++ m.graphemes p,
      hfitted.advance (widthSum_piece hm hp) hroom' hnext, ?_⟩
    refine List.append_ne_nil_of_right_ne_nil _ fun hnil => ?_
    rcases hp with hself | hmarker
    · rw [hself] at hnil
      cases hnil
    · rw [hm.printable p (printable_of_isPasteMarker hmarker), List.map_eq_nil_iff] at hnil
      rw [hnil] at hmarker
      cases hmarker

theorem Fitted.wrapLoop {wrap : Text → Option (List TextChunk)} (pieces : List Text) {index : Nat}
    (h : s.Fitted m line maxWidth before parts (pieces.flatMap m.graphemes)) (hm : m.Lawful)
    (hempty : parts = [] → s.currentWidth = 0) (hindex : index = (before ++ parts).flatten.length)
    (hpieces : ∀ p ∈ pieces, m.graphemes p = [p] ∨ isPasteMarker p = true)
    (hwrap : ∀ p ∈ pieces, ∀ subs, wrap p = some subs → maxWidth < m.visibleWidth p →
      isPasteMarker p = true ∧ Tiles p 0 subs p.length ∧
        ∀ c ∈ subs, m.visibleWidth c.text ≤ maxWidth)
    (hrun : WrapState.wrapLoop m line maxWidth wrap s (segmentsOf index pieces) = some s') :
    ∃ before' parts', s'.Fitted m line maxWidth before' parts' [] := by
  induction pieces generalizing s before parts index with
  | nil =>
    obtain rfl := Option.some.inj hrun
    exact ⟨before, parts, h⟩
  | cons p rest ih =>
    rw [List.flatMap_cons] at h
    rw [List.forall_mem_cons] at hpieces hwrap
    obtain ⟨s₁, hstep, hrest⟩ := Option.bind_eq_some_iff.mp hrun
    obtain ⟨before₁, parts₁, hfitted, hne⟩ :=
      h.wrapSegment hm hempty hindex hpieces.1 hwrap.1 hstep
    have hsplit : before₁ ++ parts₁ = before ++ parts ++ m.graphemes p := by
      have heq := hfitted.graphemes.trans h.graphemes.symm
      rw [← List.append_assoc] at heq
      exact List.append_cancel_right heq
    have hindex' : index + p.length = (before₁ ++ parts₁).flatten.length := by
      rw [hsplit, List.flatten_append, hm.flatten, List.length_append, hindex]
    exact ih hfitted (fun hnil => absurd hnil hne) hindex' hpieces.2 hwrap.2 hrest

end WrapState

theorem wordWrapLine_fits (hm : m.Lawful) (hmax : 0 < maxWidth) {depth : Nat} {pieces : List Text}
    {preSegmented : Option (List SegmentData)} {chunks : List TextChunk} (hline : line ≠ [])
    (hgroups : Groups m line pieces)
    (hsegs : preSegmented.getD (m.graphemeSegments line) = segmentsOf 0 pieces)
    (h : wordWrapLine m depth line maxWidth preSegmented = some chunks) :
    ∀ c ∈ chunks, m.visibleWidth c.text ≤ maxWidth := by
  induction depth generalizing line pieces preSegmented chunks with
  | zero => cases h
  | succ depth ih =>
    rw [wordWrapLine_succ depth preSegmented hline hmax, hsegs] at h
    split at h
    · rename_i hfits
      obtain rfl := Option.some.inj h
      exact List.forall_mem_singleton.mpr hfits
    · obtain ⟨s, hrun, rfl⟩ := Option.map_eq_some_iff.mp h
      have hstart : WrapState.Fitted m line maxWidth {} [] [] (pieces.flatMap m.graphemes) :=
        ⟨hgroups.graphemes, rfl, Nat.zero_le _, Nat.zero_le _,
          (fun index width hopp => by cases hopp), List.forall_mem_nil _⟩
      have hwrap : ∀ p ∈ pieces, ∀ subs, wordWrapLine m depth p maxWidth none = some subs →
          maxWidth < m.visibleWidth p → isPasteMarker p = true ∧ Tiles p 0 subs p.length ∧
            ∀ c ∈ subs, m.visibleWidth c.text ≤ maxWidth := by
        intro p hp subs hsubs hwide
        have hmarker : isPasteMarker p = true := by
          refine (hgroups.piece p hp).resolve_left fun hself => ?_
          have hmem : p ∈ m.graphemes p := by
            rw [hself]
            exact List.mem_singleton_self p
          exact wordWrapLine_wide hm hmax hmem hwide depth ⟨subs, hsubs⟩
        have hne : p ≠ [] := by
          rintro rfl
          cases hmarker
        exact ⟨hmarker, wordWrapLine_tiles hm hmax hne (fun segs hnone => by cases hnone) hsubs,
          ih hne (hm.groups p) rfl hsubs⟩
      obtain ⟨before, parts, hfitted⟩ :=
        hstart.wrapLoop pieces hm (fun _ => rfl) rfl hgroups.piece hwrap hrun
      rw [List.forall_mem_append, List.forall_mem_singleton]
      refine ⟨hfitted.chunks, ?_⟩
      have hgraphemes := hfitted.graphemes
      have hline' : line = before.flatten ++ parts.flatten := by
        rw [← hm.flatten line, ← hgraphemes, List.append_nil, List.flatten_append]
      have hrest : line.drop s.chunkStart = parts.flatten := by
        rw [hfitted.start, hline', List.drop_left]
      dsimp only
      rw [hrest]
      exact Nat.le_trans (width_parts hm hgraphemes)
        (Nat.le_trans hfitted.width hfitted.fits)

end Tui

end Eagent
