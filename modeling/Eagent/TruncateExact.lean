import Eagent.TruncateWidth

/-!
# The width of a truncated text

A result is what is kept of the text, the ellipsis or what there is room for of
it, and padding. Its width is the sum of their widths, as long as no grapheme
is made of parts of two of them (`Apart`); so it is at most the width that was
asked for, and that width where it is padded (`truncateToWidth_exact`).
-/

namespace Eagent

namespace Tui

variable {g : Glyphs}

/-! ## Widths -/

def cell (segment : Text) : List Text :=
  if segment = [tab] then [[space], [space], [space]] else [segment]

def cellsOf (items : List AnsiItem) : List Text := (segmentsOfItems items).flatMap cell

/-- No grapheme is made of what is on both sides of a code or a tab, or of a
text, the ellipsis and the padding where these are joined. -/
def Glyphs.Apart (g : Glyphs) (text ellipsis : Text) : Prop :=
  ∀ kept shown n, kept <+: cellsOf (g.tabbedItems text) →
    shown <+: cellsOf (g.tabbedItems ellipsis) →
    g.graphemes (kept.flatten ++ shown.flatten ++ padding n) =
      kept ++ shown ++ (padding n).map ([·])

theorem cellsOf_isPrefix {items kept : List AnsiItem} (h : kept <+: items) :
    cellsOf kept <+: cellsOf items := by
  obtain ⟨rest, rfl⟩ := h
  rw [cellsOf, cellsOf, segmentsOfItems, segmentsOfItems, List.filterMap_append,
    List.flatMap_append]
  exact List.prefix_append _ _

theorem forall_atTabs {segment : Text → List Text} {p : Text → Prop} (hp : p [tab])
    (hsegment : ∀ run, tab ∉ run → ∀ s ∈ segment run, p s) {run : Text} (hrun : tab ∉ run)
    (text : Text) : ∀ s ∈ atTabs segment run text, p s := by
  induction text generalizing run with
  | nil => exact hsegment run hrun
  | cons u rest ih =>
    unfold atTabs
    split
    · intro s hs
      rcases List.mem_append.mp hs with hs | hs
      · exact hsegment run hrun s hs
      · rcases List.mem_cons.mp hs with rfl | hs
        · exact hp
        · exact ih List.not_mem_nil s hs
    · rename_i htab
      refine ih ?_
      rw [List.mem_append, not_or]
      exact ⟨hrun, fun h => htab (List.mem_singleton.mp h).symm⟩

section Tabs

variable {segment : Text → List Text} (hflatten : ∀ run, (segment run).flatten = run)

include hflatten

theorem flatten_atTabs (run text : Text) : (atTabs segment run text).flatten = run ++ text := by
  induction text generalizing run with
  | nil => rw [atTabs, hflatten, List.append_nil]
  | cons u rest ih =>
    unfold atTabs
    split
    · rename_i htab
      rw [List.flatten_append, hflatten, List.flatten_cons, ih, htab]
      rfl
    · rw [ih, List.append_assoc]
      rfl

theorem tab_atTabs (text : Text) : ∀ s ∈ atTabs segment [] text, s = [tab] ∨ tab ∉ s := by
  refine forall_atTabs (.inl rfl) (fun run hrun s hs => .inr fun htab => hrun ?_) List.not_mem_nil
    text
  rw [← hflatten run]
  exact List.mem_flatten_of_mem hs htab

end Tabs

theorem segment_mem_itemsFrom {segment : Text → List Text} {p : Text → Prop}
    (hsegment : ∀ run, ∀ s ∈ segment run, p s) (run : Text) (ps : List Piece) :
    ∀ s ∈ segmentsOfItems (itemsFrom segment run ps), p s := by
  induction ps generalizing run with
  | nil =>
    rw [itemsFrom, segmentsOfItems_map]
    exact hsegment run
  | cons piece ps ih =>
    cases piece with
    | code c =>
      rw [itemsFrom, segmentsOfItems, List.filterMap_append, List.filterMap_cons]
      intro s hs
      rcases List.mem_append.mp hs with hs | hs
      · rw [← segmentsOfItems, segmentsOfItems_map] at hs
        exact hsegment run s hs
      · exact ih [] s hs
    | unit u => exact ih (run ++ [u])

theorem expandTabs_cell {segment : Text} (h : segment = [tab] ∨ tab ∉ segment) :
    expandTabs segment = (cell segment).flatten := by
  unfold cell
  split
  · rename_i heq
    rw [heq]
    rfl
  · rename_i hne
    rw [expandTabs_eq (h.resolve_left hne), List.flatten_singleton]

theorem expandTabs_flatten {segments : List Text} (h : ∀ s ∈ segments, s = [tab] ∨ tab ∉ s) :
    expandTabs segments.flatten = (segments.flatMap cell).flatten := by
  induction segments with
  | nil => rfl
  | cons segment rest ih =>
    obtain ⟨hsegment, hrest⟩ := List.forall_mem_cons.mp h
    rw [List.flatten_cons, expandTabs_append, expandTabs_cell hsegment, ih hrest,
      List.flatMap_cons, List.flatten_append]

namespace Glyphs.Lawful

variable (hg : g.Lawful)

include hg

theorem widthOf_cells (segments : List Text) :
    g.widthOf (segments.flatMap cell) = g.widthOf segments := by
  induction segments with
  | nil => rfl
  | cons segment rest ih =>
    rw [List.flatMap_cons, widthOf_append, ih, widthOf_cons]
    congr 1
    unfold cell
    split
    · rename_i heq
      have hspace := hg.graphemeWidth_printable (u := space) (by decide)
      rw [heq, widthOf_cons, widthOf_cons, widthOf_cons, hspace]
      rfl
    · rw [widthOf_cons]
      rfl

theorem flatten_atTabs (run : Text) : (atTabs g.graphemes [] run).flatten = run :=
  Tui.flatten_atTabs hg.flatten [] run

theorem render_tabbedItems (text : Text) : render (g.tabbedItems text) = text :=
  render_itemsFrom hg.flatten_atTabs text

theorem valid_tabbedItems {text : Text} (h : Complete text) :
    ∀ item ∈ g.tabbedItems text, item.Valid := valid_itemsFrom hg.flatten_atTabs h

theorem clean_render {text : Text} (h : Complete text) {kept : List AnsiItem}
    (hkept : kept <+: g.tabbedItems text) :
    Complete (render kept) ∧ expandTabs (stripped (render kept)) = (cellsOf kept).flatten := by
  have hvalid : ∀ item ∈ kept, item.Valid := fun item hitem =>
    hg.valid_tabbedItems h item (hkept.subset hitem)
  refine ⟨complete_render hvalid, ?_⟩
  rw [stripped_render hvalid]
  refine expandTabs_flatten fun s hs => ?_
  refine segment_mem_itemsFrom (fun run => tab_atTabs hg.flatten run) []
    (pieces text) s ?_
  exact (hkept.filterMap AnsiItem.segment?).subset hs

end Glyphs.Lawful

theorem complete_padding (n : Nat) : Complete (padding n) ∧
    expandTabs (stripped (padding n)) = padding n := by
  have hesc : esc ∉ padding n := fun h => absurd (List.eq_of_mem_replicate h) (by decide)
  have htab : tab ∉ padding n := fun h => absurd (List.eq_of_mem_replicate h) (by decide)
  refine ⟨fun h => hesc ?_, by rw [stripped_units hesc, expandTabs_eq htab]⟩
  rw [pieces_units hesc] at h
  obtain ⟨u, hu, heq⟩ := List.mem_map.mp h
  obtain rfl := Piece.unit.inj heq
  exact hu

theorem complete_resetCode : Complete resetCode ∧ expandTabs (stripped resetCode) = [] := by
  decide

/-! ## Exactness -/

def paddingIf (pad : Bool) (n : Nat) : Text := if pad then padding n else []

/-- What `truncateToWidth` is for. -/
structure Truncates (g : Glyphs) (text : Text) (maxWidth : Nat) (ellipsis : Text) (pad : Bool)
    (result : Text) : Prop where
  width_le : g.visibleWidth result ≤ maxWidth
  width_eq : pad = true → g.visibleWidth result = maxWidth
  whole : g.visibleWidth text ≤ maxWidth →
    result = text ++ paddingIf pad (maxWidth - g.visibleWidth text)
  cut : maxWidth < g.visibleWidth text → g.visibleWidth ellipsis < maxWidth →
    ∃ kept, Longest g (maxWidth - g.visibleWidth ellipsis) (g.tabbedItems text) kept ∧
      result = render kept ++ resetCode ++ (if ellipsis = [] then [] else ellipsis ++ resetCode) ++
        paddingIf pad (maxWidth - (g.widthOf (segmentsOfItems kept) + g.visibleWidth ellipsis))
  /-- there is no room for the ellipsis and anything else -/
  clipped : maxWidth < g.visibleWidth text → maxWidth ≤ g.visibleWidth ellipsis →
    ∃ shown, Longest g maxWidth (g.tabbedItems ellipsis) shown ∧
      result = (if g.widthOf (segmentsOfItems shown) = 0 then []
        else resetCode ++ render shown ++ resetCode) ++
        paddingIf pad (maxWidth - g.widthOf (segmentsOfItems shown))

section Exact

variable (hg : g.Lawful) {text ellipsis : Text} (htext : Complete text)
  (hellipsis : Complete ellipsis) (hapart : g.Apart text ellipsis)

include hg hapart

theorem visibleWidth_parts {str : Text} {kept shown : List AnsiItem} {n : Nat}
    (hstr : Complete str) (hkept : kept <+: g.tabbedItems text)
    (hshown : shown <+: g.tabbedItems ellipsis)
    (hclean : expandTabs (stripped str) =
      (cellsOf kept).flatten ++ (cellsOf shown).flatten ++ padding n) :
    g.visibleWidth str =
      g.widthOf (segmentsOfItems kept) + g.widthOf (segmentsOfItems shown) + n := by
  have hspaces : (padding n).all isPrintableUnit = true := by
    refine List.all_eq_true.mpr fun u hu => ?_
    rw [List.eq_of_mem_replicate hu]
    decide
  have hlength : (padding n).length = n := List.length_replicate
  rw [hg.visibleWidth_eq, hstr.stripped_expandTabs, hclean,
    hapart _ _ n (cellsOf_isPrefix hkept) (cellsOf_isPrefix hshown), Glyphs.widthOf_append,
    Glyphs.widthOf_append, cellsOf, cellsOf, hg.widthOf_cells, hg.widthOf_cells,
    hg.widthOf_printable hspaces, hlength]

include htext in
theorem visibleWidth_padded (n : Nat) :
    g.visibleWidth (text ++ padding n) = g.widthOf (segmentsOfItems (g.tabbedItems text)) + n := by
  obtain ⟨-, hclean⟩ := hg.clean_render htext List.prefix_rfl
  rw [hg.render_tabbedItems] at hclean
  refine visibleWidth_parts hg hapart (htext.append (complete_padding n).1) List.prefix_rfl
    List.nil_prefix ?_
  rw [htext.stripped_append, expandTabs_append, hclean, (complete_padding n).2]
  exact congrArg (· ++ _) (List.append_nil _).symm

include htext in
theorem visibleWidth_text :
    g.visibleWidth text = g.widthOf (segmentsOfItems (g.tabbedItems text)) := by
  have h := visibleWidth_padded hg htext hapart 0
  rwa [padding, List.replicate_zero, List.append_nil, Nat.add_zero] at h

include hellipsis in
theorem visibleWidth_ellipsis :
    g.visibleWidth ellipsis = g.widthOf (segmentsOfItems (g.tabbedItems ellipsis)) := by
  obtain ⟨-, hclean⟩ := hg.clean_render hellipsis List.prefix_rfl
  rw [hg.render_tabbedItems] at hclean
  have h := visibleWidth_parts hg hapart (n := 0) hellipsis List.nil_prefix List.prefix_rfl
    (by rw [hclean]; exact (List.append_nil _).symm)
  rw [h]
  exact Nat.zero_add _

theorem visibleWidth_finalize {kept shown : List AnsiItem} (htext : Complete text)
    (hellipsis : Complete ellipsis) (hkept : kept <+: g.tabbedItems text)
    (hshown : shown <+: g.tabbedItems ellipsis) (maxWidth : Nat)
    (hle : g.widthOf (segmentsOfItems kept) + g.widthOf (segmentsOfItems shown) ≤ maxWidth)
    (pad : Bool) :
    g.visibleWidth (finalizeTruncatedResult (render kept) (g.widthOf (segmentsOfItems kept))
      (render shown) (g.widthOf (segmentsOfItems shown)) maxWidth pad) =
      if pad then maxWidth
      else g.widthOf (segmentsOfItems kept) + g.widthOf (segmentsOfItems shown) := by
  obtain ⟨hkeptComplete, hkeptClean⟩ := hg.clean_render htext hkept
  obtain ⟨hshownComplete, hshownClean⟩ := hg.clean_render hellipsis hshown
  have hhead := hkeptComplete.append complete_resetCode.1
  have hreset {t : Text} (ht : Complete t) :
      expandTabs (stripped (t ++ resetCode)) = expandTabs (stripped t) := by
    rw [ht.stripped_append, expandTabs_append, complete_resetCode.2, List.append_nil]
  obtain ⟨body, hbody, hcomplete, hclean⟩ : ∃ body,
      (if 0 < (render shown).length then render kept ++ resetCode ++ render shown ++ resetCode
        else render kept ++ resetCode) = body ∧ Complete body ∧
      expandTabs (stripped body) = (cellsOf kept).flatten ++ (cellsOf shown).flatten := by
    refine ⟨_, rfl, ?_⟩
    split
    · refine ⟨(hhead.append hshownComplete).append complete_resetCode.1, ?_⟩
      rw [hreset (hhead.append hshownComplete), hhead.stripped_append, expandTabs_append,
        hreset hkeptComplete, hkeptClean, hshownClean]
    · rename_i hempty
      have hnil : render shown = [] := List.length_eq_zero_iff.mp (Nat.eq_zero_of_not_pos hempty)
      rw [hnil] at hshownClean
      refine ⟨hhead, ?_⟩
      rw [hreset hkeptComplete, hkeptClean, ← hshownClean]
      exact (List.append_nil _).symm
  unfold finalizeTruncatedResult
  dsimp only
  rw [hbody]
  cases pad with
  | false =>
    rw [if_neg Bool.false_ne_true, if_neg Bool.false_ne_true]
    refine visibleWidth_parts hg hapart (n := 0) hcomplete hkept hshown ?_
    rw [hclean]
    exact (List.append_nil _).symm
  | true =>
    rw [if_pos rfl, if_pos rfl, visibleWidth_parts hg hapart
      (hcomplete.append (complete_padding _).1) hkept hshown (by
        rw [hcomplete.stripped_append, expandTabs_append, hclean, (complete_padding _).2])]
    omega

end Exact

theorem finalizeTruncatedResult_eq (kept : Text) (keptWidth : Nat) (ellipsis : Text)
    (ellipsisWidth maxWidth : Nat) (pad : Bool) :
    finalizeTruncatedResult kept keptWidth ellipsis ellipsisWidth maxWidth pad =
      kept ++ resetCode ++ (if ellipsis = [] then [] else ellipsis ++ resetCode) ++
        paddingIf pad (maxWidth - (keptWidth + ellipsisWidth)) := by
  unfold finalizeTruncatedResult paddingIf
  dsimp only
  cases ellipsis with
  | nil =>
    rw [List.length_nil, if_neg (Nat.lt_irrefl 0), if_pos rfl, List.append_nil]
    split
    · rfl
    · exact (List.append_nil _).symm
  | cons u rest =>
    rw [if_pos (List.length_pos_of_ne_nil (List.cons_ne_nil u rest)),
      if_neg (List.cons_ne_nil _ _)]
    split
    · simp only [List.append_assoc]
    · simp only [List.append_assoc, List.append_nil]

theorem truncates_truncateToWidth (hg : g.Lawful) {text ellipsis : Text} (htext : Complete text)
    (hellipsis : Complete ellipsis) (hapart : g.Apart text ellipsis) {maxWidth : Nat}
    (hmax : 0 < maxWidth) (pad : Bool) :
    Truncates g text maxWidth ellipsis pad (g.truncateToWidth text maxWidth ellipsis pad) := by
  have hwidth := visibleWidth_text hg htext hapart
  have hellipsisWidth := visibleWidth_ellipsis hg hellipsis hapart
  have hpadded := visibleWidth_padded hg htext hapart
  -- a text that fits is only padded
  have hwhole (hfits : g.visibleWidth text ≤ maxWidth) : Truncates g text maxWidth ellipsis pad
      (if pad then text ++ padding (maxWidth - g.visibleWidth text) else text) := by
    have heq : (if pad then text ++ padding (maxWidth - g.visibleWidth text) else text) =
        text ++ paddingIf pad (maxWidth - g.visibleWidth text) := by
      unfold paddingIf
      split
      · rfl
      · exact (List.append_nil _).symm
    refine ⟨?_, ?_, fun _ => heq, fun h => absurd hfits (Nat.not_le.mpr h),
      fun h => absurd hfits (Nat.not_le.mpr h)⟩
    · split
      · rw [hpadded, ← hwidth]
        omega
      · exact hfits
    · rintro rfl
      rw [if_pos rfl, hpadded, ← hwidth]
      omega
  -- a text is cut where there is room for the ellipsis
  have hitems (hroom : g.visibleWidth ellipsis < maxWidth) : Truncates g text maxWidth ellipsis pad
      (g.truncateItems (g.tabbedItems text) text maxWidth ellipsis pad) := by
    rw [truncateItems_eq, ← hwidth]
    split
    · rename_i hwide
      obtain ⟨hkept, hle, hlongest⟩ :=
        longest_fitting (g := g) (maxWidth - g.visibleWidth ellipsis) (g.tabbedItems text)
      have hresult := visibleWidth_finalize hg hapart htext hellipsis hkept List.prefix_rfl
        maxWidth (by rw [← hellipsisWidth]; omega) pad
      rw [hg.render_tabbedItems, ← hellipsisWidth] at hresult
      refine ⟨?_, ?_, fun h => absurd hwide (Nat.not_lt.mpr h),
        fun _ _ => ⟨_, ⟨hkept, hle, hlongest⟩, finalizeTruncatedResult_eq _ _ _ _ _ _⟩,
        fun _ h => absurd hroom (Nat.not_lt.mpr h)⟩
      · rw [hresult]
        split
        · exact Nat.le_refl _
        · omega
      · rintro rfl
        rw [hresult, if_pos rfl]
    · rename_i hfits
      exact hwhole (Nat.not_lt.mp hfits)
  unfold Glyphs.truncateToWidth
  rw [if_neg (by omega), Int.toNat_natCast]
  dsimp only
  split
  · rename_i hempty
    obtain rfl := List.length_eq_zero_iff.mp hempty
    exact hwhole (Nat.zero_le maxWidth)
  · split
    · rename_i hclip
      unfold Glyphs.clipEllipsis
      dsimp only
      split
      · rename_i hfits
        exact hwhole hfits
      · rename_i hwide
        obtain ⟨hshown, hle, hlongest⟩ := longest_fitting (g := g) maxWidth (g.tabbedItems ellipsis)
        obtain ⟨hcomplete, hclean⟩ := hg.clean_render hellipsis hshown
        have hwidthOf := visibleWidth_parts hg hapart (n := 0) hcomplete List.nil_prefix hshown
          (by rw [hclean]; exact (List.append_nil _).symm)
        have hnil : g.widthOf (segmentsOfItems []) = 0 := rfl
        have hresult := visibleWidth_finalize hg hapart htext hellipsis List.nil_prefix hshown
          maxWidth (by rw [hnil, Nat.zero_add]; exact hle) pad
        rw [hnil, Nat.zero_add] at hresult
        rw [hnil, Nat.zero_add, Nat.add_zero] at hwidthOf
        rw [truncateFragmentToWidth_eq hg ellipsis hmax]
        generalize fitting g maxWidth (g.tabbedItems ellipsis) = shown at *
        dsimp only
        split
        · rename_i hzero
          have hspaces := visibleWidth_parts hg hapart (complete_padding maxWidth).1
            List.nil_prefix List.nil_prefix (complete_padding maxWidth).2
          rw [hnil, Nat.zero_add] at hspaces
          refine ⟨?_, ?_, fun h => absurd h hwide, fun _ h => absurd hclip (Nat.not_le.mpr h),
            fun _ _ => ⟨shown, ⟨hshown, hle, hlongest⟩, ?_⟩⟩
          · split
            · rw [hspaces]
            · exact Nat.zero_le _
          · rintro rfl
            rw [if_pos rfl, hspaces]
          · rw [if_pos hzero, hzero]
            rfl
        · rename_i hpos
          have hne : render shown ≠ [] := by
            intro hempty
            rw [hempty] at hwidthOf
            exact hpos hwidthOf.symm
          have hclipped := finalizeTruncatedResult_eq [] 0 (render shown)
            (g.widthOf (segmentsOfItems shown)) maxWidth pad
          refine ⟨?_, ?_, fun h => absurd h hwide, fun _ h => absurd hclip (Nat.not_le.mpr h),
            fun _ _ => ⟨shown, ⟨hshown, hle, hlongest⟩, ?_⟩⟩
          · refine hresult.le.trans ?_
            split
            · exact Nat.le_refl _
            · exact hle
          · rintro rfl
            exact hresult.trans (if_pos rfl)
          · rw [hclipped, if_neg hpos, if_neg hne, Nat.zero_add]
            rfl
    · rename_i hclip
      have hroom := Nat.not_le.mp hclip
      split
      · rename_i hprintable
        have htabbed := tabbedItems_eq (g := g) (not_mem_of_printable hprintable (by decide))
          (not_mem_of_printable hprintable (by decide))
        rw [truncateAscii_eq hg hprintable, ← htabbed]
        exact hitems hroom
      · split
        · rename_i hplain
          rw [← tabbedItems_eq hplain.1 hplain.2]
          exact hitems hroom
        · exact hitems hroom

theorem apart_unitGlyphs (text ellipsis : Text) : unitGlyphs.Apart text ellipsis := by
  have hunits (run : Text) : ∀ s ∈ atTabs unitGlyphs.graphemes [] run, ∃ u, s = [u] := by
    refine forall_atTabs ⟨tab, rfl⟩ (fun run _ s hs => ?_) List.not_mem_nil run
    obtain ⟨u, -, rfl⟩ := List.mem_map.mp hs
    exact ⟨u, rfl⟩
  have hcells (text : Text) : ∀ s ∈ cellsOf (unitGlyphs.tabbedItems text), ∃ u, s = [u] := by
    intro s hs
    obtain ⟨segment, hsegment, hcell⟩ := List.mem_flatMap.mp hs
    unfold cell at hcell
    split at hcell
    · exact ⟨space, List.eq_of_mem_replicate (n := 3) hcell⟩
    · rw [List.mem_singleton.mp hcell]
      exact segment_mem_itemsFrom hunits [] (pieces text) segment hsegment
  have hmap (segments : List Text) (h : ∀ s ∈ segments, ∃ u, s = [u]) :
      segments.flatten.map ([·]) = segments := by
    induction segments with
    | nil => rfl
    | cons s segments ih =>
      obtain ⟨⟨u, rfl⟩, hrest⟩ := List.forall_mem_cons.mp h
      exact congrArg ([u] :: ·) (ih hrest)
  intro kept shown n hkept hshown
  have hgraphemes (text : Text) : unitGlyphs.graphemes text = text.map ([·]) := rfl
  rw [hgraphemes, List.map_append, List.map_append,
    hmap kept fun s hs => hcells text s (hkept.subset hs),
    hmap shown fun s hs => hcells ellipsis s (hshown.subset hs)]

/-! ## The result -/

/-- A truncated text is exact, and the three paths agree where more than one of
them could be taken. -/
theorem truncateToWidth_exact (hg : g.Lawful) {text ellipsis : Text} (htext : Complete text)
    (hellipsis : Complete ellipsis) (hapart : g.Apart text ellipsis) (pad : Bool) :
    (∀ width : Int, width ≤ 0 → g.truncateToWidth text width ellipsis pad = []) ∧
    (∀ maxWidth : Nat, 0 < maxWidth →
      Truncates g text maxWidth ellipsis pad (g.truncateToWidth text maxWidth ellipsis pad)) ∧
    ∀ maxWidth : Nat,
      (text.all isPrintableUnit = true → g.truncateAscii text maxWidth ellipsis pad =
        g.truncateItems (g.plainItems text) text maxWidth ellipsis pad) ∧
      (esc ∉ text → tab ∉ text → g.truncateItems (g.plainItems text) text maxWidth ellipsis pad =
        g.truncateItems (g.tabbedItems text) text maxWidth ellipsis pad) := by
  refine ⟨fun width hwidth => if_pos hwidth, fun maxWidth hmax =>
    truncates_truncateToWidth hg htext hellipsis hapart hmax pad, fun maxWidth => ⟨?_, ?_⟩⟩
  · intro hprintable
    exact truncateAscii_eq hg hprintable maxWidth ellipsis pad
  · intro hesc htab
    rw [tabbedItems_eq hesc htab]

def redText : Text := unitsOf "\u001b[31mred\tapples"

theorem truncateToWidth_exact_redText :
    unitGlyphs.visibleWidth (unitGlyphs.truncateToWidth redText 8 (unitsOf "...") true) = 8 :=
  ((truncateToWidth_exact lawful_unitGlyphs (by decide) (by decide) (apart_unitGlyphs _ _)
    true).2.1 8 (by decide)).width_eq rfl

/-- A unit and the variation selector behind it are one grapheme, of two columns. -/
def joinSelectors : Text → List Text
  | [] => []
  | u :: rest =>
      match rest with
      | 0xfe0f :: rest => [u, 0xfe0f] :: joinSelectors rest
      | rest => [u] :: joinSelectors rest

def selectorGlyphs : Glyphs where
  graphemes := joinSelectors
  clusterWidth segment :=
    if segment.length = 2 then 2 else if segment.all (fun u => u < 0x20 || u = 0xfe0f) then 0 else 1
  isCjk _ := false

/-- An ellipsis that is too wide is clipped; a grapheme around a code is wider
than its parts; what is left of a code takes the reset for its end. -/
theorem truncateToWidth_inexact :
    unitGlyphs.truncateToWidth (unitsOf "apples") 2 (unitsOf "...") false =
      resetCode ++ unitsOf ".." ++ resetCode ∧
    selectorGlyphs.visibleWidth (selectorGlyphs.truncateToWidth
      (0x2764 :: resetCode ++ [0xfe0f]) 1 [] false) = 2 ∧
    unitGlyphs.visibleWidth
      (unitGlyphs.truncateToWidth (esc :: unitsOf "[3111") 4 [] true) = 0 := by
  decide

end Tui

end Eagent
