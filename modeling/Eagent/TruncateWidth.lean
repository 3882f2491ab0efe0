import Eagent.AnsiText

/-!
# Truncation to a width

`truncateToWidth`. A text of ASCII is cut at an index, any other one item by
item; a text with escape sequences or tabs has its items from between these.
All three paths keep the longest run of graphemes that leaves room for the
ellipsis.
-/

namespace Eagent

namespace Tui

/-- The text between codes, with each tab a segment of its own; `run` is what
has been read since the last tab. -/
def atTabs (segment : Text → List Text) (run : Text) : Text → List Text
  | [] => segment run
  | u :: rest =>
      if u = tab then segment run ++ [tab] :: atTabs segment [] rest
      else atTabs segment (run ++ [u]) rest

/-- A truncated text with its width. -/
structure Fragment where
  text : Text
  width : Nat
deriving DecidableEq

structure TruncateState where
  result : Text := []
  pendingAnsi : Text := []
  visibleSoFar : Nat := 0
  keptWidth : Nat := 0
  keepContiguousPrefix : Bool := true
  overflowed : Bool := false

def resetCode : Text := [esc, openBracket, 0x30, 0x6d]

def padding (n : Nat) : Text := List.replicate n space

def finalizeTruncatedResult (kept : Text) (keptWidth : Nat) (ellipsis : Text)
    (ellipsisWidth maxWidth : Nat) (pad : Bool) : Text :=
  let visibleWidth := keptWidth + ellipsisWidth
  let result := if 0 < ellipsis.length then kept ++ resetCode ++ ellipsis ++ resetCode
    else kept ++ resetCode
  if pad then result ++ padding (maxWidth - visibleWidth) else result

namespace Glyphs

variable (g : Glyphs)

/-- The items of the loops that read a text from code or tab to code or tab. -/
def tabbedItems (text : Text) : List AnsiItem := itemsFrom (atTabs g.graphemes []) [] (pieces text)

def plainItems (text : Text) : List AnsiItem := (g.graphemes text).map .grapheme

/-! ## Fragments -/

def fragmentLoop (maxWidth : Nat) (r : Fragment) (pendingAnsi : Text) : List AnsiItem → Fragment
  | [] => r
  | .ansi code :: rest => fragmentLoop maxWidth r (pendingAnsi ++ code) rest
  | .grapheme segment :: rest =>
      let w := g.graphemeWidth segment
      if maxWidth < r.width + w then r
      else fragmentLoop maxWidth ⟨r.text ++ pendingAnsi ++ segment, r.width + w⟩ [] rest

def truncateFragmentToWidth (text : Text) (maxWidth : Nat) : Fragment :=
  if maxWidth = 0 ∨ text = [] then ⟨[], 0⟩
  else if text.all isPrintableUnit then ⟨text.take maxWidth, (text.take maxWidth).length⟩
  else if esc ∉ text ∧ tab ∉ text then g.fragmentLoop maxWidth ⟨[], 0⟩ [] (g.plainItems text)
  else g.fragmentLoop maxWidth ⟨[], 0⟩ [] (g.tabbedItems text)

/-! ## Texts -/

def keepSegment (targetWidth : Nat) (s : TruncateState) (segment : Text) : TruncateState :=
  let w := g.graphemeWidth segment
  if s.keepContiguousPrefix ∧ s.keptWidth + w ≤ targetWidth then
    { s with
      result := s.result ++ s.pendingAnsi ++ segment
      pendingAnsi := []
      keptWidth := s.keptWidth + w }
  else { s with keepContiguousPrefix := false, pendingAnsi := [] }

def truncateLoop (targetWidth maxWidth : Nat) (s : TruncateState) : List AnsiItem → TruncateState
  | [] => s
  | .ansi code :: rest =>
      truncateLoop targetWidth maxWidth { s with pendingAnsi := s.pendingAnsi ++ code } rest
  | .grapheme segment :: rest =>
      let s := g.keepSegment targetWidth s segment
      let s := { s with visibleSoFar := s.visibleSoFar + g.graphemeWidth segment }
      if maxWidth < s.visibleSoFar then { s with overflowed := true }
      else truncateLoop targetWidth maxWidth s rest

def truncateAscii (text : Text) (maxWidth : Nat) (ellipsis : Text) (pad : Bool) : Text :=
  let ellipsisWidth := g.visibleWidth ellipsis
  if text.length ≤ maxWidth then
    if pad then text ++ padding (maxWidth - text.length) else text
  else
    let targetWidth := maxWidth - ellipsisWidth
    finalizeTruncatedResult (text.take targetWidth) targetWidth ellipsis ellipsisWidth maxWidth pad

def truncateItems (items : List AnsiItem) (text : Text) (maxWidth : Nat) (ellipsis : Text)
    (pad : Bool) : Text :=
  let ellipsisWidth := g.visibleWidth ellipsis
  let s := g.truncateLoop (maxWidth - ellipsisWidth) maxWidth {} items
  if s.overflowed then
    finalizeTruncatedResult s.result s.keptWidth ellipsis ellipsisWidth maxWidth pad
  else if pad then text ++ padding (maxWidth - s.visibleSoFar) else text

def clipEllipsis (text : Text) (maxWidth : Nat) (ellipsis : Text) (pad : Bool) : Text :=
  let textWidth := g.visibleWidth text
  if textWidth ≤ maxWidth then
    if pad then text ++ padding (maxWidth - textWidth) else text
  else
    let clipped := g.truncateFragmentToWidth ellipsis maxWidth
    if clipped.width = 0 then if pad then padding maxWidth else []
    else finalizeTruncatedResult [] 0 clipped.text clipped.width maxWidth pad

def truncateToWidth (text : Text) (width : Int) (ellipsis : Text) (pad : Bool) : Text :=
  if width ≤ 0 then []
  else
    let maxWidth := width.toNat
    if text.length = 0 then if pad then padding maxWidth else []
    else if maxWidth ≤ g.visibleWidth ellipsis then g.clipEllipsis text maxWidth ellipsis pad
    else if text.all isPrintableUnit then g.truncateAscii text maxWidth ellipsis pad
    else if esc ∉ text ∧ tab ∉ text then
      g.truncateItems (g.plainItems text) text maxWidth ellipsis pad
    else g.truncateItems (g.tabbedItems text) text maxWidth ellipsis pad

end Glyphs

/-! ## What fits -/

/-- The longest run of the items that ends with a segment and fits. -/
def fitting (g : Glyphs) (budget : Nat) : List AnsiItem → List AnsiItem
  | [] => []
  | .ansi c :: rest =>
      if fitting g budget rest = [] then [] else .ansi c :: fitting g budget rest
  | .grapheme segment :: rest =>
      if g.graphemeWidth segment ≤ budget then
        .grapheme segment :: fitting g (budget - g.graphemeWidth segment) rest
      else []

def segmentsOfItems (items : List AnsiItem) : List Text := items.filterMap AnsiItem.segment?

/-- `kept` is the longest run of segments, with their codes, of at most a width. -/
structure Longest (g : Glyphs) (budget : Nat) (items kept : List AnsiItem) : Prop where
  isPrefix : kept <+: items
  width_le : g.widthOf (segmentsOfItems kept) ≤ budget
  longest : ∀ segments, segments <+: segmentsOfItems items → g.widthOf segments ≤ budget →
    segments <+: segmentsOfItems kept

variable {g : Glyphs}

theorem segmentsOfItems_cons (segment : Text) (rest : List AnsiItem) :
    segmentsOfItems (.grapheme segment :: rest) = segment :: segmentsOfItems rest := rfl

theorem longest_fitting (budget : Nat) (items : List AnsiItem) :
    Longest g budget items (fitting g budget items) := by
  induction items generalizing budget with
  | nil => exact ⟨List.prefix_rfl, Nat.zero_le _, fun _ h _ => h⟩
  | cons item rest ih =>
    cases item with
    | ansi c =>
      obtain ⟨hstart, hwidth, hlongest⟩ := ih budget
      unfold fitting
      split
      · rename_i hnil
        rw [hnil] at hlongest
        exact ⟨List.nil_prefix, Nat.zero_le _, hlongest⟩
      · exact ⟨List.cons_prefix_cons.mpr ⟨rfl, hstart⟩, hwidth, hlongest⟩
    | grapheme segment =>
      unfold fitting
      split
      · rename_i hfits
        obtain ⟨hstart, hwidth, hlongest⟩ := ih (budget - g.graphemeWidth segment)
        refine ⟨List.cons_prefix_cons.mpr ⟨rfl, hstart⟩, ?_, ?_⟩
        · rw [segmentsOfItems_cons, Glyphs.widthOf_cons]
          omega
        · intro segments hsegments hle
          cases segments with
          | nil => exact List.nil_prefix
          | cons segment' segments =>
            obtain ⟨rfl, hrest⟩ := List.cons_prefix_cons.mp hsegments
            rw [Glyphs.widthOf_cons] at hle
            exact List.cons_prefix_cons.mpr ⟨rfl, hlongest segments hrest (by omega)⟩
      · rename_i hwide
        refine ⟨List.nil_prefix, Nat.zero_le _, fun segments hsegments hle => ?_⟩
        cases segments with
        | nil => exact List.nil_prefix
        | cons segment' segments =>
          obtain ⟨rfl, -⟩ := List.cons_prefix_cons.mp hsegments
          rw [Glyphs.widthOf_cons] at hle
          omega

/-- The items as they are put at the end of a result, behind the pending codes. -/
def attach (pendingAnsi : Text) (kept : List AnsiItem) : Text :=
  if kept = [] then [] else pendingAnsi ++ render kept

theorem attach_nil (kept : List AnsiItem) : attach [] kept = render kept := by
  unfold attach
  split
  · rename_i hnil
    rw [hnil]
    rfl
  · rfl

theorem attach_ansi (pendingAnsi c : Text) (kept : List AnsiItem) :
    attach (pendingAnsi ++ c) kept =
      attach pendingAnsi (if kept = [] then [] else .ansi c :: kept) := by
  unfold attach
  split
  · rename_i hnil
    rw [if_pos rfl]
  · rename_i hne
    rw [if_neg (List.cons_ne_nil _ _), List.append_assoc]
    rfl

theorem attach_grapheme (pendingAnsi segment : Text) (kept : List AnsiItem) :
    attach pendingAnsi (.grapheme segment :: kept) = pendingAnsi ++ segment ++ render kept := by
  rw [attach, if_neg (List.cons_ne_nil _ _), List.append_assoc]
  rfl

theorem fragmentLoop_eq {maxWidth : Nat} {r : Fragment} (pendingAnsi : Text)
    (hr : r.width ≤ maxWidth) (items : List AnsiItem) :
    g.fragmentLoop maxWidth r pendingAnsi items =
      ⟨r.text ++ attach pendingAnsi (fitting g (maxWidth - r.width) items),
        r.width + g.widthOf (segmentsOfItems (fitting g (maxWidth - r.width) items))⟩ := by
  induction items generalizing r pendingAnsi with
  | nil =>
    rw [Glyphs.fragmentLoop, fitting, attach, if_pos rfl, List.append_nil]
    rfl
  | cons item rest ih =>
    cases item with
    | ansi c =>
      rw [Glyphs.fragmentLoop, ih _ hr, attach_ansi, fitting]
      split
      · rename_i hnil
        rw [hnil]
      · rfl
    | grapheme segment =>
      unfold Glyphs.fragmentLoop
      dsimp only
      split
      · rename_i hwide
        rw [fitting, if_neg (by omega), attach, if_pos rfl, List.append_nil]
        rfl
      · rename_i hfits
        rw [ih _ (Nat.not_lt.mp hfits), attach_nil, fitting, if_pos (by omega),
          attach_grapheme, segmentsOfItems_cons, Glyphs.widthOf_cons, Nat.sub_sub]
        dsimp only
        simp only [List.append_assoc, Nat.add_assoc]

/-- What the loop still keeps. -/
def keptFrom (g : Glyphs) (targetWidth : Nat) (s : TruncateState) (items : List AnsiItem) :
    List AnsiItem :=
  if s.keepContiguousPrefix then fitting g (targetWidth - s.keptWidth) items else []

/-- While segments are kept, what is visible is what is kept. -/
structure TruncateState.Open (targetWidth maxWidth : Nat) (s : TruncateState) : Prop where
  overflowed : s.overflowed = false
  visible : s.visibleSoFar ≤ maxWidth
  kept : s.keepContiguousPrefix = true → s.keptWidth = s.visibleSoFar ∧ s.keptWidth ≤ targetWidth

/-- The outcome of the loop over some items. -/
structure Truncated (g : Glyphs) (targetWidth maxWidth : Nat) (s : TruncateState)
    (items : List AnsiItem) (s' : TruncateState) : Prop where
  overflowed : s'.overflowed = true ↔ maxWidth < s.visibleSoFar + g.widthOf (segmentsOfItems items)
  visible : s'.overflowed = false →
    s'.visibleSoFar = s.visibleSoFar + g.widthOf (segmentsOfItems items)
  result : s'.result = s.result ++ attach s.pendingAnsi (keptFrom g targetWidth s items)
  keptWidth : s'.keptWidth =
    s.keptWidth + g.widthOf (segmentsOfItems (keptFrom g targetWidth s items))

theorem truncated_truncateLoop {targetWidth maxWidth : Nat} (htarget : targetWidth ≤ maxWidth)
    {s : TruncateState} (hs : s.Open targetWidth maxWidth) (items : List AnsiItem) :
    Truncated g targetWidth maxWidth s items (g.truncateLoop targetWidth maxWidth s items) := by
  induction items generalizing s with
  | nil =>
    have hnil : keptFrom g targetWidth s [] = [] := by
      unfold keptFrom
      split <;> rfl
    refine ⟨?_, fun _ => rfl, ?_, ?_⟩
    · rw [Glyphs.truncateLoop, hs.overflowed]
      exact ⟨fun h => (Bool.false_ne_true h).elim, fun h => absurd hs.visible (Nat.not_le.mpr h)⟩
    · rw [hnil, attach, if_pos rfl, List.append_nil]
      rfl
    · rw [hnil]
      rfl
  | cons item rest ih =>
    cases item with
    | ansi c =>
      have hrest := ih (s := { s with pendingAnsi := s.pendingAnsi ++ c })
        ⟨hs.overflowed, hs.visible, hs.kept⟩
      have hkept : keptFrom g targetWidth s (.ansi c :: rest) =
          if keptFrom g targetWidth s rest = [] then []
          else .ansi c :: keptFrom g targetWidth s rest := by
        unfold keptFrom
        split
        · rfl
        · exact (if_pos rfl).symm
      refine ⟨hrest.overflowed, hrest.visible, ?_, ?_⟩
      · rw [hkept, ← attach_ansi]
        exact hrest.result
      · rw [hkept]
        refine hrest.keptWidth.trans ?_
        change s.keptWidth + g.widthOf (segmentsOfItems (keptFrom g targetWidth s rest)) = _
        split
        · rename_i hnil
          rw [hnil]
        · rfl
    | grapheme segment =>
      unfold Glyphs.truncateLoop
      dsimp only
      by_cases hkeep : s.keepContiguousPrefix = true ∧
          s.keptWidth + g.graphemeWidth segment ≤ targetWidth
      · obtain ⟨heq, -⟩ := hs.kept hkeep.1
        have hfits : s.keptWidth + g.graphemeWidth segment ≤ targetWidth := hkeep.2
        have hkept : keptFrom g targetWidth s (.grapheme segment :: rest) =
            .grapheme segment ::
              fitting g (targetWidth - (s.keptWidth + g.graphemeWidth segment)) rest := by
          rw [keptFrom, if_pos hkeep.1, fitting, if_pos (by omega), Nat.sub_sub]
        have hvisible : s.visibleSoFar + g.graphemeWidth segment ≤ maxWidth := by omega
        have hrest := ih (s := { s with
            result := s.result ++ s.pendingAnsi ++ segment
            pendingAnsi := []
            keptWidth := s.keptWidth + g.graphemeWidth segment
            visibleSoFar := s.visibleSoFar + g.graphemeWidth segment })
          ⟨hs.overflowed, hvisible, fun _ => ⟨by rw [heq], hfits⟩⟩
        rw [Glyphs.keepSegment, if_pos hkeep, if_neg (Nat.not_lt.mpr hvisible)]
        refine ⟨?_, ?_, ?_, ?_⟩
        · rw [segmentsOfItems_cons, Glyphs.widthOf_cons, ← Nat.add_assoc]
          exact hrest.overflowed
        · rw [segmentsOfItems_cons, Glyphs.widthOf_cons, ← Nat.add_assoc]
          exact hrest.visible
        · rw [hkept, attach_grapheme]
          refine hrest.result.trans ?_
          rw [keptFrom, if_pos hkeep.1, attach_nil]
          simp only [List.append_assoc]
        · rw [hkept, segmentsOfItems_cons, Glyphs.widthOf_cons, ← Nat.add_assoc]
          refine hrest.keptWidth.trans ?_
          rw [keptFrom, if_pos hkeep.1]
      · have hkept : keptFrom g targetWidth s (.grapheme segment :: rest) = [] := by
          unfold keptFrom
          split
          · rename_i hkeeping
            have hwide : ¬ s.keptWidth + g.graphemeWidth segment ≤ targetWidth :=
              fun h => hkeep ⟨hkeeping, h⟩
            have hle := (hs.kept hkeeping).2
            rw [fitting, if_neg (by omega)]
          · rfl
        rw [Glyphs.keepSegment, if_neg hkeep]
        split
        · rename_i hover
          dsimp only at hover
          refine ⟨⟨fun _ => ?_, fun _ => rfl⟩, fun h => Bool.noConfusion h, ?_, ?_⟩
          · rw [segmentsOfItems_cons, Glyphs.widthOf_cons]
            omega
          · rw [hkept, attach, if_pos rfl, List.append_nil]
          · rw [hkept]
            rfl
        · rename_i hroom
          dsimp only at hroom
          have hrest := ih (s := { s with
              pendingAnsi := []
              visibleSoFar := s.visibleSoFar + g.graphemeWidth segment
              keepContiguousPrefix := false })
            ⟨hs.overflowed, Nat.not_lt.mp hroom, fun h => Bool.noConfusion h⟩
          refine ⟨?_, ?_, ?_, ?_⟩
          · rw [segmentsOfItems_cons, Glyphs.widthOf_cons, ← Nat.add_assoc]
            exact hrest.overflowed
          · rw [segmentsOfItems_cons, Glyphs.widthOf_cons, ← Nat.add_assoc]
            exact hrest.visible
          · rw [hkept]
            exact hrest.result
          · rw [hkept]
            exact hrest.keptWidth

/-! ## The paths agree -/

theorem segmentsOfItems_map (segments : List Text) :
    segmentsOfItems (segments.map .grapheme) = segments := by
  rw [segmentsOfItems, List.filterMap_map]
  exact List.filterMap_some

theorem render_map (segments : List Text) :
    render (segments.map .grapheme) = segments.flatten := by
  rw [render, List.flatMap_map, ← List.flatMap_id]
  rfl

theorem open_start (targetWidth maxWidth : Nat) : TruncateState.Open targetWidth maxWidth {} :=
  ⟨rfl, Nat.zero_le _, fun _ => ⟨rfl, Nat.zero_le _⟩⟩

theorem truncateItems_eq (items : List AnsiItem) (text : Text) (maxWidth : Nat) (ellipsis : Text)
    (pad : Bool) :
    g.truncateItems items text maxWidth ellipsis pad =
      if maxWidth < g.widthOf (segmentsOfItems items) then
        finalizeTruncatedResult (render (fitting g (maxWidth - g.visibleWidth ellipsis) items))
          (g.widthOf (segmentsOfItems (fitting g (maxWidth - g.visibleWidth ellipsis) items)))
          ellipsis (g.visibleWidth ellipsis) maxWidth pad
      else if pad then text ++ padding (maxWidth - g.widthOf (segmentsOfItems items))
      else text := by
  obtain ⟨hover, hvisible, hresult, hwidth⟩ := truncated_truncateLoop (g := g)
    (Nat.sub_le maxWidth (g.visibleWidth ellipsis)) (open_start _ _) items
  have hkept : keptFrom g (maxWidth - g.visibleWidth ellipsis) {} items =
      fitting g (maxWidth - g.visibleWidth ellipsis) items := rfl
  rw [hkept, attach_nil] at hresult
  rw [hkept] at hwidth
  rw [Nat.zero_add] at hover hvisible hwidth
  unfold Glyphs.truncateItems
  dsimp only
  split
  · rename_i h
    rw [if_pos (hover.mp h), hresult, hwidth]
    rfl
  · rename_i h
    rw [if_neg fun hwide => h (hover.mpr hwide), hvisible (Bool.eq_false_iff.mpr h)]

theorem fragmentLoop_start (maxWidth : Nat) (items : List AnsiItem) :
    g.fragmentLoop maxWidth ⟨[], 0⟩ [] items =
      ⟨render (fitting g maxWidth items),
        g.widthOf (segmentsOfItems (fitting g maxWidth items))⟩ := by
  rw [fragmentLoop_eq [] (Nat.zero_le maxWidth), attach_nil, Nat.sub_zero, Nat.zero_add,
    List.nil_append]

variable {text : Text}

theorem printable_take (h : text.all isPrintableUnit = true) (n : Nat) :
    (text.take n).all isPrintableUnit = true :=
  List.all_eq_true.mpr fun u hu => List.all_eq_true.mp h u (List.mem_of_mem_take hu)

section Printable

variable (hg : g.Lawful)

include hg

theorem fitting_printable {text : Text} (h : text.all isPrintableUnit = true) (budget : Nat) :
    fitting g budget ((text.map ([·])).map .grapheme) =
      ((text.take budget).map ([·])).map .grapheme := by
  induction text generalizing budget with
  | nil => rw [List.take_nil]; rfl
  | cons u rest ih =>
    rw [List.all_cons, Bool.and_eq_true] at h
    rw [List.map_cons, List.map_cons, fitting, hg.graphemeWidth_printable h.1]
    cases budget with
    | zero => rfl
    | succ budget =>
      rw [if_pos (Nat.le_add_left 1 budget), Nat.add_sub_cancel, ih h.2]
      rfl

/-- On ASCII the first path does what the second does. -/
theorem truncateAscii_eq {text : Text} (h : text.all isPrintableUnit = true) (maxWidth : Nat)
    (ellipsis : Text) (pad : Bool) :
    g.truncateAscii text maxWidth ellipsis pad =
      g.truncateItems (g.plainItems text) text maxWidth ellipsis pad := by
  rw [truncateItems_eq, Glyphs.plainItems, hg.printable text h, segmentsOfItems_map,
    hg.widthOf_printable h, fitting_printable hg h, render_map, segmentsOfItems_map,
    hg.widthOf_printable (printable_take h _), ← List.flatMap_def, List.flatMap_singleton']
  unfold Glyphs.truncateAscii
  dsimp only
  by_cases hfits : text.length ≤ maxWidth
  · rw [if_pos hfits, if_neg (Nat.not_lt.mpr hfits)]
  · have hlength : (text.take (maxWidth - g.visibleWidth ellipsis)).length =
        maxWidth - g.visibleWidth ellipsis := by
      rw [List.length_take]
      omega
    rw [if_neg hfits, if_pos (Nat.not_le.mp hfits), hlength]

end Printable

theorem itemsFrom_units (segment : Text → List Text) (run text : Text) :
    itemsFrom segment run (text.map .unit) = (segment (run ++ text)).map .grapheme := by
  induction text generalizing run with
  | nil => rw [List.append_nil]; rfl
  | cons u rest ih =>
    rw [List.map_cons, itemsFrom, ih, List.append_assoc]
    rfl

theorem atTabs_eq (segment : Text → List Text) (h : tab ∉ text) (run : Text) :
    atTabs segment run text = segment (run ++ text) := by
  induction text generalizing run with
  | nil => rw [List.append_nil]; rfl
  | cons u rest ih =>
    obtain ⟨hu, hrest⟩ := List.ne_and_not_mem_of_not_mem_cons h
    rw [atTabs, if_neg hu.symm, ih hrest, List.append_assoc]
    rfl

/-- Without codes and tabs the third path has the items of the second. -/
theorem tabbedItems_eq (hesc : esc ∉ text) (htab : tab ∉ text) :
    g.tabbedItems text = g.plainItems text := by
  rw [Glyphs.tabbedItems, pieces_units hesc, itemsFrom_units, List.nil_append, atTabs_eq _ htab,
    List.nil_append, Glyphs.plainItems]

theorem not_mem_of_printable {u : UInt16} (h : text.all isPrintableUnit = true)
    (hu : isPrintableUnit u = false) : u ∉ text := fun hmem =>
  Bool.false_ne_true (hu.symm.trans (List.all_eq_true.mp h u hmem))

theorem graphemes_nil (hg : g.Lawful) : g.graphemes [] = [] := by
  rw [List.eq_nil_iff_forall_not_mem]
  intro segment hmem
  have hnil := List.flatten_eq_nil_iff.mp (hg.flatten []) segment hmem
  exact hg.nonempty [] (hnil ▸ hmem)

theorem truncateFragmentToWidth_eq (hg : g.Lawful) (text : Text) {maxWidth : Nat}
    (hmax : 0 < maxWidth) :
    g.truncateFragmentToWidth text maxWidth =
      ⟨render (fitting g maxWidth (g.tabbedItems text)),
        g.widthOf (segmentsOfItems (fitting g maxWidth (g.tabbedItems text)))⟩ := by
  unfold Glyphs.truncateFragmentToWidth
  split
  · rename_i h
    obtain hzero | rfl := h
    · omega
    · rw [tabbedItems_eq (List.not_mem_nil) (List.not_mem_nil), Glyphs.plainItems, graphemes_nil hg]
      rfl
  · split
    · rename_i h
      rw [tabbedItems_eq (not_mem_of_printable h (by decide)) (not_mem_of_printable h (by decide)),
        Glyphs.plainItems, hg.printable text h, fitting_printable hg h, render_map,
        segmentsOfItems_map, hg.widthOf_printable (printable_take h _), ← List.flatMap_def,
        List.flatMap_singleton']
    · split
      · rename_i h
        rw [tabbedItems_eq h.1 h.2, fragmentLoop_start]
      · rw [fragmentLoop_start]

end Tui

end Eagent
