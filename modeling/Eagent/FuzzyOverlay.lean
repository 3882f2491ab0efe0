import Eagent.EditFrame

/-!
# The overlay of a fuzzy edit

The base content has the lines of the original, each normalised. The lines
that the matched regions touch form runs; the overlay keeps the other lines
of the original and writes each run from the base (`overlay_iff`). A last
line of whitespace alone is no line of the base: then the counts differ.
-/

namespace Eagent

namespace EditTool

/-! ## The count of lines -/

def lastLine (text : Text) : Text := (text.splitOn lf).getLastD []

theorem length_splitOn (text : Text) : (text.splitOn lf).length = text.count lf + 1 := by
  induction text with
  | nil => rfl
  | cons u rest ih =>
    rw [List.splitOn_cons_eq_if_modifyHead, List.count_cons]
    split
    · rw [List.length_cons, ih]
    · rw [List.length_modifyHead, ih]

theorem length_splitLines (text : Text) :
    (splitLinesWithEndings text).length =
      text.count lf + if lastLine text = [] then 0 else 1 := by
  induction text with
  | nil => rfl
  | cons u rest ih =>
    obtain ⟨first, pieces, hpieces⟩ := List.exists_cons_of_ne_nil (List.splitOn_ne_nil lf rest)
    have hlast : lastLine rest = (first :: pieces).getLastD [] := by rw [lastLine, hpieces]
    rw [splitLinesWithEndings, List.count_cons, lastLine, List.splitOn_cons_eq_if_modifyHead,
      hpieces]
    by_cases hu : u = lf
    · rw [if_pos hu, if_pos (beq_iff_eq.mpr hu), if_pos (beq_iff_eq.mpr hu), List.length_cons, ih,
        hlast]
      exact Nat.add_right_comm _ _ _
    · rw [if_neg hu, if_neg (fun h => hu (beq_iff_eq.mp h)),
        if_neg (fun h => hu (beq_iff_eq.mp h)), Nat.add_zero, List.modifyHead_cons]
      cases pieces with
      | nil =>
        have hcount : rest.count lf = 0 := by
          have hlength := length_splitOn rest
          rw [hpieces] at hlength
          exact (Nat.succ.inj hlength).symm
        have hone : ∀ line lines, splitLinesWithEndings rest = line :: lines → lines = [] := by
          intro line lines hlines
          rw [hlines, hcount, Nat.zero_add, List.length_cons] at ih
          refine List.length_eq_zero_iff.mp ?_
          split at ih <;> omega
        rw [hcount, Nat.zero_add]
        split
        · rfl
        · rename_i line lines hlines
          rw [hone line lines hlines]
          rfl
      | cons second pieces =>
        have hsame : (((u :: first) :: second :: pieces).getLastD []) = lastLine rest := by
          rw [hlast]
          rfl
        rw [hsame, ← ih]
        split
        · rename_i hnil
          rw [hnil, List.length_nil] at ih
          have hlength := length_splitOn rest
          rw [hpieces] at hlength
          simp only [List.length_cons] at hlength
          omega
        · rename_i line lines hlines
          rw [hlines]
          rfl

theorem intercalate_map (f : UInt16 → UInt16) (hf : f lf = lf) (pieces : List Text) :
    ([lf].intercalate pieces).map f = [lf].intercalate (pieces.map (·.map f)) := by
  induction pieces with
  | nil => rfl
  | cons piece pieces ih =>
    cases pieces with
    | nil => simp
    | cons next pieces =>
      rw [List.map_cons, List.map_cons, List.intercalate_cons_cons, List.intercalate_cons_cons,
        List.map_append, List.map_append, ih, List.map_cons, List.map_nil, hf, List.map_cons]

theorem fuzzyUnit_eq_lf {u : UInt16} (h : fuzzyUnit u = lf) : u = lf := by
  unfold fuzzyUnit at h
  split at h
  · exact absurd h (by decide)
  · split at h
    · exact absurd h (by decide)
    · split at h
      · exact absurd h (by decide)
      · split at h
        · exact absurd h (by decide)
        · exact h

variable (nfkc : Text → Text) (content : Text)

/-- The lines of the base, without their ends. -/
theorem splitOn_normalize :
    (normalizeForFuzzyMatch nfkc content).splitOn lf =
      ((nfkc content).splitOn lf).map fun piece => (piece.rdropWhile isWhitespace).map fuzzyUnit := by
  rw [normalizeForFuzzyMatch, intercalate_map fuzzyUnit (by decide), List.map_map]
  refine List.splitOn_intercalate lf (fun piece hpiece hmem => ?_) ?_
  · obtain ⟨line, hline, rfl⟩ := List.mem_map.mp hpiece
    obtain ⟨u, hu, heq⟩ := List.mem_map.mp hmem
    rw [fuzzyUnit_eq_lf heq] at hu
    exact (TextBlocks.mem_splitOn _ line hline).1 ((List.rdropWhile_prefix isWhitespace line).mem hu)
  · rw [ne_eq, List.map_eq_nil_iff]
    exact List.splitOn_ne_nil lf _

theorem count_normalize :
    (normalizeForFuzzyMatch nfkc content).count lf = (nfkc content).count lf := by
  have hlength := congrArg List.length (splitOn_normalize nfkc content)
  rw [List.length_map, length_splitOn, length_splitOn] at hlength
  exact Nat.succ.inj hlength

theorem lastLine_normalize :
    lastLine (normalizeForFuzzyMatch nfkc content) = [] ↔
      ∀ u ∈ lastLine (nfkc content), isWhitespace u = true := by
  rw [lastLine, splitOn_normalize, List.getLastD_eq_getLast?, List.getLast?_map, lastLine,
    List.getLastD_eq_getLast?, List.getLast?_eq_some_getLast (List.splitOn_ne_nil lf _)]
  simp only [Option.map_some, Option.getD_some, List.map_eq_nil_iff, List.rdropWhile_eq_nil_iff]

/-- The base has the lines of the content, unless only one of them ends in a
line without a line feed. -/
theorem sameCount_iff (hnfkc : (nfkc content).count lf = content.count lf) :
    (splitLinesWithEndings content).length =
        (splitLinesWithEndings (normalizeForFuzzyMatch nfkc content)).length ↔
      (lastLine content = [] ↔ ∀ u ∈ lastLine (nfkc content), isWhitespace u = true) := by
  rw [length_splitLines, length_splitLines, count_normalize, hnfkc, ← lastLine_normalize]
  split <;> split <;> simp_all

/-! ## Lines that are touched -/

theorem line_ne_nil (text : Text) : ∀ line ∈ splitLinesWithEndings text, line ≠ [] := by
  induction text with
  | nil => exact fun _ h => absurd h List.not_mem_nil
  | cons u rest ih =>
    rw [splitLinesWithEndings]
    split
    · intro line hline
      obtain rfl | hline := List.mem_cons.mp hline
      · exact List.cons_ne_nil _ _
      · exact ih line hline
    · split
      · intro line hline
        obtain rfl := List.mem_singleton.mp hline
        exact List.cons_ne_nil _ _
      · rename_i first lines hlines
        rw [hlines] at ih
        intro line hline
        obtain rfl | hline := List.mem_cons.mp hline
        · exact List.cons_ne_nil _ _
        · exact ih line (List.mem_cons_of_mem first hline)

theorem lineStart_lt (text : Text) {k : Nat} (hk : k < (splitLinesWithEndings text).length) :
    lineStart (splitLinesWithEndings text) k < lineStart (splitLinesWithEndings text) (k + 1) := by
  have hline := line_ne_nil text _ (List.getElem_mem hk)
  have hpos := List.length_pos_iff.mpr hline
  rw [lineStart, lineStart, List.take_add_one, List.getElem?_eq_getElem hk, Option.toList_some,
    List.flatten_append, List.flatten_singleton, List.length_append]
  omega

/-- A unit of a replaced region is in the line. -/
def Touches (base : Text) (r : MatchedEdit) (k : Nat) : Prop :=
  ∃ i, r.matchIndex ≤ i ∧ i < r.stop ∧ lineStart (splitLinesWithEndings base) k ≤ i ∧
    i < lineStart (splitLinesWithEndings base) (k + 1)

variable {base : Text} {r : MatchedEdit} {range : LineRange} {k : Nat}

theorem touches_of_range (hr : 0 < r.matchLength)
    (h : getReplacementLineRange (getLineSpans base) r = .ok range) (hstart : range.startLine ≤ k)
    (hstop : k < range.endLine) : Touches base r k := by
  have hlines := (range_spec h).2.2
  have hlt := lineStart_lt base (Nat.lt_of_lt_of_le hstop hlines)
  have hpos : r.matchIndex < r.stop := Nat.lt_add_of_pos_right hr
  rw [getReplacementLineRange] at h
  split at h
  · cases h
  rename_i startLine hfirst
  split at h
  · cases h
  rename_i more hmore
  cases h
  obtain ⟨hbound, hfound, -⟩ := List.findIdx?_eq_some_iff_getElem.mp hfirst
  obtain ⟨hbound', -, hbefore⟩ := List.findIdx?_eq_some_iff_getElem.mp hmore
  dsimp only at hstart hstop hlines
  have hspan := getElem?_lineSpans base startLine
  rw [List.getElem?_eq_getElem hbound, if_pos (by omega)] at hspan
  rw [Option.some.inj hspan] at hfound
  obtain ⟨hle, hindex⟩ := of_decide_eq_true hfound
  dsimp only at hle hindex
  obtain rfl | hafter := Nat.eq_or_lt_of_le hstart
  · exact ⟨r.matchIndex, Nat.le_refl _, hpos, hle, hindex⟩
  · -- the line before ends inside the region
    have hprevious := hbefore (k - 1 - startLine) (by omega)
    have hspan' := getElem?_lineSpans base (startLine + (k - 1 - startLine))
    rw [List.length_drop] at hbound'
    rw [List.getElem_drop] at hprevious
    rw [List.getElem?_eq_getElem (by omega), if_pos (by omega)] at hspan'
    rw [Option.some.inj hspan', decide_eq_true_iff, Nat.not_le] at hprevious
    have hk : startLine + (k - 1 - startLine) + 1 = k := by omega
    dsimp only at hprevious
    rw [hk] at hprevious
    have hindex' := Nat.lt_of_lt_of_le hindex
      (lineStart_mono (splitLinesWithEndings base) (Nat.succ_le_of_lt hafter))
    exact ⟨lineStart (splitLinesWithEndings base) k, Nat.le_of_lt hindex', hprevious,
      Nat.le_refl _, hlt⟩

theorem between_of_touches {i j : Nat} (h : Touches base r k)
    (hstart : lineStart (splitLinesWithEndings base) i ≤ r.matchIndex)
    (hstop : r.stop ≤ lineStart (splitLinesWithEndings base) j) : i ≤ k ∧ k < j := by
  obtain ⟨n, hindex, hlt, hle, hnext⟩ := h
  constructor
  · by_contra hki
    have hlt' : k + 1 ≤ i := Nat.lt_of_not_le hki
    have hmono := lineStart_mono (splitLinesWithEndings base) hlt'
    omega
  · by_contra hjk
    have hmono := lineStart_mono (splitLinesWithEndings base) (Nat.le_of_not_lt hjk)
    omega

def AllTouched (base : Text) (groups : List LineGroup) : Prop :=
  ∀ g ∈ groups, ∀ k, g.startLine ≤ k → k < g.endLine → ∃ r ∈ g.replacements, Touches base r k

theorem AllTouched.add {groups groups' : List LineGroup} (h : AllTouched base groups)
    (hr : 0 < r.matchLength) (hadd : addToGroups (getLineSpans base) groups r = .ok groups') :
    AllTouched base groups' := by
  obtain ⟨range, hrange, hcases⟩ := addToGroups_cases hadd
  obtain ⟨rfl, rfl⟩ | ⟨init, current, rfl, ⟨hjoin, rfl⟩ | ⟨-, rfl⟩⟩ := hcases
  · intro g hg k hstart hstop
    obtain rfl := List.mem_singleton.mp hg
    exact ⟨r, List.mem_singleton_self r, touches_of_range hr hrange hstart hstop⟩
  · intro g hg k hstart hstop
    obtain hg | hg := List.mem_append.mp hg
    · exact h g (List.mem_append_left _ hg) k hstart hstop
    · obtain rfl := List.mem_singleton.mp hg
      by_cases hcurrent : k < current.endLine
      · obtain ⟨r', hr', htouches⟩ := h current (by simp) k hstart hcurrent
        exact ⟨r', List.mem_append_left _ hr', htouches⟩
      · refine ⟨r, List.mem_append_right _ (List.mem_singleton_self r), ?_⟩
        dsimp only at hstop
        exact touches_of_range hr hrange (by omega) (by omega)
  · intro g hg k hstart hstop
    obtain hg | hg := List.mem_append.mp hg
    · exact h g hg k hstart hstop
    · obtain rfl := List.mem_singleton.mp hg
      exact ⟨r, List.mem_singleton_self r, touches_of_range hr hrange hstart hstop⟩

theorem allTouched_foldlM (rs : List MatchedEdit) : ∀ {groups groups' : List LineGroup},
    AllTouched base groups → (∀ r ∈ rs, 0 < r.matchLength) →
      rs.foldlM (addToGroups (getLineSpans base)) groups = .ok groups' →
        AllTouched base groups' := by
  induction rs with
  | nil =>
    intro groups groups' h _ hfold
    cases hfold
    exact h
  | cons r rs ih =>
    intro groups groups' h hpos hfold
    obtain ⟨mid, hadd, hrest⟩ := bind_ok hfold
    exact ih (h.add (hpos r List.mem_cons_self) hadd)
      (fun r' hr' => hpos r' (List.mem_cons_of_mem r hr')) hrest

/-! ## Runs of touched lines -/

/-- The runs of the lines with a property: as long as they can be, in order. -/
structure IsRuns (touched : Nat → Prop) (runs : List (Nat × Nat)) : Prop where
  some : ∀ run ∈ runs, run.1 < run.2
  apart : runs.Pairwise fun run run' => run.2 < run'.1
  all : ∀ k, touched k ↔ ∃ run ∈ runs, run.1 ≤ k ∧ k < run.2

/-- The lines of the base from `first` on and before `last`, with the
replacements in them. -/
def runText (base : Text) (rs : List MatchedEdit) (first last : Nat) : Text :=
  spliceFrom (lineStart (splitLinesWithEndings base) first)
    (((splitLinesWithEndings base).take last).drop first).flatten
    (rs.filter fun r => lineStart (splitLinesWithEndings base) first ≤ r.matchIndex ∧
      r.matchIndex < lineStart (splitLinesWithEndings base) last)

def runBlock (base : Text) (rs : List MatchedEdit) (run : Nat × Nat) :
    TextBlocks.Block UInt16 where
  first := run.1
  last := run.2
  text := runText base rs run.1 run.2

variable {rs : List MatchedEdit}

theorem filter_split (h : rs.Pairwise fun a b => a.matchIndex ≤ b.matchIndex) {i j k : Nat}
    (hij : i ≤ j) (hjk : j ≤ k) :
    (rs.filter fun r => i ≤ r.matchIndex ∧ r.matchIndex < k) =
      (rs.filter fun r => i ≤ r.matchIndex ∧ r.matchIndex < j) ++
        rs.filter fun r => j ≤ r.matchIndex ∧ r.matchIndex < k := by
  induction rs with
  | nil => rfl
  | cons r rs ih =>
    obtain ⟨hfirst, hrest⟩ := List.pairwise_cons.mp h
    rw [List.filter_cons, List.filter_cons, List.filter_cons, ih hrest]
    by_cases hj : r.matchIndex < j
    · have hj' : ¬ j ≤ r.matchIndex := Nat.not_le.mpr hj
      have hk : r.matchIndex < k := Nat.lt_of_lt_of_le hj hjk
      simp only [hj, hj', hk, and_true, decide_false, Bool.false_eq_true, if_false]
      split <;> rfl
    · have hi : i ≤ r.matchIndex := by omega
      have hj' : j ≤ r.matchIndex := Nat.le_of_not_lt hj
      have hnone : (rs.filter fun r => decide (i ≤ r.matchIndex ∧ r.matchIndex < j)) = [] := by
        refine List.filter_eq_nil_iff.mpr fun r' hr' hin => ?_
        have hle := hfirst r' hr'
        have hlt := (of_decide_eq_true hin).2
        omega
      simp only [hi, hj, hj', true_and, and_false, hnone, decide_false, Bool.false_eq_true,
        if_false, List.nil_append]

theorem sorted_of_apart (h : rs.Pairwise fun a b => a.stop ≤ b.matchIndex) :
    rs.Pairwise fun a b => a.matchIndex ≤ b.matchIndex :=
  h.imp fun hab => Nat.le_trans (Nat.le_add_right _ _) hab

/-- Two runs that meet are one. -/
theorem runText_append (hapart : rs.Pairwise fun a b => a.stop ≤ b.matchIndex) {i j k : Nat}
    (hij : i ≤ j) (hjk : j ≤ k)
    (hstop : ∀ r ∈ rs, lineStart (splitLinesWithEndings base) i ≤ r.matchIndex →
      r.matchIndex < lineStart (splitLinesWithEndings base) j →
        r.stop ≤ lineStart (splitLinesWithEndings base) j) :
    runText base rs i j ++ runText base rs j k = runText base rs i k := by
  have hsorted := sorted_of_apart hapart
  have hlines : (((splitLinesWithEndings base).take k).drop i).flatten =
      (((splitLinesWithEndings base).take j).drop i).flatten ++
        (((splitLinesWithEndings base).take k).drop j).flatten := by
    rw [drop_split ((splitLinesWithEndings base).take k) hij, List.take_take, Nat.min_eq_left hjk]
  have hadd := lineStart_add (splitLinesWithEndings base) hij
  unfold runText
  rw [hlines, filter_split hsorted (lineStart_mono _ hij) (lineStart_mono _ hjk),
    spliceFrom_append _ _ _ _ _ ⟨?_, hapart.filter _⟩ ?_ ?_, hadd]
  · intro r hr
    exact (of_decide_eq_true (List.mem_filter.mp hr).2).1
  · intro r hr
    obtain ⟨hmem, hin⟩ := List.mem_filter.mp hr
    obtain ⟨hstart, hlt⟩ := of_decide_eq_true hin
    rw [hadd]
    exact hstop r hmem hstart hlt
  · intro r hr
    rw [hadd]
    exact (of_decide_eq_true (List.mem_filter.mp hr).2).1

variable (base) in
theorem exists_runs (hapart : rs.Pairwise fun a b => a.stop ≤ b.matchIndex)
    (groups : List LineGroup) :
    GroupsApart groups →
    (∀ g ∈ groups, ∀ r ∈ rs, lineStart (splitLinesWithEndings base) g.startLine ≤ r.matchIndex →
      r.matchIndex < lineStart (splitLinesWithEndings base) g.endLine →
        r.stop ≤ lineStart (splitLinesWithEndings base) g.endLine) →
    ∃ runs, IsRuns (fun k => ∃ g ∈ groups, g.startLine ≤ k ∧ k < g.endLine) runs ∧
      runs.head?.map Prod.fst = groups.head?.map (·.startLine) ∧
      ∀ lines i, TextBlocks.weave lines i
          (groups.map fun g => runBlock base rs (g.startLine, g.endLine)) =
        TextBlocks.weave lines i (runs.map (runBlock base rs)) := by
  induction groups with
  | nil =>
    refine fun _ _ => ⟨[], ⟨fun _ h => absurd h List.not_mem_nil, List.Pairwise.nil, fun k => ?_⟩,
      rfl, fun _ _ => rfl⟩
    simp
  | cons g groups ih =>
    intro hgroups hstop
    obtain ⟨hlt, hordered⟩ := hgroups
    obtain ⟨hnext, hrest⟩ := List.pairwise_cons.mp hordered
    have hg := hlt g List.mem_cons_self
    obtain ⟨runs, ⟨hsome, hruns, hall⟩, hhead, hweave⟩ :=
      ih ⟨fun g' hg' => hlt g' (List.mem_cons_of_mem g hg'), hrest⟩
        fun g' hg' => hstop g' (List.mem_cons_of_mem g hg')
    have hcons : ∀ k, (∃ g' ∈ g :: groups, g'.startLine ≤ k ∧ k < g'.endLine) ↔
        (g.startLine ≤ k ∧ k < g.endLine) ∨ ∃ run ∈ runs, run.1 ≤ k ∧ k < run.2 := by
      intro k
      rw [List.exists_mem_cons_iff, hall k]
    cases runs with
    | nil =>
      refine ⟨[(g.startLine, g.endLine)], ⟨?_, List.pairwise_singleton _ _, fun k => ?_⟩, rfl,
        fun lines i => ?_⟩
      · intro run hrun
        rw [List.mem_singleton.mp hrun]
        exact hg
      · rw [hcons]
        simp
      · rw [List.map_cons, TextBlocks.weave, hweave]
        rfl
    | cons run runs =>
      obtain ⟨first, last⟩ := run
      have hle : g.endLine ≤ first := by
        cases groups with
        | nil => cases hhead
        | cons g' groups =>
          obtain rfl : first = g'.startLine := Option.some.inj hhead
          exact hnext g' List.mem_cons_self
      have hfirst : first < last := hsome _ List.mem_cons_self
      obtain ⟨hafter, hlater⟩ := List.pairwise_cons.mp hruns
      by_cases hmeet : g.endLine = first
      · subst hmeet
        refine ⟨(g.startLine, last) :: runs, ⟨?_, List.pairwise_cons.mpr ⟨hafter, hlater⟩,
          fun k => ?_⟩, rfl, fun lines i => ?_⟩
        · intro run hrun
          obtain rfl | hrun := List.mem_cons.mp hrun
          · exact Nat.lt_trans hg hfirst
          · exact hsome run (List.mem_cons_of_mem _ hrun)
        · rw [hcons, List.exists_mem_cons_iff, List.exists_mem_cons_iff, ← or_assoc]
          refine or_congr_left ?_
          dsimp only
          omega
        · have htext := runText_append hapart (Nat.le_of_lt hg) (Nat.le_of_lt hfirst)
            (hstop g List.mem_cons_self)
          rw [List.map_cons, TextBlocks.weave, hweave, List.map_cons, TextBlocks.weave,
            List.map_cons, TextBlocks.weave]
          simp only [runBlock]
          rw [← htext, List.drop_take_self]
          simp only [List.flatten_nil, List.nil_append, List.append_assoc]
      · refine ⟨(g.startLine, g.endLine) :: (first, last) :: runs, ⟨?_, ?_, fun k => ?_⟩, rfl,
          fun lines i => ?_⟩
        · intro run hrun
          obtain rfl | hrun := List.mem_cons.mp hrun
          · exact hg
          · exact hsome run hrun
        · refine List.pairwise_cons.mpr ⟨fun run hrun => ?_, hruns⟩
          have hbehind : g.endLine < first := Nat.lt_of_le_of_ne hle hmeet
          obtain rfl | hrun := List.mem_cons.mp hrun
          · exact hbehind
          · exact Nat.lt_trans (Nat.lt_trans hbehind hfirst) (hafter run hrun)
        · exact (hcons k).trans (List.exists_mem_cons_iff
            (fun run => run.1 ≤ k ∧ k < run.2) (g.startLine, g.endLine) _).symm
        · rw [List.map_cons, TextBlocks.weave, hweave]
          rfl

/-! ## The overlay -/

theorem Covers.replacements_eq {groups : List LineGroup} (h : Covers base groups rs)
    (hapart : GroupsApart groups) (hpos : ∀ r ∈ rs, 0 < r.matchLength) {g : LineGroup}
    (hg : g ∈ groups) :
    (rs.filter fun r => lineStart (splitLinesWithEndings base) g.startLine ≤ r.matchIndex ∧
      r.matchIndex < lineStart (splitLinesWithEndings base) g.endLine) = g.replacements := by
  have hlt : ∀ g' ∈ groups, ∀ r ∈ g'.replacements, r.matchIndex < r.stop := by
    intro g' hg' r hr
    refine Nat.lt_add_of_pos_right (hpos r ?_)
    rw [← h.all]
    exact List.mem_flatMap.mpr ⟨g', hg', hr⟩
  obtain ⟨before, after, rfl⟩ := List.append_of_mem hg
  obtain ⟨-, hpairwise⟩ := hapart
  obtain ⟨-, hlater, hbefore⟩ := List.pairwise_append.mp hpairwise
  have hafter := (List.pairwise_cons.mp hlater).1
  rw [← h.all, List.flatMap_append, List.flatMap_cons, List.filter_append, List.filter_append,
    List.filter_eq_nil_iff.mpr, List.filter_eq_self.mpr, List.filter_eq_nil_iff.mpr,
    List.nil_append, List.append_nil]
  · intro r hr hin
    obtain ⟨g', hg', hr'⟩ := List.mem_flatMap.mp hr
    have hstart := (h.within g' (List.mem_append_right _ (List.mem_cons_of_mem g hg')) r hr').1
    have hmono := lineStart_mono (splitLinesWithEndings base) (hafter g' hg')
    have hstop := (of_decide_eq_true hin).2
    omega
  · intro r hr
    obtain ⟨hstart, hstop⟩ := h.within g hg r hr
    exact decide_eq_true ⟨hstart, Nat.lt_of_lt_of_le (hlt g hg r hr) hstop⟩
  · intro r hr hin
    obtain ⟨g', hg', hr'⟩ := List.mem_flatMap.mp hr
    have hmem := List.mem_append_left (g :: after) hg'
    have hstop := (h.within g' hmem r hr').2
    have hpos' := hlt g' hmem r hr'
    have hmono := lineStart_mono (splitLinesWithEndings base)
      (hbefore g' hg' g List.mem_cons_self)
    have hstart := (of_decide_eq_true hin).1
    omega

/-- Regions that are not empty and have no unit in common. -/
structure Regions (base : Text) (rs : List MatchedEdit) : Prop where
  pos : ∀ r ∈ rs, 0 < r.matchLength
  within : ∀ r ∈ rs, r.stop ≤ base.length
  disjoint : rs.Pairwise fun a b => a.stop ≤ b.matchIndex ∨ b.stop ≤ a.matchIndex

theorem Regions.sorted (h : Regions base rs) :
    (sortEdits rs).Pairwise fun a b => a.stop ≤ b.matchIndex := by
  have hperm : (sortEdits rs).Perm rs := List.mergeSort_perm rs _
  have hdisjoint := (hperm.pairwise_iff fun {_ _} hab => hab.symm).mpr h.disjoint
  refine ((sortEdits_sorted rs).and hdisjoint).imp_of_mem ?_
  rintro a b - hb ⟨hle, hab⟩
  have hpos := h.pos b (hperm.mem_iff.mp hb)
  unfold MatchedEdit.stop at hab ⊢
  omega

/-- What is to come of an edit: the lines that no region touches are those of
the content, each run of the others is that of the base with its replacements. -/
def Overlaid (content base : Text) (rs : List MatchedEdit) (result : Except EditError Text) :
    Prop :=
  ∃ runs, IsRuns (fun k => ∃ r ∈ rs, Touches base r k) runs ∧
    result = .ok (TextBlocks.weave (splitLinesWithEndings content) 0
      (runs.map (runBlock base (sortEdits rs))))

theorem overlaid_of_sameCount {content : Text} (h : Regions base rs)
    (hlength : (splitLinesWithEndings content).length = (splitLinesWithEndings base).length) :
    Overlaid content base rs (applyReplacementsPreservingUnchangedLines content base rs) := by
  have hperm : (sortEdits rs).Perm rs := List.mergeSort_perm rs _
  have hpos : ∀ r ∈ sortEdits rs, 0 < r.matchLength := fun r hr => h.pos r (hperm.mem_iff.mp hr)
  have hapart := h.sorted
  have hempty : Covers base [] [] := ⟨rfl, fun _ hg => absurd hg List.not_mem_nil,
    fun _ hg => absurd hg List.not_mem_nil, fun _ hg => absurd hg List.not_mem_nil⟩
  obtain ⟨groups, hgroups, hcovers⟩ := covers_foldlM (sortEdits rs) hempty (sortEdits_sorted rs)
    fun r hr => by
      have hstop := h.within r (hperm.mem_iff.mp hr)
      have hr' := hpos r hr
      exact ⟨by unfold MatchedEdit.stop at hstop; omega, hstop⟩
  rw [List.nil_append] at hcovers
  have hgroupsApart : GroupsApart groups := groupsApart_groupReplacements hgroups
  have htouched := allTouched_foldlM (sortEdits rs)
    (fun _ hg => absurd hg List.not_mem_nil) hpos hgroups
  obtain ⟨runs, hruns, -, hweave⟩ := exists_runs base hapart groups hgroupsApart (by
    intro g hg r hr hstart hlt
    have hmem : r ∈ g.replacements := by
      rw [← hcovers.replacements_eq hgroupsApart hpos hg]
      exact List.mem_filter.mpr ⟨hr, decide_eq_true ⟨hstart, hlt⟩⟩
    exact (hcovers.within g hg r hmem).2)
  refine ⟨runs, ⟨hruns.some, hruns.apart, fun k => ?_⟩, ?_⟩
  · refine Iff.trans ?_ (hruns.all k)
    constructor
    · rintro ⟨r, hr, htouches⟩
      have hr' := hperm.mem_iff.mpr hr
      rw [← hcovers.all] at hr'
      obtain ⟨g, hg, hmem⟩ := List.mem_flatMap.mp hr'
      obtain ⟨hstart, hstop⟩ := hcovers.within g hg r hmem
      exact ⟨g, hg, between_of_touches htouches hstart hstop⟩
    · rintro ⟨g, hg, hstart, hstop⟩
      obtain ⟨r, hr, htouches⟩ := htouched g hg k hstart hstop
      refine ⟨r, hperm.mem_iff.mp ?_, htouches⟩
      rw [← hcovers.all]
      exact List.mem_flatMap.mpr ⟨g, hg, hr⟩
  · have hblocks : groups.map (groupBlock base (getLineSpans base)) =
        groups.map fun g => runBlock base (sortEdits rs) (g.startLine, g.endLine) := by
      refine List.map_congr_left fun g hg => ?_
      have hlt := hgroupsApart.1 g hg
      have hlines := hcovers.lines g hg
      have htext := groupBlock_text hlt hlines
      rw [applyReplacements_eq] at htext
      · rw [← hcovers.replacements_eq hgroupsApart hpos hg] at htext
        exact congrArg (TextBlocks.Block.mk g.startLine g.endLine) htext
      · refine ⟨fun r hr => (hcovers.within g hg r hr).1, ?_⟩
        rw [← hcovers.replacements_eq hgroupsApart hpos hg]
        exact hapart.filter _
      · intro r hr
        rw [lineStart_add _ (Nat.le_of_lt hlt)]
        exact (hcovers.within g hg r hr).2
    rw [applyReplacementsPreservingUnchangedLines]
    dsimp only
    rw [length_getLineSpans, if_neg (not_not_intro hlength), groupReplacements]
    simp only [hgroups, bind, Except.bind, pure, Except.pure]
    rw [hblocks, hweave]

/-- The overlay does not fail and keeps the lines that are not touched,
exactly when the last line is empty before and after, or at neither point. -/
theorem overlay_iff {nfkc : Text → Text} {content : Text} {rs : List MatchedEdit}
    (hnfkc : ∀ text, (nfkc text).count lf = text.count lf)
    (h : Regions (normalizeForFuzzyMatch nfkc content) rs) :
    Overlaid content (normalizeForFuzzyMatch nfkc content) rs
        (applyReplacementsPreservingUnchangedLines content
          (normalizeForFuzzyMatch nfkc content) rs) ↔
      (lastLine content = [] ↔ ∀ u ∈ lastLine (nfkc content), isWhitespace u = true) := by
  rw [← sameCount_iff nfkc content (hnfkc content)]
  refine ⟨fun hoverlaid => ?_, overlaid_of_sameCount h⟩
  obtain ⟨runs, -, hresult⟩ := hoverlaid
  rw [applyReplacementsPreservingUnchangedLines] at hresult
  dsimp only at hresult
  rw [length_getLineSpans] at hresult
  by_contra hlength
  rw [if_pos hlength] at hresult
  cases hresult

/-- `’` and a second line, with the quote of the first replaced. -/
theorem overlay_quote :
    Overlaid [0x2019, lf, 98] (normalizeForFuzzyMatch id [0x2019, lf, 98]) [⟨0, 0, 1, [97]⟩]
        (applyReplacementsPreservingUnchangedLines [0x2019, lf, 98]
          (normalizeForFuzzyMatch id [0x2019, lf, 98]) [⟨0, 0, 1, [97]⟩]) ↔
      (lastLine [0x2019, lf, 98] = [] ↔
        ∀ u ∈ lastLine (id [0x2019, lf, 98]), isWhitespace u = true) :=
  overlay_iff (fun _ => rfl)
    ⟨by decide +kernel, by decide +kernel, List.pairwise_singleton _ _⟩

/-- The same quote over a last line of one space: the edit matches and fails. -/
theorem overlay_fails :
    Regions (normalizeForFuzzyMatch id [0x2019, lf, 32]) [⟨0, 0, 1, [97]⟩] ∧
      ¬ Overlaid [0x2019, lf, 32] (normalizeForFuzzyMatch id [0x2019, lf, 32]) [⟨0, 0, 1, [97]⟩]
        (applyReplacementsPreservingUnchangedLines [0x2019, lf, 32]
          (normalizeForFuzzyMatch id [0x2019, lf, 32]) [⟨0, 0, 1, [97]⟩]) ∧
      editContent id [0x2019, lf, 32] [⟨[39], [97]⟩] = .error .lineCount := by
  refine ⟨⟨by decide +kernel, by decide +kernel, List.pairwise_singleton _ _⟩, ?_,
    by decide +kernel⟩
  rintro ⟨runs, -, hresult⟩
  have herror : applyReplacementsPreservingUnchangedLines [0x2019, lf, 32]
      (normalizeForFuzzyMatch id [0x2019, lf, 32]) [⟨0, 0, 1, [97]⟩] = .error .lineCount := by
    decide +kernel
  rw [herror] at hresult
  cases hresult

end EditTool

end Eagent
