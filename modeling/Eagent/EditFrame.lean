import Eagent.EditDiff

/-!
# What an edit leaves

The lines that a matched region touches are rewritten in groups; all others
are taken from the text, without their own line ends, and all get the line
end of the file. So a file keeps its other lines exactly when these end the
way its first line end does.
-/

namespace Eagent

namespace EditTool

/-! ## Lines -/

theorem flatten_splitLines (text : Text) : (splitLinesWithEndings text).flatten = text := by
  induction text with
  | nil => rfl
  | cons u rest ih =>
    rw [splitLinesWithEndings]
    split
    · rename_i hu
      rw [List.flatten_cons, ih, hu]
      rfl
    · split
      · rename_i hlines
        rw [hlines] at ih
        rw [← ih]
        rfl
      · rename_i line lines hlines
        rw [hlines] at ih
        rw [← ih]
        rfl

def lineStart (lines : List Text) (k : Nat) : Nat := ((lines.take k).flatten).length

theorem lineStart_mono (lines : List Text) {j k : Nat} (h : j ≤ k) :
    lineStart lines j ≤ lineStart lines k := by
  unfold lineStart
  rw [← Nat.add_sub_cancel' h, List.take_add, List.flatten_append, List.length_append]
  exact Nat.le_add_right _ _

theorem lineStart_cons (line : Text) (lines : List Text) (k : Nat) :
    lineStart (line :: lines) (k + 1) = line.length + lineStart lines k := by
  rw [lineStart, List.take_succ_cons, List.flatten_cons, List.length_append, lineStart]

theorem getElem?_lineSpansFrom (lines : List Text) (offset k : Nat) :
    (lineSpansFrom offset lines)[k]? =
      if k < lines.length then
        some ⟨offset + lineStart lines k, offset + lineStart lines (k + 1)⟩
      else none := by
  induction lines generalizing offset k with
  | nil => rfl
  | cons line lines ih =>
    rw [lineSpansFrom]
    cases k with
    | zero =>
      rw [List.getElem?_cons_zero, List.length_cons, if_pos (Nat.succ_pos _), lineStart_cons]
      rfl
    | succ k =>
      rw [List.getElem?_cons_succ, ih, lineStart_cons, lineStart_cons, List.length_cons]
      simp only [Nat.add_lt_add_iff_right, Nat.add_assoc]

theorem getElem?_lineSpans (text : Text) (k : Nat) :
    (getLineSpans text)[k]? =
      if k < (splitLinesWithEndings text).length then
        some ⟨lineStart (splitLinesWithEndings text) k,
          lineStart (splitLinesWithEndings text) (k + 1)⟩
      else none := by
  rw [getLineSpans, getElem?_lineSpansFrom, Nat.zero_add, Nat.zero_add]

theorem lineStart_length (text : Text) :
    lineStart (splitLinesWithEndings text) (splitLinesWithEndings text).length = text.length := by
  rw [lineStart, List.take_length, flatten_splitLines]

theorem flatten_split (lines : List Text) (k : Nat) :
    lines.flatten = (lines.take k).flatten ++ (lines.drop k).flatten := by
  rw [← List.flatten_append, List.take_append_drop]

theorem take_lineStart (lines : List Text) (k : Nat) :
    lines.flatten.take (lineStart lines k) = (lines.take k).flatten := by
  rw [flatten_split lines k, lineStart, List.take_left]

theorem drop_lineStart (lines : List Text) (k : Nat) :
    lines.flatten.drop (lineStart lines k) = (lines.drop k).flatten := by
  rw [flatten_split lines k, lineStart, List.drop_left]

theorem slice_lines (lines : List Text) {j k : Nat} (h : j ≤ k) :
    (lines.flatten.take (lineStart lines k)).drop (lineStart lines j) =
      ((lines.take k).drop j).flatten := by
  have hstart : lineStart lines j = lineStart (lines.take k) j := by
    rw [lineStart, lineStart, List.take_take, Nat.min_eq_left h]
  rw [take_lineStart, hstart, drop_lineStart]

/-! ## Replacements -/

def MatchedEdit.stop (r : MatchedEdit) : Nat := r.matchIndex + r.matchLength

def Apart (offset : Nat) (rs : List MatchedEdit) : Prop :=
  (∀ r ∈ rs, offset ≤ r.matchIndex) ∧ rs.Pairwise fun a b => a.stop ≤ b.matchIndex

/-- The replacements from the first on. -/
def spliceFrom : Nat → Text → List MatchedEdit → Text
  | _, text, [] => text
  | offset, text, r :: rs =>
      text.take (r.matchIndex - offset) ++
        (r.newText ++ spliceFrom r.stop (text.drop (r.stop - offset)) rs)

theorem applyReplacements_cons (text : Text) (r : MatchedEdit) (rs : List MatchedEdit)
    (offset : Nat) :
    applyReplacements text (r :: rs) offset =
      (applyReplacements text rs offset).take (r.matchIndex - offset) ++
        (r.newText ++ (applyReplacements text rs offset).drop
          (r.matchIndex - offset + r.matchLength)) :=
  List.append_assoc _ _ _

variable {rs : List MatchedEdit}

theorem applyReplacements_append (a b : Text) {offset : Nat}
    (h : ∀ r ∈ rs, offset + a.length ≤ r.matchIndex) :
    applyReplacements (a ++ b) rs offset = a ++ applyReplacements b rs (offset + a.length) := by
  induction rs with
  | nil => rfl
  | cons r rs ih =>
    have hr := h r List.mem_cons_self
    have hindex : r.matchIndex - offset =
        a.length + (r.matchIndex - (offset + a.length)) := by omega
    rw [applyReplacements_cons, applyReplacements_cons,
      ih fun r' hr' => h r' (List.mem_cons_of_mem r hr'), hindex, Nat.add_assoc,
      List.take_length_add_append, List.drop_length_add_append, List.append_assoc]

theorem applyReplacements_eq (rs : List MatchedEdit) :
    ∀ (offset : Nat) (text : Text), Apart offset rs → (∀ r ∈ rs, r.stop ≤ offset + text.length) →
      applyReplacements text rs offset = spliceFrom offset text rs := by
  induction rs with
  | nil => exact fun _ _ _ _ => rfl
  | cons r rs ih =>
    intro offset text hapart hstop
    obtain ⟨hstart, hpairwise⟩ := hapart
    obtain ⟨hafter, hrest⟩ := List.pairwise_cons.mp hpairwise
    have hr := hstart r List.mem_cons_self
    have hend := hstop r List.mem_cons_self
    have hle : r.matchIndex ≤ r.stop := Nat.le_add_right _ _
    have hsum : r.matchIndex - offset + r.matchLength = r.stop - offset := by
      unfold MatchedEdit.stop at hle ⊢
      omega
    -- the text up to its end, and the rest
    obtain ⟨a, b, rfl, ha⟩ : ∃ a b, text = a ++ b ∧ a.length = r.stop - offset := by
      refine ⟨text.take (r.stop - offset), text.drop (r.stop - offset),
        (List.take_append_drop _ _).symm, ?_⟩
      rw [List.length_take]
      omega
    have hoffset : offset + a.length = r.stop := by omega
    have hlater : applyReplacements b rs r.stop = spliceFrom r.stop b rs := by
      refine ih r.stop b ⟨hafter, hrest⟩ fun r' hr' => ?_
      have hend' := hstop r' (List.mem_cons_of_mem r hr')
      rw [List.length_append] at hend'
      omega
    rw [applyReplacements_cons,
      applyReplacements_append a b fun r' hr' => hoffset ▸ hafter r' hr', hoffset, hlater, hsum,
      spliceFrom, ← ha, List.drop_left, List.drop_left, List.take_append_of_le_length (by omega),
      List.take_append_of_le_length (by omega)]

theorem spliceFrom_append (rs rs' : List MatchedEdit) :
    ∀ (offset : Nat) (a b : Text), Apart offset rs →
      (∀ r ∈ rs, r.stop ≤ offset + a.length) → (∀ r ∈ rs', offset + a.length ≤ r.matchIndex) →
      spliceFrom offset (a ++ b) (rs ++ rs') =
        spliceFrom offset a rs ++ spliceFrom (offset + a.length) b rs' := by
  induction rs with
  | nil =>
    intro offset a b _ _ hbehind
    cases rs' with
    | nil => rfl
    | cons r rs' =>
      have hr := hbehind r List.mem_cons_self
      have hle : r.matchIndex ≤ r.stop := Nat.le_add_right _ _
      have hindex : r.matchIndex - offset =
          a.length + (r.matchIndex - (offset + a.length)) := by omega
      have hstop : r.stop - offset = a.length + (r.stop - (offset + a.length)) := by omega
      rw [List.nil_append, spliceFrom, spliceFrom, spliceFrom, hindex, hstop,
        List.take_length_add_append, List.drop_length_add_append, List.append_assoc]
  | cons r rs ih =>
    intro offset a b hapart hstop hbehind
    obtain ⟨hstart, hpairwise⟩ := hapart
    obtain ⟨hafter, hrest⟩ := List.pairwise_cons.mp hpairwise
    have hr := hstart r List.mem_cons_self
    have hend := hstop r List.mem_cons_self
    have hle : r.matchIndex ≤ r.stop := Nat.le_add_right _ _
    have hlength : (a.drop (r.stop - offset)).length = a.length - (r.stop - offset) :=
      List.length_drop
    have hoffset : r.stop + (a.drop (r.stop - offset)).length = offset + a.length := by omega
    rw [List.cons_append, spliceFrom, spliceFrom, List.take_append_of_le_length (by omega),
      List.drop_append_of_le_length (by omega), ih r.stop _ b ⟨hafter, hrest⟩
        (fun r' hr' => hoffset ▸ hstop r' (List.mem_cons_of_mem r hr'))
        (fun r' hr' => hoffset ▸ hbehind r' hr'), hoffset]
    simp only [List.append_assoc]

/-! ## The lines of a replacement -/

variable {r : MatchedEdit} {spans : List LineSpan}

theorem range_lt {range : LineRange} (h : getReplacementLineRange spans r = .ok range) :
    range.startLine < range.endLine := by
  rw [getReplacementLineRange] at h
  split at h
  · cases h
  · split at h
    · cases h
    · cases h
      dsimp only
      omega

variable {text : Text}

theorem range_spec {range : LineRange}
    (h : getReplacementLineRange (getLineSpans text) r = .ok range) :
    lineStart (splitLinesWithEndings text) range.startLine ≤ r.matchIndex ∧
      r.stop ≤ lineStart (splitLinesWithEndings text) range.endLine ∧
      range.endLine ≤ (splitLinesWithEndings text).length := by
  rw [getReplacementLineRange] at h
  split at h
  · cases h
  · rename_i startLine hstart
    split at h
    · cases h
    · rename_i more hmore
      cases h
      obtain ⟨hlt, hfound, -⟩ := List.findIdx?_eq_some_iff_getElem.mp hstart
      obtain ⟨hlt', hfound', -⟩ := List.findIdx?_eq_some_iff_getElem.mp hmore
      have hspan := getElem?_lineSpans text startLine
      rw [List.getElem?_eq_getElem hlt] at hspan
      have hspan' := getElem?_lineSpans text (startLine + more)
      rw [List.getElem_drop] at hfound'
      rw [List.length_drop] at hlt'
      rw [List.getElem?_eq_getElem (by omega)] at hspan'
      split at hspan
      · split at hspan'
        · rename_i hlines
          rw [Option.some.inj hspan] at hfound
          rw [Option.some.inj hspan'] at hfound'
          exact ⟨(of_decide_eq_true hfound).1, of_decide_eq_true hfound', hlines⟩
        · cases hspan'
      · cases hspan

theorem exists_line (lines : List Text) {i : Nat} (h : i < lines.flatten.length) :
    ∃ k < lines.length, lineStart lines k ≤ i ∧ i < lineStart lines (k + 1) := by
  induction lines generalizing i with
  | nil => exact absurd h (Nat.not_lt_zero _)
  | cons line lines ih =>
    rw [List.flatten_cons, List.length_append] at h
    by_cases hi : i < line.length
    · refine ⟨0, Nat.succ_pos _, Nat.zero_le _, ?_⟩
      rw [lineStart_cons]
      omega
    · obtain ⟨k, hk, hstart, hstop⟩ := ih (i := i - line.length) (by omega)
      refine ⟨k + 1, Nat.succ_lt_succ hk, ?_, ?_⟩
      · rw [lineStart_cons]
        omega
      · rw [lineStart_cons]
        omega

theorem length_lineSpansFrom (lines : List Text) (offset : Nat) :
    (lineSpansFrom offset lines).length = lines.length := by
  induction lines generalizing offset with
  | nil => rfl
  | cons line lines ih => exact congrArg (· + 1) (ih _)

theorem length_getLineSpans (text : Text) :
    (getLineSpans text).length = (splitLinesWithEndings text).length :=
  length_lineSpansFrom _ 0

theorem range_exists (hstart : r.matchIndex < text.length) (hstop : r.stop ≤ text.length) :
    ∃ range, getReplacementLineRange (getLineSpans text) r = .ok range := by
  have hlength := length_getLineSpans text
  rw [getReplacementLineRange]
  split
  · rename_i hnone
    rw [List.findIdx?_eq_none_iff] at hnone
    obtain ⟨k, hk, hle, hlt⟩ := exists_line (splitLinesWithEndings text) (i := r.matchIndex)
      (by rwa [flatten_splitLines])
    have hspan := getElem?_lineSpans text k
    rw [if_pos hk] at hspan
    have hfalse := of_decide_eq_false (hnone _ (List.mem_of_getElem? hspan))
    exact absurd ⟨hle, hlt⟩ hfalse
  · rename_i startLine hfound
    obtain ⟨hlt, -, -⟩ := List.findIdx?_eq_some_iff_getElem.mp hfound
    split
    · rename_i hnone
      rw [List.findIdx?_eq_none_iff] at hnone
      -- the last line ends where the text does
      have hspan := getElem?_lineSpans text ((splitLinesWithEndings text).length - 1)
      rw [if_pos (by omega), Nat.sub_add_cancel (by omega), lineStart_length] at hspan
      have hdrop : ((getLineSpans text).drop startLine)[(splitLinesWithEndings text).length - 1 -
          startLine]? = (getLineSpans text)[(splitLinesWithEndings text).length - 1]? := by
        rw [List.getElem?_drop, Nat.add_sub_cancel' (by omega)]
      rw [hspan] at hdrop
      exact absurd hstop (of_decide_eq_false (hnone _ (List.mem_of_getElem? hdrop)))
    · exact ⟨_, rfl⟩

/-! ## Groups -/

def GroupsApart (groups : List LineGroup) : Prop :=
  (∀ g ∈ groups, g.startLine < g.endLine) ∧
    groups.Pairwise fun g g' => g.endLine ≤ g'.startLine

theorem bind_ok {ε α β : Type} {x : Except ε α} {f : α → Except ε β} {b : β}
    (h : (x >>= f) = .ok b) : ∃ a, x = .ok a ∧ f a = .ok b := by
  cases x with
  | error e => cases h
  | ok a => exact ⟨a, rfl, h⟩

theorem addToGroups_cases {groups groups' : List LineGroup}
    (h : addToGroups spans groups r = .ok groups') :
    ∃ range, getReplacementLineRange spans r = .ok range ∧
      ((groups = [] ∧ groups' = [⟨range.startLine, range.endLine, [r]⟩]) ∨
        ∃ init current, groups = init ++ [current] ∧
          ((range.startLine < current.endLine ∧
              groups' = init ++ [⟨current.startLine, max current.endLine range.endLine,
                current.replacements ++ [r]⟩]) ∨
            (current.endLine ≤ range.startLine ∧
              groups' = init ++ [current] ++ [⟨range.startLine, range.endLine, [r]⟩]))) := by
  obtain ⟨range, hrange, h⟩ := bind_ok h
  refine ⟨range, hrange, ?_⟩
  obtain rfl | ⟨init, current, rfl⟩ := List.eq_nil_or_concat' groups
  · cases h
    exact .inl ⟨rfl, rfl⟩
  · refine .inr ⟨init, current, rfl, ?_⟩
    rw [List.getLast?_concat] at h
    dsimp only at h
    split at h
    · rename_i hlt
      cases h
      rw [List.dropLast_concat]
      exact .inl ⟨hlt, rfl⟩
    · rename_i hle
      cases h
      exact .inr ⟨Nat.not_lt.mp hle, rfl⟩

theorem GroupsApart.add {groups groups' : List LineGroup} (h : GroupsApart groups)
    (hadd : addToGroups spans groups r = .ok groups') :
    GroupsApart groups' := by
  obtain ⟨range, hrange, hcases⟩ := addToGroups_cases hadd
  have hlt := range_lt hrange
  obtain ⟨rfl, rfl⟩ | ⟨init, current, rfl, hcases⟩ := hcases
  · exact ⟨by simpa using hlt, List.pairwise_singleton _ _⟩
  · obtain ⟨hstart, hpairwise⟩ := h
    obtain ⟨hinit, -, hbefore⟩ := List.pairwise_append.mp hpairwise
    have hcurrent := hstart current (by simp)
    obtain ⟨hjoin, rfl⟩ | ⟨hbehind, rfl⟩ := hcases
    · refine ⟨fun g hg => ?_, List.pairwise_append.mpr ⟨hinit, List.pairwise_singleton _ _, ?_⟩⟩
      · rw [List.mem_append, List.mem_singleton] at hg
        obtain hg | rfl := hg
        · exact hstart g (List.mem_append_left _ hg)
        · exact Nat.lt_of_lt_of_le hcurrent (Nat.le_max_left _ _)
      · intro g hg g' hg'
        obtain rfl := List.mem_singleton.mp hg'
        exact hbefore g hg current List.mem_cons_self
    · refine ⟨fun g hg => ?_, List.pairwise_append.mpr ⟨hpairwise, List.pairwise_singleton _ _, ?_⟩⟩
      · rw [List.mem_append, List.mem_singleton] at hg
        obtain hg | rfl := hg
        · exact hstart g hg
        · exact hlt
      · intro g hg g' hg'
        obtain rfl := List.mem_singleton.mp hg'
        rw [List.mem_append, List.mem_singleton] at hg
        obtain hg | rfl := hg
        · have hle := hbefore g hg current List.mem_cons_self
          dsimp only
          omega
        · exact hbehind

theorem groupsApart_foldlM (rs : List MatchedEdit) :
    ∀ {groups groups' : List LineGroup}, GroupsApart groups →
      rs.foldlM (addToGroups spans) groups = .ok groups' → GroupsApart groups' := by
  induction rs with
  | nil =>
    intro groups groups' h hfold
    cases hfold
    exact h
  | cons r rs ih =>
    intro groups groups' h hfold
    obtain ⟨mid, hadd, hrest⟩ := bind_ok hfold
    exact ih (h.add hadd) hrest

theorem groupsApart_groupReplacements {groups : List LineGroup}
    (h : groupReplacements spans rs = .ok groups) :
    GroupsApart groups :=
  groupsApart_foldlM _ ⟨fun _ hg => absurd hg List.not_mem_nil, List.Pairwise.nil⟩ h

/-- The groups have the replacements so far, each in its lines. -/
structure Covers (text : Text) (groups : List LineGroup) (rs : List MatchedEdit) : Prop where
  all : groups.flatMap (·.replacements) = rs
  some : ∀ g ∈ groups, g.replacements ≠ []
  within : ∀ g ∈ groups, ∀ r ∈ g.replacements,
    lineStart (splitLinesWithEndings text) g.startLine ≤ r.matchIndex ∧
      r.stop ≤ lineStart (splitLinesWithEndings text) g.endLine
  lines : ∀ g ∈ groups, g.endLine ≤ (splitLinesWithEndings text).length

theorem Covers.add {groups groups' : List LineGroup} (h : Covers text groups rs)
    (hafter : ∀ r' ∈ rs, r'.matchIndex ≤ r.matchIndex)
    (hadd : addToGroups (getLineSpans text) groups r = .ok groups') :
    Covers text groups' (rs ++ [r]) := by
  obtain ⟨range, hrange, hcases⟩ := addToGroups_cases hadd
  obtain ⟨hstart, hstop, hlines⟩ := range_spec hrange
  obtain ⟨rfl, rfl⟩ | ⟨init, current, rfl, ⟨-, rfl⟩ | ⟨-, rfl⟩⟩ := hcases
  · refine ⟨by rw [← h.all]; rfl, by simp, fun g hg r' hr' => ?_, by simpa using hlines⟩
    obtain rfl := List.mem_singleton.mp hg
    obtain rfl := List.mem_singleton.mp hr'
    exact ⟨hstart, hstop⟩
  · refine ⟨?_, fun g hg => ?_, fun g hg r' hr' => ?_, fun g hg => ?_⟩
    · rw [← h.all]
      simp
    · rw [List.mem_append, List.mem_singleton] at hg
      obtain hg | rfl := hg
      · exact h.some g (List.mem_append_left _ hg)
      · simp
    · rw [List.mem_append, List.mem_singleton] at hg
      obtain hg | rfl := hg
      · exact h.within g (List.mem_append_left _ hg) r' hr'
      · have hcurrent := h.within current (by simp)
        rw [List.mem_append, List.mem_singleton] at hr'
        obtain hr' | rfl := hr'
        · obtain ⟨hstart', hstop'⟩ := hcurrent r' hr'
          exact ⟨hstart', Nat.le_trans hstop' (lineStart_mono _ (Nat.le_max_left _ _))⟩
        · -- it starts behind those that are in the group
          obtain ⟨first, more, hfirst⟩ := List.exists_cons_of_ne_nil (h.some current (by simp))
          have hmem : first ∈ current.replacements := by rw [hfirst]; exact List.mem_cons_self
          have hrs : first ∈ rs := by
            rw [← h.all, List.flatMap_append, List.flatMap_singleton]
            exact List.mem_append_right _ hmem
          exact ⟨Nat.le_trans (hcurrent first hmem).1 (hafter first hrs),
            Nat.le_trans hstop (lineStart_mono _ (Nat.le_max_right _ _))⟩
    · rw [List.mem_append, List.mem_singleton] at hg
      obtain hg | rfl := hg
      · exact h.lines g (List.mem_append_left _ hg)
      · exact Nat.max_le.mpr ⟨h.lines current (by simp), hlines⟩
  · refine ⟨?_, fun g hg => ?_, fun g hg r' hr' => ?_, fun g hg => ?_⟩
    · rw [List.flatMap_append, h.all]
      rfl
    · rw [List.mem_append, List.mem_singleton] at hg
      obtain hg | rfl := hg
      · exact h.some g hg
      · simp
    · rw [List.mem_append, List.mem_singleton] at hg
      obtain hg | rfl := hg
      · exact h.within g hg r' hr'
      · obtain rfl := List.mem_singleton.mp hr'
        exact ⟨hstart, hstop⟩
    · rw [List.mem_append, List.mem_singleton] at hg
      obtain hg | rfl := hg
      · exact h.lines g hg
      · exact hlines

theorem addToGroups_exists (hstart : r.matchIndex < text.length) (hstop : r.stop ≤ text.length)
    (groups : List LineGroup) :
    ∃ groups', addToGroups (getLineSpans text) groups r = .ok groups' := by
  obtain ⟨range, hrange⟩ := range_exists hstart hstop
  rw [addToGroups, hrange]
  cases groups.getLast? with
  | none => exact ⟨_, rfl⟩
  | some current =>
    by_cases hlt : range.startLine < current.endLine
    · exact ⟨_, if_pos hlt⟩
    · exact ⟨_, if_neg hlt⟩

theorem covers_foldlM (rs : List MatchedEdit) :
    ∀ {groups : List LineGroup} {before : List MatchedEdit}, Covers text groups before →
      (before ++ rs).Pairwise (fun a b => a.matchIndex ≤ b.matchIndex) →
      (∀ r ∈ rs, r.matchIndex < text.length ∧ r.stop ≤ text.length) →
      ∃ groups', rs.foldlM (addToGroups (getLineSpans text)) groups = .ok groups' ∧
        Covers text groups' (before ++ rs) := by
  induction rs with
  | nil => exact fun h _ _ => ⟨_, rfl, by rwa [List.append_nil]⟩
  | cons r rs ih =>
    intro groups before h hsorted hwithin
    obtain ⟨hstart, hstop⟩ := hwithin r List.mem_cons_self
    obtain ⟨mid, hadd⟩ := addToGroups_exists hstart hstop groups
    have hafter : ∀ r' ∈ before, r'.matchIndex ≤ r.matchIndex := fun r' hr' =>
      (List.pairwise_append.mp hsorted).2.2 r' hr' r List.mem_cons_self
    obtain ⟨groups', hfold, hcovers⟩ := ih (h.add hafter hadd)
      (by rwa [List.append_assoc, List.singleton_append])
      fun r' hr' => hwithin r' (List.mem_cons_of_mem r hr')
    refine ⟨groups', ?_, ?_⟩
    · rw [List.foldlM_cons, hadd]
      exact hfold
    · rwa [List.append_assoc, List.singleton_append] at hcovers

/-! ## Both modes -/

theorem groupBlock_text {g : LineGroup} (hlt : g.startLine < g.endLine)
    (hlines : g.endLine ≤ (splitLinesWithEndings text).length) :
    (groupBlock text (getLineSpans text) g).text =
      applyReplacements
        ((((splitLinesWithEndings text).take g.endLine).drop g.startLine).flatten)
        g.replacements (lineStart (splitLinesWithEndings text) g.startLine) := by
  have hslice := slice_lines (splitLinesWithEndings text) (Nat.le_of_lt hlt)
  rw [flatten_splitLines] at hslice
  rw [groupBlock]
  dsimp only
  rw [getElem?_lineSpans, getElem?_lineSpans, if_pos (by omega), if_pos (by omega),
    Nat.sub_add_cancel (by omega)]
  exact congrArg (applyReplacements · g.replacements _) hslice

theorem lineStart_add (lines : List Text) {j k : Nat} (h : j ≤ k) :
    lineStart lines j + (((lines.take k).drop j).flatten).length = lineStart lines k := by
  have hsplit := flatten_split (lines.take k) j
  rw [List.take_take, Nat.min_eq_left h] at hsplit
  rw [lineStart, lineStart, hsplit, List.length_append]

theorem drop_split (lines : List Text) {j k : Nat} (h : j ≤ k) :
    (lines.drop j).flatten = ((lines.take k).drop j).flatten ++ (lines.drop k).flatten := by
  rw [← List.flatten_append, List.drop_take]
  have hdrop : lines.drop k = (lines.drop j).drop (k - j) := by
    rw [List.drop_drop, Nat.add_sub_cancel' h]
  rw [hdrop, List.take_append_drop]

theorem spliceFrom_groups (lines : List Text) (block : LineGroup → TextBlocks.Block UInt16)
    (hfirst : ∀ g, (block g).first = g.startLine) (hlast : ∀ g, (block g).last = g.endLine)
    (groups : List LineGroup) :
    ∀ {i : Nat}, GroupsApart groups → (∀ g ∈ groups, i ≤ g.startLine) →
      (∀ g ∈ groups, (block g).text =
        applyReplacements (((lines.take g.endLine).drop g.startLine).flatten) g.replacements
          (lineStart lines g.startLine)) →
      (∀ g ∈ groups, ∀ r ∈ g.replacements,
        lineStart lines g.startLine ≤ r.matchIndex ∧ r.stop ≤ lineStart lines g.endLine) →
      (groups.flatMap (·.replacements)).Pairwise (fun a b => a.stop ≤ b.matchIndex) →
      spliceFrom (lineStart lines i) (lines.drop i).flatten (groups.flatMap (·.replacements)) =
        TextBlocks.weave lines i (groups.map block) := by
  induction groups with
  | nil => exact fun _ _ _ _ _ => rfl
  | cons g groups ih =>
    intro i hapart hfrom htext hwithin hpairwise
    obtain ⟨hlt, hordered⟩ := hapart
    obtain ⟨hnext, hrest⟩ := List.pairwise_cons.mp hordered
    have hi := hfrom g List.mem_cons_self
    have hg := Nat.le_of_lt (hlt g List.mem_cons_self)
    rw [List.flatMap_cons] at hpairwise
    obtain ⟨hown, hothers, -⟩ := List.pairwise_append.mp hpairwise
    have hgroup := hwithin g List.mem_cons_self
    have hlater : ∀ r ∈ groups.flatMap (·.replacements),
        lineStart lines g.endLine ≤ r.matchIndex := by
      intro r hr
      obtain ⟨g', hg', hr'⟩ := List.mem_flatMap.mp hr
      exact Nat.le_trans (lineStart_mono lines (hnext g' hg'))
        (hwithin g' (List.mem_cons_of_mem g hg') r hr').1
    have hall : ∀ r ∈ g.replacements ++ groups.flatMap (·.replacements),
        lineStart lines g.startLine ≤ r.matchIndex := by
      intro r hr
      obtain hr | hr := List.mem_append.mp hr
      · exact (hgroup r hr).1
      · exact Nat.le_trans (lineStart_mono lines hg) (hlater r hr)
    have hafter := ih (i := g.endLine) ⟨fun g' hg' => hlt g' (List.mem_cons_of_mem g hg'), hrest⟩
      hnext (fun g' hg' => htext g' (List.mem_cons_of_mem g hg'))
      (fun g' hg' => hwithin g' (List.mem_cons_of_mem g hg')) hothers
    -- the lines before the group, its own, and the rest
    have hbefore := spliceFrom_append [] (g.replacements ++ groups.flatMap (·.replacements))
      (lineStart lines i) ((lines.take g.startLine).drop i).flatten
      (lines.drop g.startLine).flatten
      ⟨fun _ hr => absurd hr List.not_mem_nil, List.Pairwise.nil⟩
      (fun _ hr => absurd hr List.not_mem_nil) (by rwa [lineStart_add lines hi])
    rw [List.nil_append, lineStart_add lines hi] at hbefore
    have hlines := spliceFrom_append g.replacements (groups.flatMap (·.replacements))
      (lineStart lines g.startLine) ((lines.take g.endLine).drop g.startLine).flatten
      (lines.drop g.endLine).flatten
      ⟨fun r hr => (hgroup r hr).1, hown⟩
      (by rw [lineStart_add lines hg]; exact fun r hr => (hgroup r hr).2)
      (by rwa [lineStart_add lines hg])
    rw [lineStart_add lines hg] at hlines
    have hblock := applyReplacements_eq g.replacements (lineStart lines g.startLine)
      ((lines.take g.endLine).drop g.startLine).flatten
      ⟨fun r hr => (hgroup r hr).1, hown⟩
      (by rw [lineStart_add lines hg]; exact fun r hr => (hgroup r hr).2)
    rw [List.flatMap_cons, drop_split lines hi, hbefore, drop_split lines hg, hlines, hafter,
      ← hblock, ← htext g List.mem_cons_self, List.map_cons, TextBlocks.weave, hfirst, hlast]
    rfl

/-! ## Plans -/

theorem sortEdits_sorted (edits : List MatchedEdit) :
    (sortEdits edits).Pairwise fun a b => a.matchIndex ≤ b.matchIndex := by
  have hsorted : (sortEdits edits).Pairwise
      fun a b => decide (a.matchIndex ≤ b.matchIndex) = true := List.pairwise_mergeSort
    (fun (a b c : MatchedEdit) (hab : decide (a.matchIndex ≤ b.matchIndex) = true)
      (hbc : decide (b.matchIndex ≤ c.matchIndex) = true) => decide_eq_true
        (Nat.le_trans (of_decide_eq_true hab) (of_decide_eq_true hbc)))
    (fun a b => by simpa using Nat.le_total a.matchIndex b.matchIndex) edits
  exact hsorted.imp fun h => of_decide_eq_true h

theorem sortEdits_of_sorted {edits : List MatchedEdit}
    (h : edits.Pairwise fun a b => a.matchIndex ≤ b.matchIndex) : sortEdits edits = edits :=
  List.mergeSort_of_pairwise (h.imp fun hle => decide_eq_true hle)

theorem checkOverlaps_ok {edits : List MatchedEdit} (h : checkOverlaps edits = .ok ()) :
    edits.Pairwise fun a b => a.stop ≤ b.matchIndex := by
  induction edits with
  | nil => exact List.Pairwise.nil
  | cons a rest ih =>
    cases rest with
    | nil => exact List.pairwise_singleton _ _
    | cons b rest =>
      rw [checkOverlaps] at h
      split at h
      · cases h
      · rename_i hle
        have hrest := ih h
        refine List.pairwise_cons.mpr ⟨?_, hrest⟩
        have hab : a.stop ≤ b.matchIndex := Nat.not_lt.mp hle
        have hb : b.matchIndex ≤ b.stop := Nat.le_add_right _ _
        rintro c (_ | ⟨_, hc⟩)
        · exact hab
        · have hbc := (List.pairwise_cons.mp hrest).1 c hc
          omega

theorem indexOf_le {pattern : Text} :
    ∀ {text : Text} {i : Nat}, indexOf pattern text = some i → i + pattern.length ≤ text.length
  | [], i, h => by
    rw [indexOf] at h
    split at h
    · rename_i hnil
      rw [hnil, ← Option.some.inj h]
      exact Nat.le_refl _
    · cases h
  | u :: rest, i, h => by
    rw [indexOf] at h
    split at h
    · rename_i hprefix
      rw [← Option.some.inj h, Nat.zero_add]
      exact (List.isPrefixOf_iff_prefix.mp hprefix).length_le
    · obtain ⟨j, hj, rfl⟩ := Option.map_eq_some_iff.mp h
      have hle := indexOf_le hj
      rw [List.length_cons]
      omega

/-- What a plan says of its edits. -/
structure Planned (content : Text) (plan : EditPlan) : Prop where
  sorted : plan.matchedEdits.Pairwise fun a b => a.matchIndex ≤ b.matchIndex
  apart : plan.matchedEdits.Pairwise fun a b => a.stop ≤ b.matchIndex
  exact_base : plan.usedFuzzyMatch = false → plan.replacementBaseContent = content
  exact_within : plan.usedFuzzyMatch = false →
    ∀ r ∈ plan.matchedEdits, r.matchIndex < content.length ∧ r.stop ≤ content.length

variable {nfkc : Text → Text}

theorem matchEdit_ok {base : Text} {total i : Nat} {edit : Edit}
    (h : matchEdit nfkc base total edit i = .ok r) :
    (fuzzyFindText nfkc base edit.oldText).found = true ∧
      r.matchIndex = (fuzzyFindText nfkc base edit.oldText).index ∧
      r.matchLength = (fuzzyFindText nfkc base edit.oldText).matchLength := by
  rw [matchEdit] at h
  dsimp only at h
  by_cases hfound : (fuzzyFindText nfkc base edit.oldText).found = true
  · rw [hfound] at h
    by_cases hcount : countOccurrences nfkc base edit.oldText > 1
    · rw [if_pos hcount] at h
      cases h
    · rw [if_neg hcount] at h
      cases h
      exact ⟨hfound, rfl, rfl⟩
  · rw [Bool.not_eq_true] at hfound
    rw [hfound] at h
    cases h

theorem fuzzyFindText_exact {content oldText : Text}
    (hfound : (fuzzyFindText nfkc content oldText).found = true)
    (hexact : (fuzzyFindText nfkc content oldText).usedFuzzyMatch = false) :
    (fuzzyFindText nfkc content oldText).matchLength = oldText.length ∧
      (fuzzyFindText nfkc content oldText).index + oldText.length ≤ content.length := by
  cases hindex : indexOf oldText content with
  | some index =>
    rw [fuzzyFindText, hindex]
    exact ⟨rfl, indexOf_le hindex⟩
  | none =>
    rw [fuzzyFindText, hindex] at hfound hexact
    dsimp only at hfound hexact
    cases hfuzzy : indexOf (normalizeForFuzzyMatch nfkc oldText)
        (normalizeForFuzzyMatch nfkc content) with
    | some index =>
      rw [hfuzzy] at hexact
      cases hexact
    | none =>
      rw [hfuzzy] at hfound
      cases hfound

variable {edits : List Edit} {content : Text}

theorem planEdits_cases {plan : EditPlan} (h : planEdits nfkc content edits = .ok plan) :
    ∃ normalizedEdits : List Edit, ∃ found : List MatchedEdit,
      (∀ edit ∈ normalizedEdits, edit.oldText ≠ []) ∧
      plan.usedFuzzyMatch = (normalizedEdits.map fun edit =>
        fuzzyFindText nfkc content edit.oldText).any (·.usedFuzzyMatch) ∧
      plan.replacementBaseContent =
        (if plan.usedFuzzyMatch then normalizeForFuzzyMatch nfkc content else content) ∧
      (normalizedEdits.zipIdx.mapM fun edit =>
        matchEdit nfkc plan.replacementBaseContent normalizedEdits.length edit.1 edit.2) =
          .ok found ∧
      plan.matchedEdits = sortEdits found ∧ checkOverlaps plan.matchedEdits = .ok () := by
  unfold planEdits at h
  extract_lets normalizedEdits initialMatches usedFuzzyMatch replacementBaseContent at h
  refine ⟨normalizedEdits, ?_⟩
  cases hempty : normalizedEdits.findIdx? (·.oldText.length = 0) with
  | some i =>
    rw [hempty] at h
    cases h
  | none =>
    rw [hempty] at h
    obtain ⟨-, -, h⟩ := bind_ok h
    obtain ⟨found, hfound, h⟩ := bind_ok h
    obtain ⟨_, hoverlaps, h⟩ := bind_ok h
    cases h
    refine ⟨found, fun edit hedit hnil => ?_, rfl, rfl, hfound, rfl, hoverlaps⟩
    have hfalse := List.findIdx?_eq_none_iff.mp hempty edit hedit
    simp [hnil] at hfalse

theorem mapM_mem {α β ε : Type} {f : α → Except ε β} :
    ∀ {as : List α} {bs : List β}, as.mapM f = .ok bs → ∀ b ∈ bs, ∃ a ∈ as, f a = .ok b
  | [], bs, h, b, hb => by
    rw [List.mapM_nil] at h
    cases h
    cases hb
  | a :: as, bs, h, b, hb => by
    rw [List.mapM_cons] at h
    obtain ⟨c, hc, h⟩ := bind_ok h
    obtain ⟨cs, hcs, h⟩ := bind_ok h
    cases h
    obtain _ | ⟨_, hb⟩ := hb
    · exact ⟨a, List.mem_cons_self, hc⟩
    · obtain ⟨a', ha', hfa⟩ := mapM_mem hcs b hb
      exact ⟨a', List.mem_cons_of_mem a ha', hfa⟩

theorem planned {plan : EditPlan} (h : planEdits nfkc content edits = .ok plan) :
    Planned content plan := by
  obtain ⟨normalizedEdits, found, hsome, hfuzzy, hbase, hfound, hmatched, hoverlaps⟩ :=
    planEdits_cases h
  have hexact : plan.usedFuzzyMatch = false → plan.replacementBaseContent = content := by
    intro hfalse
    rw [hbase, hfalse]
    rfl
  refine ⟨hmatched ▸ sortEdits_sorted found, checkOverlaps_ok hoverlaps, hexact, ?_⟩
  intro hfalse r hr
  rw [hmatched] at hr
  obtain ⟨edit, hedit, hmatch⟩ := mapM_mem hfound r (List.mem_mergeSort.mp hr)
  obtain ⟨hr', hindex, hlength⟩ := matchEdit_ok hmatch
  have hmem : edit.1 ∈ normalizedEdits := (List.mem_zipIdx' hedit).2 ▸ List.getElem_mem _
  rw [hexact hfalse] at hr' hindex hlength
  have hused : (fuzzyFindText nfkc content edit.1.oldText).usedFuzzyMatch = false := by
    rw [hfuzzy, List.any_eq_false] at hfalse
    simpa using hfalse _ (List.mem_map_of_mem hmem)
  obtain ⟨hlength', hle⟩ := fuzzyFindText_exact hr' hused
  have hpos := List.length_pos_iff.mpr (hsome edit.1 hmem)
  unfold MatchedEdit.stop
  omega

theorem applyReplacements_groups (hsorted : rs.Pairwise fun a b => a.matchIndex ≤ b.matchIndex)
    (hapart : rs.Pairwise fun a b => a.stop ≤ b.matchIndex)
    (hwithin : ∀ r ∈ rs, r.matchIndex < content.length ∧ r.stop ≤ content.length) :
    ∃ groups, groupReplacements (getLineSpans content) rs = .ok groups ∧
      applyReplacements content rs 0 =
        TextBlocks.weave (splitLinesWithEndings content) 0
          (groups.map (groupBlock content (getLineSpans content))) := by
  have hnone : Covers content [] [] := ⟨rfl, by simp, by simp, by simp⟩
  obtain ⟨groups, hfold, hcovers⟩ := covers_foldlM rs hnone hsorted hwithin
  rw [List.nil_append] at hcovers
  have hgroups : groupReplacements (getLineSpans content) rs = .ok groups := by
    rw [groupReplacements, sortEdits_of_sorted hsorted]
    exact hfold
  have hgroupsApart := groupsApart_groupReplacements hgroups
  refine ⟨groups, hgroups, ?_⟩
  have hsplice := spliceFrom_groups (splitLinesWithEndings content)
    (groupBlock content (getLineSpans content)) (fun _ => rfl) (fun _ => rfl) groups (i := 0)
    hgroupsApart (fun _ _ => Nat.zero_le _)
    (fun g hg => groupBlock_text (hgroupsApart.1 g hg) (hcovers.lines g hg)) hcovers.within
    (by rwa [hcovers.all])
  rw [hcovers.all, List.drop_zero, flatten_splitLines] at hsplice
  rw [← hsplice]
  exact applyReplacements_eq rs 0 content ⟨fun _ _ => Nat.zero_le _, hapart⟩
    fun r hr => by rw [Nat.zero_add]; exact (hwithin r hr).2

def touchedGroups (nfkc : Text → Text) (content : Text) (edits : List Edit) :
    Except EditError (EditPlan × List LineGroup) := do
  let plan ← planEdits nfkc content edits
  let groups ← groupReplacements (getLineSpans plan.replacementBaseContent) plan.matchedEdits
  pure (plan, groups)

def EditPlan.block (plan : EditPlan) (group : LineGroup) : TextBlocks.Block UInt16 :=
  groupBlock plan.replacementBaseContent (getLineSpans plan.replacementBaseContent) group

theorem newContent_eq {result : AppliedEditsResult}
    (h : applyEditsToNormalizedContent nfkc content edits = .ok result) :
    ∃ plan groups, touchedGroups nfkc content edits = .ok (plan, groups) ∧ GroupsApart groups ∧
      result.newContent =
        TextBlocks.weave (splitLinesWithEndings content) 0 (groups.map plan.block) := by
  obtain ⟨plan, hplan, h⟩ := bind_ok h
  obtain ⟨newContent, hnew, h⟩ := bind_ok h
  have hresult : result.newContent = newContent := by
    by_cases hsame : content = newContent
    · rw [if_pos hsame] at h
      cases h
    · rw [if_neg hsame] at h
      cases h
      rfl
  rw [EditPlan.newContent] at hnew
  obtain ⟨hsorted, hapart, hbase, hwithin⟩ := planned hplan
  have htouched : ∀ groups, groupReplacements (getLineSpans plan.replacementBaseContent)
      plan.matchedEdits = .ok groups → touchedGroups nfkc content edits = .ok (plan, groups) := by
    intro groups hgroups
    rw [touchedGroups, hplan]
    simp only [bind, Except.bind, hgroups]
    rfl
  cases hfuzzy : plan.usedFuzzyMatch with
  | true =>
    rw [hfuzzy, if_pos rfl, applyReplacementsPreservingUnchangedLines] at hnew
    dsimp only at hnew
    split at hnew
    · cases hnew
    · obtain ⟨groups, hgroups, hnew⟩ := bind_ok hnew
      cases hnew
      exact ⟨plan, groups, htouched groups hgroups, groupsApart_groupReplacements hgroups,
        hresult⟩
  | false =>
    rw [hfuzzy, if_neg Bool.false_ne_true] at hnew
    cases hnew
    obtain ⟨groups, hgroups, happly⟩ :=
      applyReplacements_groups hsorted hapart (hwithin hfuzzy)
    refine ⟨plan, groups, htouched groups (by rw [hbase hfuzzy]; exact hgroups),
      groupsApart_groupReplacements hgroups, ?_⟩
    rw [hresult, hbase hfuzzy, happly]
    have hblock : plan.block = groupBlock content (getLineSpans content) := by
      funext g
      rw [EditPlan.block, hbase hfuzzy]
    rw [hblock]

/-! ## Lines with their own line ends -/

inductive Terminator where
  | none
  | lf
  | cr
  | crlf
deriving Repr, DecidableEq

def Terminator.units : Terminator → Text
  | none => []
  | lf => [EditTool.lf]
  | cr => [EditTool.cr]
  | crlf => [EditTool.cr, EditTool.lf]

def LineEnding.terminator : LineEnding → Terminator
  | crlf => .crlf
  | lf => .lf

structure RawLine where
  text : Text
  terminator : Terminator
deriving DecidableEq

def RawLine.units (line : RawLine) : Text := line.text ++ line.terminator.units

def consUnit (u : UInt16) : List RawLine → List RawLine
  | [] => [⟨[u], .none⟩]
  | line :: lines => ⟨u :: line.text, line.terminator⟩ :: lines

/-- The lines of a text, each with its own end: a line feed, a carriage
return, or both. -/
def rawLines : Text → List RawLine
  | [] => []
  | [u] => if u = lf then [⟨[], .lf⟩] else if u = cr then [⟨[], .cr⟩] else [⟨[u], .none⟩]
  | u :: v :: rest =>
      if u = cr ∧ v = lf then ⟨[], .crlf⟩ :: rawLines rest
      else if u = lf then ⟨[], .lf⟩ :: rawLines (v :: rest)
      else if u = cr then ⟨[], .cr⟩ :: rawLines (v :: rest)
      else consUnit u (rawLines (v :: rest))

def RawLine.normalized (line : RawLine) : Text :=
  line.text ++ if line.terminator = .none then [] else [lf]

theorem normalizeToLF_crlf (rest : Text) :
    normalizeToLF (cr :: lf :: rest) = lf :: normalizeToLF rest := by
  rw [normalizeToLF, replaceCrlf, if_pos ⟨rfl, rfl⟩]
  rfl

theorem normalizeToLF_cons {u v : UInt16} (h : ¬ (u = cr ∧ v = lf)) (rest : Text) :
    normalizeToLF (u :: v :: rest) =
      (if u = cr then lf else u) :: normalizeToLF (v :: rest) := by
  rw [normalizeToLF, replaceCrlf, if_neg h]
  rfl

theorem splitLines_normalizeToLF (text : Text) :
    splitLinesWithEndings (normalizeToLF text) = (rawLines text).map RawLine.normalized := by
  have hne : lf ≠ cr := by decide
  induction text using rawLines.induct with
  | case1 => rfl
  | case2 => rfl
  | case3 => rfl
  | case4 u hlf hcr =>
    simp [rawLines, normalizeToLF, replaceCrlf, splitLinesWithEndings, RawLine.normalized, hlf,
      hcr]
  | case5 u v rest h ih =>
    obtain ⟨rfl, rfl⟩ := h
    rw [rawLines, if_pos ⟨rfl, rfl⟩, normalizeToLF_crlf, splitLinesWithEndings, if_pos rfl, ih]
    rfl
  | case6 v rest h ih =>
    rw [rawLines, if_neg h, if_pos rfl, normalizeToLF_cons h, if_neg hne, splitLinesWithEndings,
      if_pos rfl, ih]
    rfl
  | case7 v rest h hlf ih =>
    rw [rawLines, if_neg h, if_neg hlf, if_pos rfl, normalizeToLF_cons h, if_pos rfl,
      splitLinesWithEndings, if_pos rfl, ih]
    rfl
  | case8 u v rest h hlf hcr ih =>
    rw [rawLines, if_neg h, if_neg hlf, if_neg hcr, normalizeToLF_cons h, if_neg hcr,
      splitLinesWithEndings, if_neg hlf, ih]
    cases rawLines (v :: rest) <;> rfl

theorem not_mem_rawLine : ∀ line ∈ rawLines text, lf ∉ line.text := by
  have hcons : ∀ {u : UInt16} {lines : List RawLine}, u ≠ lf → (∀ line ∈ lines, lf ∉ line.text) →
      ∀ line ∈ consUnit u lines, lf ∉ line.text := by
    intro u lines hu hlines line hline
    cases lines with
    | nil =>
      obtain rfl := List.mem_singleton.mp hline
      simpa using hu.symm
    | cons first lines =>
      obtain _ | ⟨_, hline⟩ := hline
      · rw [List.mem_cons, not_or]
        exact ⟨hu.symm, hlines first List.mem_cons_self⟩
      · exact hlines line (List.mem_cons_of_mem first hline)
  induction text using rawLines.induct with
  | case1 => exact fun _ hline => nomatch hline
  | case2 => simp [rawLines]
  | case3 h => simp [rawLines, h]
  | case4 u hlf hcr => simpa [rawLines, hlf, hcr] using Ne.symm hlf
  | case5 u v rest h ih =>
    rw [rawLines, if_pos h, List.forall_mem_cons]
    exact ⟨List.not_mem_nil, ih⟩
  | case6 v rest h ih =>
    rw [rawLines, if_neg h, if_pos rfl, List.forall_mem_cons]
    exact ⟨List.not_mem_nil, ih⟩
  | case7 v rest h hlf ih =>
    rw [rawLines, if_neg h, if_neg hlf, if_pos rfl, List.forall_mem_cons]
    exact ⟨List.not_mem_nil, ih⟩
  | case8 u v rest h hlf hcr ih =>
    rw [rawLines, if_neg h, if_neg hlf, if_neg hcr]
    exact hcons hlf ih

/-! ## What is written -/

def restoreUnit (ending : LineEnding) (u : UInt16) : Text :=
  if u = lf then ending.terminator.units else [u]

theorem restoreLineEndings_eq (text : Text) (ending : LineEnding) :
    restoreLineEndings text ending = text.flatMap (restoreUnit ending) := by
  cases ending with
  | crlf => rfl
  | lf =>
    have hunit : restoreUnit .lf = fun u => [u] := by
      funext u
      by_cases hu : u = lf
      · rw [hu]
        rfl
      · exact if_neg hu
    rw [hunit, List.flatMap_singleton']
    rfl

theorem restore_normalized {line : RawLine} (h : lf ∉ line.text) (ending : LineEnding) :
    line.normalized.flatMap (restoreUnit ending) =
      line.text ++ if line.terminator = .none then [] else ending.terminator.units := by
  have htext : line.text.flatMap (restoreUnit ending) = line.text := by
    have hall : ∀ u ∈ line.text, restoreUnit ending u = [u] :=
      fun u hu => if_neg fun heq : u = lf => h (heq ▸ hu)
    rw [List.flatMap_congr hall, List.flatMap_singleton']
  rw [RawLine.normalized, List.flatMap_append, htext]
  by_cases hnone : line.terminator = .none
  · rw [if_pos hnone, if_pos hnone]
    rfl
  · rw [if_neg hnone, if_neg hnone, List.flatMap_singleton]
    exact congrArg (line.text ++ ·) (if_pos rfl)

/-- The file with the touched lines rewritten and all others as they are. -/
def preservedContent (rawContent : Text) (plan : EditPlan) (groups : List LineGroup) : Text :=
  let stripped := stripBom rawContent
  stripped.bom ++ TextBlocks.weave ((rawLines stripped.text).map RawLine.units) 0
    (groups.map fun group =>
      ⟨group.startLine, group.endLine,
        restoreLineEndings (plan.block group).text (detectLineEnding stripped.text)⟩)

/-- No edit touches the line. -/
def Untouched (groups : List LineGroup) (k : Nat) : Prop :=
  ∀ group ∈ groups, ¬ (group.startLine ≤ k ∧ k < group.endLine)

theorem ordered_groups {f : LineGroup → Text} (groups : List LineGroup) :
    ∀ {i : Nat}, GroupsApart groups → (∀ g ∈ groups, i ≤ g.startLine) →
      TextBlocks.Ordered i (groups.map fun g => ⟨g.startLine, g.endLine, f g⟩) := by
  induction groups with
  | nil => exact fun _ _ => trivial
  | cons g groups ih =>
    intro i hapart hfrom
    obtain ⟨hnext, hrest⟩ := List.pairwise_cons.mp hapart.2
    exact ⟨hfrom g List.mem_cons_self, Nat.le_of_lt (hapart.1 g List.mem_cons_self),
      ih ⟨fun g' hg' => hapart.1 g' (List.mem_cons_of_mem g hg'), hrest⟩ hnext⟩

/-- The lines of the file as they are written, had no edit touched them. -/
def writtenLines (text : Text) : List Text :=
  (rawLines text).map fun line => line.normalized.flatMap (restoreUnit (detectLineEnding text))

theorem writtenLines_noLonger (text : Text) :
    TextBlocks.NoLonger (writtenLines text) ((rawLines text).map RawLine.units) ∨
      TextBlocks.NoLonger ((rawLines text).map RawLine.units) (writtenLines text) := by
  unfold TextBlocks.NoLonger writtenLines
  have hlength : ∀ line ∈ rawLines text,
      (line.normalized.flatMap (restoreUnit (detectLineEnding text))).length = line.text.length +
        if line.terminator = .none then 0 else (detectLineEnding text).terminator.units.length := by
    intro line hline
    rw [restore_normalized (not_mem_rawLine line hline), List.length_append]
    split <;> rfl
  cases hending : detectLineEnding text with
  | lf =>
    refine .inl ?_
    rw [List.forall₂_map_left_iff, List.forall₂_map_right_iff, List.forall₂_same]
    intro line hline
    have heq := hlength line hline
    rw [hending] at heq
    rw [heq, RawLine.units, List.length_append]
    cases line.terminator <;> simp [LineEnding.terminator, Terminator.units]
  | crlf =>
    refine .inr ?_
    rw [List.forall₂_map_left_iff, List.forall₂_map_right_iff, List.forall₂_same]
    intro line hline
    have heq := hlength line hline
    rw [hending] at heq
    rw [heq, RawLine.units, List.length_append]
    cases line.terminator <;> simp [LineEnding.terminator, Terminator.units]

theorem writtenLine_eq_iff {line : RawLine} (h : lf ∉ line.text) (ending : LineEnding) :
    line.normalized.flatMap (restoreUnit ending) = line.units ↔
      line.terminator = .none ∨ line.terminator = ending.terminator := by
  rw [restore_normalized h, RawLine.units, List.append_cancel_left_eq]
  cases line.terminator <;> cases ending <;> decide

end EditTool

end Eagent
