import Eagent.EditOccurrences

/-!
# Edits that succeed

A list of edits succeeds when each of them is found and counted at most once
and no two regions overlap; what is written then depends on the sorted
regions only (`applyEdits_iff`). The regions of edits that the count sees
are each the only place of their text, in any order of the edits
(`edit_unambiguous_iff`).
-/

namespace Eagent

namespace EditTool

/-! ## The plan without the indices of the edits -/

def MatchedEdit.unnumbered (r : MatchedEdit) : MatchedEdit := { r with editIndex := 0 }

def LineGroup.unnumbered (group : LineGroup) : LineGroup :=
  { group with replacements := group.replacements.map MatchedEdit.unnumbered }

theorem sortEdits_map (rs : List MatchedEdit) :
    (sortEdits rs).map MatchedEdit.unnumbered = sortEdits (rs.map MatchedEdit.unnumbered) :=
  List.map_mergeSort fun _ _ _ _ => rfl

theorem applyReplacements_map (text : Text) (rs : List MatchedEdit) (offset : Nat) :
    applyReplacements text (rs.map MatchedEdit.unnumbered) offset =
      applyReplacements text rs offset := by
  induction rs with
  | nil => rfl
  | cons r rs ih =>
    rw [List.map_cons, applyReplacements_cons, applyReplacements_cons, ih]
    rfl

theorem addToGroups_map (lines : List LineSpan) (groups : List LineGroup) (r : MatchedEdit) :
    addToGroups lines (groups.map LineGroup.unnumbered) r.unnumbered =
      (addToGroups lines groups r).map (List.map LineGroup.unnumbered) := by
  have hrange : getReplacementLineRange lines r.unnumbered = getReplacementLineRange lines r := rfl
  rw [addToGroups, addToGroups, hrange]
  cases getReplacementLineRange lines r with
  | error e => rfl
  | ok range =>
    simp only [bind, Except.bind]
    rw [List.getLast?_map]
    cases groups.getLast? with
    | none =>
      simp only [Option.map_none, pure, Except.pure, Except.map, List.map_append]
      rfl
    | some current =>
      simp only [Option.map_some]
      have hend : current.unnumbered.endLine = current.endLine := rfl
      rw [hend]
      split
      · simp only [pure, Except.pure, Except.map, List.map_append, List.map_dropLast]
        simp [LineGroup.unnumbered]
      · simp only [pure, Except.pure, Except.map, List.map_append]
        rfl

theorem foldlM_addToGroups_map (lines : List LineSpan) (rs : List MatchedEdit) :
    ∀ groups : List LineGroup,
      (rs.map MatchedEdit.unnumbered).foldlM (addToGroups lines)
          (groups.map LineGroup.unnumbered) =
        (rs.foldlM (addToGroups lines) groups).map (List.map LineGroup.unnumbered) := by
  induction rs with
  | nil => exact fun _ => rfl
  | cons r rs ih =>
    intro groups
    rw [List.map_cons, List.foldlM_cons, List.foldlM_cons, addToGroups_map]
    cases addToGroups lines groups r with
    | error e => rfl
    | ok next => exact ih next

theorem overlay_map (content base : Text) (rs : List MatchedEdit) :
    applyReplacementsPreservingUnchangedLines content base (rs.map MatchedEdit.unnumbered) =
      applyReplacementsPreservingUnchangedLines content base rs := by
  have hgroups := foldlM_addToGroups_map (getLineSpans base) (sortEdits rs) []
  rw [sortEdits_map, List.map_nil] at hgroups
  rw [applyReplacementsPreservingUnchangedLines, applyReplacementsPreservingUnchangedLines,
    groupReplacements, groupReplacements, hgroups]
  dsimp only
  split
  · rfl
  · cases (sortEdits rs).foldlM (addToGroups (getLineSpans base)) [] with
    | error e => rfl
    | ok groups =>
      refine congrArg (fun blocks => Except.ok (TextBlocks.weave _ 0 blocks)) ?_
      rw [List.map_map]
      refine List.map_congr_left fun g _ => ?_
      rw [Function.comp_apply, groupBlock, groupBlock, LineGroup.unnumbered]
      dsimp only
      rw [applyReplacements_map]

theorem newContent_map (used : Bool) (base : Text) (rs : List MatchedEdit) (content : Text) :
    (⟨used, base, rs.map MatchedEdit.unnumbered⟩ : EditPlan).newContent content =
      (⟨used, base, rs⟩ : EditPlan).newContent content := by
  rw [EditPlan.newContent, EditPlan.newContent]
  dsimp only
  rw [overlay_map, applyReplacements_map]

/-! ## When there is a plan -/

def Edit.normalized (edit : Edit) : Edit :=
  ⟨normalizeToLF edit.oldText, normalizeToLF edit.newText⟩

variable (nfkc : Text → Text)

def usesFuzzyMatch (content : Text) (edits : List Edit) : Bool :=
  edits.any fun edit => (fuzzyFindText nfkc content edit.normalized.oldText).usedFuzzyMatch

def replacementBase (content : Text) (edits : List Edit) : Text :=
  if usesFuzzyMatch nfkc content edits then normalizeForFuzzyMatch nfkc content else content

def Edit.region (base : Text) (edit : Edit) : MatchedEdit :=
  let found := fuzzyFindText nfkc base edit.normalized.oldText
  ⟨0, found.index, found.matchLength, edit.normalized.newText⟩

/-- An edit that the loop takes. -/
structure Edit.Taken (base : Text) (edit : Edit) : Prop where
  found : (fuzzyFindText nfkc base edit.normalized.oldText).found = true
  counted : countOccurrences nfkc base edit.normalized.oldText ≤ 1

def regionPlan (content : Text) (edits : List Edit) : EditPlan :=
  ⟨usesFuzzyMatch nfkc content edits, replacementBase nfkc content edits,
    sortEdits (edits.map (Edit.region nfkc (replacementBase nfkc content edits)))⟩

variable {base : Text} {edit : Edit}

theorem matchEdit_iff {total i : Nat} :
    (∃ r, matchEdit nfkc base total edit.normalized i = .ok r) ↔ edit.Taken nfkc base := by
  rw [matchEdit]
  dsimp only
  cases hfound : (fuzzyFindText nfkc base edit.normalized.oldText).found with
  | false =>
    refine ⟨(by rintro ⟨_, h⟩; cases h), fun h => ?_⟩
    rw [h.found] at hfound
    cases hfound
  | true =>
    by_cases hcount : countOccurrences nfkc base edit.normalized.oldText > 1
    · rw [if_pos hcount]
      exact ⟨(by rintro ⟨_, h⟩; cases h), fun h => absurd h.counted (Nat.not_le.mpr hcount)⟩
    · rw [if_neg hcount]
      exact ⟨fun _ => ⟨hfound, Nat.not_lt.mp hcount⟩, fun _ => ⟨_, rfl⟩⟩

theorem matchEdit_unnumbered {total i : Nat} {r : MatchedEdit}
    (h : matchEdit nfkc base total edit.normalized i = .ok r) :
    r.unnumbered = edit.region nfkc base := by
  obtain ⟨hfound, hcount⟩ : edit.Taken nfkc base := (matchEdit_iff nfkc).mp ⟨r, h⟩
  rw [matchEdit] at h
  dsimp only at h
  rw [hfound, if_neg (Nat.not_lt.mpr hcount)] at h
  cases h
  rfl

/-- The loop takes all edits or throws. -/
theorem mapM_matchEdit {total : Nat} (edits : List Edit) :
    ∀ {k : Nat} {found : List MatchedEdit},
      ((edits.map Edit.normalized).zipIdx k).mapM
          (fun edit => matchEdit nfkc base total edit.1 edit.2) = .ok found →
        (∀ edit ∈ edits, edit.Taken nfkc base) ∧
          found.map MatchedEdit.unnumbered = edits.map (Edit.region nfkc base) := by
  induction edits with
  | nil =>
    intro k found h
    cases h
    exact ⟨fun _ h => absurd h List.not_mem_nil, rfl⟩
  | cons edit edits ih =>
    intro k found h
    rw [List.map_cons, List.zipIdx_cons, List.mapM_cons] at h
    obtain ⟨r, hr, h⟩ := bind_ok h
    obtain ⟨rest, hrest, h⟩ := bind_ok h
    cases h
    obtain ⟨hall, hmap⟩ := ih hrest
    refine ⟨List.forall_mem_cons.mpr ⟨(matchEdit_iff nfkc).mp ⟨r, hr⟩, hall⟩, ?_⟩
    rw [List.map_cons, List.map_cons, hmap, matchEdit_unnumbered nfkc hr]

theorem mapM_matchEdit_exists (total : Nat) (edits : List Edit) :
    ∀ k : Nat, (∀ edit ∈ edits, edit.Taken nfkc base) →
      ∃ found, ((edits.map Edit.normalized).zipIdx k).mapM
        (fun edit => matchEdit nfkc base total edit.1 edit.2) = .ok found := by
  induction edits with
  | nil => exact fun _ _ => ⟨[], rfl⟩
  | cons edit edits ih =>
    intro k hall
    obtain ⟨hedit, hedits⟩ := List.forall_mem_cons.mp hall
    obtain ⟨r, hr⟩ : ∃ r, matchEdit nfkc base total edit.normalized k = .ok r :=
      (matchEdit_iff nfkc).mpr hedit
    obtain ⟨rest, hrest⟩ := ih (k + 1) hedits
    refine ⟨r :: rest, ?_⟩
    rw [List.map_cons, List.zipIdx_cons, List.mapM_cons]
    simp only [hr, hrest, bind, Except.bind, pure, Except.pure]

theorem checkOverlaps_iff {rs : List MatchedEdit} :
    checkOverlaps rs = .ok () ↔ rs.Pairwise fun a b => a.stop ≤ b.matchIndex := by
  refine ⟨checkOverlaps_ok, fun h => ?_⟩
  induction rs with
  | nil => rfl
  | cons a rest ih =>
    obtain ⟨ha, hrest⟩ := List.pairwise_cons.mp h
    cases rest with
    | nil => rfl
    | cons b rest =>
      have hle : ¬ a.matchIndex + a.matchLength > b.matchIndex :=
        Nat.not_lt.mpr (ha b List.mem_cons_self)
      rw [checkOverlaps, if_neg hle]
      exact ih hrest

/-- What it takes to make a plan. -/
structure Plannable (content : Text) (edits : List Edit) : Prop where
  some : ∀ edit ∈ edits, edit.normalized.oldText ≠ []
  taken : ∀ edit ∈ edits, edit.Taken nfkc (replacementBase nfkc content edits)
  apart : (regionPlan nfkc content edits).matchedEdits.Pairwise fun a b => a.stop ≤ b.matchIndex

theorem planEdits_eq (content : Text) (edits : List Edit) :
    planEdits nfkc content edits = (do
      match (edits.map Edit.normalized).findIdx? (·.oldText.length = 0) with
      | some i => throw (.emptyOldText i (edits.map Edit.normalized).length)
      | none => pure ()
      let found ← (edits.map Edit.normalized).zipIdx.mapM fun edit =>
        matchEdit nfkc (replacementBase nfkc content edits) (edits.map Edit.normalized).length
          edit.1 edit.2
      checkOverlaps (sortEdits found)
      pure ⟨usesFuzzyMatch nfkc content edits, replacementBase nfkc content edits,
        sortEdits found⟩) := by
  have hused : (((edits.map Edit.normalized).map fun edit =>
      fuzzyFindText nfkc content edit.oldText).any (·.usedFuzzyMatch)) =
      usesFuzzyMatch nfkc content edits := by
    rw [List.map_map, List.any_map]
    rfl
  rw [replacementBase, ← hused]
  rfl

theorem findIdx?_oldText (edits : List Edit) :
    (edits.map Edit.normalized).findIdx? (·.oldText.length = 0) = none ↔
      ∀ edit ∈ edits, edit.normalized.oldText ≠ [] := by
  rw [List.findIdx?_eq_none_iff, List.forall_mem_map]
  refine forall₂_congr fun edit _ => ?_
  rw [decide_eq_false_iff_not, List.length_eq_zero_iff]

variable {edits : List Edit} {content : Text}

theorem plannable_of_ok {plan : EditPlan} (h : planEdits nfkc content edits = .ok plan) :
    Plannable nfkc content edits ∧
      plan.newContent content = (regionPlan nfkc content edits).newContent content := by
  rw [planEdits_eq] at h
  cases hempty : (edits.map Edit.normalized).findIdx? (·.oldText.length = 0) with
  | some i =>
    rw [hempty] at h
    cases h
  | none =>
    rw [hempty] at h
    obtain ⟨-, -, h⟩ := bind_ok h
    obtain ⟨found, hfound, h⟩ := bind_ok h
    obtain ⟨_, hoverlaps, h⟩ := bind_ok h
    cases h
    obtain ⟨htaken, hmap⟩ := mapM_matchEdit nfkc edits hfound
    have hsorted : (regionPlan nfkc content edits).matchedEdits =
        (sortEdits found).map MatchedEdit.unnumbered := by
      rw [sortEdits_map, hmap]
      rfl
    refine ⟨⟨(findIdx?_oldText edits).mp hempty, htaken, ?_⟩, ?_⟩
    · rw [hsorted, List.pairwise_map]
      exact checkOverlaps_iff.mp hoverlaps
    · rw [← newContent_map, ← hsorted]
      rfl

theorem plan_exists (h : Plannable nfkc content edits) :
    ∃ plan, planEdits nfkc content edits = .ok plan := by
  obtain ⟨found, hfound⟩ := mapM_matchEdit_exists nfkc (edits.map Edit.normalized).length
    edits 0 h.taken
  obtain ⟨-, hmap⟩ := mapM_matchEdit nfkc edits hfound
  have hoverlaps : checkOverlaps (sortEdits found) = .ok () := by
    have hapart := h.apart
    rw [regionPlan, ← hmap, ← sortEdits_map, List.pairwise_map] at hapart
    exact checkOverlaps_iff.mpr hapart
  rw [planEdits_eq, (findIdx?_oldText edits).mpr h.some]
  simp only [hfound, hoverlaps, bind, Except.bind, pure, Except.pure]
  exact ⟨_, rfl⟩

theorem applyEdits_iff {result : AppliedEditsResult} :
    applyEditsToNormalizedContent nfkc content edits = .ok result ↔
      Plannable nfkc content edits ∧
        (regionPlan nfkc content edits).newContent content = .ok result.newContent ∧
        content ≠ result.newContent ∧ result.baseContent = content := by
  rw [applyEditsToNormalizedContent]
  constructor
  · intro h
    obtain ⟨plan, hplan, h⟩ := bind_ok h
    obtain ⟨text, htext, h⟩ := bind_ok h
    obtain ⟨hplannable, hsame⟩ := plannable_of_ok nfkc hplan
    by_cases heq : content = text
    · rw [if_pos heq] at h
      cases h
    · rw [if_neg heq] at h
      cases h
      exact ⟨hplannable, hsame ▸ htext, heq, rfl⟩
  · obtain ⟨baseContent, newContent⟩ := result
    rintro ⟨hplannable, htext, hne, rfl⟩
    obtain ⟨plan, hplan⟩ := plan_exists nfkc hplannable
    rw [← (plannable_of_ok nfkc hplan).2] at htext
    simp only [hplan, htext, bind, Except.bind, if_neg hne, pure, Except.pure]

/-! ## The order of the edits -/

theorem usesFuzzyMatch_perm (content : Text) {edits edits' : List Edit}
    (h : edits'.Perm edits) :
    usesFuzzyMatch nfkc content edits' = usesFuzzyMatch nfkc content edits :=
  h.any_eq

/-- Regions that are not empty are sorted in one way. -/
theorem sortEdits_perm {rs rs' : List MatchedEdit} (h : rs'.Perm rs)
    (hpos : ∀ r ∈ rs, 0 < r.matchLength)
    (hapart : (sortEdits rs).Pairwise fun a b => a.stop ≤ b.matchIndex) :
    sortEdits rs' = sortEdits rs := by
  have hperm : (sortEdits rs).Perm rs := List.mergeSort_perm rs _
  have hperm' : (sortEdits rs').Perm (sortEdits rs) :=
    (List.mergeSort_perm rs' _).trans (h.trans hperm.symm)
  have hstrict : (sortEdits rs).Pairwise fun a b => a.matchIndex < b.matchIndex := by
    refine hapart.imp_of_mem ?_
    intro a b ha _ hab
    exact Nat.lt_of_lt_of_le (Nat.lt_add_of_pos_right (hpos a (hperm.mem_iff.mp ha))) hab
  have hinj : ∀ a ∈ sortEdits rs, ∀ b ∈ sortEdits rs, a.matchIndex = b.matchIndex → a = b := by
    intro a ha b hb
    exact List.Pairwise.forall_of_forall_of_flip
      (R := fun a b : MatchedEdit => a.matchIndex = b.matchIndex → a = b) (fun _ _ _ => rfl)
      (hstrict.imp fun hlt heq => absurd heq (Nat.ne_of_lt hlt))
      (hstrict.imp fun hlt heq => absurd heq.symm (Nat.ne_of_lt hlt)) ha hb
  refine hperm'.eq_of_pairwise ?_ (sortEdits_sorted rs') (sortEdits_sorted rs)
  exact fun a b ha hb hab hba => hinj a (hperm'.mem_iff.mp ha) b hb (Nat.le_antisymm hab hba)

theorem regionPlan_perm {edits edits' : List Edit} (h : edits'.Perm edits)
    (hplannable : Plannable nfkc content edits)
    (hpos : ∀ edit ∈ edits,
      0 < (edit.region nfkc (replacementBase nfkc content edits)).matchLength) :
    Plannable nfkc content edits' ∧
      regionPlan nfkc content edits' = regionPlan nfkc content edits := by
  have hused := usesFuzzyMatch_perm nfkc content h
  have hbase : replacementBase nfkc content edits' = replacementBase nfkc content edits := by
    rw [replacementBase, hused]
    rfl
  have hplan : regionPlan nfkc content edits' = regionPlan nfkc content edits := by
    rw [regionPlan, regionPlan, hused, hbase,
      sortEdits_perm (h.map _) (List.forall_mem_map.mpr hpos) hplannable.apart]
  refine ⟨⟨fun edit hedit => hplannable.some edit (h.mem_iff.mp hedit), fun edit hedit => ?_, ?_⟩,
    hplan⟩
  · rw [hbase]
    exact hplannable.taken edit (h.mem_iff.mp hedit)
  · rw [hplan]
    exact hplannable.apart

/-! ## The normal form of a normal form -/

theorem isWhitespace_fuzzyUnit {u : UInt16} (h : isWhitespace (fuzzyUnit u) = true) :
    isWhitespace u = true := by
  unfold fuzzyUnit at h
  split at h
  · exact absurd h (by decide)
  · split at h
    · exact absurd h (by decide)
    · split at h
      · exact absurd h (by decide)
      · split at h
        · rename_i hspace
          simp only [Bool.or_eq_true, decide_eq_true_eq, Bool.and_eq_true] at hspace
          obtain (((rfl | ⟨hlow, hhigh⟩) | rfl) | rfl) | rfl := hspace
          · rfl
          · have hlow' : (0x2000 : UInt16) ≤ u := UInt16.le_trans (by decide) hlow
            simp [isWhitespace, hlow', hhigh]
          · rfl
          · rfl
          · rfl
        · exact h

theorem fuzzyUnit_fuzzyUnit (u : UInt16) : fuzzyUnit (fuzzyUnit u) = fuzzyUnit u := by
  have hcases : fuzzyUnit u = 39 ∨ fuzzyUnit u = 34 ∨ fuzzyUnit u = 45 ∨ fuzzyUnit u = 32 ∨
      fuzzyUnit u = u := by
    unfold fuzzyUnit
    split
    · exact Or.inl rfl
    · split
      · exact Or.inr (Or.inl rfl)
      · split
        · exact Or.inr (Or.inr (Or.inl rfl))
        · split
          · exact Or.inr (Or.inr (Or.inr (Or.inl rfl)))
          · exact Or.inr (Or.inr (Or.inr (Or.inr rfl)))
  obtain h | h | h | h | h := hcases
  · rw [h]
    decide
  · rw [h]
    decide
  · rw [h]
    decide
  · rw [h]
    decide
  · rw [h, h]

/-- A line that is trimmed and mapped stays as it is. -/
theorem rdropWhile_fuzzy (line : Text) :
    (((line.rdropWhile isWhitespace).map fuzzyUnit).rdropWhile isWhitespace).map fuzzyUnit =
      (line.rdropWhile isWhitespace).map fuzzyUnit := by
  have hlast : ((line.rdropWhile isWhitespace).map fuzzyUnit).rdropWhile isWhitespace =
      (line.rdropWhile isWhitespace).map fuzzyUnit := by
    rw [List.rdropWhile_eq_self_iff]
    intro hne hwhite
    rw [List.getLast_map] at hwhite
    exact List.rdropWhile_last_not isWhitespace line _ (isWhitespace_fuzzyUnit hwhite)
  rw [hlast, List.map_map]
  exact List.map_congr_left fun u _ => fuzzyUnit_fuzzyUnit u

theorem normalize_normalize
    (hstable : nfkc (normalizeForFuzzyMatch nfkc content) = normalizeForFuzzyMatch nfkc content) :
    normalizeForFuzzyMatch nfkc (normalizeForFuzzyMatch nfkc content) =
      normalizeForFuzzyMatch nfkc content := by
  have hpieces : ((normalizeForFuzzyMatch nfkc content).splitOn lf).map
      (fun piece => (piece.rdropWhile isWhitespace).map fuzzyUnit) =
        (normalizeForFuzzyMatch nfkc content).splitOn lf := by
    rw [splitOn_normalize, List.map_map]
    exact List.map_congr_left fun piece _ => rdropWhile_fuzzy piece
  have hsplit := splitOn_normalize nfkc (normalizeForFuzzyMatch nfkc content)
  rw [hstable, hpieces] at hsplit
  calc normalizeForFuzzyMatch nfkc (normalizeForFuzzyMatch nfkc content)
      = [lf].intercalate ((normalizeForFuzzyMatch nfkc
          (normalizeForFuzzyMatch nfkc content)).splitOn lf) := (List.intercalate_splitOn lf).symm
    _ = [lf].intercalate ((normalizeForFuzzyMatch nfkc content).splitOn lf) := by rw [hsplit]
    _ = normalizeForFuzzyMatch nfkc content := List.intercalate_splitOn lf

/-! ## What the count sees -/

def foundText (base oldText : Text) : Text :=
  if (indexOf oldText base).isSome then oldText else normalizeForFuzzyMatch nfkc oldText

/-- The count misses nothing: the old text is not matched as the empty text,
no copies overlap, and what stands twice is seen twice in the normal form. -/
structure Edit.Seen (base : Text) (edit : Edit) : Prop where
  some : normalizeForFuzzyMatch nfkc edit.normalized.oldText = [] →
    ∃ i, OccursAt edit.normalized.oldText base i
  noOverlap : NoOverlap (foundText nfkc base edit.normalized.oldText) base
  kept : Twice (foundText nfkc base edit.normalized.oldText) base →
    if normalizeForFuzzyMatch nfkc edit.normalized.oldText = [] then
      2 < (normalizeForFuzzyMatch nfkc base).length
    else Twice (normalizeForFuzzyMatch nfkc edit.normalized.oldText)
      (normalizeForFuzzyMatch nfkc base)

/-- The region of an edit is not empty and its text starts nowhere else. -/
structure Edit.Once (base : Text) (edit : Edit) : Prop where
  pos : 0 < (edit.region nfkc base).matchLength
  only : ∀ i, OccursAt (foundText nfkc base edit.normalized.oldText) base i ↔
    i = (edit.region nfkc base).matchIndex

structure Unambiguous (content : Text) (edits : List Edit) (result : AppliedEditsResult) :
    Prop where
  once : ∀ edit ∈ edits, edit.Once nfkc (replacementBase nfkc content edits)
  disjoint : (edits.map (Edit.region nfkc (replacementBase nfkc content edits))).Pairwise
    fun a b => a.stop ≤ b.matchIndex ∨ b.stop ≤ a.matchIndex
  permuted : ∀ edits' : List Edit, edits'.Perm edits →
    applyEditsToNormalizedContent nfkc content edits' = .ok result

variable {nfkc}

theorem foundText_ne_nil (hsome : edit.normalized.oldText ≠ []) :
    foundText nfkc base edit.normalized.oldText ≠ [] ↔
      (normalizeForFuzzyMatch nfkc edit.normalized.oldText = [] →
        ∃ i, OccursAt edit.normalized.oldText base i) := by
  rw [foundText]
  by_cases h : (indexOf edit.normalized.oldText base).isSome = true
  · rw [if_pos h]
    exact iff_of_true hsome fun _ => indexOf_isSome.mp h
  · rw [if_neg h, ← indexOf_isSome]
    exact ⟨fun hne hnil => absurd hnil hne, fun hnil heq => h (hnil heq)⟩

theorem found_occursAt (hedit : edit ∈ edits)
    (hstable : nfkc (normalizeForFuzzyMatch nfkc content) = normalizeForFuzzyMatch nfkc content)
    (h : edit.Taken nfkc (replacementBase nfkc content edits)) :
    OccursAt (foundText nfkc (replacementBase nfkc content edits) edit.normalized.oldText)
        (replacementBase nfkc content edits)
        (edit.region nfkc (replacementBase nfkc content edits)).matchIndex ∧
      (edit.region nfkc (replacementBase nfkc content edits)).matchLength =
        (foundText nfkc (replacementBase nfkc content edits) edit.normalized.oldText).length := by
  have hfound := h.found
  rw [Edit.region, foundText]
  cases hindex : indexOf edit.normalized.oldText (replacementBase nfkc content edits) with
  | some i =>
    rw [fuzzyFindText, hindex]
    exact ⟨indexOf_some hindex, rfl⟩
  | none =>
    rw [fuzzyFindText, hindex] at hfound ⊢
    dsimp only at hfound ⊢
    cases hfuzzy : indexOf (normalizeForFuzzyMatch nfkc edit.normalized.oldText)
        (normalizeForFuzzyMatch nfkc (replacementBase nfkc content edits)) with
    | none =>
      rw [hfuzzy] at hfound
      cases hfound
    | some i =>
      -- a base that is not in normal form has all edits exactly
      have hbase : normalizeForFuzzyMatch nfkc (replacementBase nfkc content edits) =
          replacementBase nfkc content edits := by
        rw [replacementBase] at hindex hfuzzy ⊢
        cases hused : usesFuzzyMatch nfkc content edits with
        | true => exact normalize_normalize nfkc hstable
        | false =>
          rw [hused] at hindex hfuzzy
          simp only [Bool.false_eq_true, if_false] at hindex hfuzzy
          have hexact := List.any_eq_false.mp hused edit hedit
          rw [fuzzyFindText, hindex] at hexact
          dsimp only at hexact
          rw [hfuzzy] at hexact
          exact absurd rfl hexact
      rw [hbase] at hfuzzy
      exact ⟨indexOf_some hfuzzy, rfl⟩

/-- What is counted once and seen wholly stands once. -/
theorem Edit.Taken.not_twice (h : edit.Taken nfkc base) (hseen : edit.Seen nfkc base) :
    ¬ Twice (foundText nfkc base edit.normalized.oldText) base := by
  intro htwice
  have hkept := hseen.kept htwice
  have hcount := h.counted
  rw [countOccurrences] at hcount
  split at hkept
  · rename_i hnil
    rw [if_pos hnil] at hcount
    omega
  · rename_i hne
    rw [if_neg hne] at hcount
    exact absurd (countSplits_twice hne hkept) (Nat.not_le.mpr (Nat.lt_succ_of_le hcount))

theorem once_iff_seen (hedit : edit ∈ edits)
    (hstable : nfkc (normalizeForFuzzyMatch nfkc content) = normalizeForFuzzyMatch nfkc content)
    (hsome : edit.normalized.oldText ≠ [])
    (h : edit.Taken nfkc (replacementBase nfkc content edits)) :
    edit.Once nfkc (replacementBase nfkc content edits) ↔
      edit.Seen nfkc (replacementBase nfkc content edits) := by
  obtain ⟨hoccurs, hlength⟩ := found_occursAt hedit hstable h
  have hpos : 0 < (edit.region nfkc (replacementBase nfkc content edits)).matchLength ↔
      foundText nfkc (replacementBase nfkc content edits) edit.normalized.oldText ≠ [] := by
    rw [hlength, List.length_pos_iff]
  constructor
  · rintro ⟨hregion, honly⟩
    have hne := hpos.mp hregion
    obtain ⟨hoverlap, htwice⟩ := (once_iff hne hoccurs).mp honly
    exact ⟨(foundText_ne_nil hsome).mp hne, hoverlap, fun htwo => absurd htwo htwice⟩
  · intro hseen
    have hne := (foundText_ne_nil hsome).mpr hseen.some
    exact ⟨hpos.mpr hne, (once_iff hne hoccurs).mpr ⟨hseen.noOverlap, h.not_twice hseen⟩⟩

/-- Edits that succeed are unambiguous exactly when the count sees them all. -/
theorem edit_unambiguous_iff
    (hstable : ∀ text, nfkc (normalizeForFuzzyMatch nfkc text) = normalizeForFuzzyMatch nfkc text)
    {content : Text} {edits : List Edit} {result : AppliedEditsResult}
    (h : applyEditsToNormalizedContent nfkc content edits = .ok result) :
    Unambiguous nfkc content edits result ↔
      ∀ edit ∈ edits, edit.Seen nfkc (replacementBase nfkc content edits) := by
  obtain ⟨hplannable, htext, hne⟩ := (applyEdits_iff nfkc).mp h
  have honce : ∀ edit ∈ edits, edit.Once nfkc (replacementBase nfkc content edits) ↔
      edit.Seen nfkc (replacementBase nfkc content edits) := fun edit hedit =>
    once_iff_seen hedit (hstable content) (hplannable.some edit hedit)
      (hplannable.taken edit hedit)
  refine ⟨fun hunambiguous edit hedit => (honce edit hedit).mp (hunambiguous.once edit hedit),
    fun hseen => ?_⟩
  have hall : ∀ edit ∈ edits, edit.Once nfkc (replacementBase nfkc content edits) :=
    fun edit hedit => (honce edit hedit).mpr (hseen edit hedit)
  refine ⟨hall, ?_, fun edits' hperm => ?_⟩
  · have hapart : (regionPlan nfkc content edits).matchedEdits.Pairwise
        fun a b => a.stop ≤ b.matchIndex ∨ b.stop ≤ a.matchIndex :=
      hplannable.apart.imp Or.inl
    exact ((List.mergeSort_perm _ _).pairwise_iff fun {_ _} hab => hab.symm).mp hapart
  · obtain ⟨hplannable', hplan⟩ :=
      regionPlan_perm nfkc hperm hplannable fun edit hedit => (hall edit hedit).pos
    exact (applyEdits_iff nfkc).mpr ⟨hplannable', hplan ▸ htext, hne⟩

/-- `a` in `ab`. -/
theorem edit_unambiguous_once :
    Unambiguous id [97, 98] [⟨[97], [99]⟩] ⟨[97, 98], [99, 98]⟩ ↔
      ∀ edit ∈ [(⟨[97], [99]⟩ : Edit)],
        edit.Seen id (replacementBase id [97, 98] [⟨[97], [99]⟩]) :=
  edit_unambiguous_iff (fun _ => rfl) (by decide +kernel)

/-- `aa` in `aaa`: counted once, it also starts at the second unit. -/
theorem edit_ambiguous :
    applyEditsToNormalizedContent id [97, 97, 97] [⟨[97, 97], [98]⟩] =
        .ok ⟨[97, 97, 97], [98, 97]⟩ ∧
      ¬ Unambiguous id [97, 97, 97] [⟨[97, 97], [98]⟩] ⟨[97, 97, 97], [98, 97]⟩ := by
  refine ⟨by decide +kernel, fun h => ?_⟩
  have hsecond : OccursAt (foundText id [97, 97, 97] [97, 97]) [97, 97, 97] 1 := by decide +kernel
  have hindex := ((h.once ⟨[97, 97], [98]⟩ List.mem_cons_self).only 1).mp hsecond
  exact absurd hindex (by decide +kernel)

end EditTool

end Eagent
