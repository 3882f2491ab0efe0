import Eagent.Compaction
import Eagent.SessionInvariant

/-!
# Extracting a branch

`createBranchedSession` replaces the session by one path of it: labels are
dropped, the rest is chained anew, the labels come back at the end. The
conversation survives unless the path's latest compaction keeps from a
label entry, which the extracted path no longer has
(`branchPreserved_iff`).
-/

namespace Eagent

open SessionManager

/-! ## What re-chaining keeps -/

/-- A tree pointer is all that re-chaining changes. -/
theorem projects_rechained (e : SessionEntry) (parentId : Option String) :
    sessionEntryToContextMessages { e with parentId } = sessionEntryToContextMessages e := rfl

theorem contextMessages_rechain (prev : Option String) (path : List SessionEntry) :
    contextMessages (rechain prev path) = contextMessages path := by
  induction path generalizing prev with
  | nil => rfl
  | cons e rest ih =>
    rw [rechain, contextMessages_cons]
    cases he : e.isLabel with
    | true => simp [ih, label_projects he]
    | false => simp [ih, projects_rechained]

variable {e : SessionEntry}

theorem updateSettings_label (s : ContextSettings) (h : e.isLabel = true) :
    updateSettings s e = s := by
  unfold SessionEntry.isLabel at h
  unfold updateSettings
  split at h
  · rename_i heq
    rw [heq]
  · cases h

theorem foldl_updateSettings_rechain (s : ContextSettings) (prev : Option String)
    (path : List SessionEntry) :
    (rechain prev path).foldl updateSettings s = path.foldl updateSettings s := by
  induction path generalizing s prev with
  | nil => rfl
  | cons e rest ih =>
    rw [rechain]
    cases he : e.isLabel with
    | true => simp [ih, updateSettings_label s he]
    | false =>
      have hstep : ∀ p, updateSettings s { e with parentId := p } = updateSettings s e :=
        fun _ => rfl
      simp [ih, hstep]

variable {path : List SessionEntry}

theorem isCompaction_rechain {prev : Option String} (h : ∀ e ∈ path, e.isCompaction = false) :
    ∀ e ∈ rechain prev path, e.isCompaction = false := by
  induction path generalizing prev with
  | nil => simp [rechain]
  | cons e rest ih =>
    have he := h e (List.mem_cons_self ..)
    have ih := fun prev => @ih prev fun x hx => h x (List.mem_cons_of_mem _ hx)
    rw [rechain]
    split
    · exact ih prev
    · exact List.forall_mem_cons.mpr ⟨he, ih _⟩

/-- Re-chaining a path in two parts. -/
theorem rechain_append (prev : Option String) (as bs : List SessionEntry) :
    ∃ prev', rechain prev (as ++ bs) = rechain prev as ++ rechain prev' bs := by
  induction as generalizing prev with
  | nil => exact ⟨prev, rfl⟩
  | cons e rest ih =>
    rw [List.cons_append, rechain, rechain]
    split
    · exact ih prev
    · obtain ⟨prev', h⟩ := ih (some e.id)
      exact ⟨prev', by rw [h, List.cons_append]⟩

theorem rechain_cons_of_not_label (prev : Option String) (h : e.isLabel = false)
    (rest : List SessionEntry) :
    rechain prev (e :: rest) = { e with parentId := prev } :: rechain (some e.id) rest := by
  rw [rechain, h]
  rfl

theorem mem_rechain {prev : Option String} {x : SessionEntry} (h : x ∈ rechain prev path) :
    ∃ e ∈ path, e.isLabel = false ∧ x.id = e.id ∧ x.body = e.body := by
  induction path generalizing prev with
  | nil => cases h
  | cons e rest ih =>
    rw [rechain] at h
    cases he : e.isLabel with
    | true =>
      rw [he, if_pos rfl] at h
      obtain ⟨y, hy, hrest⟩ := ih h
      exact ⟨y, List.mem_cons_of_mem _ hy, hrest⟩
    | false =>
      rw [he, if_neg (by simp)] at h
      rcases List.mem_cons.mp h with rfl | h
      · exact ⟨e, List.mem_cons_self .., he, rfl, rfl⟩
      · obtain ⟨y, hy, hrest⟩ := ih h
        exact ⟨y, List.mem_cons_of_mem _ hy, hrest⟩

/-! ## The label entries at the end -/

theorem isLabel_labelEntries {env : Env} :
    ∀ {used : List String} {parentId : Option String} {ls : List LabelToWrite},
      ∀ e ∈ labelEntries env used parentId ls, e.isLabel = true
  | _, _, [], e, he => by cases he
  | used, parentId, l :: rest, e, he => by
    rw [labelEntries] at he
    rcases List.mem_cons.mp he with rfl | he
    · rfl
    · exact isLabel_labelEntries e he

variable {es : List SessionEntry}

theorem contextMessages_labels (h : ∀ e ∈ es, e.isLabel = true) :
    contextMessages es = [] := by
  rw [contextMessages, List.flatMap_eq_nil_iff]
  exact fun e he => label_projects (h e he)

theorem foldl_updateSettings_labels (s : ContextSettings) (h : ∀ e ∈ es, e.isLabel = true) :
    es.foldl updateSettings s = s := by
  induction es with
  | nil => rfl
  | cons e rest ih =>
    rw [List.foldl_cons, updateSettings_label s (h e (List.mem_cons_self ..))]
    exact ih fun x hx => h x (List.mem_cons_of_mem _ hx)

theorem isCompaction_of_label (h : e.isLabel = true) :
    e.isCompaction = false := by
  unfold SessionEntry.isLabel at h
  unfold SessionEntry.isCompaction
  split at h
  · rename_i heq
    rw [heq]
  · cases h

/-! ## The kept window after re-chaining -/

theorem firstId_cases (id : String) (es : List SessionEntry) :
    (∀ x ∈ es, x.id ≠ id) ∨
      ∃ pre x rest, es = pre ++ x :: rest ∧ x.id = id ∧ ∀ y ∈ pre, y.id ≠ id := by
  induction es with
  | nil => exact Or.inl (by simp)
  | cons e es ih =>
    by_cases he : e.id = id
    · exact Or.inr ⟨[], e, es, rfl, he, by simp⟩
    · rcases ih with hnone | ⟨pre, x, rest, rfl, hx, hpre⟩
      · exact Or.inl (List.forall_mem_cons.mpr ⟨he, hnone⟩)
      · exact Or.inr ⟨e :: pre, x, rest, rfl, hx, List.forall_mem_cons.mpr ⟨he, hpre⟩⟩

/-- The entries kept from `id` on are not lost with a label of that id. -/
def KeepsWithoutLabel (id : String) (es : List SessionEntry) : Prop :=
  ∀ pre x rest, es = pre ++ x :: rest → x.id = id → x.isLabel = true →
    ∀ y ∈ rest, sessionEntryToContextMessages y = []

theorem contextMessages_kept_rechain (hnodup : (entryIds es).Nodup) (prev : Option String)
    (id : String) :
    contextMessages (keptEntries id false (rechain prev es)) =
        contextMessages (keptEntries id false es) ↔ KeepsWithoutLabel id es := by
  rcases firstId_cases id es with hnone | ⟨pre, x, rest, rfl, hx, hpre⟩
  · -- the first kept entry is not before the compaction: nothing is kept
    have hnone' : ∀ x ∈ rechain prev es, x.id ≠ id := by
      intro x hx
      obtain ⟨e, he, -, hid, -⟩ := mem_rechain hx
      rw [hid]
      exact hnone e he
    rw [keptEntries_missing hnone, keptEntries_missing hnone']
    refine ⟨fun _ pre x rest hes hid => ?_, fun _ => rfl⟩
    exact absurd hid (hnone x (by rw [hes]; simp))
  · obtain ⟨prev', hsplit⟩ := rechain_append prev pre (x :: rest)
    have hpre' : ∀ y ∈ rechain prev pre, y.id ≠ id := by
      intro y hy
      obtain ⟨e, he, -, hid, -⟩ := mem_rechain hy
      rw [hid]
      exact hpre e he
    rw [keptEntries_split hpre hx, hsplit]
    have hrest : ∀ y ∈ rest, y.id ≠ id := by
      intro y hy heq
      rw [entryIds_append, entryIds_cons, List.nodup_append] at hnodup
      refine (List.nodup_cons.mp hnodup.2.1).1 ?_
      rw [hx, ← heq]
      exact mem_entryIds.mpr ⟨y, hy, rfl⟩
    cases hl : x.isLabel with
    | false =>
      rw [rechain_cons_of_not_label prev' hl, keptEntries_split (e := { x with parentId := prev' }) hpre' hx]
      have hkept : contextMessages ({ x with parentId := prev' } :: rechain (some x.id) rest) =
          contextMessages (x :: rest) := by
        rw [contextMessages_cons, contextMessages_rechain, projects_rechained,
          contextMessages_cons]
      refine ⟨fun _ pre' x' rest' hes hid hl' => ?_, fun _ => hkept⟩
      obtain rfl : x' = x := by
        have hmem : x' ∈ pre ++ x :: rest := by
          rw [hes]
          simp
        rcases List.mem_append.mp hmem with hm | hm
        · exact absurd hid (hpre x' hm)
        · rcases List.mem_cons.mp hm with rfl | hm
          · rfl
          · exact absurd hid (hrest x' hm)
      rw [hl] at hl'
      cases hl'
    | true =>
      have hrest' : ∀ y ∈ rechain prev' rest, y.id ≠ id := by
        intro y hy
        obtain ⟨e, he, -, hid, -⟩ := mem_rechain hy
        rw [hid]
        exact hrest e he
      have hnone : ∀ y ∈ rechain prev pre ++ rechain prev' rest, y.id ≠ id := by
        intro y hy
        rcases List.mem_append.mp hy with hy | hy
        · exact hpre' y hy
        · exact hrest' y hy
      rw [rechain, hl, if_pos rfl, keptEntries_missing hnone, contextMessages_cons,
        label_projects hl, List.nil_append, contextMessages_nil]
      constructor
      · intro hnil pre' x' rest' hes hid _
        have hsuffix : rest' = rest := by
          have hkept : keptEntries id false (pre ++ x :: rest) = x :: rest :=
            keptEntries_split hpre hx
          have hpre'' : ∀ y ∈ pre', y.id ≠ id := by
            intro y hy heq
            rw [hes, entryIds_append, entryIds_cons, List.nodup_append] at hnodup
            refine hnodup.2.2 y.id (mem_entryIds.mpr ⟨y, hy, rfl⟩) x'.id
              (List.mem_cons_self ..) ?_
            rw [heq, hid]
          rw [hes, keptEntries_split hpre'' hid] at hkept
          exact (List.cons.inj hkept).2
        rw [hsuffix]
        exact List.flatMap_eq_nil_iff.mp hnil.symm
      · intro hkeeps
        exact (List.flatMap_eq_nil_iff.mpr (hkeeps pre x rest rfl hx hl)).symm

/-! ## The context of the extracted path -/

theorem findIdx?_pre {pre : List SessionEntry} (h : ∀ x ∈ pre, x.id ≠ e.id)
    (post : List SessionEntry) :
    (pre ++ e :: post).findIdx? (fun x => x.id = e.id) = some pre.length := by
  rw [List.findIdx?_append, List.findIdx?_eq_none_iff.mpr (by simpa using h)]
  simp [List.findIdx?_cons]

/-- The latest compaction on the path does not keep from a label entry that
is followed by messages. -/
def FirstKeptSurvives (path : List SessionEntry) : Prop :=
  ∀ c, latestCompaction path = some c → ∀ pre post, path = pre ++ c.entry :: post →
    KeepsWithoutLabel c.firstKeptEntryId pre

theorem selectContextEntries_none (h : latestCompaction path = none) :
    selectContextEntries path = path := by
  rw [selectContextEntries, h]

theorem getSessionContextSettings_branched (env : Env) (m : SessionManager)
    (path : List SessionEntry) :
    getSessionContextSettings (m.branchedEntries env path) = getSessionContextSettings path := by
  rw [getSessionContextSettings, branchedEntries, List.foldl_append,
    foldl_updateSettings_labels _ isLabel_labelEntries, foldl_updateSettings_rechain]
  rfl

theorem compaction?_rechained (c : CompactionEntry) (parentId : Option String) :
    ∃ c', SessionEntry.compaction? { c.entry with parentId } = some c' ∧
      c'.firstKeptEntryId = c.firstKeptEntryId :=
  ⟨_, SessionEntry.compaction?_of_body (e := { c.entry with parentId }) c.body_eq, rfl⟩

theorem messages_branched_iff (env : Env) (m : SessionManager) (h : LinearPath path) :
    contextMessages (selectContextEntries (m.branchedEntries env path)) =
        contextMessages (selectContextEntries path) ↔ FirstKeptSurvives path := by
  rw [branchedEntries]
  generalize hlabels : labelEntries env _ _ _ = labels
  have hlabel : ∀ e ∈ labels, e.isLabel = true := by
    rw [← hlabels]
    exact isLabel_labelEntries
  have hlabelc : ∀ e ∈ labels, e.isCompaction = false :=
    fun e he => isCompaction_of_label (hlabel e he)
  cases hlatest : latestCompaction path with
  | none =>
    have hnone : latestCompaction (rechain none path ++ labels) = none := by
      rw [latestCompaction_eq_none]
      intro e he
      rcases List.mem_append.mp he with he | he
      · exact isCompaction_rechain (latestCompaction_eq_none.mp hlatest) e he
      · exact hlabelc e he
    rw [selectContextEntries_none hnone, selectContextEntries_none hlatest,
      contextMessages_append, contextMessages_rechain, contextMessages_labels hlabel,
      List.append_nil]
    refine ⟨fun _ c hc => ?_, fun _ => rfl⟩
    rw [hlatest] at hc
    cases hc
  | some c =>
    obtain ⟨pre, post, rfl, hpost⟩ := latestCompaction_split hlatest
    have hcomp := latestCompaction_compaction? hlatest
    have hnodup : (entryIds (pre ++ c.entry :: post)).Nodup := h.nodup
    rw [entryIds_append, entryIds_cons, List.nodup_append] at hnodup
    have hbefore : ∀ x ∈ pre, x.id ≠ c.entry.id := fun x hx =>
      hnodup.2.2 x.id (mem_entryIds.mpr ⟨x, hx, rfl⟩) c.entry.id (List.mem_cons_self ..)
    have hnolabel : c.entry.isLabel = false := by
      cases hl : c.entry.isLabel with
      | false => rfl
      | true =>
        have hfalse := isCompaction_of_label hl
        rw [← SessionEntry.compaction?_isSome, hcomp] at hfalse
        cases hfalse
    obtain ⟨prev, hchain⟩ := rechain_append none pre (c.entry :: post)
    rw [rechain_cons_of_not_label prev hnolabel] at hchain
    obtain ⟨c', hc', hkept⟩ := compaction?_rechained c prev
    have hbefore' : ∀ x ∈ rechain none pre, x.id ≠ c.entry.id := by
      intro x hx
      obtain ⟨e, he, -, hid, -⟩ := mem_rechain hx
      rw [hid]
      exact hbefore e he
    have hafter : ∀ x ∈ rechain (some c.entry.id) post ++ labels, x.isCompaction = false := by
      intro x hx
      rcases List.mem_append.mp hx with hx | hx
      · exact isCompaction_rechain hpost x hx
      · exact hlabelc x hx
    have hselect : selectContextEntries (rechain none (pre ++ c.entry :: post) ++ labels) =
        { c.entry with parentId := prev }
          :: keptEntries c.firstKeptEntryId false (rechain none pre)
          ++ (rechain (some c.entry.id) post ++ labels) := by
      rw [hchain, List.append_assoc, List.cons_append, ← hkept]
      exact selectContextEntries_split hc' hafter hbefore'
    rw [hselect, selectContextEntries_split hcomp hpost hbefore]
    simp only [List.cons_append, contextMessages_cons, contextMessages_append,
      contextMessages_rechain, contextMessages_labels hlabel, List.append_nil,
      projects_rechained, List.append_cancel_left_eq, List.append_cancel_right_eq]
    rw [contextMessages_kept_rechain hnodup.1]
    constructor
    · intro hkeeps c₁ hc₁ pre₁ post₁ hpath
      obtain rfl := Option.some.inj (hlatest.symm.trans hc₁)
      have hpre : pre₁ = pre := by
        have hi := findIdx?_pre hbefore post
        have hids : (entryIds (pre₁ ++ c.entry :: post₁)).Nodup := by
          rw [← hpath]
          exact h.nodup
        rw [entryIds_append, entryIds_cons, List.nodup_append] at hids
        have hi₁ := findIdx?_pre (fun x hx =>
          hids.2.2 x.id (mem_entryIds.mpr ⟨x, hx, rfl⟩) c.entry.id (List.mem_cons_self ..)) post₁
        rw [← hpath, hi] at hi₁
        exact ((List.append_inj hpath (Option.some.inj hi₁)).1).symm
      rw [hpre]
      exact hkeeps
    · intro hsurvives
      exact hsurvives c hlatest pre post rfl

/-! ## The labels of the extracted path -/

/-- Only non-empty labels are stored. -/
theorem labelFold_truthy {t l : String} (h : (labelFold es).get t = some l) : truthy l = true := by
  induction es using List.reverseRecOn with
  | nil => cases h
  | append_singleton es e ih =>
    rw [labelFold, List.foldl_append, ← labelFold, List.foldl_cons, List.foldl_nil] at h
    unfold applyLabel at h
    split at h
    · rename_i target label heq
      split at h
      · rename_i hl
        rw [OrdMap.get_set] at h
        split at h
        · obtain rfl := Option.some.inj h
          exact hl
        · exact ih h
      · rw [OrdMap.get_delete] at h
        split at h
        · cases h
        · exact ih h
    · rw [OrdMap.get_delete] at h
      split at h
      · cases h
      · exact ih h
    · exact ih h

theorem foldl_applyLabel_rechain (labels : OrdMap String String) (prev : Option String)
    (path : List SessionEntry) : (rechain prev path).foldl applyLabel labels = labels := by
  have hall : ∀ e ∈ rechain prev path, e.isLabel = false := by
    intro e he
    obtain ⟨x, -, hx, -, hbody⟩ := mem_rechain he
    rw [SessionEntry.isLabel, hbody]
    exact hx
  generalize rechain prev path = es at hall
  induction es with
  | nil => rfl
  | cons e rest ih =>
    rw [List.foldl_cons, applyLabel_of_not_label (hall e (List.mem_cons_self ..))]
    exact ih fun x hx => hall x (List.mem_cons_of_mem _ hx)

theorem get_foldl_labelEntries (env : Env) (t : String) :
    ∀ {ls : List LabelToWrite} {used : List String} {parentId : Option String}
      {labels : OrdMap String String}, (∀ l ∈ ls, truthy l.label = true) →
      (ls.map (·.targetId)).Nodup →
      ((labelEntries env used parentId ls).foldl applyLabel labels).get t =
        ((ls.find? fun l => l.targetId = t).map (·.label)).or (labels.get t)
  | [], _, _, _, _, _ => rfl
  | l :: rest, used, parentId, labels, htruthy, hnodup => by
    obtain ⟨hl, hrest⟩ := List.forall_mem_cons.mp htruthy
    rw [List.map_cons, List.nodup_cons] at hnodup
    rw [labelEntries, List.foldl_cons, get_foldl_labelEntries env t hrest hnodup.2,
      List.find?_cons]
    simp only [applyLabel, hl, if_true, OrdMap.get_set]
    by_cases ht : l.targetId = t
    · have hnone : rest.find? (fun x => decide (x.targetId = t)) = none := by
        rw [List.find?_eq_none]
        intro x hx heq
        rw [decide_eq_true_eq] at heq
        exact hnodup.1 (List.mem_map.mpr ⟨x, hx, heq.trans ht.symm⟩)
      simp [ht, hnone]
    · simp [ht, Ne.symm ht]

theorem labelsToWrite_targets (m : SessionManager) (ids : List String) :
    (m.labelsToWrite ids).map (·.targetId) = m.labelsById.keys.filter (· ∈ ids) := by
  rw [labelsToWrite, List.map_map, OrdMap.keys, List.filter_map]
  rfl

theorem find?_labelsToWrite (m : SessionManager) {ids : List String} {t : String} (ht : t ∈ ids) :
    ((m.labelsToWrite ids).find? fun l => l.targetId = t).map (·.label) = m.getLabel t := by
  rw [getLabel]
  cases hfind : (m.labelsToWrite ids).find? fun l => decide (l.targetId = t) with
  | none =>
    rw [List.find?_eq_none] at hfind
    symm
    rw [Option.map_none, OrdMap.get_eq_none]
    intro hkey
    have hmem : t ∈ (m.labelsToWrite ids).map (·.targetId) := by
      rw [labelsToWrite_targets]
      simp [hkey, ht]
    obtain ⟨l, hl, heq⟩ := List.mem_map.mp hmem
    exact hfind l hl (by simpa using heq)
  | some l =>
    have hl := List.mem_of_find?_eq_some hfind
    have htarget := List.find?_some hfind
    rw [decide_eq_true_eq] at htarget
    obtain ⟨⟨k, label⟩, hk, rfl⟩ := List.mem_map.mp hl
    subst htarget
    exact (OrdMap.get_eq_some.mpr (List.mem_of_mem_filter hk)).symm

variable {m : SessionManager}

theorem getLabel_branched (h : SessionInvariant m) (env : Env) (path : List SessionEntry)
    {t : String} (ht : t ∈ entryIds (rechain none path)) :
    (labelFold (m.branchedEntries env path)).get t = m.getLabel t := by
  have htruthy : ∀ l ∈ m.labelsToWrite (entryIds (rechain none path)),
      truthy l.label = true := by
    intro l hl
    obtain ⟨⟨k, label⟩, hk, rfl⟩ := List.mem_map.mp hl
    have hget := OrdMap.get_eq_some.mpr (List.mem_of_mem_filter hk)
    rw [h.labels] at hget
    exact labelFold_truthy hget
  have hnodup : ((m.labelsToWrite (entryIds (rechain none path))).map (·.targetId)).Nodup := by
    rw [labelsToWrite_targets]
    exact m.labelsById.nodup.filter _
  rw [labelFold, branchedEntries, ← entryIds, List.foldl_append, foldl_applyLabel_rechain,
    get_foldl_labelEntries env t htruthy hnodup, find?_labelsToWrite m ht]
  simp

/-! ## Extraction -/

/-- The context after the extraction is the context of the branch before
it, and retained entries keep their labels. -/
def BranchPreserved (m : SessionManager) (leafId : String) (out : Outcome) : Prop :=
  (∃ context, Eagent.buildSessionContext m.getEntries (some (some leafId)) none = some context ∧
    out.manager.buildSessionContext = some context) ∧
  ∀ e ∈ out.manager.getEntries, e.isLabel = false →
    out.manager.getLabel e.id = m.getLabel e.id

theorem buildSessionPath_branch (h : SessionInvariant m) (he : e ∈ m.getEntries) :
    buildSessionPath m.getEntries (some (some e.id)) none = m.getBranch (some e.id) := by
  have hget := h.get_byId.mpr ⟨he, rfl⟩
  rw [h.byId] at hget
  rw [buildSessionPath, SessionManager.getBranch, h.byId]
  simp only [buildEntryIndex, pathLeaf, h.tree.truthy e he, hget, if_true, Option.getD_none,
    Option.some_or, Option.filter_some, reduceCtorEq, Option.some.injEq, if_false]

/-- Extracting the branch of an entry preserves the conversation if and
only if the latest compaction on it does not keep from a label. -/
theorem branchPreserved_iff {m : SessionManager} (hm : Reachable m) {env : Env}
    (hfresh : env.Fresh) {leafId : String} (hleaf : leafId ∈ entryIds m.getEntries) :
    ∃ out, m.createBranchedSession env leafId = .ok out ∧
      (BranchPreserved m leafId out ↔
        ∀ path, m.getBranch (some leafId) = some path → FirstKeptSurvives path) := by
  have h := hm.invariant
  obtain ⟨e, he, rfl⟩ := mem_entryIds.mp hleaf
  obtain ⟨path, hpath, hlinear, hlast, -⟩ := h.getBranch he
  have hne : path ≠ [] := by
    rintro rfl
    cases hlast
  obtain ⟨out, hout⟩ := createBranchedSession_isOk env hpath hne
  refine ⟨out, hout, ?_⟩
  obtain ⟨path', hd, sessionId, sessionFile, flushed, hpath', -, hmanager⟩ :=
    createBranchedSession_ok hout
  obtain rfl := Option.some.inj (hpath.symm.trans hpath')
  have hfile : ({ m with
      fileEntries := .session hd :: (m.branchedEntries env path).map .entry
      sessionId
      sessionFile } : SessionManager).fileEntries =
      .session hd :: (m.branchedEntries env path).map .entry := rfl
  have hindex := buildIndex_eq hfile
  have hentries : out.manager.getEntries = m.branchedEntries env path := by
    rw [hmanager]
    exact getEntries_buildIndex hfile
  have hbefore : Eagent.buildSessionContext m.getEntries (some (some e.id)) none =
      some (contextOfPath path) := by
    rw [Eagent.buildSessionContext, buildSessionPath_branch h he, hpath]
    rfl
  have hafter : out.manager.buildSessionContext =
      some (contextOfPath (m.branchedEntries env path)) := by
    have hlast := buildSessionPath_last (branchedEntries_linear hfresh m hlinear)
    rw [SessionManager.buildSessionContext, hentries, hmanager, hindex,
      Eagent.buildSessionContext]
    dsimp only
    rw [entryIds, hlast]
    rfl
  have hcontext : contextOfPath (m.branchedEntries env path) = contextOfPath path ↔
      FirstKeptSurvives path := by
    rw [← messages_branched_iff env m hlinear, contextOfPath, contextOfPath,
      getSessionContextSettings_branched]
    simp
  have hlabels : ∀ x ∈ out.manager.getEntries, x.isLabel = false →
      out.manager.getLabel x.id = m.getLabel x.id := by
    intro x hx hl
    rw [hentries, branchedEntries] at hx
    rcases List.mem_append.mp hx with hx | hx
    · rw [hmanager, hindex]
      exact getLabel_branched h env path (mem_entryIds.mpr ⟨x, hx, rfl⟩)
    · rw [isLabel_labelEntries x hx] at hl
      cases hl
  constructor
  · rintro ⟨⟨context, hb, ha⟩, -⟩ path' hpath'
    obtain rfl := Option.some.inj (hpath.symm.trans hpath')
    rw [hbefore] at hb
    rw [hafter, ← hb] at ha
    exact hcontext.mp (Option.some.inj ha)
  · intro hsurvives
    refine ⟨⟨_, hbefore, ?_⟩, hlabels⟩
    rw [hafter, hcontext.mpr (hsurvives path hpath)]

/-! ### A compaction that keeps from a label -/

private def said : AgentMessage := .user ⟨some (.string "text"), 0⟩

private def replied : AgentMessage :=
  .assistant
    { content := some [.text "text"], provider := "p", model := "m", usage := none
      stopReason := .stop, timestamp := 0 }

private def inMemorySession : SessionManager :=
  { sessionId := "0", sessionFile := none, sessionDir := "", cwd := "/", persist := false
    flushed := false
    fileEntries := [.session ⟨some 3, "0", "1970-01-01T00:00:00.000Z", "/", none⟩]
    byId := .empty, labelsById := .empty, labelTimestampsById := .empty, leafId := none }

def labelledTurns : List (Env × SessionOp) :=
  [ (drawing "u1", .appendMessage said), (drawing "a1", .appendMessage replied),
    (drawing "l1", .appendLabelChange "a1" (some "here")),
    (drawing "u2", .appendMessage said), (drawing "a2", .appendMessage replied) ]

/-- The turns compacted, keeping two tokens: the cut before `u2` has moved
back onto the label. -/
def labelledCompaction : List (Env × SessionOp) :=
  labelledTurns ++ [(drawing "c1", .appendCompaction "s" "l1" 4 none none)]

theorem reachable_of_run {calls : List (Env × SessionOp)} (hfresh : ∀ call ∈ calls, call.1.Fresh)
    (h : SessionOp.run calls inMemorySession = .ok m) :
    Reachable m :=
  Reachable.run (@Reachable.create (drawing "s") _ _ false {} _ rfl) hfresh h

theorem labelledCompaction_fresh : ∀ call ∈ labelledCompaction, call.1.Fresh := by
  intro call hcall
  simp only [labelledCompaction, labelledTurns, List.cons_append, List.nil_append, List.mem_cons,
    List.not_mem_nil, or_false] at hcall
  rcases hcall with rfl | rfl | rfl | rfl | rfl | rfl <;> exact drawing_fresh rfl

/-- Without a compaction the branch of the last reply survives. -/
theorem branchPreserved_iff_labelledTurns :
    ∃ m out, SessionOp.run labelledTurns inMemorySession = .ok m ∧
      m.createBranchedSession (drawing "n") "a2" = .ok out ∧ BranchPreserved m "a2" out := by
  have hfacts : (SessionOp.run labelledTurns inMemorySession).toOption.any (fun m =>
      decide ("a2" ∈ entryIds m.getEntries) &&
        (m.getBranch (some "a2")).all fun path => (latestCompaction path).isNone) = true := by
    decide
  cases hrun : SessionOp.run labelledTurns inMemorySession with
  | error e => rw [hrun] at hfacts; cases hfacts
  | ok m =>
      rw [hrun] at hfacts
      simp only [Except.toOption, Option.any_some, Bool.and_eq_true, decide_eq_true_eq,
        Option.all_eq_true, Option.isNone_iff_eq_none] at hfacts
      have hm := reachable_of_run
        (fun call hcall => labelledCompaction_fresh call (List.mem_append_left _ hcall)) hrun
      obtain ⟨out, hout, hiff⟩ := branchPreserved_iff hm
        (drawing_fresh rfl : (drawing "n").Fresh) hfacts.1
      refine ⟨m, out, rfl, hout, hiff.mpr ?_⟩
      intro path hpath c hc
      rw [hfacts.2 path hpath] at hc
      cases hc

/-- The compaction that keeps from the label loses its kept messages when
its branch is extracted. -/
theorem labelledCompaction_not_preserved :
    (∃ m path prep, SessionOp.run labelledTurns inMemorySession = .ok m ∧
      m.getBranch none = some path ∧ prepareCompaction path ⟨true, 0, 2⟩ = some prep ∧
      prep.firstKeptEntryId = "l1" ∧ prep.tokensBefore = 4) ∧
    ∃ m out, SessionOp.run labelledCompaction inMemorySession = .ok m ∧ Reachable m ∧
      m.createBranchedSession (drawing "n") "c1" = .ok out ∧ ¬ BranchPreserved m "c1" out := by
  constructor
  · have hfacts : (SessionOp.run labelledTurns inMemorySession).toOption.any (fun m =>
        (m.getBranch none).any fun path => (prepareCompaction path ⟨true, 0, 2⟩).any fun prep =>
          prep.firstKeptEntryId = "l1" && prep.tokensBefore = 4) = true := by
      decide
    cases hrun : SessionOp.run labelledTurns inMemorySession with
    | error e => rw [hrun] at hfacts; cases hfacts
    | ok m =>
        rw [hrun] at hfacts
        simp only [Except.toOption, Option.any_some, Option.any_eq_true, Bool.and_eq_true,
          decide_eq_true_eq] at hfacts
        obtain ⟨path, hpath, prep, hprep, hid, htokens⟩ := hfacts
        exact ⟨m, path, prep, rfl, hpath, hprep, hid, htokens⟩
  · have hfacts : (SessionOp.run labelledCompaction inMemorySession).toOption.any (fun m =>
        (m.createBranchedSession (drawing "n") "c1").toOption.any fun out =>
          Eagent.buildSessionContext m.getEntries (some (some "c1")) none ≠
            out.manager.buildSessionContext) = true := by
      decide
    cases hrun : SessionOp.run labelledCompaction inMemorySession with
    | error e => rw [hrun] at hfacts; cases hfacts
    | ok m =>
        rw [hrun] at hfacts
        simp only [Except.toOption, Option.any_some] at hfacts
        cases hout : m.createBranchedSession (drawing "n") "c1" with
        | error e => rw [hout] at hfacts; cases hfacts
        | ok out =>
            rw [hout] at hfacts
            simp only [Option.any_some, decide_eq_true_eq] at hfacts
            refine ⟨m, out, rfl, reachable_of_run labelledCompaction_fresh hrun, hout, ?_⟩
            rintro ⟨⟨context, hb, ha⟩, -⟩
            exact hfacts (hb.trans ha.symm)

end Eagent
