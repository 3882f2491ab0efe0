import Mathlib.Algebra.Order.BigOperators.Group.List
import Mathlib.Algebra.Order.Group.Nat
import Eagent.SessionManager

/-!
# The session tree invariant

`fileEntries` lists a header and then entries with distinct ids, each a
child of an earlier one or a root; the id index, the leaf and the label
maps are functions of that list. Every operation keeps this
(`SessionOp.apply_invariant`), so it holds of every reachable session.
-/

namespace Eagent

/-! ## Entry lists -/

def entryIds (es : List SessionEntry) : List String := es.map (·.id)

@[simp] theorem entryIds_nil : entryIds [] = [] := rfl

@[simp] theorem entryIds_cons (e : SessionEntry) (es : List SessionEntry) :
    entryIds (e :: es) = e.id :: entryIds es := rfl

@[simp] theorem entryIds_append (as bs : List SessionEntry) :
    entryIds (as ++ bs) = entryIds as ++ entryIds bs := List.map_append

@[simp] theorem length_entryIds (es : List SessionEntry) : (entryIds es).length = es.length :=
  List.length_map _

theorem mem_entryIds {es : List SessionEntry} {id : String} :
    id ∈ entryIds es ↔ ∃ e ∈ es, e.id = id := List.mem_map

def ParentsEarlier (es : List SessionEntry) : Prop :=
  ∀ i e, es[i]? = some e → ∀ p, e.parentId = some p → p ∈ entryIds (es.take i)

/-- Distinct non-empty ids, and parents before their children. -/
structure EntryTree (es : List SessionEntry) : Prop where
  nodup : (entryIds es).Nodup
  truthy : ∀ e ∈ es, truthy e.id = true
  parents : ParentsEarlier es

theorem EntryTree.nil : EntryTree [] :=
  ⟨List.nodup_nil, by simp, by simp [ParentsEarlier]⟩

theorem EntryTree.append_singleton {es : List SessionEntry} (h : EntryTree es)
    {e : SessionEntry} (htruthy : Eagent.truthy e.id = true) (hfresh : e.id ∉ entryIds es)
    (hparent : ∀ p, e.parentId = some p → p ∈ entryIds es) : EntryTree (es ++ [e]) := by
  refine ⟨?_, ?_, ?_⟩
  · rw [entryIds_append, List.nodup_append]
    refine ⟨h.nodup, List.nodup_singleton _, ?_⟩
    rintro a ha b hb rfl
    obtain rfl := List.mem_singleton.mp hb
    exact hfresh ha
  · intro x hx
    rcases List.mem_append.mp hx with hx | hx
    · exact h.truthy x hx
    · obtain rfl := List.mem_singleton.mp hx
      exact htruthy
  · intro i x hi p hp
    rcases Nat.lt_or_ge i es.length with hlt | hge
    · rw [List.getElem?_append_left hlt] at hi
      rw [List.take_append_of_le_length (Nat.le_of_lt hlt)]
      exact h.parents i x hi p hp
    · rw [List.getElem?_append_right hge] at hi
      obtain ⟨h0, rfl⟩ : i - es.length = 0 ∧ e = x := by
        cases hk : i - es.length with
        | zero => rw [hk] at hi; exact ⟨rfl, Option.some.inj hi⟩
        | succ k => rw [hk] at hi; cases hi
      have hi' : i = es.length := by omega
      rw [hi', List.take_left]
      exact hparent p hp

theorem LinearPath.entryTree {es : List SessionEntry} (h : LinearPath es) : EntryTree es := by
  refine ⟨h.nodup, h.truthy, ?_⟩
  intro i e hi p hp
  have hsplit : es = es.take i ++ e :: es.drop (i + 1) := by
    obtain ⟨hlt, rfl⟩ := List.getElem?_eq_some_iff.mp hi
    rw [List.getElem_cons_drop, List.take_append_drop]
  have hchain := h.chain
  rw [hsplit, ParentChain.append] at hchain
  have hlast := hchain.2.1
  rw [Option.or_none, hp] at hlast
  exact List.mem_of_getLast? hlast.symm

/-! ## Positions as ranks -/

def entryRank (es : List SessionEntry) (id : String) : Nat := (entryIds es).idxOf id

theorem entryRank_eq {es : List SessionEntry} (h : EntryTree es) {i : Nat} {e : SessionEntry}
    (hi : es[i]? = some e) : entryRank es e.id = i := by
  obtain ⟨hlt, rfl⟩ := List.getElem?_eq_some_iff.mp hi
  have := h.nodup.idxOf_getElem i (by simpa [entryIds] using hlt)
  simpa [entryIds, entryRank] using this

theorem entryRank_lt {es : List SessionEntry} {e : SessionEntry} (he : e ∈ es) :
    entryRank es e.id < es.length := by
  have h := List.idxOf_lt_length_of_mem (mem_entryIds.mpr ⟨e, he, rfl⟩)
  rw [entryIds, List.length_map] at h
  exact h

theorem EntryTree.parent_rank {es : List SessionEntry} (h : EntryTree es) {e : SessionEntry}
    (he : e ∈ es) {p : String} (hp : e.parentId = some p) :
    ∃ x ∈ es, x.id = p ∧ entryRank es p < entryRank es e.id := by
  obtain ⟨i, hi⟩ := List.getElem?_of_mem he
  obtain ⟨x, hx, rfl⟩ := mem_entryIds.mp (h.parents i e hi p hp)
  obtain ⟨j, hj⟩ := List.getElem?_of_mem hx
  obtain ⟨hlt, hget⟩ := List.getElem?_eq_some_iff.mp hj
  have hji : j < i := by
    rw [List.length_take] at hlt
    omega
  rw [List.getElem?_take_of_lt hji] at hj
  refine ⟨x, List.mem_of_mem_take hx, rfl, ?_⟩
  rw [entryRank_eq h hj, entryRank_eq h hi]
  exact hji

theorem EntryTree.eq_of_id {es : List SessionEntry} (h : EntryTree es) {a b : SessionEntry}
    (ha : a ∈ es) (hb : b ∈ es) (hid : a.id = b.id) : a = b := by
  have hga := indexEntries_get h.nodup ha
  have hgb := indexEntries_get h.nodup hb
  rw [hid, hgb] at hga
  exact (Option.some.inj hga).symm

/-! ## The invariant -/

open SessionManager in
/-- The labels the entries leave, in file order. -/
def labelFold (es : List SessionEntry) : OrdMap String String := es.foldl applyLabel .empty

open SessionManager in
def labelTimestampFold (es : List SessionEntry) : OrdMap String String :=
  es.foldl applyLabelTimestamp .empty

structure SessionInvariant (m : SessionManager) : Prop where
  header : ∃ h, m.fileEntries = .session h :: m.getEntries.map .entry
  tree : EntryTree m.getEntries
  leaf : ∀ id, m.leafId = some id → id ∈ entryIds m.getEntries
  byId : m.byId = indexEntries m.getEntries
  labels : m.labelsById = labelFold m.getEntries
  labelTimestamps : m.labelTimestampsById = labelTimestampFold m.getEntries

namespace SessionInvariant

variable {m : SessionManager}

theorem keys_byId (h : SessionInvariant m) : m.byId.keys = entryIds m.getEntries := by
  rw [h.byId, OrdMap.keys, indexEntries_entries h.tree.nodup, List.map_map]
  rfl

/-- The index holds exactly the entries. -/
theorem get_byId (h : SessionInvariant m) {id : String} {e : SessionEntry} :
    m.byId.get id = some e ↔ e ∈ m.getEntries ∧ e.id = id := by
  rw [h.byId, OrdMap.get_eq_some, indexEntries_entries h.tree.nodup, List.mem_map]
  constructor
  · rintro ⟨x, hx, heq⟩
    obtain ⟨rfl, rfl⟩ := Prod.mk.inj heq
    exact ⟨hx, rfl⟩
  · rintro ⟨he, rfl⟩
    exact ⟨e, he, rfl⟩

theorem has_byId (h : SessionInvariant m) {id : String} :
    m.byId.has id = true ↔ id ∈ entryIds m.getEntries := by
  rw [OrdMap.has_iff, h.keys_byId]

end SessionInvariant

namespace SessionManager

@[simp] theorem getEntries_cons (h : SessionHeader) (es : List SessionEntry)
    (m : SessionManager) :
    getEntries { m with fileEntries := .session h :: es.map .entry } = es := by
  have hentry : FileEntry.entry? ∘ FileEntry.entry = some := rfl
  rw [getEntries, List.filterMap_cons_none rfl, List.filterMap_map, hentry,
    List.filterMap_some]

/-! ### Appending -/

theorem persistEntry_eq (m : SessionManager) (e : SessionEntry) :
    ∃ flushed, (m.persistEntry e).1 = { m with flushed } := by
  unfold persistEntry
  split
  · exact ⟨m.flushed, rfl⟩
  · split
    · split
      · exact ⟨m.flushed, rfl⟩
      · exact ⟨false, rfl⟩
    · split
      · exact ⟨true, rfl⟩
      · exact ⟨m.flushed, rfl⟩

/-- The state after an append, up to the flag. -/
theorem appendEntry_manager (m : SessionManager) (e : SessionEntry) :
    ∃ flushed, (m.appendEntry e).manager =
      { m with
        fileEntries := m.fileEntries ++ [.entry e]
        byId := m.byId.set e.id e
        leafId := some e.id
        flushed } := by
  obtain ⟨flushed, h⟩ := persistEntry_eq
    { m with
      fileEntries := m.fileEntries ++ [.entry e]
      byId := m.byId.set e.id e
      leafId := some e.id } e
  exact ⟨flushed, h⟩

theorem applyLabel_of_not_label {e : SessionEntry} (h : e.isLabel = false)
    (labels : OrdMap String String) : applyLabel labels e = labels := by
  unfold SessionEntry.isLabel at h
  unfold applyLabel
  split at h
  · cases h
  · rename_i hne
    split
    · rename_i heq
      exact absurd heq (hne _ _)
    · rename_i heq
      exact absurd heq (hne _ _)
    · rfl

theorem applyLabelTimestamp_of_not_label {e : SessionEntry} (h : e.isLabel = false)
    (timestamps : OrdMap String String) : applyLabelTimestamp timestamps e = timestamps := by
  unfold SessionEntry.isLabel at h
  unfold applyLabelTimestamp
  split at h
  · cases h
  · rename_i hne
    split
    · rename_i heq
      exact absurd heq (hne _ _)
    · rename_i heq
      exact absurd heq (hne _ _)
    · rfl

/-- A label change is an append of the label entry, with the maps brought
up to date as `_buildIndex` would. -/
theorem appendLabelChange_ok {m : SessionManager} {env : Env} {targetId : String}
    {label : Option String} {out : Outcome}
    (h : m.appendLabelChange env targetId label = .ok out) :
    targetId ∈ m.byId.keys ∧
      out.writes = (m.appendEntry (m.nextEntry env (.label targetId label))).writes ∧
      out.manager = { (m.appendEntry (m.nextEntry env (.label targetId label))).manager with
        labelsById := applyLabel m.labelsById (m.nextEntry env (.label targetId label))
        labelTimestampsById :=
          applyLabelTimestamp m.labelTimestampsById (m.nextEntry env (.label targetId label)) } := by
  obtain ⟨flushed, hm⟩ := appendEntry_manager m (m.nextEntry env (.label targetId label))
  rw [appendLabelChange] at h
  split at h
  · cases h
  · rename_i hhas
    simp only [Bool.not_eq_true, Bool.not_eq_false', OrdMap.has_iff] at hhas
    cases label with
    | none =>
      obtain rfl := Except.ok.inj h
      refine ⟨hhas, rfl, ?_⟩
      rw [hm]
      rfl
    | some l =>
      cases hl : truthy l with
      | true =>
        simp only [Option.filter_some, hl, if_true, Except.ok.injEq] at h
        subst h
        refine ⟨hhas, rfl, ?_⟩
        rw [hm]
        simp only [applyLabel, applyLabelTimestamp, nextEntry, hl, if_true]
      | false =>
        simp only [Option.filter_some, hl, Bool.false_eq_true, if_false,
          Except.ok.injEq] at h
        subst h
        refine ⟨hhas, rfl, ?_⟩
        rw [hm]
        simp only [applyLabel, applyLabelTimestamp, nextEntry, hl, Bool.false_eq_true,
          if_false]

end SessionManager

open SessionManager

namespace SessionInvariant

variable {m : SessionManager}

section

variable (h : SessionInvariant m)
include h

/-- Appending a fresh entry under the leaf or another entry, with the label
maps brought up to date. -/
theorem appendEntry {e : SessionEntry} (htruthy : truthy e.id = true) (hfresh : e.id ∉ m.byId.keys)
    (hparent : ∀ p, e.parentId = some p → p ∈ entryIds m.getEntries) :
    SessionInvariant { (m.appendEntry e).manager with
      labelsById := applyLabel m.labelsById e
      labelTimestampsById := applyLabelTimestamp m.labelTimestampsById e } := by
  obtain ⟨flushed, hm⟩ := appendEntry_manager m e
  obtain ⟨hd, hheader⟩ := h.header
  have hentries : getEntries { (m.appendEntry e).manager with
      labelsById := applyLabel m.labelsById e
      labelTimestampsById := applyLabelTimestamp m.labelTimestampsById e }
      = m.getEntries ++ [e] := by
    rw [hm]
    simp [getEntries, FileEntry.entry?]
  rw [h.keys_byId] at hfresh
  refine ⟨⟨hd, ?_⟩, ?_, ?_, ?_, ?_, ?_⟩
  · rw [hentries, hm]
    simp [hheader]
  · rw [hentries]
    exact h.tree.append_singleton htruthy hfresh hparent
  · rw [hentries, hm]
    rintro id hid
    obtain rfl := Option.some.inj hid
    simp
  · rw [hentries, hm, indexEntries_append, ← h.byId]
  · rw [hentries, labelFold, List.foldl_append, ← labelFold, ← h.labels]
    rfl
  · rw [hentries, labelTimestampFold, List.foldl_append, ← labelTimestampFold,
      ← h.labelTimestamps]
    rfl

theorem appendEntry_of_not_label {e : SessionEntry} (htruthy : truthy e.id = true)
    (hfresh : e.id ∉ m.byId.keys) (hparent : ∀ p, e.parentId = some p → p ∈ entryIds m.getEntries)
    (hlabel : e.isLabel = false) : SessionInvariant (m.appendEntry e).manager := by
  have hnew := h.appendEntry htruthy hfresh hparent
  obtain ⟨flushed, hm⟩ := appendEntry_manager m e
  rw [applyLabel_of_not_label hlabel, applyLabelTimestamp_of_not_label hlabel, hm] at hnew
  rw [hm]
  exact hnew

/-- The entry every `append*` method builds. -/
theorem appendNext {env : Env} (hfresh : env.Fresh) {body : EntryBody}
    (hlabel : (m.nextEntry env body).isLabel = false) :
    SessionInvariant (m.appendEntry (m.nextEntry env body)).manager :=
  h.appendEntry_of_not_label (hfresh _).1 (hfresh _).2 h.leaf hlabel

theorem withLeaf {leafId : Option String}
    (hleaf : ∀ id, leafId = some id → id ∈ entryIds m.getEntries) :
    SessionInvariant { m with leafId } :=
  ⟨h.header, h.tree, hleaf, h.byId, h.labels, h.labelTimestamps⟩

theorem appendLabelChange {env : Env} (hfresh : env.Fresh) {targetId : String}
    {label : Option String} {out : Outcome}
    (hout : m.appendLabelChange env targetId label = .ok out) : SessionInvariant out.manager := by
  obtain ⟨-, -, hm⟩ := appendLabelChange_ok hout
  rw [hm]
  exact h.appendEntry (hfresh _).1 (hfresh _).2 h.leaf

end

end SessionInvariant

/-! ### Rebuilding the index -/

theorem foldl_indexEntry (es : List SessionEntry) (m : SessionManager) :
    (es.map FileEntry.entry).foldl indexEntry m =
      { m with
        byId := es.foldl (fun index e => index.set e.id e) m.byId
        leafId := (entryIds es).getLast?.or m.leafId
        labelsById := es.foldl applyLabel m.labelsById
        labelTimestampsById := es.foldl applyLabelTimestamp m.labelTimestampsById } := by
  induction es generalizing m with
  | nil => rfl
  | cons e rest ih =>
    rw [List.map_cons, List.foldl_cons, ih]
    simp only [indexEntry, List.foldl_cons, entryIds_cons, List.getLast?_cons]
    cases (entryIds rest).getLast? <;> rfl

theorem buildIndex_eq {m : SessionManager} {hd : SessionHeader} {es : List SessionEntry}
    (h : m.fileEntries = .session hd :: es.map .entry) :
    m.buildIndex =
      { m with
        byId := indexEntries es
        leafId := (entryIds es).getLast?
        labelsById := labelFold es
        labelTimestampsById := labelTimestampFold es } := by
  rw [SessionManager.buildIndex, h, List.foldl_cons, indexEntry, foldl_indexEntry]
  simp only [Option.or_none]
  rfl

theorem getEntries_buildIndex {m : SessionManager} {hd : SessionHeader} {es : List SessionEntry}
    (h : m.fileEntries = .session hd :: es.map .entry) : m.buildIndex.getEntries = es := by
  have hget := getEntries_cons hd es m
  rw [← h] at hget
  rw [buildIndex_eq h]
  exact hget

theorem SessionInvariant.buildIndex {m : SessionManager} {hd : SessionHeader}
    {es : List SessionEntry} (h : m.fileEntries = .session hd :: es.map .entry)
    (htree : EntryTree es) : SessionInvariant m.buildIndex := by
  have hm := buildIndex_eq h
  have hentries := getEntries_buildIndex h
  refine ⟨⟨hd, ?_⟩, ?_, ?_, ?_, ?_, ?_⟩
  · rw [hentries, hm, h]
  · rw [hentries]
    exact htree
  · rw [hentries, hm]
    intro id hid
    exact List.mem_of_getLast? hid
  · rw [hentries, hm]
  · rw [hentries, hm]
  · rw [hentries, hm]

/-! ## The walk to the root -/

namespace SessionInvariant

variable {m : SessionManager}

section

variable (h : SessionInvariant m)
include h

theorem parentIn_byId {e : SessionEntry} (he : e ∈ m.getEntries) :
    (parentIn m.byId e).map (·.id) = e.parentId := by
  unfold parentIn
  cases hp : e.parentId with
  | none => rfl
  | some p =>
    obtain ⟨x, hx, rfl, -⟩ := h.tree.parent_rank he hp
    have hget := h.get_byId.mpr ⟨hx, rfl⟩
    simp only [h.tree.truthy x hx, if_true, hget, Option.map_some]

theorem descends :
    RootPath.Descends (parentIn m.byId) (· ∈ m.getEntries)
      fun e => entryRank m.getEntries e.id := by
  intro x y hx hy
  have hid := h.parentIn_byId hx
  rw [hy, Option.map_some] at hid
  obtain ⟨z, hz, hzid, hlt⟩ := h.tree.parent_rank hx hid.symm
  obtain rfl : z = y := by
    unfold parentIn at hy
    rw [← hid] at hy
    dsimp only at hy
    split at hy
    · exact h.tree.eq_of_id hz (h.get_byId.mp hy).1 hzid
    · cases hy
  exact ⟨hz, hlt⟩

theorem chain_of_linked {es : List SessionEntry} {prev : Option SessionEntry}
    (hes : ∀ e ∈ es, e ∈ m.getEntries) (hl : RootPath.Linked (parentIn m.byId) prev es) :
    ParentChain (prev.map (·.id)) es := by
  induction es generalizing prev with
  | nil => trivial
  | cons e rest ih =>
    have hparent := h.parentIn_byId (hes e (List.mem_cons_self ..))
    rw [hl.1] at hparent
    exact ⟨hparent.symm, ih (fun x hx => hes x (List.mem_cons_of_mem _ hx)) hl.2⟩

theorem getBranch {e : SessionEntry} (he : e ∈ m.getEntries) :
    ∃ path, m.getBranch (some e.id) = some path ∧ LinearPath path ∧ path.getLast? = some e ∧
      ∀ x ∈ path, x ∈ m.getEntries := by
  have hget := h.get_byId.mpr ⟨he, rfl⟩
  have hfuel : entryRank m.getEntries e.id < m.byId.size + 1 := by
    have hsize : m.byId.size = m.getEntries.length := by
      rw [h.byId, indexEntries_size h.tree.nodup]
    have hlt := entryRank_lt he
    omega
  obtain ⟨l, hl⟩ := RootPath.walk_terminates h.descends he hfuel
  obtain ⟨hwalk, hhead⟩ := RootPath.walk_isWalk hl
  obtain ⟨rest, rfl⟩ := List.head?_eq_some_iff.mp hhead
  obtain ⟨hmem, hpair⟩ := hwalk.descends h.descends he
  have hlinked : RootPath.Linked (parentIn m.byId) none ((e :: rest).reverse ++ []) :=
    hwalk.linked hhead trivial
  rw [List.append_nil] at hlinked
  have hsub : ∀ x ∈ (e :: rest).reverse, x ∈ m.getEntries :=
    fun x hx => hmem x (List.mem_reverse.mp hx)
  refine ⟨(e :: rest).reverse, ?_, ⟨?_, ?_, ?_⟩, ?_, hsub⟩
  · rw [SessionManager.getBranch]
    simp only [Option.some_or, Option.filter_some, h.tree.truthy e he, if_true, hget, hl,
      Option.map_some]
  · rw [List.map_reverse, List.nodup_reverse, List.Nodup, List.pairwise_map]
    refine hpair.imp fun {a b} hlt hid => ?_
    rw [hid] at hlt
    exact Nat.lt_irrefl _ hlt
  · exact fun x hx => h.tree.truthy x (hsub x hx)
  · exact h.chain_of_linked hsub hlinked
  · rw [List.getLast?_reverse]
    rfl

theorem getBranch_some {id : String} {path : List SessionEntry}
    (hpath : m.getBranch (some id) = some path) (hne : path ≠ []) :
    LinearPath path ∧ (entryIds path).getLast? = some id ∧ ∀ x ∈ path, x ∈ m.getEntries := by
  have hentry : ∃ e, m.byId.get id = some e := by
    by_contra hnone
    rw [not_exists, ← Option.eq_none_iff_forall_ne_some] at hnone
    rw [SessionManager.getBranch] at hpath
    simp only [Option.some_or, Option.filter_some] at hpath
    split at hpath
    · exact hne (Option.some.inj hpath).symm
    · rename_i heq
      split at heq
      · obtain rfl := Option.some.inj heq
        rw [hnone] at hpath
        exact hne (Option.some.inj hpath).symm
      · cases heq
  obtain ⟨e, hget⟩ := hentry
  obtain ⟨he, rfl⟩ := h.get_byId.mp hget
  obtain ⟨path', hpath', hlinear, hlast, hsub⟩ := h.getBranch he
  obtain rfl := Option.some.inj (hpath.symm.trans hpath')
  refine ⟨hlinear, ?_, hsub⟩
  rw [entryIds, List.getLast?_map, hlast]
  rfl

end

end SessionInvariant

/-! ## Extracting a branch -/

theorem rechain_ids (prev : Option String) (path : List SessionEntry) :
    entryIds (rechain prev path) = entryIds (path.filter fun e => !e.isLabel) := by
  induction path generalizing prev with
  | nil => rfl
  | cons e rest ih =>
    rw [rechain]
    cases he : e.isLabel with
    | true => simp [he, ih]
    | false => simp [he, ih]

theorem rechain_chain (prev : Option String) (path : List SessionEntry) :
    ParentChain prev (rechain prev path) := by
  induction path generalizing prev with
  | nil => trivial
  | cons e rest ih =>
    rw [rechain]
    split
    · exact ih prev
    · exact ⟨rfl, ih (some e.id)⟩

/-- Re-chaining keeps the ids, so it keeps them distinct and non-empty. -/
theorem LinearPath.rechain {path : List SessionEntry} (h : LinearPath path) :
    LinearPath (SessionManager.rechain none path) := by
  have hids := rechain_ids none path
  refine ⟨?_, ?_, rechain_chain none path⟩
  · show (entryIds (SessionManager.rechain none path)).Nodup
    rw [hids]
    exact h.nodup.sublist (List.filter_sublist.map _)
  · intro e he
    have hid : e.id ∈ entryIds (SessionManager.rechain none path) := mem_entryIds.mpr ⟨e, he, rfl⟩
    rw [hids] at hid
    obtain ⟨x, hx, hxid⟩ := mem_entryIds.mp hid
    rw [← hxid]
    exact h.truthy x (List.mem_of_mem_filter hx)

theorem LinearPath.append_labelEntries {env : Env} (hfresh : env.Fresh) :
    ∀ (ls : List LabelToWrite) {es : List SessionEntry}, LinearPath es →
      LinearPath (es ++ labelEntries env (entryIds es) (entryIds es).getLast? ls)
  | [], es, h => by
    rw [labelEntries, List.append_nil]
    exact h
  | l :: rest, es, h => by
    have hid := hfresh (entryIds es)
    have hnext := h.append_entry
      { id := generateId env (entryIds es), parentId := (entryIds es).getLast?,
        timestamp := l.timestamp, body := .label l.targetId (some l.label) }
      hid.1 (fun e he heq => hid.2 (mem_entryIds.mpr ⟨e, he, heq⟩)) rfl
    have hrest := LinearPath.append_labelEntries hfresh rest hnext
    rw [entryIds_append, List.append_assoc] at hrest
    rw [labelEntries]
    simpa using hrest

theorem branchedEntries_linear {env : Env} (hfresh : env.Fresh) (m : SessionManager)
    {path : List SessionEntry} (h : LinearPath path) :
    LinearPath (m.branchedEntries env path) := by
  have hchain := h.rechain
  have hlast : (entryIds (SessionManager.rechain none path)).getLast?.filter truthy =
      (entryIds (SessionManager.rechain none path)).getLast? := by
    cases hl : (entryIds (SessionManager.rechain none path)).getLast? with
    | none => rfl
    | some id =>
      obtain ⟨e, he, rfl⟩ := mem_entryIds.mp (List.mem_of_getLast? hl)
      rw [Option.filter_some, if_pos (hchain.truthy e he)]
  rw [branchedEntries, ← entryIds, hlast]
  exact hchain.append_labelEntries hfresh _

/-- What `createBranchedSession` leaves: the branch of an entry, extracted
and indexed, under a new header. -/
theorem createBranchedSession_ok {m : SessionManager} {env : Env} {leafId : String}
    {out : Outcome} (h : m.createBranchedSession env leafId = .ok out) :
    ∃ path hd sessionId sessionFile flushed, m.getBranch (some leafId) = some path ∧ path ≠ [] ∧
      out.manager =
        { buildIndex { m with
            fileEntries := .session hd :: (m.branchedEntries env path).map .entry
            sessionId
            sessionFile } with flushed } := by
  rw [createBranchedSession] at h
  split at h
  · cases h
  rename_i path hpath
  split at h
  · cases h
  rename_i hne
  have hne : path ≠ [] := by simpa using hne
  dsimp only at h
  split at h
  · split at h
    · obtain rfl := Except.ok.inj h
      exact ⟨path, _, _, _, true, hpath, hne, rfl⟩
    · obtain rfl := Except.ok.inj h
      exact ⟨path, _, _, _, false, hpath, hne, rfl⟩
  · obtain rfl := Except.ok.inj h
    exact ⟨path, _, env.uuidv7, m.sessionFile, _, hpath, hne, rfl⟩

/-- The extraction succeeds wherever the branch is not empty. -/
theorem createBranchedSession_isOk {m : SessionManager} (env : Env) {leafId : String}
    {path : List SessionEntry} (hpath : m.getBranch (some leafId) = some path)
    (hne : path ≠ []) : ∃ out, m.createBranchedSession env leafId = .ok out := by
  rw [createBranchedSession, hpath]
  simp only [List.isEmpty_iff, if_neg hne]
  split
  · split
    · exact ⟨_, rfl⟩
    · exact ⟨_, rfl⟩
  · exact ⟨_, rfl⟩

namespace SessionInvariant

variable {m : SessionManager}

theorem withFlushed (h : SessionInvariant m) (flushed : Bool) :
    SessionInvariant { m with flushed } :=
  ⟨h.header, h.tree, h.leaf, h.byId, h.labels, h.labelTimestamps⟩

theorem createBranchedSession (h : SessionInvariant m) {env : Env} (hfresh : env.Fresh)
    {leafId : String} {out : Outcome} (hout : m.createBranchedSession env leafId = .ok out) :
    SessionInvariant out.manager := by
  obtain ⟨path, hd, sessionId, sessionFile, flushed, hpath, hne, hm⟩ :=
    createBranchedSession_ok hout
  obtain ⟨hlinear, -, -⟩ := h.getBranch_some hpath hne
  rw [hm]
  exact (SessionInvariant.buildIndex rfl
    (branchedEntries_linear hfresh m hlinear).entryTree).withFlushed flushed

theorem newSession {env : Env} {options : NewSessionOptions} {out : Outcome}
    (hout : m.newSession env options = .ok out) : SessionInvariant out.manager := by
  rw [SessionManager.newSession] at hout
  split at hout
  · cases hout
  · obtain rfl := Except.ok.inj hout
    refine ⟨⟨_, rfl⟩, EntryTree.nil, ?_, rfl, rfl, rfl⟩
    intro id hid
    cases hid

theorem branch (h : SessionInvariant m) {id : String} {out : Outcome}
    (hout : m.branch id = .ok out) : SessionInvariant out.manager := by
  rw [SessionManager.branch] at hout
  split at hout
  · cases hout
  · rename_i hhas
    obtain rfl := Except.ok.inj hout
    refine h.withLeaf fun id' hid' => ?_
    obtain rfl := Option.some.inj hid'
    exact h.has_byId.mp (by simpa using hhas)

theorem branchWithSummary (h : SessionInvariant m) {env : Env} (hfresh : env.Fresh)
    {branchFromId : Option String} {summary : String} {details : Option Json}
    {fromHook : Option Bool} {out : Outcome}
    (hout : m.branchWithSummary env branchFromId summary details fromHook = .ok out) :
    SessionInvariant out.manager := by
  rw [SessionManager.branchWithSummary] at hout
  split at hout
  · cases hout
  · rename_i hhas
    obtain rfl := Except.ok.inj hout
    refine (h.withLeaf fun id hid => ?_).appendNext hfresh rfl
    rw [hid, Option.filter_some, ite_eq_right_iff] at hhas
    refine h.has_byId.mp ?_
    by_contra hno
    exact absurd (hhas (by simpa using hno)) (by simp)

theorem apply (h : SessionInvariant m) {env : Env} (hfresh : env.Fresh) {op : SessionOp}
    {out : Outcome} (hout : op.apply env m = .ok out) : SessionInvariant out.manager := by
  cases op with
  | appendMessage message =>
    obtain rfl := Except.ok.inj hout
    exact h.appendNext hfresh rfl
  | appendThinkingLevelChange level =>
    obtain rfl := Except.ok.inj hout
    exact h.appendNext hfresh rfl
  | appendModelChange provider modelId =>
    obtain rfl := Except.ok.inj hout
    exact h.appendNext hfresh rfl
  | appendCompaction summary firstKept tokens details fromHook =>
    obtain rfl := Except.ok.inj hout
    exact h.appendNext hfresh rfl
  | appendCustomEntry customType data =>
    obtain rfl := Except.ok.inj hout
    exact h.appendNext hfresh rfl
  | appendSessionInfo name =>
    obtain rfl := Except.ok.inj hout
    exact h.appendNext hfresh rfl
  | appendCustomMessageEntry customType content display details =>
    obtain rfl := Except.ok.inj hout
    exact h.appendNext hfresh rfl
  | appendLabelChange targetId label => exact h.appendLabelChange hfresh hout
  | branch id => exact h.branch hout
  | resetLeaf =>
    obtain rfl := Except.ok.inj hout
    exact h.withLeaf fun id hid => by cases hid
  | branchWithSummary id summary details fromHook => exact h.branchWithSummary hfresh hout
  | createBranchedSession leafId => exact h.createBranchedSession hfresh hout
  | ensureSessionFile =>
    obtain rfl := Except.ok.inj hout
    rw [SessionManager.ensureSessionFile]
    split
    · exact h
    · split
      · exact h
      · exact h.withFlushed true
  | newSession options => exact newSession hout

end SessionInvariant

/-! ## Reachable sessions -/

/-- The states of a session manager: created, then changed by calls that
return, each with fresh ids. A call that throws changes nothing. -/
inductive Reachable : SessionManager → Prop
  | create {env : Env} {cwd sessionDir : String} {persist : Bool}
      {options : NewSessionOptions} {out : Outcome}
      (h : SessionManager.create env cwd sessionDir persist options = .ok out) :
      Reachable out.manager
  | call {m : SessionManager} {env : Env} {op : SessionOp} {out : Outcome} (hm : Reachable m)
      (hfresh : env.Fresh) (h : op.apply env m = .ok out) : Reachable out.manager

def SessionOp.run : List (Env × SessionOp) → SessionManager → Except CallError SessionManager
  | [], m => .ok m
  | (env, op) :: rest, m =>
      match op.apply env m with
      | .ok out => run rest out.manager
      | .error e => .error e

theorem Reachable.run {m : SessionManager} (hm : Reachable m) :
    ∀ {calls : List (Env × SessionOp)} {m' : SessionManager},
      (∀ call ∈ calls, call.1.Fresh) → SessionOp.run calls m = .ok m' → Reachable m'
  | [], m', _, h => by
    obtain rfl := Except.ok.inj h
    exact hm
  | (env, op) :: rest, m', hfresh, h => by
    rw [SessionOp.run] at h
    split at h
    · rename_i out hout
      have hnext := hm.call (hfresh _ (List.mem_cons_self ..)) hout
      exact hnext.run (fun c hc => hfresh c (List.mem_cons_of_mem _ hc)) h
    · cases h

/-! ### Fresh draws -/

/-- An id longer than all of `used` together. -/
def longId (used : List String) : String :=
  String.ofList (List.replicate ((used.map String.length).sum + 1) 'x')

theorem longId_not_mem (used : List String) : longId used ∉ used := by
  intro hmem
  have hle := List.single_le_sum (by simp) _ (List.mem_map_of_mem (f := String.length) hmem)
  simp only [longId, String.length_ofList, List.length_replicate] at hle
  omega

/-- An environment that draws `id`, where it is free. -/
def drawing (id : String) : Env :=
  { now := "1970-01-01T00:00:00.000Z"
    uuidv7 := "0"
    randomUUID := fun used _ => if id ∈ used then longId used else id }

theorem drawing_fresh {id : String} (hid : truthy id = true) : (drawing id).Fresh := by
  have hdraw : ∀ used i, ((drawing id).randomUUID used i).toList ≠ [] := by
    intro used i
    simp only [drawing]
    split
    · simp [longId]
    · exact truthy_iff.mp hid
  intro used
  rw [generateId]
  cases hfind : ((List.range 100).map fun i => shortId ((drawing id).randomUUID used i)).find?
      (fun id => decide (id ∉ used)) with
  | some short =>
    obtain ⟨i, -, rfl⟩ := List.mem_map.mp (List.mem_of_find?_eq_some hfind)
    refine ⟨truthy_iff.mpr ?_, by simpa using List.find?_some hfind⟩
    rw [Option.getD_some, shortId, String.toList_ofList, ne_eq, List.take_eq_nil_iff, not_or]
    exact ⟨by decide, hdraw used i⟩
  | none =>
    refine ⟨truthy_iff.mpr (hdraw used 100), ?_⟩
    simp only [drawing, Option.getD_none]
    split
    · exact longId_not_mem used
    · assumption

theorem Reachable.invariant {m : SessionManager} (h : Reachable m) : SessionInvariant m := by
  induction h with
  | create h => exact SessionInvariant.newSession h
  | call _ hfresh h ih => exact ih.apply hfresh h

end Eagent
