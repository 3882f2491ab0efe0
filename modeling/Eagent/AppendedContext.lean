import Eagent.ContextShape

/-!
# The context after an append

An append puts its entry under the leaf: the path to the leaf grows by it,
and, unless it is a compaction, so does the context.
-/

namespace Eagent

open SessionManager

/-! ## The path to the leaf -/

namespace SessionInvariant

variable {m : SessionManager} {path : List SessionEntry}

theorem buildSessionPath_of_linear (h : SessionInvariant m) (hpath : LinearPath path)
    (hmem : ∀ e ∈ path, e ∈ m.getEntries) (hlast : (entryIds path).getLast? = m.leafId) :
    buildSessionPath m.getEntries (some m.leafId) (some m.byId) = some path := by
  rw [← hlast]
  cases hend : path.getLast? with
  | none =>
    rw [List.getLast?_eq_none_iff] at hend
    subst hend
    rfl
  | some leaf =>
    have hleaf : leaf ∈ path := List.mem_of_getLast? hend
    have hget (e : SessionEntry) (he : e ∈ path) :
        truthy e.id = true ∧ m.byId.get e.id = some e :=
      ⟨hpath.truthy e he, h.get_byId.mpr ⟨hmem e he, rfl⟩⟩
    have hlinked : RootPath.Linked (parentIn m.byId) none path :=
      ParentChain.linked hpath.chain nofun hget
    have hlen : path.length ≤ m.byId.size + 1 := by
      have hsub : entryIds path ⊆ entryIds m.getEntries := by
        intro id hid
        obtain ⟨e, he, rfl⟩ := mem_entryIds.mp hid
        exact mem_entryIds.mpr ⟨e, hmem e he, rfl⟩
      have hle := (List.subperm_of_subset hpath.nodup hsub).length_le
      rw [length_entryIds, List.length_map] at hle
      rw [h.byId, indexEntries_size h.tree.nodup]
      omega
    have hwalk := RootPath.walk_linked hlinked hend hlen
    rw [entryIds, List.getLast?_map, hend]
    simp only [buildSessionPath, buildEntryIndex, pathLeaf, Option.map_some, Option.getD_some,
      hpath.truthy leaf hleaf, if_true, (hget leaf hleaf).2, Option.some_or, reduceCtorEq,
      Option.some.injEq, if_false, hwalk, List.reverse_reverse]

theorem leafPath (h : SessionInvariant m) :
    ∃ path, LinearPath path ∧ (∀ e ∈ path, e ∈ m.getEntries) ∧
      (entryIds path).getLast? = m.leafId := by
  cases hleaf : m.leafId with
  | none => exact ⟨[], ⟨List.nodup_nil, nofun, trivial⟩, nofun, rfl⟩
  | some id =>
    obtain ⟨e, he, rfl⟩ := mem_entryIds.mp (h.leaf id hleaf)
    obtain ⟨path, -, hlinear, hlast, hmem⟩ := h.getBranch he
    refine ⟨path, hlinear, hmem, ?_⟩
    rw [entryIds, List.getLast?_map, hlast]
    rfl

end SessionInvariant

/-! ## One more entry on a path -/

theorem contextMessages_select_append {path : List SessionEntry} {e : SessionEntry}
    (hpath : LinearPath path) (he : e.isCompaction = false) :
    contextMessages (selectContextEntries (path ++ [e])) =
      contextMessages (selectContextEntries path) ++ sessionEntryToContextMessages e := by
  have hlatest : latestCompaction (path ++ [e]) = latestCompaction path := by
    rw [latestCompaction_append, latestCompaction_eq_none.mpr (by simpa using he), Option.none_or]
  cases hc : latestCompaction path with
  | none =>
    rw [selectContextEntries, selectContextEntries, hlatest, hc]
    simp
  | some c =>
    obtain ⟨pre, post, rfl, hpost⟩ := latestCompaction_split hc
    have hcomp := latestCompaction_compaction? hc
    have hpre (x : SessionEntry) (hx : x ∈ pre) : x.id ≠ c.entry.id := by
      have hnodup := hpath.nodup
      rw [List.map_append, List.nodup_append] at hnodup
      exact hnodup.2.2 _ (List.mem_map_of_mem hx) _ List.mem_cons_self
    have hpost' : ∀ x ∈ post ++ [e], x.isCompaction = false := by
      intro x hx
      rcases List.mem_append.mp hx with hx | hx
      · exact hpost x hx
      · obtain rfl := List.mem_singleton.mp hx
        exact he
    rw [List.append_assoc, List.cons_append, selectContextEntries_split hcomp hpost' hpre,
      selectContextEntries_split hcomp hpost hpre]
    simp

/-! ## The context of the session -/

namespace SessionInvariant

variable {m : SessionManager}

theorem context_appendNext (h : SessionInvariant m) {env : Env} (hfresh : env.Fresh)
    {body : EntryBody} (hlabel : (m.nextEntry env body).isLabel = false)
    (hcompaction : (m.nextEntry env body).isCompaction = false) {context : SessionContext}
    (hcontext : m.buildSessionContext = some context) :
    ∃ context', (m.appendEntry (m.nextEntry env body)).manager.buildSessionContext = some context' ∧
      context'.messages =
        context.messages ++ sessionEntryToContextMessages (m.nextEntry env body) := by
  obtain ⟨path, hlinear, hmem, hlast⟩ := h.leafPath
  have hnew := h.appendNext hfresh hlabel
  have hids := h.keys_byId
  generalize hentry : m.nextEntry env body = entry at hnew hcompaction ⊢
  have hid : truthy entry.id = true ∧ entry.id ∉ entryIds m.getEntries := by
    rw [← hids, ← hentry]
    exact hfresh _
  have hparent : entry.parentId = m.leafId := by
    rw [← hentry]
    rfl
  have hlinear' : LinearPath (path ++ [entry]) := by
    refine hlinear.append_entry entry hid.1 (fun e he heq => ?_) (hparent.trans hlast.symm)
    exact hid.2 (heq ▸ mem_entryIds.mpr ⟨e, hmem e he, rfl⟩)
  have hentries := getEntries_appendEntry m entry
  have hleaf : (m.appendEntry entry).manager.leafId = some entry.id := by
    obtain ⟨flushed, hm⟩ := appendEntry_manager m entry
    rw [hm]
  have hpath' := hnew.buildSessionPath_of_linear hlinear'
    (fun e he => by
      rw [hentries]
      rcases List.mem_append.mp he with he | he
      · exact List.mem_append_left _ (hmem e he)
      · exact List.mem_append_right _ he)
    (by rw [hleaf]; simp)
  rw [SessionManager.buildSessionContext, Eagent.buildSessionContext,
    h.buildSessionPath_of_linear hlinear hmem hlast] at hcontext
  obtain rfl := Option.some.inj hcontext
  refine ⟨contextOfPath (path ++ [entry]), ?_, contextMessages_select_append hlinear hcompaction⟩
  rw [SessionManager.buildSessionContext, Eagent.buildSessionContext, hpath']
  rfl

end SessionInvariant

end Eagent
