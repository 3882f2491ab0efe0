import Eagent.Forest
import Eagent.SessionInvariant

/-!
# The session as a tree

`getTree` links the entries into nodes and sorts the children by time. On
every reachable session it returns, and its forest holds every entry
exactly once (`getTree_perm`). `Reachable.tree` collects what holds of
the session tree in every reachable state.
-/

namespace Eagent

/-- The fields of a tree node besides its children. -/
structure SessionTreeNode where
  entry : SessionEntry
  label : Option String
  labelTimestamp : Option String

/-- The nodes under construction, by id, with the ids of their children. -/
abbrev NodeMap := OrdMap String (SessionTreeNode × List String)

namespace SessionManager

/-! ## Building -/

def treeNode (m : SessionManager) (entry : SessionEntry) : SessionTreeNode :=
  ⟨entry, m.labelsById.get entry.id, m.labelTimestampsById.get entry.id⟩

def createNodes (m : SessionManager) (entries : List SessionEntry) : NodeMap :=
  entries.foldl (fun nodeMap e => nodeMap.set e.id (m.treeNode e, [])) .empty

/-- The body of the linking loop: a root, or a child of its parent. -/
def linkNode (state : NodeMap × List String) (entry : SessionEntry) : NodeMap × List String :=
  match entry.parentId with
  | none => (state.1, state.2 ++ [entry.id])
  | some parentId =>
      if parentId = entry.id then (state.1, state.2 ++ [entry.id])
      else match state.1.get parentId with
        | some (parent, children) =>
            (state.1.set parentId (parent, children ++ [entry.id]), state.2)
        | none => (state.1, state.2 ++ [entry.id])

def nodeTime (nodeMap : NodeMap) (id : String) : Nat :=
  ((nodeMap.get id).map fun node => getTime node.1.entry.timestamp).getD 0

/-- The sorting loop: pop a node, sort its children, oldest first, push
them. -/
def sortChildren : Nat → NodeMap → List String → Option NodeMap
  | 0, _, _ => none
  | fuel + 1, nodeMap, stack =>
      match stack.getLast? with
      | none => some nodeMap
      | some id =>
          match nodeMap.get id with
          | none => none
          | some (node, children) =>
              let sorted := children.mergeSort fun a b => nodeTime nodeMap a ≤ nodeTime nodeMap b
              sortChildren fuel (nodeMap.set id (node, sorted)) (stack.dropLast ++ sorted)

/-- The session as a forest. `fuel` bounds the rounds of the sorting loop
and the depth; with too little of it the result is `none`. -/
def getTree (m : SessionManager) (fuel : Nat) : Option (List (Rose SessionTreeNode)) :=
  let linked := m.getEntries.foldl linkNode (m.createNodes m.getEntries, [])
  match sortChildren fuel linked.1 linked.2 with
  | none => none
  | some nodeMap => linked.2.mapM (Rose.grow nodeMap.get fuel)

/-! ## The linked nodes -/

theorem createNodes_get (m : SessionManager) {es : List SessionEntry} (h : EntryTree es)
    {e : SessionEntry} (he : e ∈ es) : (m.createNodes es).get e.id = some (m.treeNode e, []) := by
  have hnodup := h.nodup
  clear h
  induction es using List.reverseRecOn with
  | nil => cases he
  | append_singleton es x ih =>
    rw [createNodes, List.foldl_append, List.foldl_cons, List.foldl_nil, OrdMap.get_set]
    rw [entryIds_append, List.nodup_append] at hnodup
    rcases List.mem_append.mp he with he | he
    · have hne : e.id ≠ x.id :=
        hnodup.2.2 _ (mem_entryIds.mpr ⟨e, he, rfl⟩) _ (List.mem_singleton.mpr rfl)
      rw [if_neg hne]
      exact ih he hnodup.1
    · obtain rfl := List.mem_singleton.mp he
      rw [if_pos rfl]

/-- The nodes of `all` once `es` is linked. -/
structure LinkedTo (m : SessionManager) (all es : List SessionEntry)
    (state : NodeMap × List String) : Prop where
  nodes : ∀ e ∈ all, state.1.get e.id =
    some (m.treeNode e, entryIds (es.filter fun x => x.parentId = some e.id))
  roots : state.2 = entryIds (es.filter fun x => x.parentId = none)

variable {m : SessionManager}

theorem LinkedTo.linkNode {all es : List SessionEntry} {state : NodeMap × List String}
    (h : LinkedTo m all es state) (hall : EntryTree all) {x : SessionEntry} (hx : x ∈ all) :
    LinkedTo m all (es ++ [x]) (linkNode state x) := by
  rw [SessionManager.linkNode]
  cases hp : x.parentId with
  | none =>
    refine ⟨fun e he => ?_, ?_⟩
    · rw [h.nodes e he, List.filter_append]
      simp [hp]
    · simp only [h.roots, List.filter_append, entryIds_append]
      simp [hp]
  | some p =>
    obtain ⟨parent, hparent, rfl, hlt⟩ := hall.parent_rank hx hp
    have hne : parent.id ≠ x.id := by
      intro heq
      rw [heq] at hlt
      exact Nat.lt_irrefl _ hlt
    simp only [if_neg hne, h.nodes parent hparent]
    refine ⟨fun e he => ?_, ?_⟩
    · rw [OrdMap.get_set, List.filter_append]
      by_cases heq : e.id = parent.id
      · obtain rfl := hall.eq_of_id he hparent heq
        simp [hp]
      · rw [if_neg heq, h.nodes e he]
        simp [hp, Ne.symm heq]
    · rw [h.roots, List.filter_append]
      simp [hp]

theorem linked_foldl (m : SessionManager) {all : List SessionEntry} (hall : EntryTree all) :
    ∀ {rest es : List SessionEntry} {state : NodeMap × List String},
      LinkedTo m all es state → (∀ x ∈ rest, x ∈ all) →
      LinkedTo m all (es ++ rest) (rest.foldl SessionManager.linkNode state)
  | [], es, state, h, _ => by
    rw [List.append_nil]
    exact h
  | x :: rest, es, state, h, hrest => by
    have hx := h.linkNode hall (hrest x (List.mem_cons_self ..))
    have := linked_foldl m hall hx fun y hy => hrest y (List.mem_cons_of_mem _ hy)
    rwa [List.append_assoc, List.singleton_append] at this

/-- After the linking loop every entry's children are its own, in file
order, and the roots are the parentless entries. -/
theorem linked_getEntries (m : SessionManager) (h : EntryTree m.getEntries) :
    LinkedTo m m.getEntries m.getEntries
      (m.getEntries.foldl SessionManager.linkNode (m.createNodes m.getEntries, [])) := by
  have hstart : LinkedTo m m.getEntries [] (m.createNodes m.getEntries, []) :=
    ⟨fun e he => by rw [createNodes_get m h he]; rfl, rfl⟩
  exact linked_foldl m h hstart fun _ hx => hx

/-! ## The sorting loop -/

/-- The loop returns, as it pops every node of the forest once, and it
only reorders children. -/
theorem sortChildren_spec {ids : List String} (size : String → Nat) :
    ∀ (fuel : Nat) (nodeMap : NodeMap) {stack : List String},
      (∀ x ∈ ids, ∃ node children, nodeMap.get x = some (node, children) ∧
        (∀ k ∈ children, k ∈ ids) ∧ size x = 1 + (children.map size).sum) →
      (∀ x ∈ stack, x ∈ ids) → (stack.map size).sum < fuel →
      ∃ sorted, sortChildren fuel nodeMap stack = some sorted ∧
        ∀ x ∈ ids, ∀ node children, nodeMap.get x = some (node, children) →
          ∃ children', sorted.get x = some (node, children') ∧ children'.Perm children
  | 0, _, _, _, _, hfuel => absurd hfuel (Nat.not_lt_zero _)
  | fuel + 1, nodeMap, stack, hnodes, hstack, hfuel => by
    cases hlast : stack.getLast? with
    | none =>
      refine ⟨nodeMap, by rw [sortChildren, hlast], ?_⟩
      intro x _ node children hget
      exact ⟨children, hget, List.Perm.refl _⟩
    | some id =>
      obtain ⟨init, rfl⟩ := List.getLast?_eq_some_iff.mp hlast
      obtain ⟨node, children, hget, hkids, hsize⟩ := hnodes id (hstack id (by simp))
      have hstep : sortChildren (fuel + 1) nodeMap (init ++ [id]) =
          sortChildren fuel
            (nodeMap.set id (node, children.mergeSort fun a b =>
              nodeTime nodeMap a ≤ nodeTime nodeMap b))
            (init ++ children.mergeSort fun a b =>
              nodeTime nodeMap a ≤ nodeTime nodeMap b) := by
        rw [sortChildren, hlast]
        simp only [hget, List.dropLast_concat]
      have hperm := children.mergeSort_perm fun a b => nodeTime nodeMap a ≤ nodeTime nodeMap b
      generalize (children.mergeSort fun a b =>
        decide (nodeTime nodeMap a ≤ nodeTime nodeMap b)) = sorted at hstep hperm
      have hsum : (sorted.map size).sum = (children.map size).sum :=
        (hperm.map size).sum_eq
      obtain ⟨out, hout, hall⟩ := sortChildren_spec size fuel
        (nodeMap.set id (node, sorted))
        (by
          intro x hx
          by_cases hxid : x = id
          · subst hxid
            exact ⟨node, sorted, by simp, fun k hk => hkids k (hperm.mem_iff.mp hk),
              by rw [hsum, hsize]⟩
          · obtain ⟨n, ks, hn, hks, hsz⟩ := hnodes x hx
            exact ⟨n, ks, by rw [OrdMap.get_set_ne _ hxid, hn], hks, hsz⟩)
        (by
          intro x hx
          rcases List.mem_append.mp hx with hx | hx
          · exact hstack x (List.mem_append_left _ hx)
          · exact hkids x (hperm.mem_iff.mp hx))
        (by
          simp only [List.map_append, List.sum_append, List.map_cons, List.map_nil,
            List.sum_cons, List.sum_nil] at hfuel ⊢
          omega)
      refine ⟨out, hstep.trans hout, ?_⟩
      intro x hx n ks hn
      by_cases hxid : x = id
      · subst hxid
        obtain ⟨rfl, rfl⟩ := Prod.mk.inj (Option.some.inj (hget.symm.trans hn))
        obtain ⟨ks', hks', hp⟩ := hall x hx node sorted (by simp)
        exact ⟨ks', hks', hp.trans hperm⟩
      · exact hall x hx n ks (by rw [OrdMap.get_set_ne _ hxid, hn])

/-! ## The forest -/

def parentOf (m : SessionManager) (id : String) : Option String :=
  (m.byId.get id).bind (·.parentId)

def childIds (m : SessionManager) (parentId : Option String) : List String :=
  entryIds (m.getEntries.filter fun x => x.parentId = parentId)

section

variable (h : SessionInvariant m)
include h

theorem parentOf_entry {e : SessionEntry} (he : e ∈ m.getEntries) :
    m.parentOf e.id = e.parentId := by
  rw [parentOf, h.get_byId.mpr ⟨he, rfl⟩]
  rfl

theorem childIds_eq (p : Option String) :
    m.childIds p = (entryIds m.getEntries).filter fun id => m.parentOf id = p := by
  rw [childIds, entryIds, entryIds, List.filter_map]
  congr 1
  refine List.filter_congr fun e he => ?_
  simp only [Function.comp_def, parentOf_entry h he]

/-- The ids of a session form a forest under `parentId`, ranked by file
order. -/
theorem parented :
    Rose.Parented (entryIds m.getEntries) m.parentOf (entryRank m.getEntries)
      (fun id => m.childIds (some id)) (m.childIds none) := by
  refine ⟨h.tree.nodup, ?_, ?_, ?_⟩
  · intro id _
    rw [childIds_eq h]
  · rw [childIds_eq h]
  · intro id hid p hp
    obtain ⟨e, he, rfl⟩ := mem_entryIds.mp hid
    rw [parentOf_entry h he] at hp
    obtain ⟨x, hx, rfl, hlt⟩ := h.tree.parent_rank he hp
    exact ⟨mem_entryIds.mpr ⟨x, hx, rfl⟩, hlt⟩

/-- With fuel for one step more than there are entries `getTree` returns a
forest that holds every entry exactly once. -/
theorem getTree_perm {fuel : Nat} (hfuel : m.getEntries.length < fuel) :
    ∃ forest, m.getTree fuel = some forest ∧
      ((Rose.flattenAll forest).map (·.entry)).Perm m.getEntries := by
  have hforest := parented h
  have hbound : ∀ x ∈ entryIds m.getEntries, entryRank m.getEntries x < m.getEntries.length := by
    intro x hx
    obtain ⟨e, he, rfl⟩ := mem_entryIds.mp hx
    exact entryRank_lt he
  have hlinked := linked_getEntries m h.tree
  generalize hstate : m.getEntries.foldl linkNode (m.createNodes m.getEntries, []) = state
    at hlinked
  obtain ⟨nodeMap, roots⟩ := state
  obtain ⟨hnodes, hroots⟩ := hlinked
  obtain rfl : roots = m.childIds none := hroots
  have hnodes : ∀ e ∈ m.getEntries,
      nodeMap.get e.id = some (m.treeNode e, m.childIds (some e.id)) := hnodes
  -- the sorting loop pops as many nodes as the preorder lists
  have hcount := (hforest.preorder_perm hbound (Nat.le_refl _)).length_eq
  rw [List.length_flatMap, length_entryIds] at hcount
  obtain ⟨sorted, hsorted, hreorder⟩ := sortChildren_spec
    (fun x => (Rose.preorder (fun id => m.childIds (some id)) m.getEntries.length x).length)
    fuel nodeMap
    (by
      intro x hx
      obtain ⟨e, he, rfl⟩ := mem_entryIds.mp hx
      exact ⟨_, _, hnodes e he, fun k hk => (hforest.of_mem_kids hx hk).1,
        hforest.length_preorder hbound (Nat.le_refl _) hx⟩)
    (fun x hx => (hforest.of_mem_roots hx).1)
    (by omega)
  have hkids : ∀ x ∈ entryIds m.getEntries,
      (((sorted.get x).map Prod.snd).getD []).Perm (m.childIds (some x)) := by
    intro x hx
    obtain ⟨e, he, rfl⟩ := mem_entryIds.mp hx
    obtain ⟨children, hget, hperm⟩ := hreorder _ hx _ _ (hnodes e he)
    rw [hget]
    exact hperm
  obtain ⟨forest, hgrow, hperm⟩ := (hforest.reorder hkids).growAll_perm sorted.get
    (fun id => ((m.byId.get id).map m.treeNode).getD
      ⟨⟨"", none, "", .sessionInfo none⟩, none, none⟩)
    (by
      intro x hx
      obtain ⟨e, he, rfl⟩ := mem_entryIds.mp hx
      obtain ⟨children, hget, -⟩ := hreorder _ hx _ _ (hnodes e he)
      rw [hget, h.get_byId.mpr ⟨he, rfl⟩]
      rfl)
    hbound (Nat.le_of_lt hfuel)
  refine ⟨forest, ?_, ?_⟩
  · rw [getTree, hstate]
    simp only [hsorted, hgrow]
  · refine (hperm.map _).trans (List.Perm.of_eq ?_)
    rw [entryIds, List.map_map, List.map_map]
    refine (List.map_congr_left fun e he => ?_).trans (List.map_id _)
    simp only [Function.comp_def, h.get_byId.mpr ⟨he, rfl⟩]
    rfl

end

end SessionManager

/-! ## Reachable sessions -/

/-- The tree of a session: distinct ids, parents before children, the leaf
and the index within the entries, the labels folded from them; every walk
to the root ends at a root, and the forest holds every entry once. -/
structure SessionTreeInvariant (m : SessionManager) : Prop where
  nodup : (entryIds m.getEntries).Nodup
  parents : ParentsEarlier m.getEntries
  leaf : ∀ id, m.leafId = some id → (m.byId.get id).isSome = true
  index : ∀ id e, m.byId.get id = some e ↔ e ∈ m.getEntries ∧ e.id = id
  labels : m.labelsById = labelFold m.getEntries
  branches : ∀ e ∈ m.getEntries, ∃ path root, m.getBranch (some e.id) = some path ∧
    path.getLast? = some e ∧ path.head? = some root ∧ root.parentId = none
  forest : ∀ fuel, m.getEntries.length < fuel → ∃ forest, m.getTree fuel = some forest ∧
    ((Rose.flattenAll forest).map (·.entry)).Perm m.getEntries

end Eagent
