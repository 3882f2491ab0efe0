import Mathlib.Data.List.Induction
import Eagent.OrdMap
import Eagent.RootPath
import Eagent.SessionEntry

/-!
# The session context

What the model sees of a session: the path from the root to the leaf
(`buildSessionPath`), the part of it the latest compaction leaves
(`buildContextEntries`), and the settings read along it.

`leafId` is `string | null | undefined` in the source; here `none` is
`undefined` and `some none` is `null`. The parent walk is a `while` loop
over ids read from a file; it runs with fuel for one more step than the
index has entries, and `none` is a walk round a cycle.
-/

namespace Eagent

structure ModelRef where
  provider : String
  modelId : String
deriving Repr, DecidableEq

structure SessionContext where
  messages : List AgentMessage
  thinkingLevel : String
  model : Option ModelRef
deriving Repr, DecidableEq

/-! ## The path to the leaf -/

def indexEntries (entries : List SessionEntry) : OrdMap String SessionEntry :=
  entries.foldl (fun index e => index.set e.id e) .empty

def buildEntryIndex (entries : List SessionEntry)
    (byId : Option (OrdMap String SessionEntry)) : OrdMap String SessionEntry :=
  byId.getD (indexEntries entries)

/-- `current.parentId ? index.get(current.parentId) : undefined`. -/
def parentIn (index : OrdMap String SessionEntry) (current : SessionEntry) :
    Option SessionEntry :=
  match current.parentId with
  | some p => if truthy p then index.get p else none
  | none => none

def pathLeaf (entries : List SessionEntry) (leafId : Option (Option String))
    (index : OrdMap String SessionEntry) : Option SessionEntry :=
  let leaf := match leafId with
    | some (some id) => if truthy id then index.get id else none
    | _ => none
  leaf.or entries.getLast?

def buildSessionPath (entries : List SessionEntry) (leafId : Option (Option String))
    (byId : Option (OrdMap String SessionEntry)) : Option (List SessionEntry) :=
  let index := buildEntryIndex entries byId
  if leafId = some none then some []
  else match pathLeaf entries leafId index with
    | none => some []
    | some leaf => (RootPath.walk (parentIn index) (index.size + 1) leaf).map List.reverse

/-! ## Settings along the path -/

structure ContextSettings where
  thinkingLevel : String
  model : Option ModelRef
deriving Repr, DecidableEq

def updateSettings (s : ContextSettings) (entry : SessionEntry) : ContextSettings :=
  match entry.body with
  | .thinkingLevelChange level => { s with thinkingLevel := level }
  | .modelChange provider modelId => { s with model := some ⟨provider, modelId⟩ }
  | .message (.assistant m) => { s with model := some ⟨m.provider, m.model⟩ }
  | _ => s

def getSessionContextSettings (path : List SessionEntry) : ContextSettings :=
  path.foldl updateSettings ⟨"off", none⟩

/-! ## The entries a compaction leaves -/

def latestCompaction (path : List SessionEntry) : Option CompactionEntry :=
  path.foldl (fun c e => e.compaction?.or c) none

/-- The loop over the entries before the compaction: everything from the
first kept entry on. -/
def keptEntries (firstKeptEntryId : String) : Bool → List SessionEntry → List SessionEntry
  | _, [] => []
  | foundFirstKept, entry :: rest =>
      if foundFirstKept || entry.id = firstKeptEntryId then
        entry :: keptEntries firstKeptEntryId true rest
      else keptEntries firstKeptEntryId false rest

/-- `buildContextEntries` after the path is known. -/
def selectContextEntries (path : List SessionEntry) : List SessionEntry :=
  match latestCompaction path with
  | none => path
  | some c =>
      match path.findIdx? (fun e => e.id = c.entry.id) with
      | none => path
      | some compactionIdx =>
          c.entry :: keptEntries c.firstKeptEntryId false (path.take compactionIdx)
            ++ path.drop (compactionIdx + 1)

def buildContextEntries (entries : List SessionEntry) (leafId : Option (Option String))
    (byId : Option (OrdMap String SessionEntry)) : Option (List SessionEntry) :=
  (buildSessionPath entries leafId byId).map selectContextEntries

def contextOfPath (path : List SessionEntry) : SessionContext :=
  let settings := getSessionContextSettings path
  { messages := contextMessages (selectContextEntries path)
    thinkingLevel := settings.thinkingLevel
    model := settings.model }

def buildSessionContext (entries : List SessionEntry) (leafId : Option (Option String))
    (byId : Option (OrdMap String SessionEntry)) : Option SessionContext :=
  (buildSessionPath entries leafId byId).map contextOfPath

/-! ## The index of a list of entries -/

theorem indexEntries_append (es : List SessionEntry) (e : SessionEntry) :
    indexEntries (es ++ [e]) = (indexEntries es).set e.id e := by
  simp [indexEntries]

variable {es : List SessionEntry}

/-- With pairwise-distinct ids the index lists the entries in order. -/
theorem indexEntries_entries (h : (es.map (·.id)).Nodup) :
    (indexEntries es).entries = es.map (fun e => (e.id, e)) := by
  induction es using List.reverseRecOn with
  | nil => rfl
  | append_singleton es e ih =>
    rw [List.map_append, List.nodup_append] at h
    have ih := ih h.1
    have hfresh : e.id ∉ (indexEntries es).keys := by
      rw [OrdMap.keys, ih, List.map_map]
      intro hm
      exact h.2.2 _ hm _ (List.mem_singleton.mpr rfl) rfl
    rw [indexEntries_append, OrdMap.entries_set_fresh e hfresh, ih]
    simp

variable {e : SessionEntry}

theorem indexEntries_get (h : (es.map (·.id)).Nodup) (he : e ∈ es) :
    (indexEntries es).get e.id = some e := by
  rw [OrdMap.get_eq_some, indexEntries_entries h]
  exact List.mem_map.mpr ⟨e, he, rfl⟩

theorem indexEntries_size (h : (es.map (·.id)).Nodup) :
    (indexEntries es).size = es.length := by
  rw [OrdMap.size, indexEntries_entries h, List.length_map]

/-! ## Linear paths -/

def ParentChain : Option String → List SessionEntry → Prop
  | _, [] => True
  | prev, e :: rest => e.parentId = prev ∧ ParentChain (some e.id) rest

/-- A well-formed linear path: unique non-empty ids, chained parents. -/
structure LinearPath (path : List SessionEntry) : Prop where
  nodup : (path.map (·.id)).Nodup
  truthy : ∀ e ∈ path, truthy e.id = true
  chain : ParentChain none path

theorem ParentChain.append {prev : Option String} {as bs : List SessionEntry} :
    ParentChain prev (as ++ bs) ↔
      ParentChain prev as ∧ ParentChain (((as.map (·.id)).getLast?).or prev) bs := by
  induction as generalizing prev with
  | nil => simp [ParentChain]
  | cons a rest ih =>
    simp only [List.cons_append, ParentChain, ih, and_assoc, List.map_cons]
    cases hr : rest.map (·.id) with
    | nil => simp
    | cons b bs' =>
      obtain ⟨z, hz⟩ : ∃ z, (b :: bs').getLast? = some z :=
        ⟨_, List.getLast?_eq_some_getLast (by simp)⟩
      simp only [List.getLast?_cons_cons, hz, Option.some_or]

variable {path : List SessionEntry}

theorem LinearPath.append_entry (h : LinearPath path) (entry : SessionEntry)
    (htruthy : Eagent.truthy entry.id = true) (hfresh : ∀ e ∈ path, e.id ≠ entry.id)
    (hparent : entry.parentId = (path.map (·.id)).getLast?) :
    LinearPath (path ++ [entry]) := by
  refine ⟨?_, ?_, ?_⟩
  · rw [List.map_append, List.nodup_append]
    refine ⟨h.nodup, List.nodup_singleton _, ?_⟩
    intro a ha b hb
    obtain ⟨e, he, rfl⟩ := List.mem_map.mp ha
    obtain rfl := List.mem_singleton.mp hb
    exact hfresh e he
  · intro e he
    rcases List.mem_append.mp he with he | he
    · exact h.truthy e he
    · obtain rfl := List.mem_singleton.mp he
      exact htruthy
  · rw [ParentChain.append]
    exact ⟨h.chain, by rw [hparent, Option.or_none], trivial⟩

theorem ParentChain.linked {index : OrdMap String SessionEntry} :
    ∀ {es : List SessionEntry} {prev : Option SessionEntry},
      ParentChain (prev.map (·.id)) es →
      (∀ p ∈ prev, Eagent.truthy p.id = true ∧ index.get p.id = some p) →
      (∀ e ∈ es, Eagent.truthy e.id = true ∧ index.get e.id = some e) →
      RootPath.Linked (parentIn index) prev es
  | [], _, _, _, _ => trivial
  | e :: rest, prev, h, hprev, hes => by
    refine ⟨?_, ParentChain.linked h.2 ?_ fun x hx =>
      hes x (List.mem_cons_of_mem _ hx)⟩
    · unfold parentIn
      rw [h.1]
      cases prev with
      | none => rfl
      | some p =>
        obtain ⟨ht, hg⟩ := hprev p rfl
        simp [ht, hg]
    · rintro p hp
      obtain rfl := Option.some.inj hp
      exact hes e (List.mem_cons_self ..)

theorem buildSessionPath_linear (h : LinearPath path) :
    buildSessionPath path none none = some path := by
  have hindex : ∀ e ∈ path,
      Eagent.truthy e.id = true ∧ (indexEntries path).get e.id = some e :=
    fun e he => ⟨h.truthy e he, indexEntries_get h.nodup he⟩
  have hlinked : RootPath.Linked (parentIn (indexEntries path)) none path :=
    ParentChain.linked h.chain (by simp) hindex
  cases hlast : path.getLast? with
  | none =>
    rw [List.getLast?_eq_none_iff] at hlast
    subst hlast
    rfl
  | some x =>
    have hwalk := RootPath.walk_linked (n := (indexEntries path).size + 1) hlinked hlast
      (by rw [indexEntries_size h.nodup]; omega)
    simp [buildSessionPath, buildEntryIndex, pathLeaf, hlast, hwalk]

theorem buildSessionPath_last (h : LinearPath path) :
    buildSessionPath path (some (path.map (·.id)).getLast?) (some (indexEntries path)) =
      some path := by
  have hlinear := buildSessionPath_linear h
  cases hlast : path.getLast? with
  | none =>
    rw [List.getLast?_eq_none_iff] at hlast
    subst hlast
    rfl
  | some x =>
    have hx := List.mem_of_getLast? hlast
    rw [buildSessionPath] at hlinear ⊢
    simp only [pathLeaf, buildEntryIndex, List.getLast?_map, hlast, Option.map_some,
      Option.getD_some, Option.getD_none, h.truthy x hx, if_true,
      indexEntries_get h.nodup hx, Option.some_or, Option.none_or, reduceCtorEq,
      Option.some.injEq, if_false] at hlinear ⊢
    exact hlinear

theorem buildSessionContext_linear (h : LinearPath path) :
    buildSessionContext path none none = some (contextOfPath path) := by
  rw [buildSessionContext, buildSessionPath_linear h]
  rfl

/-! ## Locating the latest compaction -/

theorem latestCompaction_append (as bs : List SessionEntry) :
    latestCompaction (as ++ bs) = (latestCompaction bs).or (latestCompaction as) := by
  induction bs using List.reverseRecOn with
  | nil => simp [latestCompaction]
  | append_singleton bs e ih =>
    have hstep : ∀ l : List SessionEntry,
        latestCompaction (l ++ [e]) = e.compaction?.or (latestCompaction l) := by
      intro l
      simp [latestCompaction]
    rw [← List.append_assoc, hstep, hstep, ih, Option.or_assoc]

theorem latestCompaction_eq_none :
    latestCompaction es = none ↔ ∀ e ∈ es, e.isCompaction = false := by
  induction es using List.reverseRecOn with
  | nil => simp [latestCompaction]
  | append_singleton es e ih =>
    rw [latestCompaction_append, Option.or_eq_none_iff, ih]
    have hlast : latestCompaction [e] = none ↔ e.isCompaction = false := by
      rw [← SessionEntry.compaction?_isSome]
      cases h : e.compaction? <;> simp [latestCompaction, h]
    rw [hlast]
    simp only [List.mem_append, List.mem_singleton, or_imp, forall_and, forall_eq]
    exact and_comm

theorem latestCompaction_singleton (e : SessionEntry) :
    latestCompaction [e] = e.compaction? := by
  simp [latestCompaction]

variable {c : CompactionEntry}

/-- The latest compaction splits its path: entries before it, itself, and
a rest without compactions. -/
theorem latestCompaction_split (h : latestCompaction path = some c) :
    ∃ pre post, path = pre ++ c.entry :: post ∧ ∀ e ∈ post, e.isCompaction = false := by
  induction path using List.reverseRecOn with
  | nil => cases h
  | append_singleton es e ih =>
    rw [latestCompaction_append, latestCompaction_singleton] at h
    cases he : e.compaction? with
    | some c' =>
      rw [he] at h
      obtain rfl := Option.some.inj h
      have hc := SessionEntry.compaction?_entry he
      exact ⟨es, [], by rw [hc], by simp⟩
    | none =>
      rw [he] at h
      obtain ⟨pre, post, rfl, hpost⟩ := ih h
      refine ⟨pre, post ++ [e], by simp, ?_⟩
      intro x hx
      rcases List.mem_append.mp hx with hx | hx
      · exact hpost x hx
      · obtain rfl := List.mem_singleton.mp hx
        have := SessionEntry.compaction?_isSome x
        rw [he] at this
        exact this.symm

theorem latestCompaction_compaction? (h : latestCompaction path = some c) :
    c.entry.compaction? = some c := by
  induction path using List.reverseRecOn with
  | nil => cases h
  | append_singleton es e ih =>
    rw [latestCompaction_append, latestCompaction_singleton] at h
    cases he : e.compaction? with
    | none => rw [he] at h; exact ih h
    | some c' =>
      rw [he] at h
      obtain rfl := Option.some.inj h
      rw [SessionEntry.compaction?_entry he, he]

theorem latestCompaction_of_split {pre post : List SessionEntry} (he : e.compaction? = some c)
    (hpost : ∀ x ∈ post, x.isCompaction = false) :
    latestCompaction (pre ++ e :: post) = some c := by
  rw [← List.singleton_append, latestCompaction_append, latestCompaction_append,
    latestCompaction_eq_none.mpr hpost, latestCompaction_singleton, he]
  rfl

theorem selectContextEntries_split {pre post : List SessionEntry} (he : e.compaction? = some c)
    (hpost : ∀ x ∈ post, x.isCompaction = false) (hid : ∀ x ∈ pre, x.id ≠ e.id) :
    selectContextEntries (pre ++ e :: post) =
      e :: keptEntries c.firstKeptEntryId false pre ++ post := by
  have hentry := SessionEntry.compaction?_entry he
  have hidx : (pre ++ e :: post).findIdx? (fun x => decide (x.id = c.entry.id))
      = some pre.length := by
    rw [hentry, List.findIdx?_append, List.findIdx?_eq_none_iff.mpr (by simpa using hid)]
    simp [List.findIdx?_cons]
  rw [selectContextEntries, latestCompaction_of_split he hpost]
  dsimp only
  rw [hidx, hentry]
  simp

/-! ## The kept window -/

theorem keptEntries_true (id : String) (es : List SessionEntry) :
    keptEntries id true es = es := by
  induction es with
  | nil => rfl
  | cons e rest ih => simp [keptEntries, ih]

theorem keptEntries_split {id : String} {pre rest : List SessionEntry} (hpre : ∀ x ∈ pre, x.id ≠ id)
    (he : e.id = id) :
    keptEntries id false (pre ++ e :: rest) = e :: rest := by
  induction pre with
  | nil => simp [keptEntries, he, keptEntries_true]
  | cons x xs ih =>
    have hx := hpre x (List.mem_cons_self ..)
    simp only [List.cons_append, keptEntries, Bool.false_or, decide_eq_true_eq, if_neg hx]
    exact ih fun y hy => hpre y (List.mem_cons_of_mem _ hy)

theorem keptEntries_missing {id : String} (h : ∀ x ∈ es, x.id ≠ id) :
    keptEntries id false es = [] := by
  induction es with
  | nil => rfl
  | cons x xs ih =>
    have hx := h x (List.mem_cons_self ..)
    simp only [keptEntries, Bool.false_or, decide_eq_true_eq, if_neg hx]
    exact ih fun y hy => h y (List.mem_cons_of_mem _ hy)

end Eagent
