import Eagent.SessionInvariant

/-!
# What the shape of a context depends on

The outline of an entry leaves out its time and what a compaction says. Two
sessions with the same outlines have contexts of the same shape: messages of
the same kinds, in the same order. The path, the latest compaction and the
kept entries are found by ids alone, so that each of these functions commutes
with taking outlines.
-/

/-! ## Maps and walks under a function -/

namespace OrdMap

variable {κ β γ : Type*}

/-- The same keys, each value under `f`. -/
def mapValues (f : β → γ) (m : OrdMap κ β) : OrdMap κ γ where
  entries := m.entries.map fun e => (e.1, f e.2)
  nodup := by
    rw [List.map_map]
    exact m.nodup

theorem keys_mapValues (f : β → γ) (m : OrdMap κ β) : (m.mapValues f).keys = m.keys := by
  simp only [keys, mapValues, List.map_map]
  rfl

theorem size_mapValues (f : β → γ) (m : OrdMap κ β) : (m.mapValues f).size = m.size := by
  simp only [size, mapValues, List.length_map]

variable [DecidableEq κ]

theorem get_mapValues (f : β → γ) (m : OrdMap κ β) (k : κ) :
    (m.mapValues f).get k = (m.get k).map f := by
  suffices h : ∀ es : List (κ × β),
      lookupIn k (es.map fun e => (e.1, f e.2)) = (lookupIn k es).map f from h m.entries
  intro es
  induction es with
  | nil => rfl
  | cons e rest ih =>
    obtain ⟨l, b⟩ := e
    by_cases hl : l = k
    · simp [lookupIn, hl]
    · simp [lookupIn, hl, ih]

theorem set_mapValues (f : β → γ) (m : OrdMap κ β) (k : κ) (b : β) :
    (m.set k b).mapValues f = (m.mapValues f).set k (f b) := by
  suffices h : ∀ es : List (κ × β),
      (setIn k b es).map (fun e => (e.1, f e.2)) = setIn k (f b) (es.map fun e => (e.1, f e.2)) from
    OrdMap.ext (h m.entries)
  intro es
  induction es with
  | nil => rfl
  | cons e rest ih =>
    obtain ⟨l, c⟩ := e
    by_cases hl : l = k
    · simp [setIn, hl]
    · simp [setIn, hl, ih]

end OrdMap

/-- A walk under a function that commutes with the successors. -/
theorem RootPath.walk_map {α β : Type*} {next : α → Option α} {next' : β → Option β}
    {f : α → β} (hnext : ∀ x, next' (f x) = (next x).map f) (n : Nat) (x : α) :
    walk next' n (f x) = (walk next n x).map (List.map f) := by
  induction n generalizing x with
  | zero => rfl
  | succ n ih =>
    rw [walk, walk, hnext]
    cases next x with
    | none => rfl
    | some y =>
      simp only [Option.map_some, ih, Option.map_map]
      rfl

namespace Eagent

/-! ## Outlines -/

/-- A message without its time. -/
def AgentMessage.untimed : AgentMessage → AgentMessage
  | .user m => .user { m with timestamp := 0 }
  | .assistant m => .assistant { m with timestamp := 0 }
  | .toolResult m => .toolResult { m with timestamp := 0 }
  | .bashExecution m => .bashExecution { m with timestamp := 0 }
  | .custom m => .custom { m with timestamp := 0 }
  | .branchSummary m => .branchSummary { m with timestamp := 0 }
  | .compactionSummary m => .compactionSummary { m with timestamp := 0 }

/-- As far as the session looks at a message of the transcript: the stop
reason of an assistant message. -/
def AgentMessage.kind : AgentMessage → Option StopReason
  | .assistant m => some m.stopReason
  | _ => none

theorem AgentMessage.isAssistant_eq (m : AgentMessage) : m.isAssistant = m.kind.isSome := by
  cases m <;> rfl

def EntryBody.outline : EntryBody → EntryBody
  | .message m => .message m.untimed
  | .compaction _ firstKeptEntryId _ _ _ => .compaction "" firstKeptEntryId 0 none none
  | body => body

def SessionEntry.outline (e : SessionEntry) : SessionEntry :=
  { e with timestamp := "", body := e.body.outline }

def CompactionEntry.cut (c : CompactionEntry) : String × String :=
  (c.entry.id, c.firstKeptEntryId)

section Outlines

variable (e : SessionEntry) (es : List SessionEntry)

theorem kinds_projection_outline :
    (sessionEntryToContextMessages e.outline).map AgentMessage.kind =
      (sessionEntryToContextMessages e).map AgentMessage.kind := by
  obtain ⟨id, parentId, timestamp, body⟩ := e
  cases body with
  | message m => cases m <;> rfl
  | branchSummary fromId summary details fromHook =>
    simp only [sessionEntryToContextMessages, SessionEntry.outline, EntryBody.outline]
    split <;> simp only [List.map_cons, List.map_nil, AgentMessage.kind]
  | compaction | customMessage =>
    simp only [sessionEntryToContextMessages, SessionEntry.outline, EntryBody.outline,
      List.map_cons, List.map_nil, AgentMessage.kind]
  | _ => rfl

theorem kinds_contextMessages_outline :
    (contextMessages (es.map SessionEntry.outline)).map AgentMessage.kind =
      (contextMessages es).map AgentMessage.kind := by
  induction es with
  | nil => rfl
  | cons e es ih =>
    rw [List.map_cons, contextMessages_cons, contextMessages_cons, List.map_append,
      List.map_append, ih, kinds_projection_outline]

theorem isCompaction_outline : e.outline.isCompaction = e.isCompaction := by
  obtain ⟨id, parentId, timestamp, body⟩ := e
  cases body <;> rfl

theorem cut_compaction?_outline :
    e.outline.compaction?.map CompactionEntry.cut = e.compaction?.map CompactionEntry.cut := by
  match hbody : e.body with
  | .compaction summary firstKeptEntryId tokensBefore details fromHook =>
    have houtline : e.outline.body = .compaction "" firstKeptEntryId 0 none none := by
      rw [SessionEntry.outline, hbody]
      rfl
    rw [SessionEntry.compaction?_of_body houtline, SessionEntry.compaction?_of_body hbody]
    rfl
  | .message _ | .thinkingLevelChange _ | .modelChange .. | .branchSummary .. | .custom ..
  | .customMessage .. | .label .. | .sessionInfo _ =>
    have hno : e.isCompaction = false := by
      rw [SessionEntry.isCompaction, hbody]
    have hnone : ∀ e : SessionEntry, e.isCompaction = false → e.compaction? = none := by
      intro e he
      rw [← Option.not_isSome_iff_eq_none, e.compaction?_isSome, he]
      decide
    rw [hnone e hno, hnone e.outline ((isCompaction_outline e).trans hno)]

theorem cut_latestCompaction_outline :
    (latestCompaction (es.map SessionEntry.outline)).map CompactionEntry.cut =
      (latestCompaction es).map CompactionEntry.cut := by
  induction es using List.reverseRecOn with
  | nil => rfl
  | append_singleton es e ih =>
    have hor : ∀ x y : Option CompactionEntry, (x.or y).map CompactionEntry.cut =
        (x.map CompactionEntry.cut).or (y.map CompactionEntry.cut) := by
      intro x y
      cases x <;> rfl
    simp only [latestCompaction, List.map_append, List.map_cons, List.map_nil,
      List.foldl_append, List.foldl_cons, List.foldl_nil] at ih ⊢
    rw [hor, hor, ih, cut_compaction?_outline]

theorem keptEntries_outline (id : String) (found : Bool) :
    keptEntries id found (es.map SessionEntry.outline) =
      (keptEntries id found es).map SessionEntry.outline := by
  induction es generalizing found with
  | nil => rfl
  | cons e es ih =>
    have hid : e.outline.id = e.id := rfl
    simp only [List.map_cons, keptEntries, hid, ih]
    split <;> rfl

end Outlines

/-! ## The context of a path -/

/-- The entries a compaction leaves, from what the compaction is for the
path. -/
theorem selectContextEntries_outline (path : List SessionEntry) :
    (contextMessages (selectContextEntries (path.map SessionEntry.outline))).map
        AgentMessage.kind =
      (contextMessages (selectContextEntries path)).map AgentMessage.kind := by
  have hcut := cut_latestCompaction_outline path
  unfold selectContextEntries
  match hc : latestCompaction path, hc' : latestCompaction (path.map SessionEntry.outline) with
  | none, none => exact kinds_contextMessages_outline path
  | none, some c' => rw [hc, hc'] at hcut; cases hcut
  | some c, none => rw [hc, hc'] at hcut; cases hcut
  | some c, some c' =>
    rw [hc, hc'] at hcut
    obtain ⟨hid, hkept⟩ := Prod.mk.inj (Option.some.inj hcut)
    have hidx : (path.map SessionEntry.outline).findIdx? (fun e => e.id = c'.entry.id) =
        path.findIdx? (fun e => e.id = c.entry.id) := by
      rw [List.findIdx?_map, hid]
      rfl
    dsimp only
    rw [hidx]
    split
    · exact kinds_contextMessages_outline path
    · have hentry : ∀ c : CompactionEntry,
          (contextMessages [c.entry]).map AgentMessage.kind = [none] := by
        intro c
        simp [contextMessages, sessionEntryToContextMessages, c.body_eq, AgentMessage.kind]
      have hcons : ∀ (c : CompactionEntry) (es : List SessionEntry),
          (contextMessages (c.entry :: es)).map AgentMessage.kind =
            none :: (contextMessages es).map AgentMessage.kind := by
        intro c es
        rw [← List.singleton_append, contextMessages_append, List.map_append, hentry]
        rfl
      rw [List.cons_append, List.cons_append, hcons, hcons, ← List.map_take, ← List.map_drop,
        hkept, keptEntries_outline, ← List.map_append, kinds_contextMessages_outline]

/-! ## The path -/

theorem parentIn_outline (index : OrdMap String SessionEntry) (e : SessionEntry) :
    parentIn (index.mapValues SessionEntry.outline) e.outline =
      (parentIn index e).map SessionEntry.outline := by
  have hparent : e.outline.parentId = e.parentId := rfl
  unfold parentIn
  rw [hparent]
  split
  · split
    · exact OrdMap.get_mapValues ..
    · rfl
  · rfl

theorem buildSessionPath_outline (es : List SessionEntry) (leafId : Option String)
    (index : OrdMap String SessionEntry) :
    buildSessionPath (es.map SessionEntry.outline) (some leafId)
        (some (index.mapValues SessionEntry.outline)) =
      (buildSessionPath es (some leafId) (some index)).map (List.map SessionEntry.outline) := by
  have hleaf : pathLeaf (es.map SessionEntry.outline) (some leafId)
      (index.mapValues SessionEntry.outline) =
        (pathLeaf es (some leafId) index).map SessionEntry.outline := by
    have hor : ∀ x y : Option SessionEntry, (x.map SessionEntry.outline).or
        (y.map SessionEntry.outline) = (x.or y).map SessionEntry.outline := by
      intro x y
      cases x <;> rfl
    unfold pathLeaf
    rw [List.getLast?_map]
    cases leafId with
    | none => exact hor none _
    | some id =>
      dsimp only
      split
      · rw [OrdMap.get_mapValues, hor]
      · exact hor none _
  unfold buildSessionPath buildEntryIndex
  split
  · rfl
  · simp only [Option.getD_some]
    rw [hleaf, OrdMap.size_mapValues]
    cases pathLeaf es (some leafId) index with
    | none => rfl
    | some leaf =>
      simp only [Option.map_some]
      rw [RootPath.walk_map (parentIn_outline index), Option.map_map, Option.map_map]
      congr 1
      funext path
      exact List.map_reverse.symm

/-! ## Sessions of the same outline -/

namespace SessionManager

/-- The same entries, times and compaction texts aside, and the same leaf. -/
structure SameOutline (m m' : SessionManager) : Prop where
  entries : m.getEntries.map SessionEntry.outline = m'.getEntries.map SessionEntry.outline
  index : m.byId.mapValues SessionEntry.outline = m'.byId.mapValues SessionEntry.outline
  leaf : m.leafId = m'.leafId

variable {m m' : SessionManager}

theorem SameOutline.refl (m : SessionManager) : SameOutline m m := ⟨rfl, rfl, rfl⟩

def contextKinds (m : SessionManager) : Option (List (Option StopReason)) :=
  m.buildSessionContext.map fun context => context.messages.map AgentMessage.kind

theorem SameOutline.contextKinds (h : SameOutline m m') : m.contextKinds = m'.contextKinds := by
  have key : ∀ m : SessionManager, m.contextKinds =
      (buildSessionPath (m.getEntries.map SessionEntry.outline) (some m.leafId)
        (some (m.byId.mapValues SessionEntry.outline))).map fun path =>
          (contextMessages (selectContextEntries path)).map AgentMessage.kind := by
    intro m
    rw [buildSessionPath_outline, SessionManager.contextKinds, buildSessionContext,
      Eagent.buildSessionContext, Option.map_map, Option.map_map]
    congr 1
    funext path
    exact (selectContextEntries_outline path).symm
  rw [key, key, h.entries, h.index, h.leaf]

theorem getEntries_appendEntry (m : SessionManager) (entry : SessionEntry) :
    (m.appendEntry entry).manager.getEntries = m.getEntries ++ [entry] := by
  obtain ⟨flushed, h⟩ := appendEntry_manager m entry
  rw [h, getEntries, List.filterMap_append]
  rfl

theorem SameOutline.appendEntry (h : SameOutline m m') {entry entry' : SessionEntry}
    (hentry : entry.outline = entry'.outline) :
    SameOutline (m.appendEntry entry).manager (m'.appendEntry entry').manager := by
  have hid : entry.outline.id = entry'.outline.id := by rw [hentry]
  change entry.id = entry'.id at hid
  refine ⟨?_, ?_, ?_⟩
  · rw [getEntries_appendEntry, getEntries_appendEntry, List.map_append, List.map_append,
      h.entries, List.map_cons, List.map_cons, hentry]
  · obtain ⟨flushed, hm⟩ := appendEntry_manager m entry
    obtain ⟨flushed', hm'⟩ := appendEntry_manager m' entry'
    rw [hm, hm']
    dsimp only
    rw [OrdMap.set_mapValues, OrdMap.set_mapValues, h.index, hid, hentry]
  · obtain ⟨flushed, hm⟩ := appendEntry_manager m entry
    obtain ⟨flushed', hm'⟩ := appendEntry_manager m' entry'
    rw [hm, hm', hid]

theorem SameOutline.nextEntry (h : SameOutline m m') {env env' : Env} {body body' : EntryBody}
    (henv : env.randomUUID = env'.randomUUID) (hbody : body.outline = body'.outline) :
    (m.nextEntry env body).outline = (m'.nextEntry env' body').outline := by
  have hkeys : m.byId.keys = m'.byId.keys := by
    rw [← OrdMap.keys_mapValues SessionEntry.outline m.byId, h.index, OrdMap.keys_mapValues]
  have hid : generateId env m.byId.keys = generateId env' m'.byId.keys := by
    rw [hkeys, generateId, generateId, henv]
  simp only [SessionManager.nextEntry, SessionEntry.outline, hid, h.leaf, hbody]

end SessionManager

end Eagent
