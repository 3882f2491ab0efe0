import Eagent.SessionManager

/-!
# Session migration

The lines of a session file of any version, and their migration to the
current one: version 1 has no ids and names the first kept entry of a
compaction by its index, version 2 calls custom messages `hookMessage`.

The entries are changed in place, in file order, so a line that is looked
up by index shows its new id if it stands before the entry at hand, and
what it held before the migration otherwise.
-/

namespace Eagent

/-! ## Lines of any version -/

/-- A compaction with a `firstKeptEntryIndex`. -/
structure IndexedCompaction where
  firstKeptEntryIndex : Nat
  firstKeptEntryId : Option String := none
  summary : String
  tokensBefore : Nat
  details : Option Json := none
  fromHook : Option Bool := none

/-- The same with a first kept id; an absent id is the empty text, which
names no entry. -/
def IndexedCompaction.withId (c : IndexedCompaction) (firstKeptEntryId : Option String) :
    EntryBody :=
  .compaction c.summary (firstKeptEntryId.getD "") c.tokensBefore c.details c.fromHook

/-- What a stored entry records; `current` is any body version 3 has too. -/
inductive StoredBody where
  | current (body : EntryBody)
  | hookMessage (message : CustomMessage)
  | indexedCompaction (compaction : IndexedCompaction)

/-- A stored entry; version 1 has neither id nor parent. -/
structure StoredEntry where
  id : Option String := none
  parentId : Option String := none
  timestamp : String
  body : StoredBody

inductive StoredLine where
  | session (header : SessionHeader)
  | entry (e : StoredEntry)

def StoredLine.header? : StoredLine → Option SessionHeader
  | .session header => some header
  | .entry _ => none

def StoredLine.entry? : StoredLine → Option StoredEntry
  | .session _ => none
  | .entry e => some e

def StoredBody.toBody : StoredBody → EntryBody
  | .current body => body
  | .hookMessage message => .message (.custom message)
  | .indexedCompaction c => c.withId c.firstKeptEntryId

def StoredEntry.toEntry (e : StoredEntry) : SessionEntry :=
  { id := e.id.getD "", parentId := e.parentId, timestamp := e.timestamp, body := e.body.toBody }

/-- The cast of a migrated line. -/
def StoredLine.toFileEntry : StoredLine → FileEntry
  | .session header => .session header
  | .entry e => .entry e.toEntry

/-- The entries of a file without its headers. -/
def sessionEntries (lines : List StoredLine) : List SessionEntry :=
  (lines.filterMap StoredLine.entry?).map StoredEntry.toEntry

/-! ## Random draws -/

/-- The results of `randomUUID()`, call by call; none is empty. -/
structure UuidDraws where
  draw : Nat → String
  nonempty : ∀ k, truthy (draw k) = true

/-- `generateId` reading the draws from position `pos` on: the id, and the
position after the draws it took. -/
def drawId (draws : UuidDraws) (used : List String) (pos : Nat) : String × Nat :=
  match (List.range 100).find? fun i => shortId (draws.draw (pos + i)) ∉ used with
  | some i => (shortId (draws.draw (pos + i)), pos + i + 1)
  | none => (draws.draw (pos + 100), pos + 101)

/-- The start of a non-empty text is not empty. -/
theorem truthy_shortId {id : String} (h : truthy id = true) : truthy (shortId id) = true := by
  rw [truthy_iff] at h ⊢
  rw [shortId, String.toList_ofList]
  cases hid : id.toList with
  | nil => exact absurd hid h
  | cons c rest => simp

/-! ## Migrations -/

/-- `targetEntry.id`, if the index names an entry. -/
def firstKeptId (entries : List StoredLine) (c : IndexedCompaction) : Option String :=
  match entries[c.firstKeptEntryIndex]? with
  | some (.entry targetEntry) => targetEntry.id
  | _ => c.firstKeptEntryId

/-- Convert `firstKeptEntryIndex` to `firstKeptEntryId`. -/
def StoredBody.convertIndex (entries : List StoredLine) : StoredBody → StoredBody
  | .indexedCompaction c => .current (c.withId (firstKeptId entries c))
  | body => body

def StoredEntry.place (e : StoredEntry) (id : String) (prevId : Option String) : StoredEntry :=
  { e with id := some id, parentId := prevId }

/-- The loop of `migrateV1ToV2`, the migrated lines in front. Nothing is
ever added to the set `generateId` consults. -/
def migrateV1Loop (draws : UuidDraws) :
    List StoredLine → Option String → Nat → List StoredLine → List StoredLine
  | entries, _, _, [] => entries
  | entries, prevId, pos, .session header :: rest =>
      migrateV1Loop draws (entries ++ [.session { header with version := some 2 }]) prevId pos
        rest
  | entries, prevId, pos, .entry e :: rest =>
      let (id, pos) := drawId draws [] pos
      let e := e.place id prevId
      let body := e.body.convertIndex (entries ++ .entry e :: rest)
      migrateV1Loop draws (entries ++ [.entry { e with body }]) (some id) pos rest

def migrateV1ToV2 (draws : UuidDraws) (entries : List StoredLine) : List StoredLine :=
  migrateV1Loop draws [] none 0 entries

/-- The role of a `hookMessage` becomes `custom`. -/
def StoredBody.renameRole : StoredBody → StoredBody
  | .hookMessage message => .current (.message (.custom message))
  | body => body

def StoredLine.migrateV2ToV3 : StoredLine → StoredLine
  | .session header => .session { header with version := some 3 }
  | .entry e => .entry { e with body := e.body.renameRole }

def migrateV2ToV3 (entries : List StoredLine) : List StoredLine :=
  entries.map StoredLine.migrateV2ToV3

/-- `header?.version ?? 1` of the first header. -/
def sessionVersion (entries : List StoredLine) : Nat :=
  ((entries.findSome? StoredLine.header?).bind (·.version)).getD 1

def migrateToCurrentVersion (draws : UuidDraws) (entries : List StoredLine) :
    List StoredLine × Bool :=
  let version := sessionVersion entries
  if version ≥ CURRENT_SESSION_VERSION then (entries, false)
  else
    let entries := if version < 2 then migrateV1ToV2 draws entries else entries
    let entries := if version < 3 then migrateV2ToV3 entries else entries
    (entries, true)

def migrateSessionEntries (draws : UuidDraws) (entries : List StoredLine) : List StoredLine :=
  (migrateToCurrentVersion draws entries).1

/-! ## The loop of the first migration -/

@[simp] theorem sessionEntries_append (as bs : List StoredLine) :
    sessionEntries (as ++ bs) = sessionEntries as ++ sessionEntries bs := by
  simp [sessionEntries]

@[simp] theorem sessionEntries_session (header : SessionHeader) :
    sessionEntries [.session header] = [] := rfl

@[simp] theorem sessionEntries_entry (e : StoredEntry) :
    sessionEntries [.entry e] = [e.toEntry] := rfl

section Loop

variable (draws : UuidDraws)

theorem migrateV1Loop_session (done : List StoredLine) (prevId : Option String) (pos : Nat)
    (header : SessionHeader) (rest : List StoredLine) :
    migrateV1Loop draws done prevId pos (.session header :: rest) =
      migrateV1Loop draws (done ++ [.session { header with version := some 2 }]) prevId pos
        rest := rfl

def migratedLine (done : List StoredLine) (prevId : Option String) (pos : Nat)
    (e : StoredEntry) (rest : List StoredLine) : StoredEntry :=
  let placed := e.place (shortId (draws.draw pos)) prevId
  { placed with body := placed.body.convertIndex (done ++ .entry placed :: rest) }

theorem migrateV1Loop_entry (done : List StoredLine) (prevId : Option String) (pos : Nat)
    (e : StoredEntry) (rest : List StoredLine) :
    migrateV1Loop draws done prevId pos (.entry e :: rest) =
      migrateV1Loop draws (done ++ [.entry (migratedLine draws done prevId pos e rest)])
        (some (shortId (draws.draw pos))) (pos + 1) rest := rfl

/-- Migrated lines are not touched again. -/
theorem migrateV1Loop_extends :
    ∀ (rest done : List StoredLine) (prevId : Option String) (pos : Nat),
      done <+: migrateV1Loop draws done prevId pos rest
  | [], _, _, _ => List.prefix_rfl
  | .session _ :: rest, _, prevId, pos =>
    (List.prefix_append _ _).trans (migrateV1Loop_extends rest _ prevId pos)
  | .entry _ :: rest, _, _, pos =>
    (List.prefix_append _ _).trans (migrateV1Loop_extends rest _ _ (pos + 1))

/-- The loop gives each entry the next draw as its id and the entry before
as its parent. -/
theorem migrateV1Loop_entries :
    ∀ (rest done : List StoredLine) (prevId : Option String) (pos : Nat),
      ∃ new, sessionEntries (migrateV1Loop draws done prevId pos rest) =
          sessionEntries done ++ new ∧
        new.map (·.id) = (List.range' pos (sessionEntries rest).length).map
          (fun k => shortId (draws.draw k)) ∧
        ParentChain prevId new
  | [], _, _, _ => ⟨[], by simp [migrateV1Loop], rfl, trivial⟩
  | .session header :: rest, done, prevId, pos => by
    obtain ⟨new, hnew, hids, hchain⟩ := migrateV1Loop_entries rest
      (done ++ [.session { header with version := some 2 }]) prevId pos
    refine ⟨new, ?_, hids, hchain⟩
    rw [migrateV1Loop_session, hnew, sessionEntries_append, sessionEntries_session,
      List.append_nil]
  | .entry e :: rest, done, prevId, pos => by
    obtain ⟨new, hnew, hids, hchain⟩ := migrateV1Loop_entries rest
      (done ++ [.entry (migratedLine draws done prevId pos e rest)])
      (some (shortId (draws.draw pos))) (pos + 1)
    refine ⟨(migratedLine draws done prevId pos e rest).toEntry :: new, ?_, ?_, rfl, hchain⟩
    · rw [migrateV1Loop_entry, hnew, sessionEntries_append, sessionEntries_entry,
        List.append_assoc, List.singleton_append]
    · have hlen : (sessionEntries (.entry e :: rest)).length =
          (sessionEntries rest).length + 1 := rfl
      rw [hlen, List.range'_succ, List.map_cons, List.map_cons, hids]
      rfl

/-- The entry at a later position becomes its migrated line, the lines
before it being final. -/
theorem migrateV1Loop_getElem {e : StoredEntry} :
    ∀ (rest done : List StoredLine) (prevId : Option String) (pos j : Nat),
      rest[j]? = some (.entry e) →
        ∃ done' prevId' pos' rest', done'.length = done.length + j ∧
          done' <+: migrateV1Loop draws done prevId pos rest ∧
          (migrateV1Loop draws done prevId pos rest)[done.length + j]? =
            some (.entry (migratedLine draws done' prevId' pos' e rest'))
  | [], _, _, _, _, h => by simp at h
  | .session _ :: _, _, _, _, 0, h => by cases h
  | .entry e' :: rest, done, prevId, pos, 0, h => by
    obtain rfl : e' = e := by simpa using h
    refine ⟨done, prevId, pos, rest, rfl, migrateV1Loop_extends draws _ _ _ _, ?_⟩
    obtain ⟨tail, htail⟩ := migrateV1Loop_extends draws rest
      (done ++ [.entry (migratedLine draws done prevId pos e' rest)])
      (some (shortId (draws.draw pos))) (pos + 1)
    rw [migrateV1Loop_entry, ← htail]
    simp
  | .session header :: rest, done, prevId, pos, j + 1, h => by
    obtain ⟨done', prevId', pos', rest', hlen, hpre, hget⟩ := migrateV1Loop_getElem rest
      (done ++ [.session { header with version := some 2 }]) prevId pos j h
    have hshift : (done ++ [StoredLine.session { header with version := some 2 }]).length + j =
        done.length + (j + 1) := by simp; omega
    rw [hshift] at hlen hget
    exact ⟨done', prevId', pos', rest', hlen, hpre, hget⟩
  | .entry e' :: rest, done, prevId, pos, j + 1, h => by
    obtain ⟨done', prevId', pos', rest', hlen, hpre, hget⟩ := migrateV1Loop_getElem rest
      (done ++ [.entry (migratedLine draws done prevId pos e' rest)])
      (some (shortId (draws.draw pos))) (pos + 1) j h
    have hshift : (done ++ [StoredLine.entry (migratedLine draws done prevId pos e' rest)]).length
        + j = done.length + (j + 1) := by simp; omega
    rw [hshift] at hlen hget
    exact ⟨done', prevId', pos', rest', hlen, hpre, hget⟩

end Loop

/-! ## The later migration -/

theorem sessionEntries_migrateV2ToV3 (entries : List StoredLine) :
    sessionEntries (migrateV2ToV3 entries) = sessionEntries entries := by
  induction entries with
  | nil => rfl
  | cons line rest ih =>
    cases line with
    | session header => exact ih
    | entry e =>
      refine congrArg₂ List.cons ?_ ih
      obtain ⟨id, parentId, timestamp, body⟩ := e
      cases body <;> rfl

/-! ## Usable trees -/

/-- A file of version 1: a header without a later version first, and every
index of a compaction names an entry before it. -/
structure IsV1Session (entries : List StoredLine) : Prop where
  header : ∃ header rest, entries = .session header :: rest ∧ header.version.getD 1 < 2
  earlier : ∀ (k : Nat) (e : StoredEntry) (c : IndexedCompaction),
    entries[k]? = some (.entry e) → e.body = .indexedCompaction c →
    c.firstKeptEntryIndex < k ∧ ∃ target, entries[c.firstKeptEntryIndex]? = some (.entry target)

/-- What a migrated session has to be: pairwise distinct ids, one chain of
parents in file order, compactions that name the entry their index named, a
path from the last entry over all of them, and nothing left to migrate. -/
structure UsableTree (before after : List StoredLine) : Prop where
  ids : ((sessionEntries after).map (·.id)).Nodup
  chain : ParentChain none (sessionEntries after)
  firstKept : ∀ (k : Nat) (e : StoredEntry) (c : IndexedCompaction),
    before[k]? = some (.entry e) → e.body = .indexedCompaction c →
    ∃ compaction target, after[k]? = some (.entry compaction) ∧
      after[c.firstKeptEntryIndex]? = some (.entry target) ∧
      compaction.body = .current (c.withId target.id)
  path : buildSessionPath (sessionEntries after) none none = some (sessionEntries after)
  again : ∀ draws, migrateSessionEntries draws after = after

theorem sessionVersion_cons (header : SessionHeader) (rest : List StoredLine) :
    sessionVersion (.session header :: rest) = header.version.getD 1 := by
  cases header with
  | mk version id timestamp cwd parentSession => cases version <;> rfl

/-- A file of version 1 goes through both migrations. -/
theorem migrateSessionEntries_v1 {draws : UuidDraws} {entries : List StoredLine}
    (h : IsV1Session entries) :
    migrateSessionEntries draws entries = migrateV2ToV3 (migrateV1ToV2 draws entries) := by
  obtain ⟨header, rest, rfl, hversion⟩ := h.header
  rw [migrateSessionEntries, migrateToCurrentVersion, sessionVersion_cons]
  have hold : ¬ header.version.getD 1 ≥ CURRENT_SESSION_VERSION := by
    rw [CURRENT_SESSION_VERSION]
    omega
  have hlater : header.version.getD 1 < 3 := by omega
  simp only [hold, hversion, hlater, if_true, if_false]

section Migrated

variable {entries : List StoredLine}

theorem migrated_entries (draws : UuidDraws) (h : IsV1Session entries) :
    ((sessionEntries (migrateSessionEntries draws entries)).map (·.id) =
        (List.range (sessionEntries entries).length).map fun k => shortId (draws.draw k)) ∧
      ParentChain none (sessionEntries (migrateSessionEntries draws entries)) := by
  obtain ⟨new, hnew, hids, hchain⟩ := migrateV1Loop_entries draws entries [] none 0
  have hall : sessionEntries (migrateSessionEntries draws entries) = new := by
    rw [migrateSessionEntries_v1 h, sessionEntries_migrateV2ToV3, migrateV1ToV2, hnew]
    rfl
  rw [hall, hids, List.range_eq_range']
  exact ⟨rfl, hchain⟩

variable {draws : UuidDraws}

theorem migrated_linear (h : IsV1Session entries)
    (hdraws : ((List.range (sessionEntries entries).length).map
      fun k => shortId (draws.draw k)).Nodup) :
    LinearPath (sessionEntries (migrateSessionEntries draws entries)) := by
  obtain ⟨hids, hchain⟩ := migrated_entries draws h
  refine ⟨by rw [hids]; exact hdraws, fun e he => ?_, hchain⟩
  have hid : e.id ∈ (List.range (sessionEntries entries).length).map
      fun k => shortId (draws.draw k) := hids ▸ List.mem_map_of_mem he
  obtain ⟨k, -, hk⟩ := List.mem_map.mp hid
  rw [← hk]
  exact truthy_shortId (draws.nonempty k)

theorem getElem?_migrateV2ToV3 {lines : List StoredLine} {k : Nat} {e : StoredEntry}
    (h : lines[k]? = some (.entry e)) :
    (migrateV2ToV3 lines)[k]? = some (.entry { e with body := e.body.renameRole }) := by
  rw [migrateV2ToV3, List.getElem?_map, h]
  rfl

/-- An index is looked up among lines whose ids are final. -/
theorem migrated_firstKept (h : IsV1Session entries) (k : Nat) (e : StoredEntry)
    (c : IndexedCompaction) (hk : entries[k]? = some (.entry e))
    (hbody : e.body = .indexedCompaction c) :
    ∃ compaction target,
      (migrateSessionEntries draws entries)[k]? = some (.entry compaction) ∧
      (migrateSessionEntries draws entries)[c.firstKeptEntryIndex]? = some (.entry target) ∧
      compaction.body = .current (c.withId target.id) := by
  obtain ⟨hlt, old, hold⟩ := h.earlier k e c hk hbody
  obtain ⟨done, prevId, pos, rest, hlen, hpre, hget⟩ :=
    migrateV1Loop_getElem draws entries [] none 0 k hk
  obtain ⟨done', prevId', pos', rest', -, -, htarget⟩ :=
    migrateV1Loop_getElem draws entries [] none 0 c.firstKeptEntryIndex hold
  simp only [List.length_nil, Nat.zero_add] at hlen hget htarget
  rw [migrateSessionEntries_v1 h]
  refine ⟨_, _, getElem?_migrateV2ToV3 hget, getElem?_migrateV2ToV3 htarget, ?_⟩
  -- the target already stands among the migrated lines
  have hindex : c.firstKeptEntryIndex < done.length := by omega
  have hdone : done[c.firstKeptEntryIndex]? =
      some (.entry (migratedLine draws done' prevId' pos' old rest')) := by
    rw [← htarget]
    obtain ⟨tail, htail⟩ := hpre
    rw [← htail, List.getElem?_append_left hindex]
  have hseen : (done ++ .entry (e.place (shortId (draws.draw pos)) prevId) ::
      rest)[c.firstKeptEntryIndex]? =
      some (.entry (migratedLine draws done' prevId' pos' old rest')) := by
    rw [List.getElem?_append_left hindex, hdone]
  have hplaced : (e.place (shortId (draws.draw pos)) prevId).body = .indexedCompaction c := hbody
  simp only [migratedLine, hplaced, StoredBody.convertIndex, firstKeptId, hseen,
    StoredBody.renameRole]

theorem migrated_again (h : IsV1Session entries) (draws' : UuidDraws) :
    migrateSessionEntries draws' (migrateSessionEntries draws entries) =
      migrateSessionEntries draws entries := by
  rw [migrateSessionEntries_v1 h]
  obtain ⟨header, rest, rfl, -⟩ := h.header
  obtain ⟨tail, htail⟩ := migrateV1Loop_extends draws rest
    [.session { header with version := some 2 }] none 0
  have hfirst : migrateV1ToV2 draws (.session header :: rest) =
      .session { header with version := some 2 } :: tail := htail.symm
  rw [hfirst]
  rfl

/-- The first migration gives a usable tree exactly when the draws it takes
are pairwise distinct in their first eight characters. -/
theorem migrated_usable_iff (draws : UuidDraws) (entries : List StoredLine)
    (h : IsV1Session entries) :
    UsableTree entries (migrateSessionEntries draws entries) ↔
      ((List.range (sessionEntries entries).length).map
        fun k => shortId (draws.draw k)).Nodup := by
  obtain ⟨hids, hchain⟩ := migrated_entries draws h
  constructor
  · intro husable
    rw [← hids]
    exact husable.ids
  · intro hdraws
    exact {
      ids := by rw [hids]; exact hdraws
      chain := hchain
      firstKept := migrated_firstKept h
      path := buildSessionPath_linear (migrated_linear h hdraws)
      again := migrated_again h }

end Migrated

/-! ## Two draws that agree -/

def v1Lines : List StoredLine :=
  [.session ⟨none, "s", "2025-01-01T00:00:00.000Z", "/work", none⟩,
   .entry {
     timestamp := "2025-01-01T00:00:01.000Z"
     body := .current (.message (.user ⟨some (.string "hi"), 1⟩)) },
   .entry {
     timestamp := "2025-01-01T00:00:02.000Z"
     body := .indexedCompaction
       { firstKeptEntryIndex := 1, summary := "greeting", tokensBefore := 2 } }]

theorem isV1Session_v1Lines : IsV1Session v1Lines where
  header := ⟨_, _, rfl, by decide⟩
  earlier := by
    intro k e c hk hbody
    match k, hk with
    | 1, hk =>
      cases hk
      cases hbody
    | 2, hk =>
      cases hk
      cases hbody
      exact ⟨by decide, _, rfl⟩
    | k + 3, hk => simp [v1Lines] at hk

/-- Draws that begin alike twice, then alternate. -/
def collidingUuid (k : Nat) : String :=
  if k < 2 then "aaaaaaaa-0000-4000-8000-000000000000"
  else if k % 2 = 0 then "bbbbbbbb-0000-4000-8000-000000000000"
  else "cccccccc-0000-4000-8000-000000000000"

def collidingDraws : UuidDraws where
  draw := collidingUuid
  nonempty k := by
    unfold collidingUuid
    split
    · rfl
    · split <;> rfl

/-- The same without the first two. -/
def alternatingDraws : UuidDraws where
  draw k := collidingUuid (k + 2)
  nonempty k := collidingDraws.nonempty (k + 2)

theorem migrated_usable_alternating :
    IsV1Session v1Lines ∧ UsableTree v1Lines (migrateSessionEntries alternatingDraws v1Lines) :=
  ⟨isV1Session_v1Lines,
    (migrated_usable_iff alternatingDraws v1Lines isV1Session_v1Lines).mpr (by decide)⟩

/-- Whichever one id is in use, one of the next draws is free; yet both entries
get the same id, and the path from the last one has no end. -/
theorem migrated_not_usable :
    IsV1Session v1Lines ∧
      (∀ k id, ∃ i < 100, shortId (collidingDraws.draw (k + i)) ≠ id) ∧
      buildSessionPath (sessionEntries (migrateSessionEntries collidingDraws v1Lines)) none none =
        none ∧
      ¬ UsableTree v1Lines (migrateSessionEntries collidingDraws v1Lines) := by
  have hpath : buildSessionPath
      (sessionEntries (migrateSessionEntries collidingDraws v1Lines)) none none = none := by
    decide
  refine ⟨isV1Session_v1Lines, fun k id => ?_, hpath, fun husable => ?_⟩
  · have hdraw : shortId (collidingDraws.draw (k + 2)) ≠ shortId (collidingDraws.draw (k + 3)) := by
      have hk : k % 2 = 0 ∨ k % 2 = 1 := by omega
      rcases hk with hk | hk
      · have heven : (k + 2) % 2 = 0 := by omega
        have hodd : (k + 3) % 2 ≠ 0 := by omega
        have hlate : ¬ k + 2 < 2 ∧ ¬ k + 3 < 2 := by omega
        simp only [collidingDraws, collidingUuid, hlate, heven, hodd, if_true, if_false]
        decide
      · have hodd : (k + 2) % 2 ≠ 0 := by omega
        have heven : (k + 3) % 2 = 0 := by omega
        have hlate : ¬ k + 2 < 2 ∧ ¬ k + 3 < 2 := by omega
        simp only [collidingDraws, collidingUuid, hlate, heven, hodd, if_true, if_false]
        decide
    by_cases hid : shortId (collidingDraws.draw (k + 2)) = id
    · exact ⟨3, by decide, fun h => hdraw (hid.trans h.symm)⟩
    · exact ⟨2, by decide, hid⟩
  · have hsome := husable.path
    rw [hpath] at hsome
    cases hsome

end Eagent
