import Mathlib.Data.List.TakeWhile
import Eagent.JsonlFile
import Eagent.Machine
import Eagent.SessionAppends

/-!
# Opening a session file again

The text of the file is the header and the entries in memory, one line
each (`Stored`). Parsing such a text gives back the entries, and folding
them gives back the index, the labels and the leaf that the calls have kept
up one entry at a time.
-/

namespace Eagent

open JsonlSessionStorage

/-! ## Lines -/

theorem splitLines_line {line : List Char} (h : '\n' ∉ line) (rest : List Char) :
    splitLines (line ++ '\n' :: rest) = line :: splitLines rest := by
  induction line with
  | nil => rfl
  | cons c line ih =>
    rw [List.mem_cons, not_or] at h
    rw [List.cons_append, splitLines, if_neg (Ne.symm h.1), ih h.2]

theorem trimSpaces_ne {c : Char} (h : SessionManager.isJsSpace c = false) (cs : List Char) :
    SessionManager.trimSpaces (c :: cs) ≠ [] := by
  rw [SessionManager.trimSpaces, List.dropWhile_cons_of_neg (by simp [h]), ne_eq,
    List.reverse_eq_nil_iff, List.dropWhile_eq_nil_iff]
  intro hall
  have hc := hall c (by simp)
  rw [h] at hc
  cases hc

/-- The lines of a file of objects, blank ones left out. -/
theorem lines_jsonLine {objects : List JsonObject} (h : ∀ o ∈ objects, o.toJson.Canonical) :
    (splitLines (objects.flatMap jsonLine)).filter
        (fun line => SessionManager.trimSpaces line ≠ []) =
      objects.map fun o => Json.stringify o.toJson := by
  induction objects with
  | nil => rfl
  | cons o objects ih =>
    have hline := Json.stringify_no_newline (h o List.mem_cons_self)
    have hblank : SessionManager.trimSpaces (Json.stringify o.toJson) ≠ [] :=
      trimSpaces_ne rfl _
    rw [List.flatMap_cons, jsonLine, List.append_assoc, List.singleton_append,
      splitLines_line hline, List.filter_cons_of_pos (by simpa using hblank),
      ih fun o ho => h o (List.mem_cons_of_mem _ ho), List.map_cons]

/-! ## Fields -/

namespace IsTreeEntry

variable {o : JsonObject}

theorem text_type (h : IsTreeEntry o) : ∃ type, o.text "type" = some type := by
  obtain ⟨type, htype⟩ := h.type
  exact ⟨type, by rw [JsonObject.text, htype]⟩

theorem text_id (h : IsTreeEntry o) : ∃ id, o.text "id" = some id ∧ id ≠ "" := by
  obtain ⟨id, hid, hne⟩ := h.id
  exact ⟨id, by rw [JsonObject.text, hid], hne⟩

theorem text_timestamp (h : IsTreeEntry o) :
    ∃ timestamp, o.text "timestamp" = some timestamp ∧ timestamp ≠ "" := by
  obtain ⟨timestamp, htimestamp, hne⟩ := h.timestamp
  exact ⟨timestamp, by rw [JsonObject.text, htimestamp], hne⟩

theorem field_leaf (h : o.text "type" = some "leaf") : o.field "type" = some (.str "leaf") := by
  unfold JsonObject.text at h
  split at h
  · rename_i s heq
    obtain rfl := Option.some.inj h
    exact heq
  · cases h

end IsTreeEntry

theorem filter_truthy {s : String} (h : s ≠ "") : (some s).filter truthy = some s := by
  simp [truthy, h]

theorem parseEntryLine_stringify {o : JsonObject} (h : IsTreeEntry o) (filePath : String)
    (lineNumber : Nat) :
    parseEntryLine (Json.stringify o.toJson) filePath lineNumber = .ok o := by
  obtain ⟨type, htype⟩ := h.text_type
  obtain ⟨id, hid, hidne⟩ := h.text_id
  obtain ⟨timestamp, htimestamp, htsne⟩ := h.text_timestamp
  have htarget : ¬ (o.text "type" = some "leaf" ∧
      (!Json.isNullable (o.field "targetId")) = true) := by
    rintro ⟨hleaf, hnot⟩
    rw [h.targetId (IsTreeEntry.field_leaf hleaf)] at hnot
    cases hnot
  unfold parseEntryLine
  rw [Json.parse_stringify h.canonical]
  dsimp only [JsonObject.toJson]
  rw [htype] at htarget ⊢
  simp only [Option.isNone_some, Bool.false_eq_true, if_false, hid, filter_truthy hidne,
    h.parentId, Bool.not_true, htimestamp, filter_truthy htsne, if_neg htarget]

theorem parseEntryLines_stringify {objects : List JsonObject} (h : ∀ o ∈ objects, IsTreeEntry o)
    (filePath : String) (lineNumber : Nat) :
    parseEntryLines filePath lineNumber (objects.map fun o => Json.stringify o.toJson) =
      .ok objects := by
  induction objects generalizing lineNumber with
  | nil => rfl
  | cons o objects ih =>
    rw [List.map_cons, parseEntryLines,
      parseEntryLine_stringify (h o List.mem_cons_self) filePath lineNumber,
      ih (fun o ho => h o (List.mem_cons_of_mem _ ho))]
    rfl

/-! ## The header -/

structure JsonlHeader.Valid (h : JsonlHeader) : Prop where
  id : h.id ≠ ""
  timestamp : h.timestamp ≠ ""
  cwd : h.cwd ≠ ""
  metadata : ∀ m ∈ h.metadata, m.toJson.Canonical

theorem JsonlHeader.Valid.canonical {h : JsonlHeader} (hv : h.Valid) :
    h.toObject.toJson.Canonical := by
  obtain ⟨id, timestamp, cwd, parentSession, metadata⟩ := h
  have hthree : Json.isNumberLiteral ['3'] = true := by decide
  have hmetadata := hv.metadata
  cases parentSession with
  | none =>
    cases metadata with
    | none =>
      have hkeys : ["type", "version", "id", "timestamp", "cwd"].Nodup := by decide
      exact ⟨hkeys, trivial, hthree, trivial, trivial, trivial, trivial⟩
    | some m =>
      have hkeys : ["type", "version", "id", "timestamp", "cwd", "metadata"].Nodup := by decide
      exact ⟨hkeys, trivial, hthree, trivial, trivial, trivial, hmetadata m rfl, trivial⟩
  | some p =>
    cases metadata with
    | none =>
      have hkeys : ["type", "version", "id", "timestamp", "cwd", "parentSession"].Nodup := by
        decide
      exact ⟨hkeys, trivial, hthree, trivial, trivial, trivial, trivial, trivial⟩
    | some m =>
      have hkeys : ["type", "version", "id", "timestamp", "cwd", "parentSession",
        "metadata"].Nodup := by decide
      exact ⟨hkeys, trivial, hthree, trivial, trivial, trivial, trivial, hmetadata m rfl,
        trivial⟩

theorem parseHeaderLine_stringify {h : JsonlHeader} (hv : h.Valid) (filePath : String) :
    parseHeaderLine (Json.stringify h.toObject.toJson) filePath = .ok h := by
  unfold parseHeaderLine
  rw [Json.parse_stringify hv.canonical]
  obtain ⟨id, timestamp, cwd, parentSession, metadata⟩ := h
  have hid := filter_truthy hv.id
  have htimestamp := filter_truthy hv.timestamp
  have hcwd := filter_truthy hv.cwd
  cases parentSession <;> cases metadata <;>
    simp [JsonlHeader.toObject, JsonObject.toJson, JsonObject.text, JsonObject.field,
      OrdMap.lookupIn, hid, htimestamp, hcwd]

/-! ## What a file holds -/

/-- The session is what opening its file would make of it. -/
structure JsonlSessionStorage.Stored (s : JsonlSessionStorage) : Prop where
  header : s.metadata.Valid
  entries : ∀ e ∈ s.entries, IsTreeEntry e
  content : s.content = (s.metadata.toObject :: s.entries).flatMap jsonLine
  loaded : s = new s.filePath s.metadata s.entries
    (s.entries.foldl (fun _ entry => entry.leafAfter) none) s.content

namespace JsonlSessionStorage.Stored

variable {s : JsonlSessionStorage}

theorem reopens (h : s.Stored) : JsonlSessionStorage.open s.filePath s.content = .ok s := by
  have hcanonical : ∀ o ∈ s.metadata.toObject :: s.entries, o.toJson.Canonical := by
    intro o ho
    rcases List.mem_cons.mp ho with rfl | ho
    · exact h.header.canonical
    · exact (h.entries o ho).canonical
  have hlines := lines_jsonLine hcanonical
  rw [← h.content] at hlines
  unfold JsonlSessionStorage.open
  rw [hlines, List.map_cons]
  dsimp only
  rw [parseHeaderLine_stringify h.header, parseEntryLines_stringify h.entries]
  exact congrArg Except.ok h.loaded.symm

/-- A line written for an entry that the call also applies to the index, the
labels and the leaf. -/
theorem appendLine (h : s.Stored) {entry : JsonObject} (hentry : IsTreeEntry entry)
    (written : Except FileError Unit) (message : String) :
    (s.appendLine entry (entry.updateLabels s.labelsById) entry.leafAfter written
      message).1.Stored := by
  unfold JsonlSessionStorage.appendLine
  cases written with
  | error e => exact h
  | ok u =>
    refine ⟨h.header, ?_, ?_, ?_⟩
    · intro e he
      rcases List.mem_append.mp he with he | he
      · exact h.entries e he
      · obtain rfl := List.mem_singleton.mp he
        exact hentry
    · have hcontent := h.content
      simp only [getFileSystemResultOrThrow, hcontent, List.flatMap_cons, List.flatMap_append,
        List.flatMap_nil, List.append_nil, List.append_assoc]
    · have hloaded := h.loaded
      have hbyId := congrArg JsonlSessionStorage.byId hloaded
      have hlabels := congrArg JsonlSessionStorage.labelsById hloaded
      simp only [new] at hbyId hlabels
      simp only [getFileSystemResultOrThrow, new, List.foldl_append, List.foldl_cons,
        List.foldl_nil, ← hbyId, ← hlabels]

end JsonlSessionStorage.Stored

/-! ## Calls -/

theorem uuidv7_ne_empty (env : SessionEnv) (i : Nat) : env.uuidv7 i ≠ "" := by
  intro h
  have hlength := env.uuidv7_length i
  rw [h] at hlength
  cases hlength

theorem lastEight_ne (env : SessionEnv) (i : Nat) : lastEight (env.uuidv7 i) ≠ "" := by
  intro h
  have hlength := env.uuidv7_length i
  have hdrop := congrArg String.toList h
  rw [lastEight, String.toList_ofList] at hdrop
  have hshort := congrArg List.length hdrop
  rw [List.length_drop, String.length_toList, hlength] at hshort
  cases hshort

namespace JsonlSessionStorage

variable {s : JsonlSessionStorage}

theorem createEntryId_ne (s : JsonlSessionStorage) (env : SessionEnv) :
    s.createEntryId env ≠ "" := by
  unfold createEntryId
  cases hfind : ((List.range 100).map fun i => lastEight (env.uuidv7 i)).find?
      (fun id => !s.byId.has id) with
  | some id =>
    obtain ⟨i, -, rfl⟩ := List.mem_map.mp (List.mem_of_find?_eq_some hfind)
    exact lastEight_ne env i
  | none => exact uuidv7_ne_empty env 100

theorem isNullable_nullable (value : Option String) :
    Json.isNullable (some (nullable value)) = true := by
  cases value <;> rfl

theorem leafEntry_isTreeEntry {id now : String} (hid : id ≠ "") (hnow : now ≠ "")
    (parentId targetId : Option String) : IsTreeEntry (leafEntry id now parentId targetId) where
  canonical := by
    have hkeys : ["type", "id", "parentId", "timestamp", "targetId"].Nodup := by decide
    have hnullable : ∀ value, (nullable value).Canonical := fun value => by
      cases value <;> trivial
    exact ⟨hkeys, trivial, trivial, hnullable _, trivial, hnullable _, trivial⟩
  type := ⟨"leaf", rfl⟩
  id := ⟨id, rfl, hid⟩
  parentId := isNullable_nullable parentId
  timestamp := ⟨now, rfl, hnow⟩
  targetId _ := isNullable_nullable targetId

theorem leafEntry_leafAfter (id now : String) (parentId targetId : Option String) :
    (leafEntry id now parentId targetId).leafAfter = targetId := by
  cases targetId <;> rfl

/-- The calls that write. -/
inductive StorageCall where
  | appendEntry (entry : JsonObject)
  | setLeafId (env : SessionEnv) (leafId : Option String)

/-- A call and what `appendFile` comes back with. -/
def call (s : JsonlSessionStorage) (c : StorageCall) (written : Except FileError Unit) :
    JsonlSessionStorage × Except SessionError Unit :=
  match c with
  | .appendEntry entry => s.appendEntry entry written
  | .setLeafId env leafId => s.setLeafId env leafId written

/-- Calls one after another. -/
def step (s : JsonlSessionStorage) (a : StorageCall × Except FileError Unit) :
    Option JsonlSessionStorage := some (s.call a.1 a.2).1

def AppendsEntry (_ : JsonlSessionStorage) (a : StorageCall × Except FileError Unit) : Prop :=
  match a.1 with
  | .appendEntry entry => IsTreeEntry entry
  | .setLeafId .. => True

theorem Stored.step {s' : JsonlSessionStorage} (h : s.Stored)
    {a : StorageCall × Except FileError Unit} (ha : s.AppendsEntry a)
    (hstep : s.step a = some s') : s'.Stored := by
  obtain ⟨c, written⟩ := a
  obtain rfl := Option.some.inj hstep
  cases c with
  | appendEntry entry => exact h.appendLine ha written _
  | setLeafId env leafId =>
    unfold call setLeafId
    dsimp only
    split
    · exact h
    · have hentry := leafEntry_isTreeEntry (s.createEntryId_ne env) env.now_ne s.currentLeafId
        leafId
      have happended := h.appendLine hentry written
        s!"Failed to append session leaf {(leafEntry (s.createEntryId env) env.now
          s.currentLeafId leafId).id}"
      rw [leafEntry_leafAfter] at happended
      exact happended

/-- A write that fails leaves the session as it is. -/
theorem call_failed (s : JsonlSessionStorage) (c : StorageCall) (e : FileError) :
    (s.call c (.error e)).1 = s := by
  cases c with
  | appendEntry entry => rfl
  | setLeafId env leafId =>
    unfold call setLeafId
    dsimp only
    split <;> rfl

theorem Stored.create {env : SessionEnv} {filePath : String} {options : CreateOptions}
    {written : Except FileError Unit} (hcwd : options.cwd ≠ "") (hid : options.sessionId ≠ "")
    (hmetadata : ∀ m ∈ options.metadata, m.toJson.Canonical)
    (h : create env.now filePath options written = .ok s) : s.Stored := by
  cases written with
  | error e => cases h
  | ok u =>
    obtain rfl := Except.ok.inj h
    exact ⟨⟨hid, env.now_ne, hcwd, hmetadata⟩, nofun, (List.append_nil _).symm, rfl⟩

/-- After any calls on a created session, some of which failed to write,
opening the file gives back the session, with its entries, leaf, labels and
paths; and one more call that fails changes nothing. -/
theorem reopen_identity {env : SessionEnv} {filePath : String} {options : CreateOptions}
    {written : Except FileError Unit} {s₀ : JsonlSessionStorage} (hcwd : options.cwd ≠ "")
    (hid : options.sessionId ≠ "") (hmetadata : ∀ m ∈ options.metadata, m.toJson.Canonical)
    (hcreate : create env.now filePath options written = .ok s₀)
    (h : Machine.Reaches step AppendsEntry s₀ s) :
    JsonlSessionStorage.open s.filePath s.content = .ok s ∧
      ∀ c e, (s.call c (.error e)).1 = s := by
  have hstored : s.Stored := h.invariant (.create hcwd hid hmetadata hcreate)
    fun _ _ _ hs hok hstep => hs.step hok hstep
  exact ⟨hstored.reopens, s.call_failed⟩

theorem reaches_foldl (calls : List (StorageCall × Except FileError Unit))
    (h : ∀ a ∈ calls, ∀ s, AppendsEntry s a) (s : JsonlSessionStorage) :
    Machine.Reaches step AppendsEntry s (calls.foldl (fun s a => (s.call a.1 a.2).1) s) := by
  induction calls generalizing s with
  | nil => exact .refl
  | cons a calls ih =>
    have hfirst : Machine.Reaches step AppendsEntry s (s.call a.1 a.2).1 :=
      Machine.Reaches.refl.tail (h a List.mem_cons_self s) rfl
    exact hfirst.trans (ih (fun a ha => h a (List.mem_cons_of_mem _ ha)) _)

def greeting : JsonObject where
  fields :=
    [("type", .str "message"), ("id", .str "a"), ("parentId", .null), ("timestamp", .str "t"),
      ("message", .obj [("role", .str "user"), ("content", .str "hi\n")])]

def greetingLabel : JsonObject where
  fields :=
    [("type", .str "label"), ("id", .str "b"), ("parentId", .str "a"), ("timestamp", .str "t"),
      ("targetId", .str "a"), ("label", .str " x ")]

theorem greeting_isTreeEntry : IsTreeEntry greeting where
  canonical := ⟨by decide, trivial, trivial, trivial, trivial, ⟨by decide, trivial, trivial, trivial⟩,
    trivial⟩
  type := ⟨_, rfl⟩
  id := ⟨_, rfl, by decide⟩
  parentId := rfl
  timestamp := ⟨_, rfl, by decide⟩
  targetId h := absurd h (by decide)

theorem greetingLabel_isTreeEntry : IsTreeEntry greetingLabel where
  canonical := ⟨by decide, trivial, trivial, trivial, trivial, trivial, trivial, trivial⟩
  type := ⟨_, rfl⟩
  id := ⟨_, rfl, by decide⟩
  parentId := rfl
  timestamp := ⟨_, rfl, by decide⟩
  targetId h := absurd h (by decide)

/-- A message, a label that a failed write delays, and a move to the root. -/
def labelledCalls : List (StorageCall × Except FileError Unit) :=
  [(.appendEntry greeting, .ok ()), (.appendEntry greetingLabel, .error ⟨false, "ENOSPC"⟩),
    (.appendEntry greetingLabel, .ok ()), (.setLeafId SessionState.envA none, .ok ())]

theorem reopen_identity_labelled : ∃ s₀ s,
    create SessionState.envA.now "session.jsonl" ⟨"/", "1", none, none⟩ (.ok ()) = .ok s₀ ∧
    Machine.Reaches step AppendsEntry s₀ s ∧ s.entries.length = 3 ∧
    s.labelsById.get "a" = some "x" ∧ s.currentLeafId = none ∧
    JsonlSessionStorage.open s.filePath s.content = .ok s := by
  have hcalls : ∀ a ∈ labelledCalls, ∀ s, AppendsEntry s a := by
    intro a ha s
    simp only [labelledCalls, List.mem_cons, List.not_mem_nil, or_false] at ha
    rcases ha with rfl | rfl | rfl | rfl
    · exact greeting_isTreeEntry
    · exact greetingLabel_isTreeEntry
    · exact greetingLabel_isTreeEntry
    · trivial
  have hreach := reaches_foldl labelledCalls hcalls
    (new "session.jsonl" ⟨"1", SessionState.envA.now, "/", none, none⟩ [] none
      (jsonLine (JsonlHeader.toObject ⟨"1", SessionState.envA.now, "/", none, none⟩)))
  have hcreate : create SessionState.envA.now "session.jsonl" ⟨"/", "1", none, none⟩ (.ok ()) =
      .ok _ := rfl
  have hcwd : (CreateOptions.mk "/" "1" none none).cwd ≠ "" := by decide
  have hmetadata : ∀ m ∈ (CreateOptions.mk "/" "1" none none).metadata, m.toJson.Canonical :=
    fun _ h => nomatch h
  exact ⟨_, _, hcreate, hreach, rfl, by decide +kernel, rfl,
    (reopen_identity hcwd (by decide) hmetadata hcreate hreach).1⟩

end JsonlSessionStorage

end Eagent
