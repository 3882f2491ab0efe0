import Eagent.JsonText
import Eagent.JsonlStorage

/-!
# The JSONL session file

`JsonlSessionStorage` down to the text of its file. An entry is the JSON
object that is written, of which the storage reads the fields of
`SessionTreeEntryBase` and those of leaf and label entries. Opening a file
parses every line again; for what the storage has written that gives back
the object it was written from.
-/

namespace Eagent

/-! ## Entries -/

/-- A JSON object. -/
structure JsonObject where
  fields : List (String × Json)
deriving DecidableEq

namespace JsonObject

def field (o : JsonObject) (key : String) : Option Json := OrdMap.lookupIn key o.fields

def toJson (o : JsonObject) : Json := .obj o.fields

def text (o : JsonObject) (key : String) : Option String :=
  match o.field key with
  | some (.str s) => some s
  | _ => none

def id (o : JsonObject) : String := (o.text "id").getD ""

def parentId (o : JsonObject) : Option String := o.text "parentId"

/-- `leafIdAfterEntry` -/
def leafAfter (o : JsonObject) : Option String :=
  if o.text "type" = some "leaf" then o.text "targetId" else some o.id

/-- `updateLabelCache` -/
def updateLabels (labelsById : OrdMap String String) (o : JsonObject) : OrdMap String String :=
  if o.text "type" = some "label" then
    let targetId := (o.text "targetId").getD ""
    match ((o.text "label").map fun l => String.ofList (SessionManager.trimSpaces l.toList)).filter
        fun l => l ≠ "" with
    | some label => labelsById.set targetId label
    | none => labelsById.delete targetId
  else labelsById

end JsonObject

def Json.isNullable : Option Json → Bool
  | some .null => true
  | some (.str _) => true
  | _ => false

/-- `SessionTreeEntry`, JSON-serialisable, with an id and a timestamp. -/
structure IsTreeEntry (o : JsonObject) : Prop where
  canonical : o.toJson.Canonical
  type : ∃ type, o.field "type" = some (.str type)
  id : ∃ id, o.field "id" = some (.str id) ∧ id ≠ ""
  parentId : Json.isNullable (o.field "parentId") = true
  timestamp : ∃ timestamp, o.field "timestamp" = some (.str timestamp) ∧ timestamp ≠ ""
  targetId : o.field "type" = some (.str "leaf") → Json.isNullable (o.field "targetId") = true

/-! ## Lines -/

def invalidSession (filePath message : String) : SessionError :=
  ⟨.invalidSession, s!"Invalid JSONL session file {filePath}: {message}"⟩

def invalidEntry (filePath : String) (lineNumber : Nat) (message : String) : SessionError :=
  ⟨.invalidEntry, s!"Invalid JSONL session file {filePath}: line {lineNumber} {message}"⟩

/-- `SessionHeader`; `metadata` is an object. -/
structure JsonlHeader where
  id : String
  timestamp : String
  cwd : String
  parentSession : Option String
  metadata : Option JsonObject

/-- The object that is written; undefined fields are left out. -/
def JsonlHeader.toObject (h : JsonlHeader) : JsonObject where
  fields :=
    [("type", .str "session"), ("version", .num "3"), ("id", .str h.id),
      ("timestamp", .str h.timestamp), ("cwd", .str h.cwd)] ++
      (h.parentSession.map fun p => ("parentSession", Json.str p)).toList ++
      (h.metadata.map fun m => ("metadata", m.toJson)).toList

def parseHeaderLine (line : List Char) (filePath : String) : Except SessionError JsonlHeader :=
  let notHeader := invalidSession filePath "first line is not a valid session header"
  match Json.parse line with
  | some (.obj fields) =>
      let header : JsonObject := ⟨fields⟩
      if header.field "type" ≠ some (.str "session") then .error notHeader
      else if header.field "version" ≠ some (.num "3") then
        .error (invalidSession filePath "unsupported session version")
      else match (header.text "id").filter truthy with
        | none => .error (invalidSession filePath "session header is missing id")
        | some id => match (header.text "timestamp").filter truthy with
          | none => .error (invalidSession filePath "session header is missing timestamp")
          | some timestamp => match (header.text "cwd").filter truthy with
            | none => .error (invalidSession filePath "session header is missing cwd")
            | some cwd => match header.field "parentSession", header.field "metadata" with
              | none, none => .ok ⟨id, timestamp, cwd, none, none⟩
              | some (.str parent), none => .ok ⟨id, timestamp, cwd, some parent, none⟩
              | none, some (.obj metadata) => .ok ⟨id, timestamp, cwd, none, some ⟨metadata⟩⟩
              | some (.str parent), some (.obj metadata) =>
                  .ok ⟨id, timestamp, cwd, some parent, some ⟨metadata⟩⟩
              | none, _ | some (.str _), _ =>
                  .error (invalidSession filePath "session header metadata must be an object")
              | _, _ =>
                  .error (invalidSession filePath "session header parentSession must be a string")
  | _ => .error notHeader

def parseEntryLine (line : List Char) (filePath : String) (lineNumber : Nat) :
    Except SessionError JsonObject :=
  let invalid := invalidEntry filePath lineNumber
  match Json.parse line with
  | none => .error (invalid "is not valid JSON")
  | some (.obj fields) =>
      let entry : JsonObject := ⟨fields⟩
      if (entry.text "type").isNone then .error (invalid "is missing entry type")
      else if ((entry.text "id").filter truthy).isNone then .error (invalid "is missing entry id")
      else if !Json.isNullable (entry.field "parentId") then
        .error (invalid "has invalid parentId")
      else if ((entry.text "timestamp").filter truthy).isNone then
        .error (invalid "is missing timestamp")
      else if entry.text "type" = some "leaf" ∧ !Json.isNullable (entry.field "targetId") then
        .error (invalid "has invalid targetId")
      else .ok entry
  | some (.arr _) => .error (invalid "is missing entry type")
  | some _ => .error (invalid "is not a valid session entry")

/-- `content.split("\n")` -/
def splitLines : List Char → List (List Char)
  | [] => [[]]
  | c :: cs =>
      if c = '\n' then [] :: splitLines cs
      else match splitLines cs with
        | [] => [[c]]
        | line :: lines => (c :: line) :: lines

theorem splitLines_ne_nil (text : List Char) : splitLines text ≠ [] := by
  cases text with
  | nil => simp [splitLines]
  | cons c text =>
    rw [splitLines]
    split
    · simp
    · split <;> simp

theorem splitLines_cons {c : Char} (hc : c ≠ '\n') {text line : List Char}
    {lines : List (List Char)} (h : splitLines text = line :: lines) :
    splitLines (c :: text) = (c :: line) :: lines := by
  rw [splitLines, if_neg hc, h]

theorem splitLines_append_newline (a b : List Char) :
    splitLines (a ++ '\n' :: b) = splitLines a ++ splitLines b := by
  induction a with
  | nil => simp [splitLines]
  | cons c a ih =>
    by_cases hc : c = '\n'
    · simp [splitLines, hc, ih]
    · obtain ⟨line, lines, hlines⟩ := List.exists_cons_of_ne_nil (splitLines_ne_nil a)
      rw [List.cons_append, splitLines_cons hc (ih.trans (by rw [hlines, List.cons_append])),
        splitLines_cons hc hlines, List.cons_append]

/-- The entries of the lines from `lineNumber` on. -/
def parseEntryLines (filePath : String) : Nat → List (List Char) →
    Except SessionError (List JsonObject)
  | _, [] => .ok []
  | lineNumber, line :: lines => do
      let entry ← parseEntryLine line filePath lineNumber
      let entries ← parseEntryLines filePath (lineNumber + 1) lines
      return entry :: entries

/-! ## The storage -/

/-- `content` is the text of the file. -/
structure JsonlSessionStorage where
  filePath : String
  metadata : JsonlHeader
  entries : List JsonObject
  byId : OrdMap String JsonObject
  labelsById : OrdMap String String
  currentLeafId : Option String
  content : List Char

/-- What `fs` reports when it fails. -/
structure FileError where
  isNotFound : Bool
  message : String
deriving Repr, DecidableEq

def getFileSystemResultOrThrow {α : Type} (result : Except FileError α) (message : String) :
    Except SessionError α :=
  match result with
  | .ok value => .ok value
  | .error e => .error ⟨if e.isNotFound then .notFound else .storage, s!"{message}: {e.message}"⟩

structure CreateOptions where
  cwd : String
  sessionId : String
  parentSessionPath : Option String
  metadata : Option JsonObject

def jsonLine (o : JsonObject) : List Char := Json.stringify o.toJson ++ ['\n']

namespace JsonlSessionStorage

/-- The constructor. -/
def new (filePath : String) (header : JsonlHeader) (entries : List JsonObject)
    (leafId : Option String) (content : List Char) : JsonlSessionStorage where
  filePath
  metadata := header
  entries
  byId := entries.foldl (fun byId entry => byId.set entry.id entry) .empty
  labelsById := entries.foldl JsonObject.updateLabels .empty
  currentLeafId := leafId
  content

/-- `JsonlSessionStorage.open` on a file with this content. -/
def «open» (filePath : String) (content : List Char) :
    Except SessionError JsonlSessionStorage :=
  match (splitLines content).filter fun line => SessionManager.trimSpaces line ≠ [] with
  | [] => .error (invalidSession filePath "missing session header")
  | line :: lines => do
      let header ← parseHeaderLine line filePath
      let entries ← parseEntryLines filePath 2 lines
      return new filePath header entries
        (entries.foldl (fun _ entry => entry.leafAfter) none) content

def create (now filePath : String) (options : CreateOptions) (written : Except FileError Unit) :
    Except SessionError JsonlSessionStorage := do
  let header : JsonlHeader :=
    { id := options.sessionId, timestamp := now, cwd := options.cwd
      parentSession := options.parentSessionPath, metadata := options.metadata }
  getFileSystemResultOrThrow written s!"Failed to create session {filePath}"
  return new filePath header [] none (jsonLine header.toObject)

variable (s : JsonlSessionStorage)

def getLeafId : Except SessionError (Option String) :=
  match s.currentLeafId with
  | none => .ok none
  | some id =>
      if s.byId.has id then .ok (some id) else .error (.entryNotFound .invalidSession id)

/-- A hundred short draws, then a full one, unchecked. -/
def createEntryId (env : SessionEnv) : String :=
  (((List.range 100).map fun i => lastEight (env.uuidv7 i)).find? fun id => !s.byId.has id).getD
    (env.uuidv7 100)

/-- `appendFile`, then what a call does with its entry in memory. -/
def appendLine (entry : JsonObject) (labelsById : OrdMap String String) (leafId : Option String)
    (written : Except FileError Unit) (message : String) :
    JsonlSessionStorage × Except SessionError Unit :=
  match getFileSystemResultOrThrow written message with
  | .error e => (s, .error e)
  | .ok () =>
      ({ s with
        entries := s.entries ++ [entry]
        byId := s.byId.set entry.id entry
        labelsById
        currentLeafId := leafId
        content := s.content ++ jsonLine entry }, .ok ())

def appendEntry (entry : JsonObject) (written : Except FileError Unit) :
    JsonlSessionStorage × Except SessionError Unit :=
  s.appendLine entry (entry.updateLabels s.labelsById) entry.leafAfter written
    s!"Failed to append session entry {entry.id}"

/-- A string, or `null`. -/
def nullable (value : Option String) : Json := value.elim .null .str

def leafEntry (id now : String) (parentId targetId : Option String) : JsonObject where
  fields :=
    [("type", .str "leaf"), ("id", .str id), ("parentId", nullable parentId),
      ("timestamp", .str now), ("targetId", nullable targetId)]

def setLeafId (env : SessionEnv) (leafId : Option String) (written : Except FileError Unit) :
    JsonlSessionStorage × Except SessionError Unit :=
  match leafId.filter fun id => !s.byId.has id with
  | some id => (s, .error (.entryNotFound .notFound id))
  | none =>
      let entry := leafEntry (s.createEntryId env) env.now s.currentLeafId leafId
      s.appendLine entry s.labelsById leafId written s!"Failed to append session leaf {entry.id}"

/-- The loop of `getPathToRoot`; no result when the fuel does not last. -/
def pathLoop : Nat → JsonObject → List JsonObject → Option (Except SessionError (List JsonObject))
  | 0, _, _ => none
  | n + 1, current, path =>
      match current.parentId.filter truthy with
      | none => some (.ok (current :: path))
      | some parentId =>
          match s.byId.get parentId with
          | none => some (.error (.entryNotFound .invalidSession parentId))
          | some parent => pathLoop n parent (current :: path)

def getPathToRoot (fuel : Nat) (leafId : Option String) :
    Option (Except SessionError (List JsonObject)) :=
  match leafId with
  | none => some (.ok [])
  | some id =>
      match s.byId.get id with
      | none => some (.error (.entryNotFound .notFound id))
      | some current => s.pathLoop fuel current []

end JsonlSessionStorage

end Eagent
