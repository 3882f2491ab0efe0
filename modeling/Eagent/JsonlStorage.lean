import Eagent.SessionManager

/-!
# The harness session over a JSONL file

`JsonlSessionStorage` and the `append*` methods of `Session`. Each method
awaits the storage three times: for a new id, for the leaf, for the file.
Between two awaits other calls go on, so a call is a phase, and a session
with calls under way is a machine.

A line of the file is the entry it holds; the header is left out.
-/

namespace Eagent

/-! ## Entries -/

/-- The entries `SessionManager` also has, and the two it has not. -/
inductive TreeEntryBody where
  | entry (body : EntryBody)
  | activeToolsChange (activeToolNames : List String)
  | leaf (targetId : Option String)
deriving Repr, DecidableEq

structure SessionTreeEntry where
  id : String
  parentId : Option String
  timestamp : String
  body : TreeEntryBody
deriving Repr, DecidableEq

def leafIdAfterEntry (entry : SessionTreeEntry) : Option String :=
  match entry.body with
  | .leaf targetId => targetId
  | _ => some entry.id

inductive SessionErrorCode where
  | notFound | invalidSession | invalidEntry | invalidForkTarget | storage
deriving Repr, DecidableEq

structure SessionError where
  code : SessionErrorCode
  message : String
deriving Repr, DecidableEq

def SessionError.entryNotFound (code : SessionErrorCode) (id : String) : SessionError :=
  ⟨code, "Entry " ++ id ++ " not found"⟩

def updateLabelCache (labelsById : OrdMap String String) (entry : SessionTreeEntry) :
    OrdMap String String :=
  match entry.body with
  | .entry (.label targetId label) =>
      match (label.map fun l => String.ofList (SessionManager.trimSpaces l.toList)).filter fun l => l ≠ "" with
      | some label => labelsById.set targetId label
      | none => labelsById.delete targetId
  | _ => labelsById

/-! ## The storage -/

structure JsonlStorage where
  filePath : String
  file : List SessionTreeEntry
  entries : List SessionTreeEntry
  byId : OrdMap String SessionTreeEntry
  labelsById : OrdMap String String
  currentLeafId : Option String

/-- The clock and the random source, for one continuation. -/
structure SessionEnv where
  now : String
  uuidv7 : Nat → String
  now_ne : now ≠ ""
  uuidv7_length : ∀ i, (uuidv7 i).length = 36

/-- `id.slice(-8)`. -/
def lastEight (id : String) : String := String.ofList (id.toList.drop (id.toList.length - 8))

namespace JsonlStorage

/-- `JsonlSessionStorage.create`. -/
def create (filePath : String) : JsonlStorage := ⟨filePath, [], [], .empty, .empty, none⟩

/-- What the constructor and `appendEntry` do with an entry in memory. -/
def remember (s : JsonlStorage) (entry : SessionTreeEntry) : JsonlStorage :=
  { s with
    entries := s.entries ++ [entry]
    byId := s.byId.set entry.id entry
    labelsById := updateLabelCache s.labelsById entry
    currentLeafId := leafIdAfterEntry entry }

/-- `fs.appendFile`. -/
def appendLine (s : JsonlStorage) (entry : SessionTreeEntry) : JsonlStorage :=
  { s with file := s.file ++ [entry] }

/-- The constructor, on the entries of the file. -/
def loaded (filePath : String) (file : List SessionTreeEntry) : JsonlStorage :=
  { file.foldl remember (create filePath) with file }

/-- `parseEntryLine` on what a line holds; the header is line 1. -/
def parseEntryLine (filePath : String) (entry : SessionTreeEntry) (lineNumber : Nat) :
    Except SessionError SessionTreeEntry :=
  let invalidEntry (message : String) : SessionError := ⟨.invalidEntry,
    s!"Invalid JSONL session file {filePath}: line {lineNumber} {message}"⟩
  if entry.id = "" then .error (invalidEntry "is missing entry id")
  else if entry.timestamp = "" then .error (invalidEntry "is missing timestamp")
  else .ok entry

/-- `JsonlSessionStorage.open`. -/
def «open» (filePath : String) (file : List SessionTreeEntry) : Except SessionError JsonlStorage :=
  (file.zipIdx.mapM fun p => parseEntryLine filePath p.1 (p.2 + 2)).map (loaded filePath)

def getLeafId (s : JsonlStorage) : Except SessionError (Option String) :=
  match s.currentLeafId with
  | none => .ok none
  | some id =>
      if s.byId.has id then .ok (some id) else .error (.entryNotFound .invalidSession id)

/-- A hundred short draws, then a full one, unchecked. -/
def generateEntryId (s : JsonlStorage) (env : SessionEnv) : String :=
  (((List.range 100).map fun i => lastEight (env.uuidv7 i)).find? fun id => !s.byId.has id).getD
    (env.uuidv7 100)

/-- The loop of `getPathToRoot`; no result when the fuel does not last. -/
def pathLoop (s : JsonlStorage) :
    Nat → SessionTreeEntry → List SessionTreeEntry →
      Option (Except SessionError (List SessionTreeEntry))
  | 0, _, _ => none
  | n + 1, current, path =>
      match current.parentId.filter fun id => id ≠ "" with
      | none => some (.ok (current :: path))
      | some parentId =>
          match s.byId.get parentId with
          | none => some (.error (.entryNotFound .invalidSession parentId))
          | some parent => pathLoop s n parent (current :: path)

def getPathToRoot (s : JsonlStorage) (fuel : Nat) (leafId : Option String) :
    Option (Except SessionError (List SessionTreeEntry)) :=
  match leafId with
  | none => some (.ok [])
  | some id =>
      match s.byId.get id with
      | none => some (.error (.entryNotFound .notFound id))
      | some current => s.pathLoop fuel current []

/-- `getPathToRoot` returns `path`. -/
def PathToRoot (s : JsonlStorage) (leafId : Option String) (path : List SessionTreeEntry) : Prop :=
  ∃ fuel, s.getPathToRoot fuel leafId = some (.ok path)

end JsonlStorage

/-! ## Calls -/

/-- A call of one of the `append*` methods. -/
inductive AppendCall where
  | message (message : AgentMessage)
  | thinkingLevelChange (thinkingLevel : String)
  | modelChange (provider modelId : String)
  | activeToolsChange (activeToolNames : List String)
  | compaction (summary firstKeptEntryId : String) (tokensBefore : Nat)
      (details : Option Json) (fromHook : Option Bool)
  | customEntry (customType : String) (data : Option Json)
  | customMessageEntry (customType : String) (content : MessageContent) (display : Bool)
      (details : Option Json)
  | label (targetId : String) (label : Option String)
  | sessionName (name : String)
deriving Repr, DecidableEq

def AppendCall.body : AppendCall → TreeEntryBody
  | .message m => .entry (.message m)
  | .thinkingLevelChange level => .entry (.thinkingLevelChange level)
  | .modelChange provider modelId => .entry (.modelChange provider modelId)
  | .activeToolsChange names => .activeToolsChange names
  | .compaction summary firstKeptEntryId tokensBefore details fromHook =>
      .entry (.compaction summary firstKeptEntryId tokensBefore details fromHook)
  | .customEntry customType data => .entry (.custom customType data)
  | .customMessageEntry customType content display details =>
      .entry (.customMessage customType (some content) display details)
  | .label targetId l => .entry (.label targetId l)
  | .sessionName name => .entry (.sessionInfo (some (SessionManager.sanitizeName name)))

/-- Where a call waits: for `getEntry`, `createEntryId`, `getLeafId`, for
the file, for its continuation after the line is written. -/
inductive AppendPhase where
  | checking (targetId : String) (found : Bool)
  | drawing (id : String)
  | reading (id : String) (leafId : Except SessionError (Option String))
  | writing (entry : SessionTreeEntry)
  | written (entry : SessionTreeEntry)
  | settled (result : Except SessionError SessionTreeEntry)
deriving DecidableEq

structure Append where
  call : AppendCall
  phase : AppendPhase
deriving DecidableEq

/-- A session, and the calls made of it, in order. -/
structure SessionState where
  storage : JsonlStorage
  appends : List Append

/-- A call up to its first `await`. -/
def AppendCall.start (s : JsonlStorage) (env : SessionEnv) : AppendCall → AppendPhase
  | .label targetId _ => .checking targetId (s.byId.has targetId)
  | _ => .drawing (s.generateEntryId env)

/-- A call from one `await` to the next; not while the file is written, nor
once it has settled. -/
def Append.resume (s : JsonlStorage) (env : SessionEnv) (a : Append) :
    Option (JsonlStorage × AppendPhase) :=
  match a.phase with
  | .checking targetId found =>
      if found then some (s, .drawing (s.generateEntryId env))
      else some (s, .settled (.error (.entryNotFound .notFound targetId)))
  | .drawing id => some (s, .reading id s.getLeafId)
  | .reading _ (.error e) => some (s, .settled (.error e))
  | .reading id (.ok parentId) => some (s, .writing ⟨id, parentId, env.now, a.call.body⟩)
  | .writing _ => none
  | .written entry => some (s.remember entry, .settled (.ok entry))
  | .settled _ => none

inductive SessionAction where
  | append (env : SessionEnv) (call : AppendCall)
  | resume (env : SessionEnv) (index : Nat)
  /-- The file system writes the line; the continuation comes later. -/
  | write (index : Nat)

namespace SessionState

def setPhase (s : SessionState) (index : Nat) (a : Append) (phase : AppendPhase) : SessionState :=
  { s with appends := s.appends.set index { a with phase } }

def step (s : SessionState) : SessionAction → Option SessionState
  | .append env call => some { s with appends := s.appends ++ [⟨call, call.start s.storage env⟩] }
  | .resume env index =>
      match s.appends[index]? with
      | none => none
      | some a =>
          match a.resume s.storage env with
          | none => none
          | some (storage, phase) => some (setPhase { s with storage } index a phase)
  | .write index =>
      match s.appends[index]? with
      | none => none
      | some a =>
          match a.phase with
          | .writing entry =>
              some (setPhase { s with storage := s.storage.appendLine entry } index a
                (.written entry))
          | _ => none

end SessionState

end Eagent
