import Eagent.SessionContext

/-!
# The session manager

The state of `SessionManager` and its methods. A method returns the new
state, the files it writes and its return value; it never reads a file
(opening one is `setSessionFile`, in `SessionFile`). `Env` is what a call
takes from outside: the clock and the random sources.

Calls that throw (`Entry … not found`) throw before they change anything.
-/

namespace Eagent

def CURRENT_SESSION_VERSION : Nat := 3

def SESSION_FILE_NAME : String := "session.jsonl"

/-! ## State -/

structure SessionManager where
  sessionId : String
  sessionFile : Option String
  sessionDir : String
  cwd : String
  persist : Bool
  flushed : Bool
  fileEntries : List FileEntry
  byId : OrdMap String SessionEntry
  labelsById : OrdMap String String
  labelTimestampsById : OrdMap String String
  leafId : Option String

/-- One file operation of a call: the whole file opened with `"w"`, with
`"wx"`, or one line appended. -/
inductive FileWrite where
  | rewrite (path : String) (entries : List FileEntry)
  | createNew (path : String) (entries : List FileEntry)
  | append (path : String) (entry : SessionEntry)
deriving Repr, DecidableEq

/-- The result of a call that returns: the new state, the file operations
in order, and the returned id or path. -/
structure Outcome where
  manager : SessionManager
  writes : List FileWrite
  value : Option String

/-- A call that throws, or walks round a cycle of parents for ever. -/
inductive CallError where
  | thrown (message : String)
  | diverges
deriving Repr, DecidableEq

/-! ## Clock and ids -/

/-- The outside of a call. `randomUUID used i` is the draw number `i` of
`generateId` when it avoids the ids `used`. -/
structure Env where
  now : String
  uuidv7 : String
  randomUUID : List String → Nat → String

/-- `id.slice(0, 8)`. -/
def shortId (id : String) : String := String.ofList (id.toList.take 8)

/-- A hundred short draws, then a full one, unchecked. -/
def generateId (env : Env) (used : List String) : String :=
  (((List.range 100).map fun i => shortId (env.randomUUID used i)).find?
    (fun id => id ∉ used)).getD (env.randomUUID used 100)

/-- The ids drawn during the call are fresh. -/
def Env.Fresh (env : Env) : Prop :=
  ∀ used, truthy (generateId env used) = true ∧ generateId env used ∉ used

def isIdEdge (c : Char) : Bool := c.isAlphanum

def isIdChar (c : Char) : Bool := c.isAlphanum || c = '.' || c = '_' || c = '-'

/-- `/^[A-Za-z0-9](?:[A-Za-z0-9._-]*[A-Za-z0-9])?$/`. -/
def isValidSessionId (id : String) : Bool :=
  id.toList.head?.any isIdEdge && id.toList.getLast?.any isIdEdge && id.toList.all isIdChar

/-! ## Paths -/

/-- `join` of parts that are already normalized. -/
def joinPath (parts : List String) : String := "/".intercalate (parts.filter truthy)

/-- `timestamp.replace(/[:.]/g, "-")`. -/
def dashTimestamp (timestamp : String) : String :=
  String.ofList (timestamp.toList.map fun c => if c = ':' || c = '.' then '-' else c)

def getSessionWorkspaceName (timestamp sessionId : String) : String :=
  dashTimestamp timestamp ++ "_" ++ sessionId

def getSessionFilePath (sessionDir timestamp sessionId : String) : String :=
  joinPath [sessionDir, getSessionWorkspaceName timestamp sessionId, SESSION_FILE_NAME]

namespace SessionManager

/-! ## Reading the state -/

/-- All entries without the header. -/
def getEntries (m : SessionManager) : List SessionEntry :=
  m.fileEntries.filterMap FileEntry.entry?

def hasAssistant (m : SessionManager) : Bool :=
  m.getEntries.any SessionEntry.isAssistantMessage

/-- `this.sessionFile`, where the code tests it for truth. -/
def openFile (m : SessionManager) : Option String :=
  if m.persist then m.sessionFile.filter truthy else none

def getLabel (m : SessionManager) (id : String) : Option String := m.labelsById.get id

/-- Walk from an entry to its root; `none` is a walk that does not end. -/
def getBranch (m : SessionManager) (fromId : Option String) : Option (List SessionEntry) :=
  match (fromId.or m.leafId).filter truthy with
  | none => some []
  | some startId =>
      match m.byId.get startId with
      | none => some []
      | some start =>
          (RootPath.walk (parentIn m.byId) (m.byId.size + 1) start).map List.reverse

def buildContextEntries (m : SessionManager) : Option (List SessionEntry) :=
  Eagent.buildContextEntries m.getEntries (some m.leafId) (some m.byId)

def buildSessionContext (m : SessionManager) : Option SessionContext :=
  Eagent.buildSessionContext m.getEntries (some m.leafId) (some m.byId)

/-! ## Indexing -/

def applyLabel (labels : OrdMap String String) (entry : SessionEntry) : OrdMap String String :=
  match entry.body with
  | .label targetId (some label) =>
      if truthy label then labels.set targetId label else labels.delete targetId
  | .label targetId none => labels.delete targetId
  | _ => labels

def applyLabelTimestamp (timestamps : OrdMap String String) (entry : SessionEntry) :
    OrdMap String String :=
  match entry.body with
  | .label targetId (some label) =>
      if truthy label then timestamps.set targetId entry.timestamp
      else timestamps.delete targetId
  | .label targetId none => timestamps.delete targetId
  | _ => timestamps

/-- The body of the loop of `_buildIndex`. -/
def indexEntry (m : SessionManager) : FileEntry → SessionManager
  | .session _ => m
  | .entry e =>
      { m with
        byId := m.byId.set e.id e
        leafId := some e.id
        labelsById := applyLabel m.labelsById e
        labelTimestampsById := applyLabelTimestamp m.labelTimestampsById e }

def buildIndex (m : SessionManager) : SessionManager :=
  m.fileEntries.foldl indexEntry
    { m with byId := .empty, labelsById := .empty, labelTimestampsById := .empty, leafId := none }

/-! ## Writing -/

def rewriteFile (m : SessionManager) : List FileWrite :=
  match m.openFile with
  | none => []
  | some file => [.rewrite file m.fileEntries]

/-- Persist the header and the entries even before the first assistant
response. -/
def ensureSessionFile (m : SessionManager) : Outcome :=
  match m.openFile with
  | none => ⟨m, [], none⟩
  | some file =>
      if m.flushed then ⟨m, [], some file⟩
      else ⟨{ m with flushed := true }, m.rewriteFile, some file⟩

/-- Nothing is written before the first assistant message, unless the file
is there already; then the whole file; from then on line by line. -/
def persistEntry (m : SessionManager) (entry : SessionEntry) :
    SessionManager × List FileWrite :=
  match m.openFile with
  | none => (m, [])
  | some file =>
      if !m.hasAssistant then
        if m.flushed then (m, [.append file entry])
        else ({ m with flushed := false }, [])
      else if !m.flushed then
        ({ m with flushed := true }, [.createNew file m.fileEntries])
      else (m, [.append file entry])

def appendEntry (m : SessionManager) (entry : SessionEntry) : Outcome :=
  let m := { m with
    fileEntries := m.fileEntries ++ [FileEntry.entry entry]
    byId := m.byId.set entry.id entry
    leafId := some entry.id }
  ⟨(m.persistEntry entry).1, (m.persistEntry entry).2, some entry.id⟩

/-! ## Appending -/

def nextEntry (env : Env) (m : SessionManager) (body : EntryBody) : SessionEntry :=
  { id := generateId env m.byId.keys, parentId := m.leafId, timestamp := env.now, body }

def appendMessage (env : Env) (m : SessionManager) (message : AgentMessage) : Outcome :=
  m.appendEntry (m.nextEntry env (.message message))

def appendThinkingLevelChange (env : Env) (m : SessionManager) (thinkingLevel : String) :
    Outcome :=
  m.appendEntry (m.nextEntry env (.thinkingLevelChange thinkingLevel))

def appendModelChange (env : Env) (m : SessionManager) (provider modelId : String) : Outcome :=
  m.appendEntry (m.nextEntry env (.modelChange provider modelId))

def appendCompaction (env : Env) (m : SessionManager) (summary firstKeptEntryId : String)
    (tokensBefore : Nat) (details : Option Json) (fromHook : Option Bool) : Outcome :=
  m.appendEntry
    (m.nextEntry env (.compaction summary firstKeptEntryId tokensBefore details fromHook))

def appendCustomEntry (env : Env) (m : SessionManager) (customType : String)
    (data : Option Json) : Outcome :=
  m.appendEntry (m.nextEntry env (.custom customType data))

def isLineBreak (c : Char) : Bool := c = '\r' || c = '\n'

/-- The characters `String.prototype.trim` removes. -/
def isJsSpace (c : Char) : Bool :=
  c.toNat ∈ [0x09, 0x0a, 0x0b, 0x0c, 0x0d, 0x20, 0xa0, 0x1680, 0x2028, 0x2029, 0x202f, 0x205f,
    0x3000, 0xfeff] || (0x2000 ≤ c.toNat && c.toNat ≤ 0x200a)

/-- `name.replace(/[\r\n]+/g, " ")`; `inRun` inside a run of line breaks. -/
def joinLines : Bool → List Char → List Char
  | _, [] => []
  | inRun, c :: rest =>
      if isLineBreak c then
        if inRun then joinLines true rest else ' ' :: joinLines true rest
      else c :: joinLines false rest

def trimSpaces (cs : List Char) : List Char :=
  ((cs.dropWhile isJsSpace).reverse.dropWhile isJsSpace).reverse

def sanitizeName (name : String) : String :=
  String.ofList (trimSpaces (joinLines false name.toList))

def appendSessionInfo (env : Env) (m : SessionManager) (name : String) : Outcome :=
  m.appendEntry (m.nextEntry env (.sessionInfo (some (sanitizeName name))))

def appendCustomMessageEntry (env : Env) (m : SessionManager) (customType : String)
    (content : MessageContent) (display : Bool) (details : Option Json) : Outcome :=
  m.appendEntry (m.nextEntry env (.customMessage customType (some content) display details))

def entryNotFound (id : String) : CallError := .thrown ("Entry " ++ id ++ " not found")

def appendLabelChange (env : Env) (m : SessionManager) (targetId : String)
    (label : Option String) : Except CallError Outcome :=
  if !m.byId.has targetId then .error (entryNotFound targetId)
  else
    let entry := m.nextEntry env (.label targetId label)
    let out := m.appendEntry entry
    match label.filter truthy with
    | some label => .ok { out with manager := { out.manager with
        labelsById := out.manager.labelsById.set targetId label
        labelTimestampsById := out.manager.labelTimestampsById.set targetId entry.timestamp } }
    | none => .ok { out with manager := { out.manager with
        labelsById := out.manager.labelsById.delete targetId
        labelTimestampsById := out.manager.labelTimestampsById.delete targetId } }

/-! ## Branching -/

def branch (m : SessionManager) (branchFromId : String) : Except CallError Outcome :=
  if !m.byId.has branchFromId then .error (entryNotFound branchFromId)
  else .ok ⟨{ m with leafId := some branchFromId }, [], none⟩

def resetLeaf (m : SessionManager) : Outcome := ⟨{ m with leafId := none }, [], none⟩

def branchWithSummary (env : Env) (m : SessionManager) (branchFromId : Option String)
    (summary : String) (details : Option Json) (fromHook : Option Bool) :
    Except CallError Outcome :=
  match branchFromId.filter (fun id => !m.byId.has id) with
  | some id => .error (entryNotFound id)
  | none =>
      let m := { m with leafId := branchFromId }
      .ok (m.appendEntry
        (m.nextEntry env (.branchSummary (branchFromId.getD "root") summary details fromHook)))

/-- The path without its labels, each entry a child of the one kept before
it. -/
def rechain : Option String → List SessionEntry → List SessionEntry
  | _, [] => []
  | pathParentId, entry :: rest =>
      if entry.isLabel then rechain pathParentId rest
      else { entry with parentId := pathParentId } :: rechain (some entry.id) rest

structure LabelToWrite where
  targetId : String
  label : String
  timestamp : String
deriving Repr, DecidableEq

def labelsToWrite (m : SessionManager) (pathEntryIds : List String) : List LabelToWrite :=
  (m.labelsById.entries.filter fun (targetId, _) => targetId ∈ pathEntryIds).map
    fun (targetId, label) =>
      ⟨targetId, label, (m.labelTimestampsById.get targetId).getD ""⟩

def labelEntries (env : Env) :
    List String → Option String → List LabelToWrite → List SessionEntry
  | _, _, [] => []
  | pathEntryIds, parentId, l :: rest =>
      let id := generateId env pathEntryIds
      { id, parentId, timestamp := l.timestamp, body := .label l.targetId (some l.label) }
        :: labelEntries env (pathEntryIds ++ [id]) (some id) rest

def branchedEntries (env : Env) (m : SessionManager) (path : List SessionEntry) :
    List SessionEntry :=
  let pathWithoutLabels := rechain none path
  let pathEntryIds := pathWithoutLabels.map (·.id)
  pathWithoutLabels ++
    labelEntries env pathEntryIds (pathEntryIds.getLast?.filter truthy)
      (m.labelsToWrite pathEntryIds)

def createBranchedSession (env : Env) (m : SessionManager) (leafId : String) :
    Except CallError Outcome :=
  match m.getBranch (some leafId) with
  | none => .error .diverges
  | some path =>
      if path.isEmpty then .error (entryNotFound leafId)
      else
        let newSessionFile := getSessionFilePath m.sessionDir env.now env.uuidv7
        let header : SessionHeader :=
          { version := some CURRENT_SESSION_VERSION
            id := env.uuidv7
            timestamp := env.now
            cwd := m.cwd
            parentSession := if m.persist then m.sessionFile else none }
        let fileEntries := .session header :: (m.branchedEntries env path).map FileEntry.entry
        if m.persist then
          let m := buildIndex
            { m with fileEntries, sessionId := env.uuidv7, sessionFile := some newSessionFile }
          if m.hasAssistant then
            .ok ⟨{ m with flushed := true }, m.rewriteFile, some newSessionFile⟩
          else .ok ⟨{ m with flushed := false }, [], some newSessionFile⟩
        else
          .ok ⟨buildIndex { m with fileEntries, sessionId := env.uuidv7 }, [], none⟩

/-! ## New sessions -/

structure NewSessionOptions where
  id : Option String := none
  parentSession : Option String := none

def newSession (env : Env) (m : SessionManager) (options : NewSessionOptions) :
    Except CallError Outcome :=
  if options.id.any fun id => !isValidSessionId id then
    .error (.thrown ("Session id must be non-empty, contain only alphanumeric characters, "
      ++ "'-', '_', and '.', and start and end with an alphanumeric character"))
  else
    let sessionId := options.id.getD env.uuidv7
    let header : SessionHeader :=
      { version := some CURRENT_SESSION_VERSION
        id := sessionId
        timestamp := env.now
        cwd := m.cwd
        parentSession := options.parentSession }
    let sessionFile :=
      if m.persist then some (getSessionFilePath m.sessionDir env.now sessionId)
      else m.sessionFile
    .ok ⟨{ m with
      sessionId
      sessionFile
      fileEntries := [.session header]
      byId := .empty
      labelsById := .empty
      labelTimestampsById := .empty
      leafId := none
      flushed := false }, [], sessionFile⟩

/-- The fields before the constructor starts a session. -/
def blank (cwd sessionDir : String) (persist : Bool) : SessionManager :=
  { sessionId := "", sessionFile := none, sessionDir, cwd, persist, flushed := false
    fileEntries := [], byId := .empty, labelsById := .empty, labelTimestampsById := .empty
    leafId := none }

/-- `SessionManager.create` (`persist`) and `SessionManager.inMemory`. -/
def create (env : Env) (cwd sessionDir : String) (persist : Bool)
    (options : NewSessionOptions) : Except CallError Outcome :=
  newSession env (blank cwd sessionDir persist) options

end SessionManager

/-! ## Operations -/

/-- The mutating calls of a session manager. -/
inductive SessionOp where
  | appendMessage (message : AgentMessage)
  | appendThinkingLevelChange (thinkingLevel : String)
  | appendModelChange (provider modelId : String)
  | appendCompaction (summary firstKeptEntryId : String) (tokensBefore : Nat)
      (details : Option Json) (fromHook : Option Bool)
  | appendCustomEntry (customType : String) (data : Option Json)
  | appendSessionInfo (name : String)
  | appendCustomMessageEntry (customType : String) (content : MessageContent) (display : Bool)
      (details : Option Json)
  | appendLabelChange (targetId : String) (label : Option String)
  | branch (branchFromId : String)
  | resetLeaf
  | branchWithSummary (branchFromId : Option String) (summary : String)
      (details : Option Json) (fromHook : Option Bool)
  | createBranchedSession (leafId : String)
  | ensureSessionFile
  | newSession (options : SessionManager.NewSessionOptions)

def SessionOp.apply (env : Env) (m : SessionManager) : SessionOp → Except CallError Outcome
  | .appendMessage message => .ok (m.appendMessage env message)
  | .appendThinkingLevelChange level => .ok (m.appendThinkingLevelChange env level)
  | .appendModelChange provider modelId => .ok (m.appendModelChange env provider modelId)
  | .appendCompaction summary firstKept tokens details fromHook =>
      .ok (m.appendCompaction env summary firstKept tokens details fromHook)
  | .appendCustomEntry customType data => .ok (m.appendCustomEntry env customType data)
  | .appendSessionInfo name => .ok (m.appendSessionInfo env name)
  | .appendCustomMessageEntry customType content display details =>
      .ok (m.appendCustomMessageEntry env customType content display details)
  | .appendLabelChange targetId label => m.appendLabelChange env targetId label
  | .branch id => m.branch id
  | .resetLeaf => .ok m.resetLeaf
  | .branchWithSummary id summary details fromHook =>
      m.branchWithSummary env id summary details fromHook
  | .createBranchedSession leafId => m.createBranchedSession env leafId
  | .ensureSessionFile => .ok m.ensureSessionFile
  | .newSession options => m.newSession env options

end Eagent
