import Eagent.JsonlStorage
import Eagent.SessionContext

/-!
# Contexts and forks of a harness session

`Session` with its calls made one after another, the context it builds, and
`JsonlSessionRepo.fork`. The fuel is that of `getPathToRoot`.
-/

namespace Eagent

namespace HarnessSession

/-! ## Contexts -/

/-- `SessionContext` without the messages. -/
structure ContextState where
  thinkingLevel : String
  model : Option ModelRef
  activeToolNames : Option (List String)
deriving Repr, DecidableEq

structure Context where
  state : ContextState
  messages : List AgentMessage
deriving Repr, DecidableEq

structure ContextBuildOptions where
  entryTransforms : List (List SessionTreeEntry → List SessionTreeEntry)
  entryProjectors : String →
    Option (SessionTreeEntry → Nat → List SessionTreeEntry → Option (List AgentMessage))

/-- The options of a session of the repository. -/
def ContextBuildOptions.default : ContextBuildOptions := ⟨[], fun _ => none⟩

def updateContextState (state : ContextState) (entry : SessionTreeEntry) : ContextState :=
  match entry.body with
  | .entry (.thinkingLevelChange level) => { state with thinkingLevel := level }
  | .entry (.modelChange provider modelId) => { state with model := some ⟨provider, modelId⟩ }
  | .entry (.message (.assistant m)) => { state with model := some ⟨m.provider, m.model⟩ }
  | .activeToolsChange names => { state with activeToolNames := some names }
  | _ => state

def deriveSessionContextState (pathEntries : List SessionTreeEntry) : ContextState :=
  pathEntries.foldl updateContextState ⟨"off", none, none⟩

/-- `firstKeptEntryId` of a compaction. -/
def firstKept? (entry : SessionTreeEntry) : Option String :=
  match entry.body with
  | .entry (.compaction _ firstKeptEntryId _ _ _) => some firstKeptEntryId
  | _ => none

/-- The loop over the entries before the compaction. -/
def keptBefore (firstKeptEntryId : String) (entries : List SessionTreeEntry) :
    List SessionTreeEntry :=
  entries.dropWhile fun entry => entry.id ≠ firstKeptEntryId

def defaultContextEntryTransform (pathEntries : List SessionTreeEntry) : List SessionTreeEntry :=
  match pathEntries.reverse.find? fun entry => (firstKept? entry).isSome with
  | none => pathEntries
  | some compaction =>
      let compactionIdx := pathEntries.findIdx fun entry =>
        (firstKept? entry).isSome && entry.id = compaction.id
      compaction ::
        keptBefore ((firstKept? compaction).getD "") (pathEntries.take compactionIdx) ++
        pathEntries.drop (compactionIdx + 1)

def buildContextEntries (options : ContextBuildOptions) (pathEntries : List SessionTreeEntry) :
    List SessionTreeEntry :=
  options.entryTransforms.foldl (fun entries transform => transform entries)
    (defaultContextEntryTransform pathEntries)

def entryToContextMessages (options : ContextBuildOptions) (entry : SessionTreeEntry)
    (index : Nat) (entries : List SessionTreeEntry) : List AgentMessage :=
  match entry.body with
  | .entry (.message message) => [message]
  | .entry (.customMessage customType content display details) =>
      [.custom (createCustomMessage customType (content.getD (.blocks [])) display details
        entry.timestamp)]
  | .entry (.compaction summary _ tokensBefore _ _) =>
      [.compactionSummary (createCompactionSummaryMessage summary tokensBefore entry.timestamp)]
  | .entry (.branchSummary fromId summary _ _) =>
      if truthy summary then
        [.branchSummary (createBranchSummaryMessage summary fromId entry.timestamp)]
      else []
  | .entry (.custom customType _) =>
      ((options.entryProjectors customType).bind fun project => project entry index entries).getD []
  | _ => []

def buildSessionContext (options : ContextBuildOptions) (pathEntries : List SessionTreeEntry) :
    Context :=
  let contextEntries := buildContextEntries options pathEntries
  { state := deriveSessionContextState pathEntries
    messages := contextEntries.zipIdx.flatMap fun p =>
      entryToContextMessages options p.1 p.2 contextEntries }

end HarnessSession

namespace JsonlStorage

open HarnessSession

/-! ## Calls -/

def appendEntry (s : JsonlStorage) (entry : SessionTreeEntry) : JsonlStorage :=
  (s.appendLine entry).remember entry

def contextAt (s : JsonlStorage) (options : ContextBuildOptions) (fuel : Nat)
    (leafId : Option String) : Option (Except SessionError Context) :=
  (s.getPathToRoot fuel leafId).map fun path => path.map (HarnessSession.buildSessionContext options)

/-- `session.buildContext` -/
def buildContext (s : JsonlStorage) (options : ContextBuildOptions) (fuel : Nat) :
    Option (Except SessionError Context) :=
  match s.getLeafId with
  | .error e => some (.error e)
  | .ok leafId => s.contextAt options fuel leafId

def setLeafId (s : JsonlStorage) (env : SessionEnv) (leafId : Option String) :
    Except SessionError JsonlStorage :=
  match leafId.filter fun id => !s.byId.has id with
  | some id => .error (.entryNotFound .notFound id)
  | none =>
      .ok (s.appendEntry ⟨s.generateEntryId env, s.currentLeafId, env.now, .leaf leafId⟩)

/-- What an `append*` method requires first. -/
def checkCall (s : JsonlStorage) : AppendCall → Except SessionError Unit
  | .label targetId _ =>
      if s.byId.has targetId then .ok () else .error (.entryNotFound .notFound targetId)
  | _ => .ok ()

/-- One of the `append*` methods of `Session`, to its end. -/
def append (s : JsonlStorage) (env : SessionEnv) (call : AppendCall) :
    Except SessionError JsonlStorage := do
  s.checkCall call
  let parentId ← s.getLeafId
  return s.appendEntry ⟨s.generateEntryId env, parentId, env.now, call.body⟩

structure BranchSummary where
  summary : String
  details : Option Json
  fromHook : Option Bool
deriving Repr, DecidableEq

def branchSummaryEntry (id now : String) (entryId : Option String) (b : BranchSummary) :
    SessionTreeEntry :=
  ⟨id, entryId, now, .entry (.branchSummary (entryId.getD "root") b.summary b.details b.fromHook)⟩

/-- `Session.moveTo`; the summary is written with `later`. -/
def moveTo (s : JsonlStorage) (env later : SessionEnv) (entryId : Option String)
    (summary : Option BranchSummary) : Except SessionError JsonlStorage := do
  let moved ← s.setLeafId env entryId
  match summary with
  | none => return moved
  | some b =>
      return moved.appendEntry
        (branchSummaryEntry (moved.generateEntryId later) later.now entryId b)

/-! ## Forks -/

inductive ForkPosition where
  | before
  | at
deriving Repr, DecidableEq

structure ForkOptions where
  entryId : Option String
  position : Option ForkPosition
deriving Repr, DecidableEq

def isUserMessage (entry : SessionTreeEntry) : Bool :=
  match entry.body with
  | .entry (.message (.user _)) => true
  | _ => false

/-- The leaf to fork at: `null`, an id, or an invalid target. -/
def effectiveLeafId (s : JsonlStorage) (id : String) (position : ForkPosition) :
    Except SessionError (Option String) :=
  match s.byId.get id with
  | none => .error ⟨.invalidForkTarget, s!"Entry {id} not found"⟩
  | some target =>
      match position with
      | .at => .ok (some target.id)
      | .before =>
          if isUserMessage target then .ok target.parentId
          else .error ⟨.invalidForkTarget, s!"Entry {id} is not a user message"⟩

/-- `getEntriesToFork` -/
def getEntriesToFork (s : JsonlStorage) (fuel : Nat) (options : ForkOptions) :
    Option (Except SessionError (List SessionTreeEntry)) :=
  match options.entryId.filter truthy with
  | none => some (.ok s.entries)
  | some id =>
      match s.effectiveLeafId id (options.position.getD .before) with
      | .error e => some (.error e)
      | .ok leafId => s.getPathToRoot fuel leafId

/-- The storage of `JsonlSessionRepo.fork`, for the content of the source
file. -/
def fork (sourcePath : String) (file : List SessionTreeEntry) (fuel : Nat) (filePath : String)
    (options : ForkOptions) : Option (Except SessionError JsonlStorage) :=
  match JsonlStorage.open sourcePath file with
  | .error e => some (.error e)
  | .ok source =>
      (source.getEntriesToFork fuel options).map fun entries =>
        entries.map fun entries => entries.foldl appendEntry (create filePath)

end JsonlStorage

end Eagent
