import Eagent.JsonlFile
import Eagent.JsonText
import Eagent.SessionMigration

/-!
# Opening a session file

`setSessionFile` and `loadEntriesFromFile`, over a disk that maps paths to
texts. A call returns or throws; what a throwing call has assigned stays
assigned, and what it has written stays written.

The cast of a parsed line to a `FileEntry` checks nothing; it is a
parameter, as is the text an entry is written as. Paths are resolved, and
directories exist.
-/

namespace Eagent

abbrev Disk := String → Option (List Char)

/-! ## Loading -/

namespace Json

def isZeroLiteral (cs : List Char) : Bool :=
  (cs.takeWhile fun c => c ≠ 'e' ∧ c ≠ 'E').all fun c => !isDigit c || c = '0'

/-- JavaScript truthiness of a parsed value. -/
def isTruthy : Json → Bool
  | .null => false
  | .bool b => b
  | .num text => !isZeroLiteral text.toList
  | .str s => Eagent.truthy s
  | .arr _ | .obj _ => true

end Json

/-- Malformed and blank lines are skipped, and so is a falsy value. -/
def parseSessionEntryLine (line : List Char) : Option Json :=
  if SessionManager.trimSpaces line = [] then none else (Json.parse line).filter Json.isTruthy

/-- `header.type === "session" && typeof header.id === "string"`. -/
def isSessionHeader : Json → Bool
  | .obj fields =>
      OrdMap.lookupIn "type" fields = some (.str "session") &&
        match OrdMap.lookupIn "id" fields with
        | some (.str _) => true
        | _ => false
  | _ => false

def loadEntriesFromFile (content : List Char) : List Json :=
  let entries := (splitLines content).filterMap parseSessionEntryLine
  if entries.head?.all isSessionHeader then entries else []

/-! ## Calls on a disk -/

/-- What a call leaves: the manager, the disk, and what it throws. -/
structure CallResult where
  manager : SessionManager
  disk : Disk
  thrown : Option CallError

section Calls

variable (line : FileEntry → List Char)

def fileText (entries : List FileEntry) : List Char :=
  entries.flatMap fun e => line e ++ ['\n']

/-- One file operation; `none` is `EEXIST`. -/
def FileWrite.run (disk : Disk) : FileWrite → Option Disk
  | .rewrite path entries => some (Function.update disk path (some (fileText line entries)))
  | .createNew path entries =>
      if (disk path).isSome then none
      else some (Function.update disk path (some (fileText line entries)))
  | .append path entry =>
      some (Function.update disk path
        (some ((disk path).getD [] ++ fileText line [.entry entry])))

def runWrites : Disk → List FileWrite → Option Disk
  | disk, [] => some disk
  | disk, write :: rest => (write.run line disk).bind fun disk => runWrites disk rest

/-- A call that stopped at its write: the entry is there, what follows the
write is not. -/
def SessionManager.interrupted (m : SessionManager) (out : Outcome) : SessionManager :=
  { m with
    fileEntries := out.manager.fileEntries
    byId := out.manager.byId
    leafId := out.manager.leafId }

def SessionOp.perform (env : Env) (m : SessionManager) (disk : Disk) (op : SessionOp) :
    CallResult :=
  match op.apply env m with
  | .error error => ⟨m, disk, some error⟩
  | .ok out =>
      match runWrites line disk out.writes with
      | some disk => ⟨out.manager, disk, none⟩
      | none => ⟨m.interrupted out, disk, some (.thrown "EEXIST: file already exists")⟩

/-- Calls one after another, whether they throw or not. -/
def performAll : SessionManager → Disk → List (Env × SessionOp) → CallResult
  | m, disk, [] => ⟨m, disk, none⟩
  | m, disk, (env, op) :: rest =>
      let result := op.perform line env m disk
      performAll result.manager result.disk rest

end Calls

/-! ## Opening -/

namespace SessionManager

/-- `newSession()`, which has no id to refuse. -/
def startSession (env : Env) (m : SessionManager) : SessionManager :=
  match m.newSession env {} with
  | .ok out => out.manager
  | .error _ => m

section Open

variable (line : FileEntry → List Char) (asEntry : Json → StoredLine)

def invalidSessionFile (path : String) : CallError :=
  .thrown ("Session file is not a valid agent session: " ++ path)

def setSessionFile (env : Env) (draws : UuidDraws) (m : SessionManager) (disk : Disk)
    (sessionFile : String) : CallResult :=
  let m := { m with sessionFile := some sessionFile }
  match disk sessionFile with
  | some content =>
      let entries := (loadEntriesFromFile content).map asEntry
      if entries.isEmpty then
        let m := { m with fileEntries := [] }
        if content.length > 0 then
          ⟨m, disk, some (invalidSessionFile sessionFile)⟩
        else
          let m := { m.startSession env with sessionFile := some sessionFile }
          let disk := (runWrites line disk m.rewriteFile).getD disk
          ⟨{ m with flushed := true }, disk, none⟩
      else
        let (migrated, changed) := migrateToCurrentVersion draws entries
        let m := { m with
          fileEntries := migrated.map StoredLine.toFileEntry
          sessionId := ((entries.findSome? StoredLine.header?).map SessionHeader.id).getD
            env.uuidv7 }
        let disk := if changed then (runWrites line disk m.rewriteFile).getD disk else disk
        ⟨{ m.buildIndex with flushed := true }, disk, none⟩
  | none => ⟨{ m.startSession env with sessionFile := some sessionFile }, disk, none⟩

end Open

end SessionManager

/-! ## A rejected file -/

/-- The file exists, is not empty and is no session. -/
def IsRejected (disk : Disk) (path : String) : Prop :=
  ∃ content, disk path = some content ∧ content ≠ [] ∧ loadEntriesFromFile content = []

/-- The calls that append an entry. -/
def SessionOp.isAppend : SessionOp → Bool
  | .branch _ | .resetLeaf | .createBranchedSession _ | .ensureSessionFile | .newSession _ => false
  | _ => true

section Rejected

variable (line : FileEntry → List Char) (asEntry : Json → StoredLine)

/-- What a rejected file has to leave: an error, the manager's state as it
was, and a file that no later append touches. -/
structure LeavesUntouched (m : SessionManager) (disk : Disk) (path : String)
    (result : CallResult) : Prop where
  throws : ∃ error, result.thrown = some error
  sessionFile : result.manager.sessionFile = m.sessionFile
  fileEntries : result.manager.fileEntries = m.fileEntries
  byId : result.manager.byId = m.byId
  leafId : result.manager.leafId = m.leafId
  labelsById : result.manager.labelsById = m.labelsById
  labelTimestampsById : result.manager.labelTimestampsById = m.labelTimestampsById
  flushed : result.manager.flushed = m.flushed
  file : ∀ calls : List (Env × SessionOp), (∀ call ∈ calls, call.2.isAppend = true) →
    (performAll line result.manager result.disk calls).disk path = disk path

variable {line asEntry}

variable {m : SessionManager} {disk : Disk}

theorem setSessionFile_rejected {env : Env} {draws : UuidDraws} {path : String}
    (h : IsRejected disk path) :
    m.setSessionFile line asEntry env draws disk path =
      ⟨{ m with sessionFile := some path, fileEntries := [] }, disk,
        some (SessionManager.invalidSessionFile path)⟩ := by
  obtain ⟨content, hfile, hne, hload⟩ := h
  have hpos : content.length > 0 := List.length_pos_iff.mpr hne
  simp [SessionManager.setSessionFile, hfile, hload, hpos]

/-! ## Appends that write nothing -/

/-- The open file, if any, is there already, and no entry of it has been
written. -/
structure Unwritten (m : SessionManager) (disk : Disk) : Prop where
  exists_of_open : ∀ file, m.openFile = some file → (disk file).isSome = true
  unflushed : m.openFile = none ∨ m.flushed = false

/-- What an append does beyond `appendEntry`: the leaf may move before, the
labels may change after. -/
theorem apply_append {env : Env} {op : SessionOp} {out : Outcome} (happend : op.isAppend = true)
    (h : op.apply env m = .ok out) :
    ∃ leafId entry labelsById labelTimestampsById,
      out.writes = (({ m with leafId } : SessionManager).appendEntry entry).writes ∧
      out.manager = { (({ m with leafId } : SessionManager).appendEntry entry).manager with
        labelsById, labelTimestampsById } := by
  cases op with
  | appendMessage message =>
    cases h
    exact ⟨m.leafId, _, _, _, rfl, rfl⟩
  | appendThinkingLevelChange level =>
    cases h
    exact ⟨m.leafId, _, _, _, rfl, rfl⟩
  | appendModelChange provider modelId =>
    cases h
    exact ⟨m.leafId, _, _, _, rfl, rfl⟩
  | appendCompaction summary firstKept tokens details fromHook =>
    cases h
    exact ⟨m.leafId, _, _, _, rfl, rfl⟩
  | appendCustomEntry customType data =>
    cases h
    exact ⟨m.leafId, _, _, _, rfl, rfl⟩
  | appendSessionInfo name =>
    cases h
    exact ⟨m.leafId, _, _, _, rfl, rfl⟩
  | appendCustomMessageEntry customType content display details =>
    cases h
    exact ⟨m.leafId, _, _, _, rfl, rfl⟩
  | appendLabelChange targetId label =>
    simp only [SessionOp.apply, SessionManager.appendLabelChange] at h
    split at h
    · cases h
    · refine ⟨m.leafId, m.nextEntry env (.label targetId label), ?_⟩
      split at h <;> cases h <;> exact ⟨_, _, rfl, rfl⟩
  | branchWithSummary branchFromId summary details fromHook =>
    simp only [SessionOp.apply, SessionManager.branchWithSummary] at h
    split at h
    · cases h
    · cases h
      exact ⟨branchFromId, _, _, _, rfl, rfl⟩
  | branch _ => cases happend
  | resetLeaf => cases happend
  | createBranchedSession _ => cases happend
  | ensureSessionFile => cases happend
  | newSession _ => cases happend

/-- Persisting an entry decides `flushed` alone. -/
theorem persistEntry_manager (m : SessionManager) (entry : SessionEntry) :
    (m.persistEntry entry).1 = { m with flushed := (m.persistEntry entry).1.flushed } := by
  unfold SessionManager.persistEntry
  split
  · rfl
  · split_ifs <;> rfl

theorem appendEntry_manager (m : SessionManager) (entry : SessionEntry) :
    (m.appendEntry entry).manager =
      { m with
        fileEntries := m.fileEntries ++ [.entry entry]
        byId := m.byId.set entry.id entry
        leafId := some entry.id
        flushed := (m.appendEntry entry).manager.flushed } :=
  persistEntry_manager _ entry

/-- Without a written file an entry goes nowhere, or the whole file is to be
created. -/
theorem appendEntry_unwritten (h : Unwritten m disk) (entry : SessionEntry) :
    ((m.appendEntry entry).writes = [] ∧ (m.appendEntry entry).manager.flushed = m.flushed) ∨
      ∃ file entries, m.openFile = some file ∧
        (m.appendEntry entry).writes = [.createNew file entries] := by
  have hopen : ∀ fileEntries byId leafId,
      ({ m with fileEntries, byId, leafId } : SessionManager).openFile = m.openFile :=
    fun _ _ _ => rfl
  simp only [SessionManager.appendEntry, SessionManager.persistEntry, hopen]
  rcases h.unflushed with hnone | hflushed
  · rw [hnone]
    exact .inl ⟨rfl, rfl⟩
  · cases hfile : m.openFile with
    | none => exact .inl ⟨rfl, rfl⟩
    | some file =>
      simp only [hflushed, Bool.false_eq_true, if_false, Bool.not_false, if_true]
      split_ifs
      · exact .inl ⟨rfl, rfl⟩
      · exact .inr ⟨file, _, rfl, rfl⟩

theorem Unwritten.perform (line : FileEntry → List Char) (env : Env) (h : Unwritten m disk)
    {op : SessionOp} (happend : op.isAppend = true) :
    (op.perform line env m disk).disk = disk ∧
      Unwritten (op.perform line env m disk).manager disk := by
  unfold SessionOp.perform
  cases happly : op.apply env m with
  | error error => exact ⟨rfl, h⟩
  | ok out =>
    obtain ⟨leafId, entry, labelsById, labelTimestampsById, hwrites, hmanager⟩ :=
      apply_append happend happly
    have hopen : out.manager.openFile = m.openFile := by
      rw [hmanager, appendEntry_manager]
      rfl
    have hflushed : out.manager.flushed =
        (({ m with leafId } : SessionManager).appendEntry entry).manager.flushed := by
      rw [hmanager]
    have hmoved : Unwritten { m with leafId } disk := ⟨h.exists_of_open, h.unflushed⟩
    dsimp only
    rcases appendEntry_unwritten hmoved entry with ⟨hnone, hkept⟩ | ⟨file, entries, hfile, hnew⟩
    · rw [hwrites, hnone]
      have hunflushed : out.manager.openFile = none ∨ out.manager.flushed = false := by
        rw [hopen, hflushed, hkept]
        exact h.unflushed
      exact ⟨rfl, fun file hfile => h.exists_of_open file (hopen ▸ hfile), hunflushed⟩
    · have hexists : (disk file).isSome = true := h.exists_of_open file hfile
      have hfail : runWrites line disk out.writes = none := by
        rw [hwrites, hnew, runWrites, FileWrite.run, if_pos hexists]
        rfl
      rw [hfail]
      exact ⟨rfl, h.exists_of_open, h.unflushed⟩

theorem Unwritten.performAll :
    ∀ (calls : List (Env × SessionOp)) {m : SessionManager}, Unwritten m disk →
      (∀ call ∈ calls, call.2.isAppend = true) →
      (performAll line m disk calls).disk = disk
  | [], _, _, _ => rfl
  | (env, op) :: rest, m, h, hcalls => by
    have hop := h.perform line env (hcalls _ List.mem_cons_self)
    have hrest := Unwritten.performAll rest hop.2
      fun call hcall => hcalls call (List.mem_cons_of_mem _ hcall)
    rw [Eagent.performAll, hop.1]
    exact hrest

/-! ## An append that does write -/

theorem persistEntry_flushed {path : String} (hopen : m.openFile = some path)
    (hflushed : m.flushed = true) (entry : SessionEntry) :
    m.persistEntry entry = (m, [.append path entry]) := by
  simp [SessionManager.persistEntry, hopen, hflushed]

theorem perform_flushed (env : Env) {path : String} (hopen : m.openFile = some path)
    (hflushed : m.flushed = true) (level : String) :
    ((SessionOp.appendThinkingLevelChange level).perform line env m disk).disk path =
      some ((disk path).getD [] ++ fileText line
        [.entry (m.nextEntry env (.thinkingLevelChange level))]) := by
  generalize hentry : m.nextEntry env (.thinkingLevelChange level) = entry
  have hpersist := persistEntry_flushed (m := { m with
    fileEntries := m.fileEntries ++ [.entry entry]
    byId := m.byId.set entry.id entry
    leafId := some entry.id }) hopen hflushed entry
  have hwrites : (m.appendThinkingLevelChange env level).writes = [.append path entry] := by
    rw [SessionManager.appendThinkingLevelChange, hentry]
    exact congrArg Prod.snd hpersist
  simp only [SessionOp.perform, SessionOp.apply, hwrites, runWrites, FileWrite.run,
    Option.bind_some, Function.update_self]

/-- A rejected file is left alone, and the manager with it, exactly when the
path was the manager's own already, without any entries, and nothing is
written to it: the manager does not persist, or has not written yet. -/
theorem setSessionFile_rejected_iff (line : FileEntry → List Char) (asEntry : Json → StoredLine)
    (env : Env) (draws : UuidDraws) (m : SessionManager) (disk : Disk) (path : String)
    (h : IsRejected disk path) :
    LeavesUntouched line m disk path (m.setSessionFile line asEntry env draws disk path) ↔
      m.sessionFile = some path ∧ m.fileEntries = [] ∧
        (m.openFile = none ∨ m.flushed = false) := by
  rw [setSessionFile_rejected h]
  obtain ⟨content, hfile, -, -⟩ := h
  constructor
  · intro hleft
    have hsession : m.sessionFile = some path := hleft.sessionFile.symm
    have hentries : m.fileEntries = [] := hleft.fileEntries.symm
    refine ⟨hsession, hentries, ?_⟩
    by_contra hwritten
    rw [not_or, Bool.not_eq_false] at hwritten
    obtain ⟨hsome, hflushed⟩ := hwritten
    have hopen : m.openFile = some path := by
      simp only [SessionManager.openFile, hsession, Option.filter] at hsome ⊢
      split_ifs at hsome ⊢ <;> simp_all
    have hsame : ({ m with sessionFile := some path, fileEntries := [] } : SessionManager) = m := by
      rw [← hsession, ← hentries]
    have hfirst := hleft.file [(env, .appendThinkingLevelChange "off")]
      (by simp [SessionOp.isAppend])
    simp only [hsame, performAll] at hfirst
    rw [perform_flushed env hopen hflushed, hfile] at hfirst
    have hlen := congrArg List.length (Option.some.inj hfirst)
    simp [fileText] at hlen
  · rintro ⟨hsession, hentries, hunflushed⟩
    have hsame : ({ m with sessionFile := some path, fileEntries := [] } : SessionManager) = m := by
      rw [← hsession, ← hentries]
    rw [hsame]
    have hunwritten : Unwritten m disk := by
      refine ⟨fun file hopen => ?_, hunflushed⟩
      have hpath : file = path := by
        simp only [SessionManager.openFile, hsession] at hopen
        split_ifs at hopen
        exact (Option.some.inj (Option.filter_eq_some_iff.mp hopen).1).symm
      rw [hpath, hfile]
      rfl
    exact {
      throws := ⟨_, rfl⟩
      sessionFile := rfl
      fileEntries := rfl
      byId := rfl
      leafId := rfl
      labelsById := rfl
      labelTimestampsById := rfl
      flushed := rfl
      file := fun calls hcalls => by rw [hunwritten.performAll calls hcalls] }

end Rejected

/-! ## A text file that is no session -/

def notesPath : String := "/work/notes.txt"

/-- A disk with one file, which holds a word. -/
def notesDisk : Disk := fun path => if path = notesPath then some ['h', 'i'] else none

theorem isRejected_notes : IsRejected notesDisk notesPath := ⟨['h', 'i'], rfl, by decide, by decide⟩

def writtenManager : SessionManager :=
  { SessionManager.blank "/work" "/sessions" true with
    sessionId := "s"
    sessionFile := some "/sessions/s/session.jsonl"
    flushed := true
    fileEntries := [.session ⟨some 3, "s", "2025-01-01T00:00:00.000Z", "/work", none⟩] }

def refusedManager : SessionManager :=
  { SessionManager.blank "/work" "/sessions" true with sessionFile := some notesPath }

def noonEnv : Env := ⟨"2025-01-01T12:00:00.000Z", "s2", fun _ i => i.repr⟩

theorem setSessionFile_refused_again :
    IsRejected notesDisk notesPath ∧
      LeavesUntouched (fun _ => []) refusedManager notesDisk notesPath
        (refusedManager.setSessionFile (fun _ => []) (fun _ => .session ⟨none, "", "", "", none⟩)
          noonEnv collidingDraws notesDisk notesPath) :=
  ⟨isRejected_notes, (setSessionFile_rejected_iff _ _ _ _ _ _ _ isRejected_notes).mpr
    ⟨rfl, rfl, .inr rfl⟩⟩

/-- Opening it throws, the manager keeps its path, and the next entry is
appended to it. -/
theorem setSessionFile_touches_rejected :
    IsRejected notesDisk notesPath ∧ ∀ line asEntry,
      let result := writtenManager.setSessionFile line asEntry noonEnv collidingDraws notesDisk
        notesPath
      result.thrown = some (SessionManager.invalidSessionFile notesPath) ∧
        result.manager.sessionFile = some notesPath ∧ result.manager.fileEntries = [] ∧
        ((SessionOp.appendThinkingLevelChange "high").perform line noonEnv result.manager
          result.disk).disk notesPath ≠ notesDisk notesPath ∧
        ¬ LeavesUntouched line writtenManager notesDisk notesPath result := by
  refine ⟨isRejected_notes, fun line asEntry => ?_⟩
  rw [setSessionFile_rejected isRejected_notes]
  refine ⟨rfl, rfl, rfl, fun hsame => ?_, fun hleft => ?_⟩
  · rw [perform_flushed noonEnv rfl rfl "high"] at hsame
    have hlen := congrArg List.length (Option.some.inj hsame)
    simp [fileText, notesDisk] at hlen
  · cases hleft.fileEntries

end Eagent
