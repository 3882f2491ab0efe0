import Eagent.JsonlReopen
import Eagent.SessionFile
import Eagent.SessionTree

/-!
# The session file of a run

A persisted session is created, opened or forked, and its calls append to
the file, create it or rewrite it. As long as no call lands on a file that is
there already and the file it opened ends in a line break, the lines of the
file are the entries in memory (`file_agrees`).
-/

namespace Eagent

open SessionManager

/-! ## Lines of a text -/

/-- What the lines of a text hold. -/
def parsedLines (content : List Char) : List Json :=
  (splitLines content).filterMap parseSessionEntryLine

/-- Nothing stands behind the last line break. -/
def Terminated (content : List Char) : Prop :=
  content = [] ∨ ∃ body, content = body ++ ['\n']

variable {content : List Char}

theorem Terminated.append (h : Terminated content) (rest : List Char) :
    parsedLines (content ++ rest) = parsedLines content ++ parsedLines rest := by
  obtain rfl | ⟨body, rfl⟩ := h
  · rfl
  · have hblank : parseSessionEntryLine [] = none := rfl
    rw [parsedLines, List.append_assoc, List.singleton_append, splitLines_append_newline,
      List.filterMap_append, parsedLines, splitLines_append_newline, List.filterMap_append]
    simp [splitLines, hblank, parsedLines]

theorem terminated_line (content line : List Char) : Terminated (content ++ (line ++ ['\n'])) :=
  .inr ⟨content ++ line, by rw [List.append_assoc]⟩

theorem isJsSpace_of_isNumberChar {c : Char} (h : Json.isNumberChar c = true) :
    isJsSpace c = false := by
  simp only [Json.isNumberChar, Json.isDigit, Bool.or_eq_true, Bool.and_eq_true,
    decide_eq_true_eq] at h
  rcases h with ((((⟨hlow, hhigh⟩ | rfl) | rfl) | rfl) | rfl) | rfl
  · have hlow : 48 ≤ c.toNat := hlow
    have hhigh : c.toNat ≤ 57 := hhigh
    simp [isJsSpace]
    omega
  all_goals rfl

variable {j : Json}

/-- A text of a value is not blank. -/
theorem trimSpaces_stringify (h : j.Canonical) : trimSpaces j.stringify ≠ [] := by
  cases j with
  | null => exact trimSpaces_ne rfl _
  | bool b => cases b <;> exact trimSpaces_ne rfl _
  | num text =>
    obtain ⟨c, rest, heq, hc⟩ := Json.isNumberLiteral.head h
    rw [Json.stringify, heq]
    exact trimSpaces_ne (isJsSpace_of_isNumberChar hc) _
  | str s => exact trimSpaces_ne rfl _
  | arr items => exact trimSpaces_ne rfl _
  | obj fields => exact trimSpaces_ne rfl _

/-- A written value is read back from its line. -/
theorem parsedLines_stringify (hcanonical : j.Canonical) (htruthy : j.isTruthy = true) :
    parsedLines (j.stringify ++ ['\n']) = [j] := by
  have hblank : parseSessionEntryLine [] = none := rfl
  have hne := trimSpaces_stringify hcanonical
  have hline : parseSessionEntryLine j.stringify = some j := by
    rw [parseSessionEntryLine, if_neg hne, Json.parse_stringify hcanonical, Option.filter_some,
      if_pos htruthy]
  rw [parsedLines, splitLines_line (Json.stringify_no_newline hcanonical)]
  simp [splitLines, hline, hblank]

/-- The text of values, one a line. -/
def jsonLines (values : List Json) : List Char := values.flatMap fun j => j.stringify ++ ['\n']

theorem parsedLines_jsonLines {values : List Json}
    (h : ∀ j ∈ values, j.Canonical ∧ j.isTruthy = true) :
    Terminated (jsonLines values) ∧ parsedLines (jsonLines values) = values := by
  induction values with
  | nil => exact ⟨.inl rfl, rfl⟩
  | cons j values ih =>
    obtain ⟨hterminated, hparsed⟩ := ih fun x hx => h x (List.mem_cons_of_mem _ hx)
    obtain ⟨hcanonical, htruthy⟩ := h j List.mem_cons_self
    have hline : Terminated (j.stringify ++ ['\n']) := .inr ⟨_, rfl⟩
    have htext : jsonLines (j :: values) = (j.stringify ++ ['\n']) ++ jsonLines values :=
      List.flatMap_cons
    constructor
    · obtain hnil | ⟨body, hbody⟩ := hterminated
      · rw [htext, hnil, List.append_nil]
        exact hline
      · rw [htext, hbody, ← List.append_assoc]
        exact .inr ⟨_, rfl⟩
    · rw [htext, hline.append, parsedLines_stringify hcanonical htruthy, hparsed,
        List.singleton_append]

theorem mem_parsedLines (h : j ∈ parsedLines content) :
    j.Canonical ∧ j.isTruthy = true := by
  obtain ⟨line, -, hline⟩ := List.mem_filterMap.mp h
  unfold parseSessionEntryLine at hline
  split_ifs at hline
  obtain ⟨hparse, htruthy⟩ := Option.filter_eq_some_iff.mp hline
  exact ⟨Json.parse_canonical hparse, htruthy⟩

theorem load_of_header (h : (parsedLines content).head?.all isSessionHeader = true) :
    loadEntriesFromFile content = parsedLines content :=
  if_pos h

theorem mem_of_mem_load (h : j ∈ loadEntriesFromFile content) :
    j ∈ parsedLines content := by
  by_cases hheader : (parsedLines content).head?.all isSessionHeader = true
  · rwa [load_of_header hheader] at h
  · have hload : loadEntriesFromFile content = [] := if_neg hheader
    rw [hload] at h
    cases h

/-! ## Entries as values -/

/-- `entry.type === "session"`. -/
def isSessionLine : Json → Bool
  | .obj fields => OrdMap.lookupIn "type" fields = some (.str "session")
  | _ => false

theorem isSessionLine_of_header (h : isSessionHeader j = true) :
    isSessionLine j = true := by
  cases j with
  | obj fields =>
    simp only [isSessionHeader, Bool.and_eq_true] at h
    exact h.1
  | _ => cases h

/-- The value an entry is, and the cast of a parsed line; the `type` says
which lines are headers. -/
structure EntryCast where
  toJson : FileEntry → Json
  asEntry : Json → StoredLine
  header : ∀ j, (asEntry j).header?.isSome = isSessionLine j

namespace EntryCast

variable (cast : EntryCast)

def line (e : FileEntry) : List Char := (cast.toJson e).stringify

def read (j : Json) : FileEntry := (cast.asEntry j).toFileEntry

/-- The entry comes back from its line, a header as a header. -/
structure ReadsBack (e : FileEntry) : Prop where
  canonical : (cast.toJson e).Canonical
  truthy : (cast.toJson e).isTruthy = true
  read : cast.read (cast.toJson e) = e
  header : e.entry? = none → isSessionHeader (cast.toJson e) = true

/-- The entries of a file that begins with a header. -/
structure Holds (content : List Char) (entries : List FileEntry) : Prop where
  terminated : Terminated content
  entries : (parsedLines content).map cast.read = entries
  header : (parsedLines content).head?.all isSessionHeader = true

variable {cast}

variable {header : SessionHeader}

theorem ReadsBack.asEntry (h : cast.ReadsBack (.session header)) :
    cast.asEntry (cast.toJson (.session header)) = .session header := by
  have hread := h.read
  unfold EntryCast.read at hread
  cases hentry : cast.asEntry (cast.toJson (.session header)) with
  | session other =>
    rw [hentry] at hread
    exact congrArg StoredLine.session (FileEntry.session.inj hread)
  | entry e =>
    rw [hentry] at hread
    cases hread

theorem ReadsBack.parsedLines_line {e : FileEntry} (h : cast.ReadsBack e) :
    parsedLines (cast.line e ++ ['\n']) = [cast.toJson e] :=
  parsedLines_stringify h.canonical h.truthy

theorem fileText_eq (entries : List FileEntry) :
    fileText cast.line entries = jsonLines (entries.map cast.toJson) := by
  rw [jsonLines, List.flatMap_map]
  rfl

theorem parsedLines_fileText {entries : List FileEntry} (h : ∀ e ∈ entries, cast.ReadsBack e) :
    Terminated (fileText cast.line entries) ∧
      parsedLines (fileText cast.line entries) = entries.map cast.toJson := by
  rw [fileText_eq]
  refine parsedLines_jsonLines fun j hj => ?_
  obtain ⟨e, he, rfl⟩ := List.mem_map.mp hj
  exact ⟨(h e he).canonical, (h e he).truthy⟩

theorem read_toJson {entries : List FileEntry} (h : ∀ e ∈ entries, cast.ReadsBack e) :
    (entries.map cast.toJson).map cast.read = entries := by
  rw [List.map_map]
  calc entries.map (cast.read ∘ cast.toJson) = entries.map id :=
        List.map_congr_left fun e he => (h e he).read
    _ = entries := List.map_id _

theorem holds_fileText {entries : List FileEntry}
    (h : ∀ e ∈ FileEntry.session header :: entries, cast.ReadsBack e) :
    cast.Holds (fileText cast.line (.session header :: entries)) (.session header :: entries) := by
  obtain ⟨hterminated, hparsed⟩ := parsedLines_fileText h
  refine ⟨hterminated, ?_, ?_⟩
  · rw [hparsed, read_toJson h]
  · rw [hparsed]
    simpa using (h _ List.mem_cons_self).header rfl

theorem Holds.append {content : List Char} {entries : List FileEntry}
    (h : cast.Holds content (.session header :: entries)) {e : SessionEntry}
    (he : cast.ReadsBack (.entry e)) :
    cast.Holds (content ++ fileText cast.line [.entry e])
      (.session header :: entries ++ [.entry e]) := by
  have htext : fileText cast.line [.entry e] = cast.line (.entry e) ++ ['\n'] := by
    rw [fileText, List.flatMap_cons, List.flatMap_nil, List.append_nil]
  have hparsed : parsedLines (content ++ fileText cast.line [.entry e]) =
      parsedLines content ++ [cast.toJson (.entry e)] := by
    rw [h.terminated.append, htext, he.parsedLines_line]
  refine ⟨?_, ?_, ?_⟩
  · rw [htext]
    exact terminated_line _ _
  · rw [hparsed, List.map_append, h.entries, List.map_singleton, he.read]
  · have hne : parsedLines content ≠ [] := by
      intro hnil
      have hentries := h.entries
      rw [hnil] at hentries
      cases hentries
    rw [hparsed, List.head?_append_of_ne_nil _ hne]
    exact h.header

theorem Holds.load {content : List Char} {entries : List FileEntry}
    (h : cast.Holds content entries) : (loadEntriesFromFile content).map cast.read = entries := by
  rw [load_of_header h.header, h.entries]

end EntryCast

/-! ## Starting a session -/

/-- The calls a persisted session starts with. -/
inductive SessionStart where
  | create (options : NewSessionOptions)
  | «open» (path : String)
  | forkFrom (sourcePath : String) (options : NewSessionOptions)

/-- What `assertValidSessionId` throws. -/
def invalidSessionId : CallError :=
  .thrown ("Session id must be non-empty, contain only alphanumeric characters, "
    ++ "'-', '_', and '.', and start and end with an alphanumeric character")

def emptySource (sourcePath : String) : CallError :=
  .thrown ("Cannot fork: source session file is empty or invalid: " ++ sourcePath)

section Start

variable (cast : EntryCast) (env : Env) (draws : UuidDraws) (disk : Disk) (cwd sessionDir : String)

def newSessionFile (options : NewSessionOptions) : String :=
  getSessionFilePath sessionDir env.now (options.id.getD env.uuidv7)

/-- `SessionManager.open`. -/
def SessionManager.open (path : String) : CallResult :=
  (blank cwd sessionDir true).setSessionFile cast.line cast.asEntry env draws disk path

def forkHeader (sourcePath : String) (options : NewSessionOptions) : SessionHeader where
  version := some CURRENT_SESSION_VERSION
  id := options.id.getD env.uuidv7
  timestamp := env.now
  cwd := cwd
  parentSession := some sourcePath

def forkText (sourcePath : String) (options : NewSessionOptions) (source : List Json) :
    List Char :=
  fileText cast.line [.session (forkHeader env cwd sourcePath options)] ++
    jsonLines (source.filter fun j => !isSessionLine j)

/-- `SessionManager.forkFrom`: the file is created, filled and opened. -/
def SessionManager.forkFrom (sourcePath : String) (options : NewSessionOptions) : CallResult :=
  let source := loadEntriesFromFile ((disk sourcePath).getD [])
  let file := newSessionFile env sessionDir options
  if source.isEmpty then ⟨blank cwd sessionDir true, disk, some (emptySource sourcePath)⟩
  else if options.id.any fun id => !isValidSessionId id then
    ⟨blank cwd sessionDir true, disk, some invalidSessionId⟩
  else if (disk file).isSome then
    ⟨blank cwd sessionDir true, disk, some (.thrown "EEXIST: file already exists")⟩
  else
    SessionManager.open cast env draws
      (Function.update disk file (some (forkText cast env cwd sourcePath options source)))
      cwd sessionDir file

def SessionStart.run : SessionStart → CallResult
  | .create options =>
      match SessionManager.create env cwd sessionDir true options with
      | .ok out => ⟨out.manager, disk, none⟩
      | .error error => ⟨blank cwd sessionDir true, disk, some error⟩
  | .open path => SessionManager.open cast env draws disk cwd sessionDir path
  | .forkFrom sourcePath options =>
      SessionManager.forkFrom cast env draws disk cwd sessionDir sourcePath options

end Start

/-! ## Runs -/

section Runs

variable (cast : EntryCast)

/-- One call, whether it returns or throws. -/
def sessionStep (s : SessionManager × Disk) (a : Env × SessionOp) :
    Option (SessionManager × Disk) :=
  let result := a.2.perform cast.line a.1 s.1 s.2
  some (result.manager, result.disk)

def SessionOp.newFile (env : Env) (m : SessionManager) : SessionOp → Option String
  | .newSession options => some (newSessionFile env m.sessionDir options)
  | .createBranchedSession _ => some (newSessionFile env m.sessionDir {})
  | _ => none

def FileWrite.entries : FileWrite → List FileEntry
  | .rewrite _ entries | .createNew _ entries => entries
  | .append _ entry => [.entry entry]

/-- The call starts no session on a file that is there, and what it writes
are JSON values. -/
structure CallHolds (s : SessionManager × Disk) (a : Env × SessionOp) : Prop where
  fresh : ∀ path, a.2.newFile a.1 s.1 = some path → s.2 path = none
  readsBack : ∀ out, a.2.apply a.1 s.1 = .ok out → ∀ write ∈ out.writes, ∀ e ∈ write.entries,
    cast.ReadsBack e

/-- The file is written as a whole when it is opened: it is empty, or of an
older version. -/
def IsRewritten (content : List Char) : Prop :=
  content = [] ∨
    sessionVersion ((loadEntriesFromFile content).map cast.asEntry) < CURRENT_SESSION_VERSION

/-- A created session has a file of its own; an opened file has one header
and, unless it is rewritten, a line break at its end. -/
def SessionStart.Holds (env : Env) (draws : UuidDraws) (disk : Disk) (cwd sessionDir : String) :
    SessionStart → Prop
  | .create options => disk (newSessionFile env sessionDir options) = none
  | .open path => ∀ content, disk path = some content →
      (∀ j ∈ (loadEntriesFromFile content).tail, isSessionLine j = false) ∧
        (IsRewritten cast content ∧
          (∀ e ∈
              (SessionManager.open cast env draws disk cwd sessionDir path).manager.fileEntries,
            cast.ReadsBack e) ∨
          ¬ IsRewritten cast content ∧ Terminated content)
  | .forkFrom sourcePath options =>
      cast.ReadsBack (.session (forkHeader env cwd sourcePath options))

/-- The file is the entries in memory, under one header; opening it gives the
same entries, index, labels and tree. -/
structure FileAgrees (m : SessionManager) (disk : Disk) : Prop where
  header : ∃ header, m.fileEntries = .session header :: m.getEntries.map .entry
  lines : ∀ path content, m.openFile = some path → disk path = some content →
    (loadEntriesFromFile content).map cast.read = m.fileEntries
  reopened : ∀ path content, m.openFile = some path → disk path = some content →
    ∀ env draws cwd sessionDir,
      let reopened := SessionManager.open cast env draws disk cwd sessionDir path
      reopened.thrown = none ∧ reopened.disk = disk ∧
        reopened.manager.fileEntries = m.fileEntries ∧ reopened.manager.byId = m.byId ∧
        reopened.manager.labelsById = m.labelsById ∧
        reopened.manager.labelTimestampsById = m.labelTimestampsById ∧
        ∀ fuel, reopened.manager.getTree fuel = m.getTree fuel

end Runs

/-! ## The invariant -/

/-- One header of the current version, and the index its entries have. -/
structure Indexed (m : SessionManager) : Prop where
  header : ∃ header : SessionHeader, CURRENT_SESSION_VERSION ≤ header.version.getD 1 ∧
    m.fileEntries = .session header :: m.getEntries.map .entry
  byId : m.byId = indexEntries m.getEntries
  labels : m.labelsById = labelFold m.getEntries
  labelTimestamps : m.labelTimestampsById = labelTimestampFold m.getEntries

/-- The file is there exactly if the session was written, and holds it. -/
structure Stored (cast : EntryCast) (m : SessionManager) (disk : Disk) : Prop where
  persist : m.persist = true
  indexed : Indexed m
  unwritten : m.flushed = false → ∀ path, m.openFile = some path → disk path = none
  written : m.flushed = true → ∀ path, m.openFile = some path →
    ∃ content, disk path = some content ∧ cast.Holds content m.fileEntries

variable {m : SessionManager}

theorem indexed_buildIndex {header : SessionHeader} {es : List SessionEntry}
    (hversion : CURRENT_SESSION_VERSION ≤ header.version.getD 1)
    (h : m.fileEntries = .session header :: es.map .entry) : Indexed m.buildIndex := by
  have hm := buildIndex_eq h
  have hentries := getEntries_buildIndex h
  refine ⟨⟨header, hversion, ?_⟩, ?_, ?_, ?_⟩
  · rw [hentries, hm, h]
  · rw [hentries, hm]
  · rw [hentries, hm]
  · rw [hentries, hm]

theorem Indexed.append (h : Indexed m) (leafId : Option String) (e : SessionEntry)
    (flushed : Bool) :
    Indexed { m with
      fileEntries := m.fileEntries ++ [.entry e]
      byId := m.byId.set e.id e
      leafId
      labelsById := applyLabel m.labelsById e
      labelTimestampsById := applyLabelTimestamp m.labelTimestampsById e
      flushed } := by
  obtain ⟨header, hversion, hheader⟩ := h.header
  have hentries : getEntries { m with
      fileEntries := m.fileEntries ++ [.entry e]
      byId := m.byId.set e.id e
      leafId
      labelsById := applyLabel m.labelsById e
      labelTimestampsById := applyLabelTimestamp m.labelTimestampsById e
      flushed } = m.getEntries ++ [e] := by
    simp [getEntries, FileEntry.entry?]
  refine ⟨⟨header, hversion, ?_⟩, ?_, ?_, ?_⟩
  · rw [hentries, List.map_append, ← List.cons_append, ← hheader]
    rfl
  · rw [hentries, indexEntries_append, ← h.byId]
  · rw [hentries, labelFold, List.foldl_append, ← labelFold, ← h.labels]
    rfl
  · rw [hentries, labelTimestampFold, List.foldl_append, ← labelTimestampFold,
      ← h.labelTimestamps]
    rfl

/-! ## What a call does -/

namespace SessionManager

/-- The state with one more entry, before it is persisted. -/
def withEntry (m : SessionManager) (e : SessionEntry) : SessionManager :=
  { m with
    fileEntries := m.fileEntries ++ [.entry e]
    byId := m.byId.set e.id e
    leafId := some e.id
    labelsById := applyLabel m.labelsById e
    labelTimestampsById := applyLabelTimestamp m.labelTimestampsById e }

def withSession (m : SessionManager) (header : SessionHeader) (es : List SessionEntry)
    (sessionId path : String) : SessionManager :=
  buildIndex { m with
    fileEntries := .session header :: es.map .entry
    sessionId
    sessionFile := some path }

theorem persistEntry_cases (m : SessionManager) (e : SessionEntry) :
    (m.openFile = none ∨ m.flushed = false) ∧ m.persistEntry e = (m, []) ∨
      (∃ path, m.openFile = some path ∧ m.flushed = true ∧
        m.persistEntry e = (m, [.append path e])) ∨
      ∃ path, m.openFile = some path ∧ m.flushed = false ∧
        m.persistEntry e = ({ m with flushed := true }, [.createNew path m.fileEntries]) := by
  unfold persistEntry
  cases hfile : m.openFile with
  | none => exact .inl ⟨.inl rfl, rfl⟩
  | some path =>
    cases hflushed : m.flushed with
    | true => exact .inr (.inl ⟨path, rfl, rfl, by simp⟩)
    | false =>
      cases hassistant : m.hasAssistant with
      | true => exact .inr (.inr ⟨path, rfl, rfl, by simp⟩)
      | false =>
        have hm : { m with flushed := false } = m := by rw [← hflushed]
        exact .inl ⟨.inr rfl, by simp [hm]⟩

theorem persistEntry_withLabels (m : SessionManager) (e : SessionEntry)
    (labelsById labelTimestampsById : OrdMap String String) :
    ({ m with labelsById, labelTimestampsById } : SessionManager).persistEntry e =
      ({ (m.persistEntry e).1 with labelsById, labelTimestampsById }, (m.persistEntry e).2) := by
  have hopen : ({ m with labelsById, labelTimestampsById } : SessionManager).openFile =
    m.openFile := rfl
  have hassistant : ({ m with labelsById, labelTimestampsById } : SessionManager).hasAssistant =
    m.hasAssistant := rfl
  simp only [persistEntry, hopen, hassistant]
  cases m.openFile with
  | none => rfl
  | some file => split_ifs <;> rfl

theorem appendEntry_of_not_label (m : SessionManager) (leafId : Option String) {e : SessionEntry}
    (h : e.isLabel = false) :
    ({ m with leafId } : SessionManager).appendEntry e =
      ⟨((m.withEntry e).persistEntry e).1, ((m.withEntry e).persistEntry e).2, some e.id⟩ := by
  rw [withEntry, applyLabel_of_not_label h, applyLabelTimestamp_of_not_label h]
  rfl

end SessionManager

/-- The new state and the writes of a call: an entry, another leaf, the file
written as it is, or another session. The first argument is the file of a
session that is started. -/
inductive Effect (m : SessionManager) : Option String → SessionManager → List FileWrite → Prop
  | append (e : SessionEntry) :
      Effect m none ((m.withEntry e).persistEntry e).1 ((m.withEntry e).persistEntry e).2
  | moved (leafId : Option String) : Effect m none { m with leafId } []
  | ensured (h : m.flushed = false) : Effect m none { m with flushed := true } m.rewriteFile
  | started (header : SessionHeader) (es : List SessionEntry) (sessionId path : String)
      (hversion : header.version = some CURRENT_SESSION_VERSION) :
      Effect m (some path) { m.withSession header es sessionId path with flushed := false } []
  | extracted (header : SessionHeader) (es : List SessionEntry) (sessionId path : String)
      (hversion : header.version = some CURRENT_SESSION_VERSION) :
      Effect m (some path) { m.withSession header es sessionId path with flushed := true }
        (m.withSession header es sessionId path).rewriteFile

theorem effect_append (m : SessionManager) (leafId : Option String) {e : SessionEntry}
    (hlabel : e.isLabel = false) :
    Effect m none (({ m with leafId } : SessionManager).appendEntry e).manager
      (({ m with leafId } : SessionManager).appendEntry e).writes := by
  rw [appendEntry_of_not_label m leafId hlabel]
  exact .append e

variable {out : Outcome} {env : Env}

theorem effect_appendLabelChange {targetId : String} {label : Option String}
    (h : m.appendLabelChange env targetId label = .ok out) :
    Effect m none out.manager out.writes := by
  obtain ⟨-, hwrites, hmanager⟩ := appendLabelChange_ok h
  have heffect := Effect.append (m := m) (m.nextEntry env (.label targetId label))
  have hpersist := persistEntry_withLabels
    { m with
      fileEntries := m.fileEntries ++ [.entry (m.nextEntry env (.label targetId label))]
      byId := m.byId.set (m.nextEntry env (.label targetId label)).id
        (m.nextEntry env (.label targetId label))
      leafId := some (m.nextEntry env (.label targetId label)).id }
    (m.nextEntry env (.label targetId label))
    (applyLabel m.labelsById (m.nextEntry env (.label targetId label)))
    (applyLabelTimestamp m.labelTimestampsById (m.nextEntry env (.label targetId label)))
  rw [withEntry, hpersist] at heffect
  rw [hwrites, hmanager]
  exact heffect

section

variable (hpersist : m.persist = true)
include hpersist

theorem effect_createBranchedSession {leafId : String}
    (h : m.createBranchedSession env leafId = .ok out) :
    Effect m (some (newSessionFile env m.sessionDir {})) out.manager out.writes := by
  rw [createBranchedSession] at h
  split at h
  · cases h
  · rename_i path hpath
    split at h
    · cases h
    · dsimp only at h
      split at h
      · cases h
        exact .extracted _ (m.branchedEntries env path) _ _ rfl
      · cases h
        exact .started _ (m.branchedEntries env path) _ _ rfl

theorem newSession_ok {options : NewSessionOptions} (h : m.newSession env options = .ok out) :
    ∃ header : SessionHeader, header.version = some CURRENT_SESSION_VERSION ∧
      out.manager =
        { m.withSession header [] (options.id.getD env.uuidv7)
            (newSessionFile env m.sessionDir options) with flushed := false } ∧
      out.writes = [] := by
  rw [newSession] at h
  split at h
  · cases h
  · cases h
    refine ⟨⟨some CURRENT_SESSION_VERSION, options.id.getD env.uuidv7, env.now, m.cwd,
      options.parentSession⟩, rfl, ?_, rfl⟩
    cases m
    subst hpersist
    rfl

theorem effect_newSession {options : NewSessionOptions} (h : m.newSession env options = .ok out) :
    Effect m (some (newSessionFile env m.sessionDir options)) out.manager out.writes := by
  obtain ⟨header, hversion, hmanager, hwrites⟩ := newSession_ok hpersist h
  rw [hmanager, hwrites]
  exact .started header [] _ _ hversion

theorem apply_effect {op : SessionOp} (h : op.apply env m = .ok out) :
    (out.manager = m ∧ out.writes = []) ∨ Effect m (op.newFile env m) out.manager out.writes := by
  cases op with
  | appendMessage message =>
    cases h
    exact .inr (effect_append m m.leafId rfl)
  | appendThinkingLevelChange level =>
    cases h
    exact .inr (effect_append m m.leafId rfl)
  | appendModelChange provider modelId =>
    cases h
    exact .inr (effect_append m m.leafId rfl)
  | appendCompaction summary firstKept tokens details fromHook =>
    cases h
    exact .inr (effect_append m m.leafId rfl)
  | appendCustomEntry customType data =>
    cases h
    exact .inr (effect_append m m.leafId rfl)
  | appendSessionInfo name =>
    cases h
    exact .inr (effect_append m m.leafId rfl)
  | appendCustomMessageEntry customType content display details =>
    cases h
    exact .inr (effect_append m m.leafId rfl)
  | appendLabelChange targetId label => exact .inr (effect_appendLabelChange h)
  | branch id =>
    simp only [SessionOp.apply, SessionManager.branch] at h
    split at h
    · cases h
    · cases h
      exact .inr (.moved _)
  | resetLeaf =>
    cases h
    exact .inr (.moved _)
  | branchWithSummary id summary details fromHook =>
    simp only [SessionOp.apply, SessionManager.branchWithSummary] at h
    split at h
    · cases h
    · cases h
      exact .inr (effect_append m id rfl)
  | createBranchedSession leafId => exact .inr (effect_createBranchedSession hpersist h)
  | ensureSessionFile =>
    cases h
    unfold SessionManager.ensureSessionFile
    split
    · exact .inl ⟨rfl, rfl⟩
    · split_ifs with hflushed
      · exact .inl ⟨rfl, rfl⟩
      · exact .inr (.ensured (by simpa using hflushed))
  | newSession options => exact .inr (effect_newSession hpersist h)

end

/-! ## A call keeps the file in step -/

section Step

variable {cast : EntryCast} {m : SessionManager} {disk : Disk}

/-- What the writes of a call do to a disk: they succeed, and the session is
stored after them. -/
def Keeps (cast : EntryCast) (disk : Disk) (m : SessionManager) (writes : List FileWrite) : Prop :=
  ∃ disk', runWrites cast.line disk writes = some disk' ∧ Stored cast m disk'

theorem Stored.whole (hpersist : m.persist = true) (hindexed : Indexed m)
    (hflushed : m.flushed = true) {path : String} (hopen : m.openFile = some path)
    (hreads : ∀ e ∈ m.fileEntries, cast.ReadsBack e) :
    Stored cast m
      (Function.update disk path (some (fileText cast.line m.fileEntries))) := by
  refine ⟨hpersist, hindexed, ?_, ?_⟩
  · intro hno
    rw [hflushed] at hno
    cases hno
  · intro _ path' hopen'
    obtain rfl : path = path' := Option.some.inj (hopen.symm.trans hopen')
    obtain ⟨header, -, hheader⟩ := hindexed.header
    refine ⟨_, Function.update_self .., ?_⟩
    rw [hheader] at hreads ⊢
    exact EntryCast.holds_fileText hreads

theorem Stored.unopened (hpersist : m.persist = true) (hindexed : Indexed m)
    (hopen : m.openFile = none) : Stored cast m disk := by
  refine ⟨hpersist, hindexed, ?_, ?_⟩
  · intro _ path hpath
    rw [hopen] at hpath
    cases hpath
  · intro _ path hpath
    rw [hopen] at hpath
    cases hpath

theorem Stored.fresh (hpersist : m.persist = true) (hindexed : Indexed m)
    (hflushed : m.flushed = false) (hfresh : ∀ path, m.openFile = some path → disk path = none) :
    Stored cast m disk := by
  refine ⟨hpersist, hindexed, fun _ => hfresh, ?_⟩
  intro hyes
  rw [hflushed] at hyes
  cases hyes

/-- The entry is kept in memory, appended to the file, or written with the
whole file, which is not there yet. -/
theorem Stored.persistEntry (h : Stored cast m disk) (e : SessionEntry)
    (hreads : ∀ write ∈ ((m.withEntry e).persistEntry e).2, ∀ e ∈ write.entries, cast.ReadsBack e) :
    Keeps cast disk ((m.withEntry e).persistEntry e).1 ((m.withEntry e).persistEntry e).2 := by
  have hindexed : ∀ flushed, Indexed { m.withEntry e with flushed } :=
    h.indexed.append (some e.id) e
  obtain ⟨hno, hpersist⟩ | ⟨path, hfile, hflushed, hpersist⟩ | ⟨path, hfile, hflushed, hpersist⟩ :=
    persistEntry_cases (m.withEntry e) e
  · rw [hpersist]
    refine ⟨disk, rfl, ?_⟩
    obtain hfile | hflushed := hno
    · exact .unopened h.persist (hindexed m.flushed) hfile
    · exact .fresh h.persist (hindexed m.flushed) hflushed (h.unwritten hflushed)
  · rw [hpersist] at hreads ⊢
    obtain ⟨content, hcontent, hholds⟩ := h.written hflushed path hfile
    obtain ⟨header, -, hheader⟩ := h.indexed.header
    have hentry : cast.ReadsBack (.entry e) := by simpa [FileWrite.entries] using hreads
    refine ⟨_, rfl, h.persist, hindexed m.flushed, ?_, ?_⟩
    · intro hunflushed
      exact absurd (hunflushed.symm.trans hflushed) (by decide)
    · intro _ path' hfile'
      obtain rfl : path = path' := Option.some.inj (hfile.symm.trans hfile')
      refine ⟨content ++ fileText cast.line [.entry e], ?_, ?_⟩
      · rw [Function.update_self, hcontent]
        rfl
      · rw [hheader] at hholds
        have happend := hholds.append hentry
        rw [← hheader] at happend
        exact happend
  · rw [hpersist] at hreads ⊢
    have hnone := h.unwritten hflushed path hfile
    have hwrites : runWrites cast.line disk [.createNew path (m.withEntry e).fileEntries] =
        some (Function.update disk path
          (some (fileText cast.line (m.withEntry e).fileEntries))) := by
      simp [runWrites, FileWrite.run, hnone]
    refine ⟨_, hwrites, ?_⟩
    exact .whole (m := { m.withEntry e with flushed := true }) h.persist (hindexed true) rfl hfile
      (by simpa [FileWrite.entries] using hreads)

/-- A session that is written as a whole to its file. -/
theorem Stored.rewriteFile (hpersist : m.persist = true) (hindexed : Indexed m)
    (hreads : ∀ write ∈ m.rewriteFile, ∀ e ∈ write.entries, cast.ReadsBack e)
    (hflushed : m.flushed = true) : Keeps cast disk m m.rewriteFile := by
  unfold SessionManager.rewriteFile at hreads ⊢
  cases hfile : m.openFile with
  | none => exact ⟨disk, rfl, .unopened hpersist hindexed hfile⟩
  | some path =>
    rw [hfile] at hreads
    refine ⟨_, rfl, ?_⟩
    exact .whole hpersist hindexed hflushed hfile (by simpa [FileWrite.entries] using hreads)

theorem reads_rewriteFile (h : ∀ e ∈ m.fileEntries, cast.ReadsBack e) :
    ∀ write ∈ m.rewriteFile, ∀ e ∈ write.entries, cast.ReadsBack e := by
  unfold SessionManager.rewriteFile
  cases m.openFile with
  | none => simp
  | some path => simpa [FileWrite.entries] using h

theorem Indexed.withFlushed (h : Indexed m) (flushed : Bool) : Indexed { m with flushed } :=
  ⟨h.header, h.byId, h.labels, h.labelTimestamps⟩

theorem indexed_withSession {header : SessionHeader} (es : List SessionEntry)
    (sessionId path : String) (hversion : header.version = some CURRENT_SESSION_VERSION) :
    Indexed (m.withSession header es sessionId path) :=
  indexed_buildIndex (by simp [hversion]) rfl

theorem withSession_eq (m : SessionManager) (header : SessionHeader) (es : List SessionEntry)
    (sessionId path : String) :
    (m.withSession header es sessionId path).persist = m.persist ∧
      (m.withSession header es sessionId path).sessionFile = some path := by
  rw [withSession, buildIndex_eq rfl]
  exact ⟨rfl, rfl⟩

/-- Another session, whose file is not there yet. -/
theorem Stored.withSession (hpersist : m.persist = true) {header : SessionHeader}
    (es : List SessionEntry) (sessionId : String) {path : String}
    (hversion : header.version = some CURRENT_SESSION_VERSION) (hfresh : disk path = none) :
    Stored cast { m.withSession header es sessionId path with flushed := false } disk := by
  obtain ⟨hsame, hfile⟩ := withSession_eq m header es sessionId path
  refine .fresh (hsame.trans hpersist)
    ((indexed_withSession es sessionId path hversion).withFlushed false) rfl ?_
  intro file hopen
  simp only [openFile, hsame, hpersist, hfile, if_true] at hopen
  obtain rfl : path = file := Option.some.inj (Option.filter_eq_some_iff.mp hopen).1
  exact hfresh

theorem Stored.effect (h : Stored cast m disk) {path : Option String} {m' : SessionManager}
    {writes : List FileWrite} (heffect : Effect m path m' writes)
    (hfresh : ∀ file, path = some file → disk file = none)
    (hreads : ∀ write ∈ writes, ∀ e ∈ write.entries, cast.ReadsBack e) :
    Keeps cast disk m' writes := by
  cases heffect with
  | append e => exact h.persistEntry e hreads
  | moved leafId =>
    have hindexed : Indexed { m with leafId } :=
      ⟨h.indexed.header, h.indexed.byId, h.indexed.labels, h.indexed.labelTimestamps⟩
    exact ⟨disk, rfl, h.persist, hindexed, h.unwritten, h.written⟩
  | ensured hflushed =>
    exact Stored.rewriteFile (m := { m with flushed := true }) h.persist
      (h.indexed.withFlushed true) hreads rfl
  | started header es sessionId path hversion =>
    exact ⟨disk, rfl, .withSession h.persist es sessionId hversion (hfresh path rfl)⟩
  | extracted header es sessionId path hversion =>
    obtain ⟨hpersist, hfile⟩ := withSession_eq m header es sessionId path
    exact Stored.rewriteFile
      (m := { m.withSession header es sessionId path with flushed := true })
      (hpersist.trans h.persist)
      ((indexed_withSession es sessionId path hversion).withFlushed true) hreads rfl

theorem Stored.perform (h : Stored cast m disk) {env : Env} {op : SessionOp}
    (hcall : CallHolds cast (m, disk) (env, op)) :
    Stored cast (op.perform cast.line env m disk).manager (op.perform cast.line env m disk).disk ∧
      ∀ out, op.apply env m = .ok out → (runWrites cast.line disk out.writes).isSome = true := by
  unfold SessionOp.perform
  cases hout : op.apply env m with
  | error error => exact ⟨h, fun out hok => by cases hok⟩
  | ok out =>
    have hkeeps : Keeps cast disk out.manager out.writes := by
      obtain ⟨hsame, hnone⟩ | heffect := apply_effect h.persist hout
      · rw [hsame, hnone]
        exact ⟨disk, rfl, h⟩
      · exact h.effect heffect hcall.fresh (hcall.readsBack out hout)
    obtain ⟨disk', hwrites, hstored⟩ := hkeeps
    refine ⟨?_, ?_⟩
    · simp only [hwrites]
      exact hstored
    · rintro out' hout'
      obtain rfl := Except.ok.inj hout'
      rw [hwrites]
      rfl

end Step

/-! ## Migrated lines -/

namespace StoredLine

def isHeader (line : StoredLine) : Bool := line.header?.isSome

theorem map_isHeader_migrateV1Loop (draws : UuidDraws) :
    ∀ (rest done : List StoredLine) (prevId : Option String) (pos : Nat),
      (migrateV1Loop draws done prevId pos rest).map isHeader = (done ++ rest).map isHeader
  | [], done, _, _ => by rw [migrateV1Loop, List.append_nil]
  | .session header :: rest, done, prevId, pos => by
    rw [migrateV1Loop_session, map_isHeader_migrateV1Loop draws rest]
    simp [isHeader, StoredLine.header?]
  | .entry e :: rest, done, prevId, pos => by
    rw [migrateV1Loop_entry, map_isHeader_migrateV1Loop draws rest]
    simp [isHeader, StoredLine.header?]

theorem map_isHeader_migrateV2ToV3 (lines : List StoredLine) :
    (Eagent.migrateV2ToV3 lines).map isHeader = lines.map isHeader := by
  rw [Eagent.migrateV2ToV3, List.map_map]
  refine List.map_congr_left fun line _ => ?_
  cases line with
  | session header => rfl
  | entry e => rfl

variable {lines : List StoredLine}

theorem migrateToCurrentVersion_old (draws : UuidDraws)
    (h : sessionVersion lines < CURRENT_SESSION_VERSION) :
    migrateToCurrentVersion draws lines =
      (Eagent.migrateV2ToV3
        (if sessionVersion lines < 2 then migrateV1ToV2 draws lines else lines), true) := by
  have hlater : sessionVersion lines < 3 := h
  unfold migrateToCurrentVersion
  simp only [ge_iff_le, Nat.not_le.mpr h, if_false, hlater, if_true]

theorem migrateToCurrentVersion_current (draws : UuidDraws)
    (h : ¬ sessionVersion lines < CURRENT_SESSION_VERSION) :
    migrateToCurrentVersion draws lines = (lines, false) :=
  if_pos (Nat.not_lt.mp h)

theorem map_isHeader_toV2 (draws : UuidDraws) (lines : List StoredLine) :
    (if sessionVersion lines < 2 then migrateV1ToV2 draws lines else lines).map isHeader =
      lines.map isHeader := by
  split_ifs
  · rw [migrateV1ToV2, map_isHeader_migrateV1Loop, List.nil_append]
  · rfl

theorem map_isHeader_migrate (draws : UuidDraws) (lines : List StoredLine) :
    (migrateToCurrentVersion draws lines).1.map isHeader = lines.map isHeader := by
  by_cases h : sessionVersion lines < CURRENT_SESSION_VERSION
  · rw [migrateToCurrentVersion_old draws h, map_isHeader_migrateV2ToV3, map_isHeader_toV2]
  · rw [migrateToCurrentVersion_current draws h]

theorem toFileEntry_of_isHeader {rest : List Bool} (h : lines.map isHeader = true :: rest)
    (hrest : ∀ b ∈ rest, b = false) :
    ∃ (header : SessionHeader) (es : List SessionEntry),
      lines.map toFileEntry = .session header :: es.map .entry ∧
      sessionVersion lines = header.version.getD 1 := by
  obtain ⟨line, lines, rfl, hline, rfl⟩ := List.map_eq_cons_iff.mp h
  cases line with
  | entry e => cases hline
  | session header =>
    refine ⟨header, sessionEntries lines, ?_, sessionVersion_cons header lines⟩
    have hentries : lines.map toFileEntry = (sessionEntries lines).map .entry := by
      clear h
      induction lines with
      | nil => rfl
      | cons line lines ih =>
        have hhead := hrest _ (List.mem_map_of_mem List.mem_cons_self)
        have htail := ih fun b hb => hrest b (by simp at hb ⊢; exact .inr hb)
        cases line with
        | session header => cases hhead
        | entry e =>
          rw [List.map_cons, htail]
          rfl
    rw [List.map_cons, hentries]
    rfl

theorem le_sessionVersion_migrate (draws : UuidDraws) {rest : List Bool}
    (h : lines.map isHeader = true :: rest) :
    CURRENT_SESSION_VERSION ≤ sessionVersion (migrateToCurrentVersion draws lines).1 := by
  by_cases hold : sessionVersion lines < CURRENT_SESSION_VERSION
  · rw [migrateToCurrentVersion_old draws hold]
    rw [← map_isHeader_toV2 draws] at h
    obtain ⟨line, tail, heq, hline, -⟩ := List.map_eq_cons_iff.mp h
    rw [heq]
    cases line with
    | entry e => cases hline
    | session header => exact Nat.le_of_eq rfl
  · rw [migrateToCurrentVersion_current draws hold]
    exact Nat.not_lt.mp hold

end StoredLine

/-! ## An opened session -/

theorem startSession_spec (env : Env) (hpersist : m.persist = true) :
    Indexed (m.startSession env) ∧ (m.startSession env).persist = true ∧
      (m.startSession env).flushed = false ∧
      (m.startSession env).sessionFile = some (newSessionFile env m.sessionDir {}) := by
  cases m
  subst hpersist
  exact ⟨⟨⟨_, Nat.le_refl _, rfl⟩, rfl, rfl, rfl⟩, rfl, rfl, rfl⟩

theorem Indexed.withFile (h : Indexed m) (sessionFile : Option String) :
    Indexed { m with sessionFile } :=
  ⟨h.header, h.byId, h.labels, h.labelTimestamps⟩

theorem load_isHeader (cast : EntryCast) (hne : loadEntriesFromFile content ≠ [])
    (hone : ∀ j ∈ (loadEntriesFromFile content).tail, isSessionLine j = false) :
    ∃ rest, ((loadEntriesFromFile content).map cast.asEntry).map StoredLine.isHeader =
        true :: rest ∧ (∀ b ∈ rest, b = false) ∧
      loadEntriesFromFile content = parsedLines content ∧
      (parsedLines content).head?.all isSessionHeader = true := by
  have hload : loadEntriesFromFile content = parsedLines content ∧
      (parsedLines content).head?.all isSessionHeader = true := by
    by_cases hheader : (parsedLines content).head?.all isSessionHeader = true
    · exact ⟨load_of_header hheader, hheader⟩
    · exact absurd (if_neg hheader) hne
  have hmap : ((loadEntriesFromFile content).map cast.asEntry).map StoredLine.isHeader =
      (loadEntriesFromFile content).map isSessionLine := by
    rw [List.map_map]
    exact List.map_congr_left fun j _ => cast.header j
  obtain ⟨j, js, heq⟩ := List.exists_cons_of_ne_nil hne
  have hfirst : isSessionHeader j = true := by
    have := hload.2
    rw [← hload.1, heq] at this
    simpa using this
  rw [hmap, heq, List.map_cons, isSessionLine_of_header hfirst]
  rw [heq, List.tail_cons] at hone
  refine ⟨_, rfl, ?_, heq ▸ hload⟩
  intro b hb
  obtain ⟨j', hj', rfl⟩ := List.mem_map.mp hb
  exact hone j' hj'

section Opened

variable {cast : EntryCast} {env : Env} {draws : UuidDraws} {disk : Disk}
  {cwd sessionDir path : String}

theorem stored_open_missing (h : disk path = none) :
    Stored cast (SessionManager.open cast env draws disk cwd sessionDir path).manager
      (SessionManager.open cast env draws disk cwd sessionDir path).disk := by
  obtain ⟨hindexed, hpersist, hflushed, -⟩ := startSession_spec env
    (m := { blank cwd sessionDir true with sessionFile := some path }) rfl
  simp only [SessionManager.open, setSessionFile, h]
  refine .fresh hpersist (hindexed.withFile _) hflushed ?_
  intro file hopen
  simp only [openFile, hpersist, if_true] at hopen
  obtain rfl : path = file := Option.some.inj (Option.filter_eq_some_iff.mp hopen).1
  exact h

/-- The state of an empty file that got its header. -/
def initialized (env : Env) (cwd sessionDir path : String) : SessionManager :=
  { ({ blank cwd sessionDir true with sessionFile := some path, fileEntries := [] } :
      SessionManager).startSession env with
    sessionFile := some path
    flushed := true }

theorem open_empty (h : disk path = some []) :
    SessionManager.open cast env draws disk cwd sessionDir path =
      ⟨initialized env cwd sessionDir path,
        (runWrites cast.line disk (initialized env cwd sessionDir path).rewriteFile).getD disk,
        none⟩ := by
  simp only [SessionManager.open, setSessionFile, h]
  rfl

theorem stored_open_empty (h : disk path = some [])
    (hreads : ∀ e ∈ (initialized env cwd sessionDir path).fileEntries, cast.ReadsBack e) :
    Stored cast (SessionManager.open cast env draws disk cwd sessionDir path).manager
      (SessionManager.open cast env draws disk cwd sessionDir path).disk := by
  obtain ⟨hindexed, hpersist, -, -⟩ := startSession_spec env
    (m := { blank cwd sessionDir true with sessionFile := some path, fileEntries := [] }) rfl
  have hkeeps : Keeps cast disk (initialized env cwd sessionDir path)
      (initialized env cwd sessionDir path).rewriteFile :=
    Stored.rewriteFile hpersist ((hindexed.withFile (some path)).withFlushed true)
      (reads_rewriteFile hreads) rfl
  obtain ⟨disk', hwrites, hstored⟩ := hkeeps
  rw [open_empty h, hwrites]
  exact hstored

def loaded (cast : EntryCast) (env : Env) (draws : UuidDraws) (cwd sessionDir path : String)
    (content : List Char) : SessionManager :=
  let lines := (loadEntriesFromFile content).map cast.asEntry
  { blank cwd sessionDir true with
    sessionFile := some path
    fileEntries := (migrateToCurrentVersion draws lines).1.map StoredLine.toFileEntry
    sessionId := ((lines.findSome? StoredLine.header?).map SessionHeader.id).getD env.uuidv7 }

variable {content : List Char}

theorem open_lines (h : disk path = some content) (hne : loadEntriesFromFile content ≠ []) :
    SessionManager.open cast env draws disk cwd sessionDir path =
      ⟨{ (loaded cast env draws cwd sessionDir path content).buildIndex with flushed := true },
        if (migrateToCurrentVersion draws
            ((loadEntriesFromFile content).map cast.asEntry)).2 then
          (runWrites cast.line disk
            (loaded cast env draws cwd sessionDir path content).rewriteFile).getD disk
        else disk,
        none⟩ := by
  have hlines : ((loadEntriesFromFile content).map cast.asEntry).isEmpty = false := by
    simpa using hne
  simp only [SessionManager.open, setSessionFile, h, hlines, Bool.false_eq_true, if_false]
  rfl

variable (cast env draws cwd sessionDir path) in
theorem loaded_header (hne : loadEntriesFromFile content ≠ [])
    (hone : ∀ j ∈ (loadEntriesFromFile content).tail, isSessionLine j = false) :
    ∃ (header : SessionHeader) (es : List SessionEntry),
      CURRENT_SESSION_VERSION ≤ header.version.getD 1 ∧
      (loaded cast env draws cwd sessionDir path content).fileEntries =
        .session header :: es.map .entry := by
  obtain ⟨rest, hheader, hrest, -, -⟩ := load_isHeader cast hne hone
  rw [← StoredLine.map_isHeader_migrate draws] at hheader
  obtain ⟨header, es, hentries, hversion⟩ := StoredLine.toFileEntry_of_isHeader hheader hrest
  rw [StoredLine.map_isHeader_migrate draws] at hheader
  exact ⟨header, es, hversion ▸ StoredLine.le_sessionVersion_migrate draws hheader, hentries⟩

/-- A file with lines is indexed, and written anew if it is of an older
version. -/
theorem stored_open_lines (h : disk path = some content) (hne : loadEntriesFromFile content ≠ [])
    (hone : ∀ j ∈ (loadEntriesFromFile content).tail, isSessionLine j = false)
    (hfile : sessionVersion ((loadEntriesFromFile content).map cast.asEntry) <
          CURRENT_SESSION_VERSION ∧
        (∀ e ∈ (loaded cast env draws cwd sessionDir path content).fileEntries,
          cast.ReadsBack e) ∨
      ¬ sessionVersion ((loadEntriesFromFile content).map cast.asEntry) <
          CURRENT_SESSION_VERSION ∧ Terminated content) :
    Stored cast (SessionManager.open cast env draws disk cwd sessionDir path).manager
      (SessionManager.open cast env draws disk cwd sessionDir path).disk := by
  obtain ⟨header, es, hversion, hentries⟩ :=
    loaded_header cast env draws cwd sessionDir path hne hone
  have hm := buildIndex_eq hentries
  have hindexed := (indexed_buildIndex hversion hentries).withFlushed true
  rw [open_lines h hne]
  obtain ⟨hold, hreads⟩ | ⟨hcurrent, hterminated⟩ := hfile
  · have hkeeps : Keeps cast disk
        { (loaded cast env draws cwd sessionDir path content).buildIndex with flushed := true }
        (loaded cast env draws cwd sessionDir path content).rewriteFile := by
      have hrewrite : (loaded cast env draws cwd sessionDir path content).rewriteFile =
          ({ (loaded cast env draws cwd sessionDir path content).buildIndex with
            flushed := true } : SessionManager).rewriteFile := by
        rw [hm]
        rfl
      rw [hrewrite]
      refine Stored.rewriteFile ?_ hindexed ?_ rfl
      · rw [hm]
        rfl
      · rw [← hrewrite]
        exact reads_rewriteFile hreads
    obtain ⟨disk', hwrites, hstored⟩ := hkeeps
    rw [StoredLine.migrateToCurrentVersion_old draws hold, if_pos rfl, hwrites]
    exact hstored
  · rw [StoredLine.migrateToCurrentVersion_current draws hcurrent]
    refine ⟨?_, hindexed, (fun hno => by cases hno), ?_⟩
    · rw [hm]
      rfl
    intro _ file hopen
    obtain ⟨-, -, -, hload, hheader⟩ := load_isHeader cast hne hone
    have hsome : (some path).filter truthy = some file := by
      rw [hm] at hopen
      exact hopen
    obtain rfl : path = file := Option.some.inj (Option.filter_eq_some_iff.mp hsome).1
    refine ⟨content, h, hterminated, ?_, hheader⟩
    rw [← hload, hm]
    show _ = (loaded cast env draws cwd sessionDir path content).fileEntries
    rw [loaded]
    dsimp only
    rw [StoredLine.migrateToCurrentVersion_current draws hcurrent, List.map_map]
    rfl

theorem stored_open
    (hthrown : (SessionManager.open cast env draws disk cwd sessionDir path).thrown = none)
    (hstart : SessionStart.Holds cast env draws disk cwd sessionDir (.open path)) :
    Stored cast (SessionManager.open cast env draws disk cwd sessionDir path).manager
      (SessionManager.open cast env draws disk cwd sessionDir path).disk := by
  cases hfile : disk path with
  | none => exact stored_open_missing hfile
  | some content =>
    obtain ⟨hone, hrewritten⟩ := hstart content hfile
    by_cases hempty : content = []
    · subst hempty
      obtain ⟨-, hreads⟩ | ⟨hno, -⟩ := hrewritten
      · rw [open_empty hfile] at hreads
        exact stored_open_empty hfile hreads
      · exact absurd (.inl rfl) hno
    · have hne : loadEntriesFromFile content ≠ [] := by
        intro hload
        rw [SessionManager.open, setSessionFile_rejected ⟨content, hfile, hempty, hload⟩]
          at hthrown
        cases hthrown
      refine stored_open_lines hfile hne hone ?_
      obtain ⟨hold | hold, hreads⟩ | ⟨hcurrent, hterminated⟩ := hrewritten
      · exact absurd hold hempty
      · rw [open_lines hfile hne] at hreads
        refine .inl ⟨hold, ?_⟩
        obtain ⟨header, es, -, hentries⟩ :=
          loaded_header cast env draws cwd sessionDir path hne hone
        have hsame :
            ((loaded cast env draws cwd sessionDir path content).buildIndex).fileEntries =
              (loaded cast env draws cwd sessionDir path content).fileEntries := by
          rw [buildIndex_eq hentries]
        rw [← hsame]
        exact hreads
      · exact .inr ⟨fun hold => hcurrent (.inr hold), hterminated⟩

theorem load_forkText {sourcePath : String} {options : NewSessionOptions} (content : List Char)
    (h : cast.ReadsBack (.session (forkHeader env cwd sourcePath options))) :
    Terminated (forkText cast env cwd sourcePath options (loadEntriesFromFile content)) ∧
      loadEntriesFromFile
          (forkText cast env cwd sourcePath options (loadEntriesFromFile content)) =
        cast.toJson (.session (forkHeader env cwd sourcePath options)) ::
          (loadEntriesFromFile content).filter fun j => !isSessionLine j := by
  have htext : forkText cast env cwd sourcePath options (loadEntriesFromFile content) =
      jsonLines (cast.toJson (.session (forkHeader env cwd sourcePath options)) ::
        (loadEntriesFromFile content).filter fun j => !isSessionLine j) := by
    rw [forkText, EntryCast.fileText_eq, jsonLines, jsonLines, jsonLines, ← List.flatMap_append]
    rfl
  have hall : ∀ j ∈ cast.toJson (.session (forkHeader env cwd sourcePath options)) ::
      (loadEntriesFromFile content).filter fun j => !isSessionLine j,
      j.Canonical ∧ j.isTruthy = true := by
    intro j hj
    rcases List.mem_cons.mp hj with rfl | hj
    · exact ⟨h.canonical, h.truthy⟩
    · exact mem_parsedLines (mem_of_mem_load (List.mem_filter.mp hj).1)
  obtain ⟨hterminated, hparsed⟩ := parsedLines_jsonLines hall
  rw [htext]
  refine ⟨hterminated, ?_⟩
  have hheader : (parsedLines (jsonLines
      (cast.toJson (.session (forkHeader env cwd sourcePath options)) ::
        (loadEntriesFromFile content).filter fun j => !isSessionLine j))).head?.all
          isSessionHeader = true := by
    rw [hparsed]
    exact h.header rfl
  rw [load_of_header hheader, hparsed]

theorem stored_forkFrom {sourcePath : String} {options : NewSessionOptions}
    (hthrown : (SessionManager.forkFrom cast env draws disk cwd sessionDir sourcePath
      options).thrown = none)
    (h : cast.ReadsBack (.session (forkHeader env cwd sourcePath options))) :
    Stored cast
      (SessionManager.forkFrom cast env draws disk cwd sessionDir sourcePath options).manager
      (SessionManager.forkFrom cast env draws disk cwd sessionDir sourcePath options).disk := by
  unfold SessionManager.forkFrom at hthrown ⊢
  dsimp only at hthrown ⊢
  split_ifs at hthrown ⊢
  refine stored_open hthrown fun content hcontent => ?_
  obtain rfl : forkText cast env cwd sourcePath options
      (loadEntriesFromFile ((disk sourcePath).getD [])) = content := by
    rw [Function.update_self] at hcontent
    exact Option.some.inj hcontent
  obtain ⟨hterminated, hload⟩ := load_forkText ((disk sourcePath).getD []) h
  refine ⟨?_, .inr ⟨?_, hterminated⟩⟩
  · rw [hload, List.tail_cons]
    intro j hj
    simpa using (List.mem_filter.mp hj).2
  · rintro (hempty | hold)
    · rw [hempty] at hload
      cases hload
    · rw [hload, List.map_cons, h.asEntry, sessionVersion_cons] at hold
      exact Nat.lt_irrefl _ hold

theorem stored_start (start : SessionStart)
    (hthrown : (start.run cast env draws disk cwd sessionDir).thrown = none)
    (hstart : start.Holds cast env draws disk cwd sessionDir) :
    Stored cast (start.run cast env draws disk cwd sessionDir).manager
      (start.run cast env draws disk cwd sessionDir).disk := by
  cases start with
  | create options =>
    simp only [SessionStart.run] at hthrown ⊢
    cases hout : SessionManager.create env cwd sessionDir true options with
    | error error =>
      rw [hout] at hthrown
      cases hthrown
    | ok out =>
      obtain ⟨header, hversion, hmanager, -⟩ :=
        newSession_ok (m := blank cwd sessionDir true) rfl hout
      dsimp only
      rw [hmanager]
      exact .withSession rfl [] _ hversion hstart
  | «open» path => exact stored_open hthrown hstart
  | forkFrom sourcePath options => exact stored_forkFrom hthrown hstart

end Opened

/-! ## Agreement -/

theorem getTree_congr {m m' : SessionManager} (hentries : m.fileEntries = m'.fileEntries)
    (hlabels : m.labelsById = m'.labelsById)
    (htimestamps : m.labelTimestampsById = m'.labelTimestampsById) (fuel : Nat) :
    m.getTree fuel = m'.getTree fuel := by
  cases m
  cases m'
  subst hentries hlabels htimestamps
  rfl

theorem sessionVersion_of_toFileEntry {lines : List StoredLine} {header : SessionHeader}
    {entries : List FileEntry}
    (h : lines.map StoredLine.toFileEntry = .session header :: entries) :
    sessionVersion lines = header.version.getD 1 := by
  obtain ⟨line, rest, rfl, hline, -⟩ := List.map_eq_cons_iff.mp h
  cases line with
  | entry e => cases hline
  | session other =>
    obtain rfl := FileEntry.session.inj hline
    exact sessionVersion_cons other rest

section Agreement

variable {cast : EntryCast} {m : SessionManager} {disk : Disk}

theorem Stored.holds (h : Stored cast m disk) {path : String} {content : List Char}
    (hopen : m.openFile = some path) (hcontent : disk path = some content) :
    cast.Holds content m.fileEntries := by
  cases hflushed : m.flushed with
  | false =>
    have hnone := h.unwritten hflushed path hopen
    rw [hcontent] at hnone
    cases hnone
  | true =>
    obtain ⟨other, hother, hholds⟩ := h.written hflushed path hopen
    obtain rfl : content = other := Option.some.inj (hcontent.symm.trans hother)
    exact hholds

theorem Stored.agrees (h : Stored cast m disk) : FileAgrees cast m disk := by
  obtain ⟨header, hversion, hheader⟩ := h.indexed.header
  refine ⟨⟨header, hheader⟩, fun path content hopen hcontent => (h.holds hopen hcontent).load, ?_⟩
  intro path content hopen hcontent env draws cwd sessionDir
  have hload := (h.holds hopen hcontent).load
  have hlines : ((loadEntriesFromFile content).map cast.asEntry).map StoredLine.toFileEntry =
      .session header :: m.getEntries.map .entry := by
    rw [List.map_map, ← hheader, ← hload]
    rfl
  have hne : loadEntriesFromFile content ≠ [] := by
    intro hnil
    rw [hnil] at hlines
    cases hlines
  have hcurrent : ¬ sessionVersion ((loadEntriesFromFile content).map cast.asEntry) <
      CURRENT_SESSION_VERSION := by
    rw [sessionVersion_of_toFileEntry hlines]
    exact Nat.not_lt.mpr hversion
  have hentries : (loaded cast env draws cwd sessionDir path content).fileEntries =
      .session header :: m.getEntries.map .entry := by
    rw [loaded, StoredLine.migrateToCurrentVersion_current draws hcurrent]
    exact hlines
  have hm := buildIndex_eq hentries
  dsimp only
  rw [open_lines hcontent hne, StoredLine.migrateToCurrentVersion_current draws hcurrent, hm]
  refine ⟨rfl, rfl, hentries.trans hheader.symm, h.indexed.byId.symm, h.indexed.labels.symm,
    h.indexed.labelTimestamps.symm, ?_⟩
  exact getTree_congr (hentries.trans hheader.symm) h.indexed.labels.symm
    h.indexed.labelTimestamps.symm

/-- In every state of a run, the file agrees with memory, and a call that
creates the file finds none. -/
theorem file_agrees (cast : EntryCast) (env : Env) (draws : UuidDraws) (disk : Disk)
    (cwd sessionDir : String) (start : SessionStart)
    (hthrown : (start.run cast env draws disk cwd sessionDir).thrown = none)
    (hstart : start.Holds cast env draws disk cwd sessionDir) {s : SessionManager × Disk}
    (hrun : Machine.Reaches (sessionStep cast) (CallHolds cast)
      ((start.run cast env draws disk cwd sessionDir).manager,
        (start.run cast env draws disk cwd sessionDir).disk) s) :
    FileAgrees cast s.1 s.2 ∧
      ∀ env op, CallHolds cast s (env, op) → ∀ out, op.apply env s.1 = .ok out →
        (runWrites cast.line s.2 out.writes).isSome = true := by
  have hstored : Stored cast s.1 s.2 := by
    refine hrun.invariant (I := fun s => Stored cast s.1 s.2)
      (stored_start start hthrown hstart) ?_
    rintro s ⟨env, op⟩ s' h hcall hstep
    obtain rfl := Option.some.inj hstep
    exact (h.perform hcall).1
  exact ⟨hstored.agrees, fun env op hcall => (hstored.perform hcall).2⟩

end Agreement

/-! ## Notes -/

def textField (key : String) : Json → Option String
  | .obj fields =>
      match OrdMap.lookupIn key fields with
      | some (.str s) => some s
      | _ => none
  | _ => none

def noteHeader (j : Json) : SessionHeader where
  version := some CURRENT_SESSION_VERSION
  id := (textField "id" j).getD ""
  timestamp := (textField "timestamp" j).getD ""
  cwd := (textField "cwd" j).getD ""
  parentSession := textField "parentSession" j

def noteCast : EntryCast where
  toJson
    | .session h =>
        .obj ([("type", .str "session"), ("version", .num "3"), ("id", .str h.id),
          ("timestamp", .str h.timestamp), ("cwd", .str h.cwd)] ++
            (h.parentSession.map fun path => ("parentSession", .str path)).toList)
    | .entry e =>
        .obj [("type", .str "custom"),
          ("customType", match e.body with | .custom customType _ => .str customType | _ => .null),
          ("id", .str e.id), ("parentId", e.parentId.elim .null .str),
          ("timestamp", .str e.timestamp)]
  asEntry j :=
    if isSessionLine j then .session (noteHeader j)
    else .entry
      { id := textField "id" j
        parentId := textField "parentId" j
        timestamp := (textField "timestamp" j).getD ""
        body := .current (.custom ((textField "customType" j).getD "") none) }
  header j := by
    by_cases h : isSessionLine j = true
    · simp [h, StoredLine.header?]
    · simp [h, StoredLine.header?]

theorem noteCast_header {h : SessionHeader} (hversion : h.version = some 3)
    (hparent : h.parentSession = none) : noteCast.ReadsBack (.session h) := by
  obtain ⟨version, id, timestamp, cwd, parentSession⟩ := h
  subst hversion hparent
  have hkeys : ["type", "version", "id", "timestamp", "cwd"].Nodup := by decide
  have hnumber : Json.isNumberLiteral "3".toList = true := by decide
  exact ⟨⟨hkeys, trivial, hnumber, trivial, trivial, trivial, trivial⟩, rfl, rfl, fun _ => rfl⟩

theorem noteCast_note (id : String) (parentId : Option String)
    (timestamp customType : String) :
    noteCast.ReadsBack (.entry ⟨id, parentId, timestamp, .custom customType none⟩) := by
  have hkeys : ["type", "customType", "id", "parentId", "timestamp"].Nodup := by decide
  cases parentId with
  | none => exact ⟨⟨hkeys, trivial, trivial, trivial, trivial, trivial, trivial⟩, rfl, rfl, nofun⟩
  | some parentId =>
    exact ⟨⟨hkeys, trivial, trivial, trivial, trivial, trivial, trivial⟩, rfl, rfl, nofun⟩

def noteEnv : Env where
  now := "2026-01-01T00:00:00.000Z"
  uuidv7 := "session"
  randomUUID used _ := if used.isEmpty then "first" else "second"

def noteDraws : UuidDraws := ⟨fun _ => "first", fun _ => rfl⟩

def note : SessionOp := .appendCustomEntry "note" none

def noteStart : CallResult :=
  SessionStart.run noteCast noteEnv noteDraws (fun _ => none) "/work" "/sessions" (.create {})

def CallResult.call (r : CallResult) (op : SessionOp) : CallResult :=
  op.perform noteCast.line noteEnv r.manager r.disk

private theorem calls_hold {r : CallResult} {op : SessionOp}
    (hfile : op.newFile noteEnv r.manager = none)
    (h : ∀ out, op.apply noteEnv r.manager = .ok out → ∀ write ∈ out.writes,
      ∀ e ∈ write.entries, noteCast.ReadsBack e) :
    CallHolds noteCast (r.manager, r.disk) (noteEnv, op) := by
  refine ⟨fun path hpath => ?_, h⟩
  rw [hfile] at hpath
  cases hpath

/-- Created, a note, the file, and another note. -/
theorem file_agrees_noted :
    FileAgrees noteCast (((noteStart.call note).call .ensureSessionFile).call note).manager
      (((noteStart.call note).call .ensureSessionFile).call note).disk := by
  have hfirst : CallHolds noteCast (noteStart.manager, noteStart.disk) (noteEnv, note) := by
    refine calls_hold rfl fun out hout write hwrite => ?_
    obtain rfl := Except.ok.inj hout
    cases hwrite
  have hsecond : CallHolds noteCast ((noteStart.call note).manager, (noteStart.call note).disk)
      (noteEnv, .ensureSessionFile) := by
    refine calls_hold rfl fun out hout write hwrite e he => ?_
    obtain rfl := Except.ok.inj hout
    obtain rfl := List.mem_singleton.mp hwrite
    rcases List.mem_cons.mp he with rfl | he
    · exact noteCast_header rfl rfl
    · obtain rfl := List.mem_singleton.mp he
      exact noteCast_note _ _ _ _
  have hthird : CallHolds noteCast
      (((noteStart.call note).call .ensureSessionFile).manager,
        ((noteStart.call note).call .ensureSessionFile).disk) (noteEnv, note) := by
    refine calls_hold rfl fun out hout write hwrite e he => ?_
    obtain rfl := Except.ok.inj hout
    obtain rfl := List.mem_singleton.mp hwrite
    obtain rfl := List.mem_singleton.mp he
    exact noteCast_note _ _ _ _
  have hrun : Machine.Reaches (sessionStep noteCast) (CallHolds noteCast)
      (noteStart.manager, noteStart.disk)
      ((((noteStart.call note).call .ensureSessionFile).call note).manager,
        (((noteStart.call note).call .ensureSessionFile).call note).disk) :=
    ((Machine.Reaches.refl.tail hfirst rfl).tail hsecond rfl).tail hthird rfl
  exact (file_agrees noteCast noteEnv noteDraws (fun _ => none) "/work" "/sessions" (.create {})
    rfl rfl hrun).1

/-! ## An unterminated line -/

private def unterminated : List Char :=
  noteCast.line (.session ⟨some 3, "session", "2026-01-01T00:00:00.000Z", "/work", none⟩)

private def unterminatedStart : CallResult :=
  SessionStart.run noteCast noteEnv noteDraws
    (fun path => if path = "/s" then some unterminated else none) "/work" "/sessions" (.open "/s")

/-- The header loads without a line break behind it, and the first entry is
appended to its line. -/
theorem unterminated_line_lost :
    unterminatedStart.thrown = none ∧ (unterminatedStart.call note).thrown = none ∧
      (unterminatedStart.call note).manager.fileEntries.length = 2 ∧
      ¬ FileAgrees noteCast (unterminatedStart.call note).manager
        (unterminatedStart.call note).disk := by
  have hopen : (unterminatedStart.call note).manager.openFile = some "/s" := by decide +kernel
  have hentries : (unterminatedStart.call note).manager.fileEntries.length = 2 := by
    decide +kernel
  have hload : ((unterminatedStart.call note).disk "/s").map
      (fun content => (loadEntriesFromFile content).length) = some 0 := by
    decide +kernel
  refine ⟨by decide +kernel, by decide +kernel, hentries, fun h => ?_⟩
  obtain ⟨content, hcontent, hnone⟩ := Option.map_eq_some_iff.mp hload
  have hlength := congrArg List.length (h.lines "/s" content hopen hcontent)
  rw [List.length_map, hnone, hentries] at hlength
  cases hlength

end Eagent
