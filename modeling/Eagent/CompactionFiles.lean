import Eagent.PreviousSummary

/-!
# The files a compaction names

`details` of a compaction lists the files that the summarized conversation
read and modified. Only the messages since the previous compaction's first
kept entry are summarized and looked at, what lies before them is taken from
the details of that compaction. Nothing is lost that way: over a run, each
message is summarized once (`summarized_once`) and the lists cover the whole
history (`compactions_account`).
-/

namespace Eagent

/-! ## Calls that name a file -/

/-- The call is one of the tool `name` with the path `file`. -/
def ToolCall.Names (name file : String) (call : ToolCall) : Prop :=
  call.name = name ∧ call.arguments.stringField? "path" = some file ∧ truthy file = true

def Touches (name : String) (ms : List AgentMessage) (file : String) : Prop :=
  ∃ m, .assistant m ∈ ms ∧ ∃ call ∈ m.toolCalls, call.Names name file

def Modifies (ms : List AgentMessage) (file : String) : Prop :=
  Touches "write" ms file ∨ Touches "edit" ms file

theorem touches_append {name : String} {as bs : List AgentMessage} {file : String} :
    Touches name (as ++ bs) file ↔ Touches name as file ∨ Touches name bs file := by
  simp only [Touches, List.mem_append, or_and_right, exists_or]

theorem modifies_append {as bs : List AgentMessage} {file : String} :
    Modifies (as ++ bs) file ↔ Modifies as file ∨ Modifies bs file := by
  simp only [Modifies, touches_append]
  tauto

/-! ## The sets of paths -/

theorem mem_addPath {paths : List String} {path file : String} :
    file ∈ addPath paths path ↔ file ∈ paths ∨ file = path := by
  unfold addPath
  split
  · rename_i h
    exact ⟨Or.inl, fun hor => hor.elim id fun heq => heq ▸ h⟩
  · simp

theorem mem_foldl_addPath {files paths : List String} {file : String} :
    file ∈ files.foldl addPath paths ↔ file ∈ paths ∨ file ∈ files := by
  induction files generalizing paths with
  | nil => simp
  | cons path files ih =>
    rw [List.foldl_cons, ih, mem_addPath, List.mem_cons, or_assoc]

/-- What a step adds to each of the sets. -/
structure Adds (ops ops' : FileOperations) (added : String → String → Prop) : Prop where
  read : ∀ file, file ∈ ops'.read ↔ file ∈ ops.read ∨ added "read" file
  written : ∀ file, file ∈ ops'.written ↔ file ∈ ops.written ∨ added "write" file
  edited : ∀ file, file ∈ ops'.edited ↔ file ∈ ops.edited ∨ added "edit" file

theorem adds_addFileOp (ops : FileOperations) (call : ToolCall) :
    Adds ops (addFileOp ops call) fun name file => call.Names name file := by
  unfold addFileOp
  split
  · rename_i hnone
    constructor <;> simp [ToolCall.Names, hnone]
  rename_i path hpath
  split
  · rename_i hempty
    have hnot : ∀ name file, ¬ call.Names name file := by
      rintro name file ⟨-, hfile, htruthy⟩
      obtain rfl := Option.some.inj (hpath.symm.trans hfile)
      rw [htruthy] at hempty
      cases hempty
    constructor <;> simp [hnot]
  rename_i htruthy
  have hnames (name file : String) : call.Names name file ↔ call.name = name ∧ file = path := by
    rw [ToolCall.Names, hpath, Option.some_inj]
    refine and_congr_right fun _ => ⟨fun h => h.1.symm, ?_⟩
    rintro rfl
    exact ⟨rfl, by simpa using htruthy⟩
  simp only [hnames]
  split
  · rename_i hname
    constructor <;> simp [hname, mem_addPath]
  split
  · rename_i hname
    constructor <;> simp [hname, mem_addPath]
  split
  · rename_i hname
    constructor <;> simp [hname, mem_addPath]
  · constructor <;> simp_all

theorem adds_foldl {α : Type*} {f : FileOperations → α → FileOperations}
    {added : α → String → String → Prop} (h : ∀ ops a, Adds ops (f ops a) (added a))
    (as : List α) (ops : FileOperations) :
    Adds ops (as.foldl f ops) fun name file => ∃ a ∈ as, added a name file := by
  induction as generalizing ops with
  | nil => constructor <;> simp
  | cons a as ih =>
    obtain ⟨hread, hwritten, hedited⟩ := h ops a
    obtain ⟨hreads, hwrittens, hediteds⟩ := ih (f ops a)
    constructor <;> intro file
    · rw [List.foldl_cons, hreads, hread, or_assoc, List.exists_mem_cons_iff]
    · rw [List.foldl_cons, hwrittens, hwritten, or_assoc, List.exists_mem_cons_iff]
    · rw [List.foldl_cons, hediteds, hedited, or_assoc, List.exists_mem_cons_iff]

theorem adds_messages (ms : List AgentMessage) (ops : FileOperations) :
    Adds ops (ms.foldl extractFileOpsFromMessage ops) fun name file => Touches name ms file := by
  have hmessage (ops : FileOperations) (message : AgentMessage) :
      Adds ops (extractFileOpsFromMessage ops message) fun name file =>
        ∃ m, message = .assistant m ∧ ∃ call ∈ m.toolCalls, call.Names name file := by
    cases message with
    | assistant m =>
      have hcalls := adds_foldl adds_addFileOp m.toolCalls ops
      simpa [extractFileOpsFromMessage] using hcalls
    | _ => constructor <;> simp [extractFileOpsFromMessage]
  have hfold := adds_foldl hmessage ms ops
  have htouches (name file : String) : (∃ message ∈ ms, ∃ m, message = .assistant m ∧
      ∃ call ∈ m.toolCalls, call.Names name file) ↔ Touches name ms file :=
    ⟨fun ⟨_, hmem, m, heq, hcall⟩ => ⟨m, heq ▸ hmem, hcall⟩,
      fun ⟨m, hmem, hcall⟩ => ⟨_, hmem, m, rfl, hcall⟩⟩
  simpa only [htouches] using hfold

/-! ## The lists -/

/-- The details as the entry stores them. -/
def FileLists.toJson (lists : FileLists) : Json :=
  .obj [("readFiles", .arr (lists.readFiles.map .str)),
    ("modifiedFiles", .arr (lists.modifiedFiles.map .str))]

@[simp] theorem FileLists.readFiles_toJson (lists : FileLists) :
    lists.toJson.stringItems "readFiles" = lists.readFiles := by
  simp [toJson, Json.stringItems, List.filterMap_map]

@[simp] theorem FileLists.modifiedFiles_toJson (lists : FileLists) :
    lists.toJson.stringItems "modifiedFiles" = lists.modifiedFiles := by
  simp [toJson, Json.stringItems, List.lookup_cons, List.filterMap_map]

/-- The lists name the files modified, and those read and not modified. -/
structure FileLists.Exact (lists : FileLists) (ms : List AgentMessage) : Prop where
  modified : ∀ file, file ∈ lists.modifiedFiles ↔ Modifies ms file
  read : ∀ file, file ∈ lists.readFiles ↔ Touches "read" ms file ∧ ¬ Modifies ms file

theorem mem_computeFileLists {ops : FileOperations} {file : String} :
    (file ∈ (computeFileLists ops).modifiedFiles ↔ file ∈ ops.edited ∨ file ∈ ops.written) ∧
      (file ∈ (computeFileLists ops).readFiles ↔
        file ∈ ops.read ∧ ¬ (file ∈ ops.edited ∨ file ∈ ops.written)) := by
  simp only [computeFileLists, sortTexts, List.mem_mergeSort, List.mem_filter, mem_foldl_addPath,
    List.mem_append, List.not_mem_nil, false_or, decide_eq_true_eq, and_self]

/-! ## One compaction -/

/-- The details of `c`, behind the entries `pre`, cover all messages before
its first kept entry. -/
def Accounts (pre : List SessionEntry) (c : CompactionEntry) : Prop :=
  ∃ (cut : Nat) (lists : FileLists), pre[cut]?.map (·.id) = some c.firstKeptEntryId ∧
    c.details = some lists.toJson ∧ c.fromHook ≠ some true ∧
    lists.Exact (messagesBetween pre 0 cut)

def FilesAccounted (path : List SessionEntry) : Prop :=
  ∀ pre c post, path = pre ++ c.entry :: post → Accounts pre c

variable {path later : List SessionEntry} {settings : CompactionSettings}
  {prep : CompactionPreparation}

theorem messagesBetween_left {i j : Nat} (h : j ≤ path.length) :
    messagesBetween (path ++ later) i j = messagesBetween path i j := by
  rw [messagesBetween, slice, List.take_append_of_le_length h]
  rfl

theorem compactionBoundary_none (h : latestCompaction path = none) :
    compactionBoundary path = (none, 0) := by
  have hprev := prevCompactionIndex_eq_none (latestCompaction_eq_none.mp h) path.length
  rw [compactionBoundary, hprev]

theorem compactionBoundary_split {pre post : List SessionEntry} {c : CompactionEntry} {cut : Nat}
    (hnodup : ((pre ++ c.entry :: post).map (·.id)).Nodup)
    (hlatest : latestCompaction (pre ++ c.entry :: post) = some c)
    (hfirst : pre[cut]?.map (·.id) = some c.firstKeptEntryId) :
    cut < pre.length ∧ compactionBoundary (pre ++ c.entry :: post) = (some c, cut) := by
  have hlt : cut < pre.length := by
    obtain ⟨x, hx, -⟩ := Option.map_eq_some_iff.mp hfirst
    exact (List.getElem?_eq_some_iff.mp hx).1
  have hwindow : PreviousWindow (pre ++ c.entry :: post) cut pre.length c :=
    ⟨hlatest, by simp, by rwa [List.getElem?_append_left hlt], hlt⟩
  exact ⟨hlt, hwindow.boundary hnodup⟩

/-- Entries after the latest compaction do not move the boundary. -/
theorem FilesAccounted.boundary_append (h : FilesAccounted (path ++ later))
    (hnodup : ((path ++ later).map (·.id)).Nodup) (hlater : ∀ e ∈ later, e.isCompaction = false) :
    compactionBoundary (path ++ later) = compactionBoundary path ∧
      (compactionBoundary path).2 ≤ path.length := by
  have hsame : latestCompaction (path ++ later) = latestCompaction path := by
    rw [latestCompaction_append, latestCompaction_eq_none.mpr hlater, Option.none_or]
  cases hlatest : latestCompaction path with
  | none =>
    rw [hlatest] at hsame
    rw [compactionBoundary_none hsame, compactionBoundary_none hlatest]
    exact ⟨rfl, Nat.zero_le _⟩
  | some c =>
    rw [hlatest] at hsame
    have hleft := (List.nodup_append.mp (List.map_append ▸ hnodup)).1
    obtain ⟨pre, post, rfl, -⟩ := latestCompaction_split hlatest
    rw [List.append_assoc, List.cons_append] at h hnodup hsame ⊢
    obtain ⟨cut, lists, hfirst, -⟩ := h pre c (post ++ later) rfl
    obtain ⟨hlt, hboundary⟩ := compactionBoundary_split hleft hlatest hfirst
    rw [(compactionBoundary_split hnodup hsame hfirst).2, hboundary, List.length_append]
    exact ⟨rfl, by dsimp only; omega⟩

theorem prepareCompaction_fileOps (h : prepareCompaction path settings = some prep) :
    prep.fileOps = (prep.messagesToSummarize ++ prep.turnPrefixMessages).foldl
      extractFileOpsFromMessage (extractFileOperations [] (compactionBoundary path).1) := by
  rw [prepareCompaction] at h
  split at h
  · cases h
  dsimp only at h
  split at h
  · cases h
  split at h
  · cases h
  split at h
  · cases h
  split at h
  · cases h
  obtain rfl := Option.some.inj h
  rw [List.foldl_append]
  rfl

/-- A preparation's lists cover the messages before the boundary, which the
previous compaction accounts for, and those it summarizes. -/
theorem exact_prepared (hnodup : (path.map (·.id)).Nodup) (h : FilesAccounted path)
    (hprep : prepareCompaction path settings = some prep) {cut : Nat} {first : SessionEntry}
    (hat : PreparedAt path settings prep cut first) :
    (computeFileLists prep.fileOps).Exact (messagesBetween path 0 (compactionBoundary path).2 ++
      messagesBetween path (compactionBoundary path).2 cut) := by
  have hadds := adds_messages (messagesBetween path (compactionBoundary path).2 cut)
    (extractFileOperations [] (compactionBoundary path).1)
  have hops := prepareCompaction_fileOps hprep
  rw [hat.summarized] at hops
  rw [← hops] at hadds
  obtain ⟨hread, hwritten, hedited⟩ := hadds
  cases hlatest : latestCompaction path with
  | none =>
    have hnil : messagesBetween path 0 0 = [] := by simp [messagesBetween, slice]
    rw [compactionBoundary_none hlatest] at hread hwritten hedited ⊢
    rw [hnil, List.nil_append]
    simp only [extractFileOperations, createFileOps, List.foldl_nil, List.not_mem_nil,
      false_or] at hread hwritten hedited
    constructor <;> intro file
    · rw [mem_computeFileLists.1, hwritten, hedited, Modifies, or_comm]
    · rw [mem_computeFileLists.2, hwritten, hedited, hread, Modifies, or_comm (a := Touches _ _ _)]
  | some c =>
    obtain ⟨pre, post, rfl, -⟩ := latestCompaction_split hlatest
    obtain ⟨p, lists, hfirst, hdetails, hhook, hexact⟩ := h pre c post rfl
    obtain ⟨hp, hboundary⟩ := compactionBoundary_split hnodup hlatest hfirst
    rw [hboundary] at hread hwritten hedited ⊢
    rw [messagesBetween_left (Nat.le_of_lt hp)]
    simp only [extractFileOperations, hdetails, if_neg hhook, List.foldl_nil,
      FileLists.readFiles_toJson, FileLists.modifiedFiles_toJson, mem_foldl_addPath,
      List.not_mem_nil, false_or] at hread hwritten hedited
    have hmodified (file : String) : file ∈ (computeFileLists prep.fileOps).modifiedFiles ↔
        Modifies (messagesBetween pre 0 p ++
          messagesBetween (pre ++ c.entry :: post) p cut) file := by
      rw [mem_computeFileLists.1, hwritten, hedited, hexact.modified, modifies_append, or_assoc]
      exact or_congr_right or_comm
    refine ⟨hmodified, fun file => ?_⟩
    rw [mem_computeFileLists.2, ← mem_computeFileLists.1, hmodified, hread, hexact.read,
      touches_append, modifies_append]
    tauto

/-! ## A session's runs -/

/-- A path and the messages its compactions summarized so far, in order.
Entries appended while a summary is awaited are `later`. -/
inductive SessionRun : List SessionEntry → List AgentMessage → Prop where
  | start : SessionRun [] []
  | append {path : List SessionEntry} {done : List AgentMessage} (entry : SessionEntry) :
      SessionRun path done → LinearPath (path ++ [entry]) → entry.isCompaction = false →
      SessionRun (path ++ [entry]) done
  | compact {path later : List SessionEntry} {done : List AgentMessage}
      {settings : CompactionSettings} {prep : CompactionPreparation} (id : String)
      (parentId : Option String) (timestamp summary : String) (fromHook : Option Bool) :
      SessionRun (path ++ later) done → (∀ e ∈ later, e.isCompaction = false) →
      prepareCompaction path settings = some prep → fromHook ≠ some true →
      LinearPath (path ++ later ++ [compactionEntryFor prep id parentId timestamp summary
        (some (computeFileLists prep.fileOps).toJson) fromHook]) →
      SessionRun (path ++ later ++ [compactionEntryFor prep id parentId timestamp summary
          (some (computeFileLists prep.fileOps).toJson) fromHook])
        (done ++ (prep.messagesToSummarize ++ prep.turnPrefixMessages))

theorem FilesAccounted.left (h : FilesAccounted (path ++ later)) : FilesAccounted path := by
  rintro pre c post rfl
  exact h pre c (post ++ later) (by simp)

theorem FilesAccounted.append {entry : SessionEntry} (h : FilesAccounted path)
    (hentry : ∀ c : CompactionEntry, c.entry = entry → Accounts path c) :
    FilesAccounted (path ++ [entry]) := by
  intro pre c post heq
  rcases List.eq_nil_or_concat post with rfl | ⟨post, e, rfl⟩
  · obtain ⟨rfl, hc⟩ := List.append_inj' heq rfl
    exact hentry c (List.cons.inj hc).1.symm
  · rw [List.concat_eq_append, ← List.cons_append, ← List.append_assoc] at heq
    obtain ⟨rfl, -⟩ := List.append_inj' heq rfl
    exact h pre c post rfl

/-- What a run keeps. -/
structure RunKept (path : List SessionEntry) (done : List AgentMessage) : Prop where
  nodup : (path.map (·.id)).Nodup
  accounted : FilesAccounted path
  done_eq : done = messagesBetween path 0 (compactionBoundary path).2

variable {done : List AgentMessage}

theorem RunKept.append (h : RunKept path done) {entry : SessionEntry}
    (hlinear : LinearPath (path ++ [entry])) (hentry : entry.isCompaction = false) :
    RunKept (path ++ [entry]) done := by
  have haccounted : FilesAccounted (path ++ [entry]) := by
    refine h.accounted.append fun c hc => ?_
    rw [SessionEntry.isCompaction, ← hc, c.body_eq] at hentry
    cases hentry
  obtain ⟨hboundary, hle⟩ := haccounted.boundary_append hlinear.nodup (by simpa using hentry)
  refine ⟨hlinear.nodup, haccounted, ?_⟩
  rw [hboundary, messagesBetween_left hle]
  exact h.done_eq

theorem RunKept.compact (h : RunKept (path ++ later) done)
    (hlater : ∀ e ∈ later, e.isCompaction = false)
    (hprep : prepareCompaction path settings = some prep) {c : CompactionEntry}
    (hfirst : c.firstKeptEntryId = prep.firstKeptEntryId)
    (hdetails : c.details = some (computeFileLists prep.fileOps).toJson)
    (hhook : c.fromHook ≠ some true) (hlinear : LinearPath (path ++ later ++ [c.entry])) :
    RunKept (path ++ later ++ [c.entry])
      (done ++ (prep.messagesToSummarize ++ prep.turnPrefixMessages)) := by
  obtain ⟨cut, first, hat⟩ := prepareCompaction_spec hprep
  have hlt := (List.getElem?_eq_some_iff.mp hat.first_at).1
  have hnodup : (path.map (·.id)).Nodup := (List.nodup_append.mp (List.map_append ▸ h.nodup)).1
  obtain ⟨hboundary, hle⟩ := h.accounted.boundary_append h.nodup hlater
  have hcut : (compactionBoundary path).2 ≤ cut :=
    hat.cut_eq ▸ (findCutPoint_range path _ _ _).1
  have hkept : (path ++ later)[cut]?.map (·.id) = some c.firstKeptEntryId := by
    rw [List.getElem?_append_left hlt, hat.first_at, Option.map_some, ← hat.firstKept, hfirst]
  have hbefore : messagesBetween (path ++ later) 0 cut = messagesBetween path 0 cut :=
    messagesBetween_left (Nat.le_of_lt hlt)
  refine ⟨hlinear.nodup, h.accounted.append fun c' hc => ?_, ?_⟩
  · have hbody := c'.body_eq
    rw [hc, c.body_eq] at hbody
    obtain ⟨-, hfirst', -, hdetails', hhook'⟩ := EntryBody.compaction.inj hbody
    refine ⟨cut, _, hfirst' ▸ hkept, hdetails' ▸ hdetails, hhook' ▸ hhook, ?_⟩
    rw [hbefore, ← messagesBetween_append path (Nat.zero_le _) hcut]
    exact exact_prepared hnodup h.accounted.left hprep hat
  · have hlatest : latestCompaction (path ++ later ++ [c.entry]) = some c := by
      rw [latestCompaction_append, latestCompaction_singleton,
        SessionEntry.compaction?_of_body c.body_eq, Option.some_or]
    rw [(compactionBoundary_split hlinear.nodup hlatest hkept).2, h.done_eq, hboundary,
      messagesBetween_left hle, hat.summarized, messagesBetween_append path (Nat.zero_le _) hcut,
      messagesBetween_left (by rw [List.length_append]; omega), hbefore]

theorem SessionRun.kept (h : SessionRun path done) : RunKept path done := by
  induction h with
  | start => exact ⟨List.nodup_nil, fun pre c post heq => by simp at heq, rfl⟩
  | append entry _ hlinear hentry ih => exact ih.append hlinear hentry
  | compact id parentId timestamp summary fromHook _ hlater hprep hhook hlinear ih =>
    exact ih.compact (c := ⟨_, _, _, _, _, _, rfl⟩) hlater hprep rfl rfl hhook hlinear

/-- However often a session is continued and compacted, the lists in each
compaction on its path name exactly the files that the tool calls before its
first kept entry modified, and those they only read. -/
theorem compactions_account (h : SessionRun path done) : FilesAccounted path :=
  h.kept.accounted

private def firstLight : String := "1970-01-01T00:00:00.000Z"

private def editing : AssistantMessage where
  content := some [.toolCall ⟨"t", "edit", .obj [("path", .str "a.ts")]⟩]
  provider := "p"
  model := "m"
  usage := none
  stopReason := .toolUse
  timestamp := 0

def editedPath : List SessionEntry :=
  [ ⟨"a", none, firstLight, .message (.assistant editing)⟩,
    ⟨"u", some "a", firstLight, .message (.user ⟨some (.string "text"), 0⟩)⟩ ]

/-- One token to keep: the entry with the edit is summarized. -/
theorem editedPath_run : ∃ prep : CompactionPreparation,
    prep.messagesToSummarize ++ prep.turnPrefixMessages = [.assistant editing] ∧
      prep.fileOps = ⟨[], [], ["a.ts"]⟩ ∧
      SessionRun (editedPath ++ [] ++ [compactionEntryFor prep "c" (some "u") firstLight "s"
        (some (computeFileLists prep.fileOps).toJson) none])
        ([] ++ (prep.messagesToSummarize ++ prep.turnPrefixMessages)) := by
  obtain ⟨prep, hprep⟩ := Option.isSome_iff_exists.mp
    (show (prepareCompaction editedPath ⟨true, 0, 1⟩).isSome = true by decide)
  have hops : (prepareCompaction editedPath ⟨true, 0, 1⟩).map (fun prep =>
      (prep.messagesToSummarize ++ prep.turnPrefixMessages, prep.fileOps)) =
      some ([.assistant editing], ⟨[], [], ["a.ts"]⟩) := by decide
  rw [hprep, Option.map_some, Option.some_inj, Prod.mk.injEq] at hops
  have hlinear : LinearPath editedPath := ⟨by decide, by decide, rfl, rfl, trivial⟩
  have hfirst : LinearPath ([] ++ [editedPath[0]]) := ⟨by decide, by decide, rfl, trivial⟩
  have hcompacted := hlinear.append_entry
    (compactionEntryFor prep "c" (some "u") firstLight "s"
      (some (computeFileLists prep.fileOps).toJson) none)
    (show truthy "c" = true by decide) (show ∀ e ∈ editedPath, e.id ≠ "c" by decide) rfl
  have hrun : SessionRun (editedPath ++ []) [] :=
    .append editedPath[1] (.append editedPath[0] .start hfirst rfl) hlinear rfl
  exact ⟨prep, hops.1, hops.2,
    .compact "c" (some "u") firstLight "s" none hrun nofun hprep nofun hcompacted⟩

theorem editedPath_accounted : ∃ path done, done ≠ [] ∧ SessionRun path done ∧
    FilesAccounted path := by
  obtain ⟨prep, hdone, -, hrun⟩ := editedPath_run
  exact ⟨_, _, by rw [hdone]; nofun, hrun, compactions_account hrun⟩

end Eagent
