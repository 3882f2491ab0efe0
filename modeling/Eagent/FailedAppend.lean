import Eagent.SessionFileRuns

/-!
# An append whose write throws

`_appendEntry` changes memory before it writes, so the entry of a write that
throws stays there. What the next write does to the file depends on `flushed`:
the whole list is written, with that entry, or one line, without it.
-/

namespace Eagent

/-! ## A clean failure -/

/-- What a write that throws and writes nothing leaves: the disk, or the file
that was opened for it. -/
inductive FailedWrite (disk : Disk) : FileWrite → Disk → Prop
  | nothing (write : FileWrite) : FailedWrite disk write disk
  | created (path : String) (entries : List FileEntry) (hnone : disk path = none) :
      FailedWrite disk (.createNew path entries) (Function.update disk path (some []))
  | opened (path : String) (entry : SessionEntry) (hnone : disk path = none) :
      FailedWrite disk (.append path entry) (Function.update disk path (some []))

structure Remembers (before after : SessionManager) : Prop where
  fileEntries : after.fileEntries = before.fileEntries
  byId : after.byId = before.byId
  leafId : after.leafId = before.leafId
  labelsById : after.labelsById = before.labelsById
  labelTimestampsById : after.labelTimestampsById = before.labelTimestampsById

def LinesAgree (cast : EntryCast) (m : SessionManager) (disk : Disk) : Prop :=
  ∃ path content, m.openFile = some path ∧ disk path = some content ∧
    (parsedLines content).map cast.read = m.fileEntries

/-- A later append that writes. -/
structure LaterWrite (cast : EntryCast) (m : SessionManager) (disk : Disk) (env : Env)
    (op : SessionOp) (out : Outcome) (disk' : Disk) : Prop where
  isAppend : op.isAppend = true
  apply : op.apply env m = .ok out
  writes : out.writes ≠ []
  succeeds : runWrites cast.line disk out.writes = some disk'

/-- When its write throws, the call leaves memory as it was, and the next
write brings the file in step with it. -/
structure FailsCleanly (cast : EntryCast) (env : Env) (m : SessionManager) (disk : Disk)
    (op : SessionOp) : Prop where
  remembers : ∀ out write disk', op.apply env m = .ok out → out.writes = [write] →
    FailedWrite disk write disk' → Remembers m (m.interrupted out)
  lines : ∀ out write disk', op.apply env m = .ok out → out.writes = [write] →
    FailedWrite disk write disk' → ∀ env' later out' disk'',
      LaterWrite cast (m.interrupted out) disk' env' later out' disk'' →
        LinesAgree cast out'.manager disk''

/-! ## The entry stays -/

variable {cast : EntryCast} {env : Env} {m : SessionManager} {disk disk' : Disk} {op : SessionOp}
  {out : Outcome}

/-- The state when the write is tried: one more entry. -/
def SessionManager.remembering (m : SessionManager) (entry : SessionEntry) : SessionManager :=
  { m with
    fileEntries := m.fileEntries ++ [.entry entry]
    byId := m.byId.set entry.id entry
    leafId := some entry.id }

/-- The state with the entry is the one that is persisted, and the one an
append that throws leaves. -/
theorem append_remembering (happend : op.isAppend = true) (h : op.apply env m = .ok out) :
    ∃ entry, out.writes = ((m.remembering entry).persistEntry entry).2 ∧
      out.manager.fileEntries = m.fileEntries ++ [.entry entry] ∧
      out.manager.openFile = m.openFile ∧ m.interrupted out = m.remembering entry := by
  obtain ⟨leafId, entry, labelsById, labelTimestampsById, hwrites, hmanager⟩ :=
    apply_append happend h
  rw [appendEntry_manager] at hmanager
  refine ⟨entry, hwrites, ?_, ?_, ?_⟩
  · rw [hmanager]
  · rw [hmanager]
    rfl
  · rw [SessionManager.interrupted, hmanager]
    rfl

/-- Nothing is written, a line is, or the whole file. -/
theorem writes_cases (entry : SessionEntry) :
    ((m.remembering entry).persistEntry entry).2 = [] ∨
      (∃ path, m.openFile = some path ∧ m.flushed = true ∧
        ((m.remembering entry).persistEntry entry).2 = [.append path entry]) ∨
      ∃ path, m.openFile = some path ∧ m.flushed = false ∧
        (m.remembering entry).hasAssistant = true ∧
        ((m.remembering entry).persistEntry entry).2 =
          [.createNew path (m.fileEntries ++ [.entry entry])] := by
  have hopen : (m.remembering entry).openFile = m.openFile := rfl
  have hflush : (m.remembering entry).flushed = m.flushed := rfl
  unfold SessionManager.persistEntry
  rw [hopen, hflush]
  cases hfile : m.openFile with
  | none => exact .inl rfl
  | some path =>
    cases hflushed : m.flushed with
    | true => exact .inr (.inl ⟨path, rfl, rfl, by simp⟩)
    | false =>
      cases hassistant : (m.remembering entry).hasAssistant with
      | true => exact .inr (.inr ⟨path, rfl, rfl, rfl, by simp [SessionManager.remembering]⟩)
      | false => exact .inl (by simp)

theorem not_remembers (happend : op.isAppend = true) (h : op.apply env m = .ok out) :
    ¬ Remembers m (m.interrupted out) := by
  obtain ⟨entry, -, -, -, hmanager⟩ := append_remembering happend h
  intro hremembers
  have hentries := congrArg List.length hremembers.fileEntries
  rw [hmanager, SessionManager.remembering, List.length_append, List.length_singleton] at hentries
  omega

/-! ## The next write -/

variable {write : FileWrite} {later : SessionOp} {env' : Env} {out' : Outcome}
  {written : Disk}

theorem not_linesAgree_flushed (h : Stored cast m disk) (hflushed : m.flushed = true)
    {path : String} (hopen : m.openFile = some path) {entry : SessionEntry}
    (hfailed : FailedWrite disk (.append path entry) disk') {laterEntry : SessionEntry}
    (hreads : cast.ReadsBack (.entry laterEntry))
    (hwritten : runWrites cast.line disk' [.append path laterEntry] = some written)
    {m' : SessionManager} (hopen' : m'.openFile = some path)
    (hentries : m'.fileEntries = m.fileEntries ++ [.entry entry] ++ [.entry laterEntry]) :
    ¬ LinesAgree cast m' written := by
  obtain ⟨content, hcontent, hholds⟩ := h.written hflushed path hopen
  obtain ⟨header, -, hheader⟩ := h.indexed.header
  have hsame : disk' = disk := by
    cases hfailed with
    | nothing => rfl
    | opened _ _ hnone =>
      rw [hcontent] at hnone
      cases hnone
  rw [hsame] at hwritten
  obtain rfl := Option.some.inj hwritten
  rintro ⟨path', content', hpath, hcontent', hagree⟩
  obtain rfl : path = path' := Option.some.inj (hopen'.symm.trans hpath)
  rw [Function.update_self, hcontent] at hcontent'
  obtain rfl := Option.some.inj hcontent'
  rw [hheader] at hholds
  have hlater := (hholds.append hreads).entries
  rw [← hheader] at hlater
  have hlength := congrArg List.length (hlater.symm.trans (hagree.trans hentries))
  simp only [List.length_append, List.length_singleton] at hlength
  omega

/-- As a whole, the file has the failed entry too. -/
theorem linesAgree_created {path : String} {m' : SessionManager}
    (hheader : ∃ header es, m'.fileEntries = .session header :: es)
    (hreads : ∀ e ∈ m'.fileEntries, cast.ReadsBack e) (hopen' : m'.openFile = some path)
    (hwritten : runWrites cast.line disk' [.createNew path m'.fileEntries] = some written) :
    LinesAgree cast m' written := by
  obtain ⟨header, es, hentries⟩ := hheader
  by_cases hsome : (disk' path).isSome = true
  · simp [runWrites, FileWrite.run, hsome] at hwritten
  · have hupdate : written =
        Function.update disk' path (some (fileText cast.line m'.fileEntries)) := by
      simp only [runWrites, FileWrite.run, hsome] at hwritten
      exact (Option.some.inj hwritten).symm
    refine ⟨path, _, hopen', by rw [hupdate, Function.update_self], ?_⟩
    rw [hentries] at hreads ⊢
    exact (EntryCast.holds_fileText hreads).entries

/-- The next write after a failed one brings the file in step with memory if
and only if it writes the whole file. -/
theorem lines_after_failure (h : Stored cast m disk) (happend : op.isAppend = true)
    (happly : op.apply env m = .ok out) (hwrite : out.writes = [write])
    (hfailed : FailedWrite disk write disk')
    (hlater : LaterWrite cast (m.interrupted out) disk' env' later out' written)
    (hreads : ∀ w ∈ out'.writes, ∀ e ∈ w.entries, cast.ReadsBack e) :
    LinesAgree cast out'.manager written ↔ m.flushed = false := by
  obtain ⟨header, -, hheader⟩ := h.indexed.header
  obtain ⟨entry, hwrites, -, -, hinterrupted⟩ := append_remembering happend happly
  obtain ⟨laterEntry, hwrites', hentries, hopen', -⟩ :=
    append_remembering hlater.isAppend hlater.apply
  have hsucceeds := hlater.succeeds
  have hnonempty := hlater.writes
  have hkept : (m.interrupted out).fileEntries = m.fileEntries ++ [.entry entry] := by
    rw [hinterrupted]
    rfl
  have hflush : (m.interrupted out).flushed = m.flushed := rfl
  have hfile : (m.interrupted out).openFile = m.openFile := rfl
  rw [hwrites'] at hsucceeds hnonempty hreads
  rw [hkept] at hentries
  rw [hfile] at hopen'
  obtain hnone | ⟨path, hopen, hflushed, hline⟩ | ⟨path, hopen, hflushed, -, hall⟩ :=
    writes_cases (m := m) entry
  · rw [hwrites, hnone] at hwrite
    cases hwrite
  · rw [hwrites, hline] at hwrite
    obtain rfl := List.singleton_inj.mp hwrite
    obtain hnone' | ⟨path', hpath', -, hline'⟩ | ⟨path', hpath', hunflushed, -⟩ :=
      writes_cases (m := m.interrupted out) laterEntry
    · exact absurd hnone' hnonempty
    · obtain rfl : path = path' := Option.some.inj (hopen.symm.trans hpath')
      rw [hline'] at hsucceeds hreads
      have hreadsEntry : cast.ReadsBack (.entry laterEntry) := by
        simpa [FileWrite.entries] using hreads
      have hnot := not_linesAgree_flushed h hflushed hopen hfailed hreadsEntry hsucceeds
        (hopen'.trans hopen) hentries
      rw [hflushed]
      exact ⟨fun hagree => absurd hagree hnot, fun hfalse => by cases hfalse⟩
    · rw [hflush, hflushed] at hunflushed
      cases hunflushed
  · obtain hnone' | ⟨path', hpath', hflushed', -⟩ | ⟨path', hpath', -, -, hall'⟩ :=
      writes_cases (m := m.interrupted out) laterEntry
    · exact absurd hnone' hnonempty
    · rw [hflush, hflushed] at hflushed'
      cases hflushed'
    · obtain rfl : path = path' := Option.some.inj (hopen.symm.trans hpath')
      rw [hkept, ← hentries] at hall'
      rw [hall'] at hsucceeds hreads
      refine ⟨fun _ => hflushed, fun _ => ?_⟩
      refine linesAgree_created ?_ ?_ (hopen'.trans hopen) hsucceeds
      · rw [hentries, hheader]
        exact ⟨_, _, rfl⟩
      · simpa [FileWrite.entries] using hreads

theorem writes_singleton (happend : op.isAppend = true) (happly : op.apply env m = .ok out)
    (hwrites : out.writes ≠ []) : ∃ write, out.writes = [write] := by
  obtain ⟨entry, hself, -⟩ := append_remembering happend happly
  rw [hself] at hwrites ⊢
  obtain hnone | ⟨path, -, -, hline⟩ | ⟨path, -, -, -, hall⟩ := writes_cases (m := m) entry
  · exact absurd hnone hwrites
  · exact ⟨_, hline⟩
  · exact ⟨_, hall⟩

/-- No append whose write throws fails cleanly: its entry stays in memory. The
next write puts it into the file if nothing has been written yet, and else
writes its own entry only. -/
theorem append_never_fails_cleanly (happend : op.isAppend = true)
    (happly : op.apply env m = .ok out) (hwrites : out.writes ≠ []) :
    ¬ FailsCleanly cast env m disk op ∧
      (Stored cast m disk → ∀ write disk', out.writes = [write] → FailedWrite disk write disk' →
        ∀ env' later out' written,
          LaterWrite cast (m.interrupted out) disk' env' later out' written →
          (∀ w ∈ out'.writes, ∀ e ∈ w.entries, cast.ReadsBack e) →
          (LinesAgree cast out'.manager written ↔ m.flushed = false)) := by
  refine ⟨fun hclean => ?_, ?_⟩
  · obtain ⟨write, hwrite⟩ := writes_singleton happend happly hwrites
    exact not_remembers happend happly
      (hclean.remembers out write disk happly hwrite (.nothing write))
  · intro h write disk' hwrite hfailed env' later out' written hlater hreads
    exact lines_after_failure h happend happly hwrite hfailed hlater hreads

/-! ## A note that is not written -/

private def noted : CallResult := (noteStart.call note).call .ensureSessionFile

/-- Another note, whose write throws. -/
private def failedNote : Outcome := noted.manager.appendCustomEntry noteEnv "note" none

private def laterNote : Outcome :=
  (noted.manager.interrupted failedNote).appendCustomEntry
    { noteEnv with randomUUID := fun _ _ => "third" } "note" none

theorem append_never_fails_cleanly_note :
    ¬ FailsCleanly noteCast noteEnv noted.manager noted.disk note :=
  (@append_never_fails_cleanly noteCast noteEnv noted.manager noted.disk note failedNote rfl rfl
    (by decide +kernel)).1

/-- The entry of the write that throws stays, and the file goes on without it. -/
theorem failed_note_missing :
    ¬ Remembers noted.manager (noted.manager.interrupted failedNote) ∧
      ∃ written, runWrites noteCast.line noted.disk laterNote.writes = some written ∧
        ¬ LinesAgree noteCast laterNote.manager written := by
  have happly : note.apply noteEnv noted.manager = .ok failedNote := rfl
  have hrun : (runWrites noteCast.line noted.disk laterNote.writes).isSome = true := by
    decide +kernel
  obtain ⟨written, hwritten⟩ := Option.isSome_iff_exists.mp hrun
  refine ⟨not_remembers rfl happly, written, hwritten, ?_⟩
  rintro ⟨path, content, hopen, hcontent, hagree⟩
  have hread : ((runWrites noteCast.line noted.disk laterNote.writes).bind fun disk =>
      laterNote.manager.openFile.bind fun path => (disk path).map fun content =>
        (parsedLines content).length) = some 3 := by
    decide +kernel
  rw [hwritten, Option.bind_some, hopen, Option.bind_some, hcontent] at hread
  have hlines : (parsedLines content).length = 3 := Option.some.inj hread
  have hentries : laterNote.manager.fileEntries.length = 4 := by decide +kernel
  have hlength := congrArg List.length hagree
  rw [List.length_map, hlines, hentries] at hlength
  cases hlength

end Eagent
