import Eagent.SettingsRuns

/-!
# Settings survive

Each scope is a store that is written behind (`ScopeStore`), with the marked
fields as its changed keys, and the memory holds what is intended
(`SettingsState.Inv`). Three things break the agreement: a failed write of
marks that an earlier write has cleared, a reload with a write queued behind
it, and, with one file for both scopes, a global change of a field that was
set for the project. In the runs without them the settings survive
(`SettingsState.settings_survive`).
-/

namespace Eagent

namespace SettingsState

/-! ## The invariant -/

/-- What holds between the steps. -/
structure Inv (s : SettingsState) : Prop where
  globalStore : ScopeStore (s.storage.content .global) s.manager.globalSettings
    s.manager.modified (writesOf .global s.manager.writeQueue)
    (s.history.lastWrite .global ≠ some false)
  projectStore : s.hasProjectFile = true →
    ScopeStore (s.storage.content .project) s.manager.projectSettings
      s.manager.modifiedProject (writesOf .project s.manager.writeQueue)
      (s.history.lastWrite .project ≠ some false)
  noProjectFile : s.hasProjectFile = false →
    writesOf .project s.manager.writeQueue = [] ∧ s.manager.modifiedProject = {}
  untrusted : s.manager.projectTrusted = false → s.manager.projectSettings = .empty
  /-- with one file the settings of the project are also global -/
  single : s.storage.isSingleFile = true → ∀ field value,
    s.manager.projectSettings field = some value → s.manager.globalSettings field = some value
  loads : s.manager.globalSettingsLoadError = none ∧ s.manager.projectSettingsLoadError = none
  effective : s.manager.settings =
    deepMergeSettings s.manager.globalSettings s.manager.projectSettings
  globalMemory : s.manager.globalSettings = s.intended .global
  projectMemory : s.storage.isSingleFile = false →
    s.manager.projectSettings = s.intended .project
  projectSingle : s.storage.isSingleFile = true → s.intended .project = .empty

variable {s s' : SettingsState}

theorem writesOf_append (scope : SettingsScope) (queue queue' : List SettingsTask) :
    writesOf scope (queue ++ queue') = writesOf scope queue ++ writesOf scope queue' :=
  List.filterMap_append

theorem intended_concat (s : SettingsState) (manager : SettingsManager) (change : SettingsChange)
    (scope : SettingsScope) :
    intended { s with
      manager
      history := { s.history with changes := s.history.changes ++ [change] } } scope =
      change.applyTo s.storage.isSingleFile scope (s.intended scope) :=
  List.foldl_concat ..

/-! ## Changes -/

/-- A change of the global settings and of what the project shares with them,
with the write it queues. -/
theorem Inv.changeGlobal (h : s.Inv) {globalSettings projectSettings : Settings}
    {modified : ModifiedFields} {change : SettingsChange}
    (hmarks : Marks globalSettings modified) (hmono : s.manager.modified.keySet ⊆ modified.keySet)
    (hmemory : ∀ p ∉ modified.keySet, globalSettings.at p = s.manager.globalSettings.at p)
    (haccepts : ∀ field, (modified.nested field).isSome = true →
      acceptsNested (s.storage.content .global field) = true)
    (hproject : projectSettings = s.manager.projectSettings ∨
      s.storage.isSingleFile = true ∧ s.manager.projectTrusted = true)
    (hsingle : s.storage.isSingleFile = true → ∀ field value,
      projectSettings field = some value → globalSettings field = some value)
    (hglobal : globalSettings =
      change.applyTo s.storage.isSingleFile .global s.manager.globalSettings)
    (hscope : ∀ settings, change.applyTo s.storage.isSingleFile .project settings = settings) :
    Inv { s with
      manager := { s.manager with
        globalSettings
        projectSettings
        settings := deepMergeSettings globalSettings projectSettings
        modified
        writeQueue :=
          s.manager.writeQueue ++ [.write ⟨.global, globalSettings, modified⟩] }
      history := { s.history with changes := s.history.changes ++ [change] } } where
  globalStore := by
    rw [writesOf_append]
    exact h.globalStore.change hmarks hmono hmemory haccepts _ _
  projectStore hfile := by
    have hsame : projectSettings = s.manager.projectSettings := by
      rcases hproject with hsame | ⟨hone, -⟩
      · exact hsame
      · rw [hasProjectFile, Bool.and_eq_true, Bool.not_eq_true', hone] at hfile
        cases hfile.2
    rw [writesOf_append]
    subst hsame
    exact (List.append_nil _).symm ▸ h.projectStore hfile
  noProjectFile hfile := by
    rw [writesOf_append]
    exact (List.append_nil _).symm ▸ h.noProjectFile hfile
  untrusted htrusted := by
    rcases hproject with rfl | ⟨-, htrust⟩
    · exact h.untrusted htrusted
    · exact absurd (htrust.symm.trans htrusted) (by decide)
  single := hsingle
  loads := h.loads
  effective := rfl
  globalMemory := by
    rw [intended_concat, ← h.globalMemory]
    exact hglobal
  projectMemory hone := by
    rw [intended_concat, hscope, ← h.projectMemory hone]
    rcases hproject with hsame | ⟨hone', -⟩
    · exact hsame
    · exact absurd (hone'.symm.trans hone) (by decide)
  projectSingle hone := by
    rw [intended_concat, hscope]
    exact h.projectSingle hone

theorem Inv.changeProject (h : s.Inv) (hfile : s.hasProjectFile = true) {projectSettings : Settings}
    {modifiedProject : ModifiedFields} {change : SettingsChange}
    (hmarks : Marks projectSettings modifiedProject)
    (hmono : s.manager.modifiedProject.keySet ⊆ modifiedProject.keySet)
    (hmemory : ∀ p ∉ modifiedProject.keySet,
      projectSettings.at p = s.manager.projectSettings.at p)
    (haccepts : ∀ field, (modifiedProject.nested field).isSome = true →
      acceptsNested (s.storage.content .project field) = true)
    (hproject : projectSettings = change.applyTo false .project s.manager.projectSettings)
    (hscope : ∀ settings, change.applyTo false .global settings = settings) :
    Inv { s with
      manager := { s.manager with
        projectSettings
        settings := deepMergeSettings s.manager.globalSettings projectSettings
        modifiedProject
        writeQueue :=
          s.manager.writeQueue ++ [.write ⟨.project, projectSettings, modifiedProject⟩] }
      history := { s.history with changes := s.history.changes ++ [change] } } := by
  obtain ⟨htrusted, hone⟩ : s.manager.projectTrusted = true ∧ s.storage.isSingleFile = false := by
    rwa [hasProjectFile, Bool.and_eq_true, Bool.not_eq_true'] at hfile
  refine ⟨?_, fun _ => ?_, fun hnone => ?_, fun hfalse => ?_, fun hsingle => ?_, h.loads, rfl, ?_,
    fun _ => ?_, fun hsingle => ?_⟩
  · rw [writesOf_append]
    exact (List.append_nil _).symm ▸ h.globalStore
  · rw [writesOf_append]
    exact (h.projectStore hfile).change hmarks hmono hmemory haccepts _ _
  · exact absurd (hfile.symm.trans hnone) (by decide)
  · exact absurd (htrusted.symm.trans hfalse) (by decide)
  · exact absurd (hone.symm.trans hsingle) (by decide)
  · rw [intended_concat, hone, hscope]
    exact h.globalMemory
  · rw [intended_concat, hone, ← h.projectMemory hone]
    exact hproject
  · exact absurd (hone.symm.trans hsingle) (by decide)

theorem Inv.setFields (h : s.Inv) {changes : List (String × Option SettingValue)}
    (hfits : ∀ c ∈ changes, FieldFits c.1 c.2)
    (hkept : s.storage.isSingleFile = true →
      ∀ c ∈ changes, s.manager.projectSettings c.1 = none) :
    Inv { s with
      manager := s.manager.setFields changes
      history := { s.history with changes := s.history.changes ++ [.fields changes] } } := by
  obtain ⟨hmarks, hmono, hmemory⟩ := marks_foldl h.globalStore.marks hfits
  rw [setFields_eq h.loads.1]
  refine h.changeGlobal hmarks hmono hmemory (fun field hfield => ?_) (.inl rfl) ?_ rfl fun _ => rfl
  · rw [nested_foldl_markField] at hfield
    exact h.globalStore.accepts field hfield
  · intro hone field value hvalue
    rw [foldl_assign_of_notMem fun c hc hsame => ?_]
    · exact h.single hone field value hvalue
    · rw [← hsame, hkept hone c hc] at hvalue
      cases hvalue

theorem Inv.setNested (h : s.Inv) {field key : String} {value : Json} {manager : SettingsManager}
    (hname : field ∈ nestedNames) (hkey : key ≠ "maxDelayMs")
    (hkept : s.storage.isSingleFile = true → s.manager.projectSettings field = none)
    (hset : s.manager.setNested field key value = some manager) :
    Inv { s with
      manager
      history := { s.history with changes := s.history.changes ++ [.nested field key value] } } := by
  obtain ⟨haccepts, rfl⟩ := setNested_eq h.loads.1 hset
  have hmem : ∀ {p}, p ∈ (s.manager.modified.mark field (some key)).keySet ↔
      p = (field, none) ∨ p = (field, some key) ∨ p ∈ s.manager.modified.keySet :=
    h.globalStore.marks.mem_keySet_assignNested hname hkey
  refine h.changeGlobal (h.globalStore.marks.assignNested hname hkey) ?_ ?_ ?_ (.inl rfl) ?_ rfl
    fun _ => rfl
  · exact fun p hp => hmem.mpr (.inr (.inr hp))
  · intro p hp
    exact at_assignNested (fun hkind => hp (hmem.mpr (.inl hkind)))
      (fun hsame => hp (hmem.mpr (.inr (.inl hsame)))) haccepts
  · intro f hf
    by_cases hsame : f = field
    · subst hsame
      exact h.globalStore.acceptsNested_content hname haccepts
    · simp only [ModifiedFields.mark, Function.update_of_ne hsame] at hf
      exact h.globalStore.accepts f hf
  · intro hone f v hv
    have hother : f ≠ field := by
      rintro rfl
      rw [hkept hone] at hv
      cases hv
    rw [Settings.assignNested, Function.update_of_ne hother]
    exact h.single hone f v hv

theorem merge_assign {globalSettings projectSettings : Settings} {field : String}
    {value : SettingValue} (hsub : ∀ f v, projectSettings f = some v → globalSettings f = some v)
    (hplain : ∀ fields, some value ≠ some (.nested fields)) :
    deepMergeSettings globalSettings (projectSettings.assign (field, some value)) =
      globalSettings.assign (field, some value) := by
  funext f
  by_cases hsame : f = field
  · subst hsame
    simp only [Settings.assign, Function.update_self, deepMergeSettings]
    cases value with
    | plain v => rfl
    | nested fields => exact absurd rfl (hplain fields)
  · rw [Settings.assign, Settings.assign, Function.update_of_ne hsame]
    refine deepMergeSettings_of_same fun v hv => ?_
    rw [Function.update_of_ne hsame] at hv
    exact hsub f v hv

theorem Inv.updateProjectSettings (h : s.Inv) {field : String} {value : SettingValue}
    {manager : SettingsManager} (hfits : FieldFits field (some value))
    (hset : s.manager.updateProjectSettings s.storage.isSingleFile field value = some manager) :
    Inv { s with
      manager
      history := { s.history with changes := s.history.changes ++ [.project field value] } } := by
  obtain ⟨htrusted, hset⟩ := Option.ite_none_right_eq_some.mp hset
  obtain rfl := Option.some.inj hset
  cases hone : s.storage.isSingleFile with
  | false =>
    have hfile : s.hasProjectFile = true := by rw [hasProjectFile, htrusted, hone]; rfl
    have hstore := h.projectStore hfile
    have hmem : ∀ {p}, p ∈ (s.manager.modifiedProject.mark field none).keySet ↔
        p.1 = field ∨ p ∈ s.manager.modifiedProject.keySet :=
      hstore.marks.mem_keySet_assign hfits
    have hsave := saveProjectSettings_project
      (s := { s.manager with modifiedProject := s.manager.modifiedProject.mark field none })
      h.loads.2 (Function.update s.manager.projectSettings field (some value))
    rw [hsave]
    refine h.changeProject hfile (hstore.marks.assign hfits) (fun p hp => hmem.mpr (.inr hp)) ?_
      hstore.accepts rfl fun _ => rfl
    exact fun p hp => at_assign_of_ne fun hsame => hp (hmem.mpr (.inl hsame))
  | true =>
    have hsub := h.single hone
    have hunmarked : s.manager.modifiedProject = {} := by
      refine (h.noProjectFile ?_).2
      rw [hasProjectFile, hone, Bool.not_true, Bool.and_false]
    have hmerge : deepMergeSettings s.manager.globalSettings
        (Function.update s.manager.projectSettings field (some value)) =
        s.manager.globalSettings.assign (field, some value) := merge_assign hsub hfits.plain
    have hfields : ∀ f, f ∈ (s.manager.modified.markField (field, some value)).fields ↔
        f ∈ (s.manager.modified.join (s.manager.modifiedProject.mark field none)).fields := by
      intro f
      simp [hunmarked, ModifiedFields.markField, ModifiedFields.mark, ModifiedFields.join,
        List.mem_insert_iff, or_comm]
    have hnested : (s.manager.modified.markField (field, some value)).nested =
        (s.manager.modified.join (s.manager.modifiedProject.mark field none)).nested := by
      rw [hunmarked]
      rfl
    have hmem : ∀ {p}, p ∈ (s.manager.modified.join
        (s.manager.modifiedProject.mark field none)).keySet ↔
        p.1 = field ∨ p ∈ s.manager.modified.keySet := by
      intro p
      rw [← mem_keySet_congr hfields hnested]
      exact h.globalStore.marks.mem_keySet_assign hfits
    have hsave := saveProjectSettings_single
      (s := { s.manager with modifiedProject := s.manager.modifiedProject.mark field none })
      h.loads.2 h.loads.1 (Function.update s.manager.projectSettings field (some value))
    rw [hsave, hmerge, ← hunmarked]
    refine h.changeGlobal ((h.globalStore.marks.assign hfits).congr hfields hnested)
      (fun p hp => hmem.mpr (.inr hp)) ?_ ?_ (.inr ⟨hone, htrusted⟩) ?_ ?_ ?_
    · exact fun p hp => at_assign_of_ne fun hsame => hp (hmem.mpr (.inl hsame))
    · rw [← hnested]
      exact h.globalStore.accepts
    · intro _ f v hv
      by_cases hsame : f = field
      · subst hsame
        rw [Function.update_self] at hv
        rw [Settings.assign, Function.update_self, hv]
      · rw [Function.update_of_ne hsame] at hv
        rw [Settings.assign, Function.update_of_ne hsame]
        exact hsub f v hv
    · rw [hone]
      rfl
    · rw [hone]
      exact fun _ => rfl

/-! ## Steps -/

theorem Inv.set (h : s.Inv) {setter : SettingsSetter} (hok : s.KeepsTrack (.set setter))
    (hstep : s.step (.set setter) = some s') : s'.Inv := by
  simp only [step, Option.bind_eq_bind, Option.bind_eq_some_iff] at hstep
  obtain ⟨change, hchange, manager, hset, hs'⟩ := hstep
  obtain rfl := Option.some.inj hs'
  have hfits := fits_change hchange
  have hkept := fun hone => hok hone change hchange
  cases change with
  | fields changes =>
    obtain rfl := Option.some.inj hset
    exact h.setFields hfits fun hone c hc => hkept hone c.1 (List.mem_map_of_mem hc)
  | nested field key value =>
    exact h.setNested hfits.1 hfits.2 (fun hone => hkept hone field List.mem_cons_self) hset
  | project field value => exact h.updateProjectSettings hfits hset

theorem Inv.reload (h : s.Inv) (hstep : s.step .reload = some s') : s'.Inv := by
  obtain rfl := Option.some.inj hstep
  have hwrites : ∀ scope, writesOf scope (s.manager.writeQueue ++ [.reload]) =
      writesOf scope s.manager.writeQueue := by
    intro scope
    rw [writesOf_append]
    exact List.append_nil _
  refine { h with globalStore := ?_, projectStore := ?_, noProjectFile := ?_ }
  · rw [hwrites]
    exact h.globalStore
  · rw [hwrites]
    exact h.projectStore
  · rw [hwrites]
    exact h.noProjectFile

theorem step_load {globalError projectError : Option String}
    (h : s.step (.load globalError projectError) = some s') :
    ∃ rest, s.manager.writeQueue = .reload :: rest ∧
      s' = { s with
        manager :=
          { s.manager with writeQueue := rest }.finishReload s.storage globalError projectError
        history :=
          if (globalError.or projectError).isSome then s.history
          else { loaded := fun scope => s.storage.load scope s.manager.projectTrusted } } := by
  simp only [step] at h
  split at h
  · rename_i rest hqueue
    exact ⟨rest, hqueue, (Option.some.inj h).symm⟩
  · cases h

theorem step_write {error : Option String} (h : s.step (.write error) = some s') :
    ∃ w rest, s.manager.writeQueue = .write w :: rest ∧
      s' =
        { manager := ({ s.manager with writeQueue := rest }.runWrite s.storage w error).1
          storage := ({ s.manager with writeQueue := rest }.runWrite s.storage w error).2
          history := { s.history with
            lastWrite := Function.update s.history.lastWrite w.scope
              (some (error.isNone && (w.scope ≠ .project || s.manager.projectTrusted))) } } := by
  simp only [step] at h
  split at h
  · rename_i w rest hqueue
    exact ⟨w, rest, hqueue, (Option.some.inj h).symm⟩
  · cases h

theorem inv_load {globalError projectError : Option String}
    (hloads : LoadsSucceed (.load globalError projectError))
    (hok : s.KeepsTrack (.load globalError projectError))
    (hstep : s.step (.load globalError projectError) = some s') : s'.Inv := by
  obtain ⟨rfl, rfl⟩ := hloads
  obtain ⟨rest, hqueue, rfl⟩ := step_load hstep
  have hwrites := hok rest hqueue
  rw [finishReload_eq]
  refine ⟨?_, fun hfile => ?_, fun _ => ⟨hwrites _, rfl⟩, fun htrusted => ?_,
    fun hone field value hvalue => ?_, ⟨rfl, rfl⟩, rfl, rfl, fun _ => rfl, fun hone => ?_⟩
  · dsimp only
    rw [hwrites]
    exact .loaded (migrated_content _ _) _
  · rw [hasProjectFile, Bool.and_eq_true] at hfile
    have hload : s.storage.load .project s.manager.projectTrusted =
        s.storage.content .project := by
      rw [SettingsStorage.load, hfile.1]
      rfl
    dsimp only
    rw [hwrites, hload]
    exact .loaded (migrated_content _ _) _
  · exact load_untrusted htrusted
  · dsimp only at hvalue
    rw [load_single hone] at hvalue
    cases hvalue
  · exact load_single hone

theorem runWrite_some {m : SettingsManager} {storage : SettingsStorage} {w : ScopedWrite}
    (htrusted : w.scope = .project → m.projectTrusted = true) (error : String) :
    m.runWrite storage w (some error) = (m.recordError w.scope error, storage) := by
  refine if_neg ?_
  rw [Bool.and_eq_true, decide_eq_true_eq, Bool.not_eq_true']
  rintro ⟨hscope, hfalse⟩
  exact absurd ((htrusted hscope).symm.trans hfalse) (by decide)

theorem runWrite_none {m : SettingsManager} {storage : SettingsStorage} {w : ScopedWrite}
    (htrusted : w.scope = .project → m.projectTrusted = true) :
    m.runWrite storage w none = (m.clearModifiedScope w.scope,
      storage.persistScopedSettings w.scope w.snapshot w.modified.fields w.modified.nested) := by
  refine if_neg ?_
  rw [Bool.and_eq_true, decide_eq_true_eq, Bool.not_eq_true']
  rintro ⟨hscope, hfalse⟩
  exact absurd ((htrusted hscope).symm.trans hfalse) (by decide)

theorem Inv.write (h : s.Inv) {error : Option String} (hok : s.KeepsTrack (.write error))
    (hstep : s.step (.write error) = some s') : s'.Inv := by
  obtain ⟨w, rest, hqueue, rfl⟩ := step_write hstep
  have hwrites : ∀ scope, writesOf scope s.manager.writeQueue =
      if w.scope = scope then w :: writesOf scope rest else writesOf scope rest := by
    intro scope
    rw [hqueue]
    by_cases hscope : w.scope = scope
    · rw [if_pos hscope]
      exact List.filterMap_cons_some (if_pos hscope)
    · rw [if_neg hscope]
      exact List.filterMap_cons_none (if_neg hscope)
  have hfile : w.scope = .project → s.hasProjectFile = true := by
    intro hscope
    by_contra hnone
    have hempty := (h.noProjectFile (Bool.not_eq_true _ ▸ hnone)).1
    rw [hwrites, if_pos hscope] at hempty
    cases hempty
  have htrusted : w.scope = .project → s.manager.projectTrusted = true :=
    fun hscope => (Bool.and_eq_true _ _ ▸ hfile hscope).1
  have hglobal := hwrites .global ▸ h.globalStore
  have hproject := hwrites .project ▸ h.projectStore
  have hnone := hwrites .project ▸ h.noProjectFile
  cases error with
  | some error =>
    have hkept := hok w rest hqueue
    have hlast : ∀ ok, Function.update s.history.lastWrite w.scope
        (some ((some error).isNone && ok)) w.scope = some false :=
      fun ok => Function.update_self ..
    rw [runWrite_some (m := { s.manager with writeQueue := rest }) htrusted]
    cases hscope : w.scope with
    | global =>
      rw [hscope] at hkept hlast
      simp only [hscope, if_pos] at hglobal
      simp only [hscope, reduceCtorEq, if_false] at hproject hnone
      refine { h with globalStore := ?_, projectStore := hproject, noProjectFile := hnone }
      exact (hglobal.failed hkept).imp fun hne => hne (hlast _)
    | project =>
      rw [hscope] at hkept hlast
      simp only [hscope, reduceCtorEq, if_false] at hglobal
      simp only [hscope, if_pos] at hproject hnone
      refine { h with globalStore := hglobal, projectStore := ?_, noProjectFile := ?_ }
      · exact fun hfile => ((hproject hfile).failed hkept).imp fun hne => hne (hlast _)
      · exact fun hno => absurd ((hfile hscope).symm.trans hno) (by decide)
  | none =>
    have hone : w.scope = .project → s.storage.isSingleFile = false :=
      fun hscope => Bool.not_eq_true' _ ▸ (Bool.and_eq_true _ _ ▸ hfile hscope).2
    rw [runWrite_none (m := { s.manager with writeQueue := rest }) htrusted, persist_eq hone]
    cases hscope : w.scope with
    | global =>
      simp only [hscope, if_pos] at hglobal
      simp only [hscope, reduceCtorEq, if_false] at hproject hnone
      have hmigrated := (hglobal.wrote True).migrated
      have hcontent := content_persist hone (hscope ▸ hmigrated)
      rw [hscope] at hcontent
      refine { h with globalStore := ?_, projectStore := ?_, noProjectFile := hnone }
      · dsimp only
        rw [hcontent, Function.update_self]
        exact hglobal.wrote _
      · dsimp only
        rw [hcontent, Function.update_of_ne (by decide)]
        exact hproject
    | project =>
      simp only [hscope, reduceCtorEq, if_false] at hglobal
      simp only [hscope, if_pos] at hproject hnone
      have hmigrated := ((hproject (hfile hscope)).wrote True).migrated
      have hcontent := content_persist hone (hscope ▸ hmigrated)
      rw [hscope] at hcontent
      refine { h with globalStore := ?_, projectStore := ?_, noProjectFile := ?_ }
      · dsimp only
        rw [hcontent, Function.update_of_ne (by decide)]
        exact hglobal
      · intro _
        dsimp only
        rw [hcontent, Function.update_self]
        exact (hproject (hfile hscope)).wrote _
      · exact fun hno => absurd ((hfile hscope).symm.trans hno) (by decide)

/-! ## Runs -/

theorem inv_start (storage : SettingsStorage) (projectTrusted : Bool) :
    (start storage projectTrusted).Inv where
  globalStore := .loaded (migrated_content _ _) _
  projectStore hfile := by
    have htrusted : projectTrusted = true := (Bool.and_eq_true _ _ ▸ hfile).1
    subst htrusted
    exact .loaded (migrated_content _ _) _
  noProjectFile _ := ⟨rfl, rfl⟩
  untrusted htrusted := load_untrusted htrusted
  single hone field value hvalue := by
    have hempty : (start storage projectTrusted).manager.projectSettings = .empty :=
      load_single hone
    rw [hempty] at hvalue
    cases hvalue
  loads := ⟨rfl, rfl⟩
  effective := rfl
  globalMemory := rfl
  projectMemory _ := rfl
  projectSingle hone := load_single hone

theorem Inv.step (h : s.Inv) {a : SettingsAction} (hloads : LoadsSucceed a) (hok : s.KeepsTrack a)
    (hstep : s.step a = some s') : s'.Inv := by
  cases a with
  | set setter => exact h.set hok hstep
  | reload => exact h.reload hstep
  | write error => exact h.write hok hstep
  | load globalError projectError => exact inv_load hloads hok hstep

/-- With the queue drained memory and files agree. -/
theorem Inv.survives (h : s.Inv) (hsettled : s.Settled) : s.Survives := by
  obtain ⟨hqueue, hlast⟩ := hsettled
  have hwrites : ∀ scope, writesOf scope s.manager.writeQueue = [] := by
    intro scope
    rw [hqueue]
    rfl
  have hglobal : s.storage.content .global = s.manager.globalSettings :=
    (hwrites .global ▸ h.globalStore).content_eq (hlast .global)
  have hproject : s.hasProjectFile = true →
      s.storage.content .project = s.manager.projectSettings :=
    fun hfile => (hwrites .project ▸ h.projectStore hfile).content_eq (hlast .project)
  have hmerged : s.storage.isSingleFile = true → s.manager.settings = s.manager.globalSettings := by
    intro hone
    rw [h.effective]
    funext field
    exact deepMergeSettings_of_same (h.single hone field)
  refine ⟨hglobal.trans h.globalMemory, fun hfile => ?_, ?_, ?_⟩
  · have hone : s.storage.isSingleFile = false :=
      Bool.not_eq_true' _ ▸ (Bool.and_eq_true _ _ ▸ hfile).2
    exact (hproject hfile).trans (h.projectMemory hone)
  · cases hone : s.storage.isSingleFile with
    | false => rw [h.effective, ← h.globalMemory, ← h.projectMemory hone]
    | true =>
      rw [hmerged hone, h.globalMemory, h.projectSingle hone, deepMergeSettings_empty]
  · rw [finishReload_eq]
    dsimp only
    rw [load_global, hglobal]
    cases hone : s.storage.isSingleFile with
    | true => rw [load_single hone, deepMergeSettings_empty, hmerged hone]
    | false =>
      rw [h.effective]
      cases htrusted : s.manager.projectTrusted with
      | false => rw [load_untrusted rfl, h.untrusted htrusted]
      | true =>
        have hfile : s.hasProjectFile = true := by
          rw [hasProjectFile, htrusted, hone]
          rfl
        have hload : s.storage.load .project true = s.storage.content .project := rfl
        rw [hload, hproject hfile]

/-- In every run in which the marks keep track of what is not written yet, the
settings survive. -/
theorem settings_survive {storage : SettingsStorage} {projectTrusted : Bool}
    (h : Machine.Reaches SettingsState.step (fun s a => LoadsSucceed a ∧ s.KeepsTrack a)
      (start storage projectTrusted) s) (hsettled : s.Settled) : s.Survives := by
  have hinv : s.Inv := h.invariant (inv_start storage projectTrusted)
    fun _ _ _ hinv hok hstep => hinv.step hok.1 hok.2 hstep
  exact hinv.survives hsettled

/-- A run that fails a write and reloads. -/
theorem settings_survive_failed_write : ∃ s,
    Machine.Reaches SettingsState.step (fun s a => LoadsSucceed a ∧ s.KeepsTrack a)
      (start ⟨false, fun _ => none⟩ true) s ∧
    s.manager.settings.at ("theme", none) = some (some (.str "dark")) ∧ s.Survives := by
  have hset : Machine.Reaches SettingsState.step (fun s a => LoadsSucceed a ∧ s.KeepsTrack a)
      (start ⟨false, fun _ => none⟩ true) _ :=
    Machine.Reaches.refl.tail (a := .set (.setTheme "dark"))
      ⟨trivial, fun h => by cases h⟩ rfl
  have hfail := hset.tail (a := .write (some "disk full"))
    (by exact ⟨trivial, fun w rest h k hk => by cases h; exact .inl hk⟩) rfl
  have hnested := hfail.tail (a := .set (.setShowImages false))
    (by exact ⟨trivial, fun h => by cases h⟩) rfl
  have hwrite := hnested.tail (a := .write none) (by exact ⟨trivial, trivial⟩) rfl
  have hreload := hwrite.tail (a := .reload) (by exact ⟨trivial, trivial⟩) rfl
  have hload := hreload.tail (a := .load none none)
    (by exact ⟨⟨rfl, rfl⟩, fun rest h scope => by cases h; rfl⟩) rfl
  refine ⟨_, hload, by decide, settings_survive hload ⟨rfl, fun scope => ?_⟩⟩
  cases scope <;> decide

/-- The queue drains and the last writes succeed, but the settings do not
survive. -/
def Breaks (isSingleFile : Bool) (actions : List SettingsAction) : Prop :=
  ∃ s, Machine.run SettingsState.step (fun _ _ => True)
      (start ⟨isSingleFile, fun _ => none⟩ true) actions = some s ∧
    s.Settled ∧ ¬ s.Survives

/-- Each of the three side conditions is needed: the write of `quietStartup`
fails after an earlier write has cleared its mark; a setter runs while
`reload` waits; a field of the project is set globally in the same file. -/
theorem settings_lost :
    (¬ ∀ storage projectTrusted s,
      Machine.Reaches SettingsState.step (fun _ a => LoadsSucceed a)
        (start storage projectTrusted) s → s.Settled → s.Survives) ∧
    Breaks false
      [.set (.setTheme "dark"), .set (.setQuietStartup true), .write none,
        .write (some "disk full"), .set (.setCollapseChangelog true), .write none] ∧
    Breaks false [.reload, .set (.setTheme "dark"), .load none none, .write none] ∧
    Breaks true
      [.set (.setProjectThemePaths ["a"]), .write none, .set (.setThemePaths ["b"]),
        .write none] := by
  have hlost : Breaks false
      [.set (.setTheme "dark"), .set (.setQuietStartup true), .write none,
        .write (some "disk full"), .set (.setCollapseChangelog true), .write none] := by
    refine ⟨_, rfl, ⟨rfl, fun scope => ?_⟩, fun h => ?_⟩
    · cases scope <;> decide
    · have hfile := congrArg (Settings.at · ("quietStartup", none)) h.globalFile
      revert hfile
      decide
  refine ⟨fun hall => ?_, hlost, ?_, ?_⟩
  · obtain ⟨s, hrun, hsettled, hnot⟩ := hlost
    refine hnot (hall _ _ s (Machine.reaches_of_run_of_forall hrun ?_) hsettled)
    simp [LoadsSucceed]
  · refine ⟨_, rfl, ⟨rfl, fun scope => ?_⟩, fun h => ?_⟩
    · cases scope <;> decide
    · have hfile := congrArg (Settings.at · ("theme", none)) h.globalFile
      revert hfile
      decide
  · refine ⟨_, rfl, ⟨rfl, fun scope => ?_⟩, fun h => ?_⟩
    · cases scope <;> decide
    · have heffective := congrArg (Settings.at · ("themes", none)) h.effective
      revert heffective
      decide

end SettingsState

end Eagent
