import Eagent.SettingsKeys

/-!
# Runs of the settings manager

Setters and calls of `reload` in any order with the tasks of the queue, each
of which may fail. What the settings should be is what was loaded last with
every change made since (`intended`). The second half says what a setter's
changes and the operations of the manager do.
-/

namespace Eagent

/-! ## Runs -/

/-- `loaded` and `changes`: the settings at the last load, and the changes
since; `lastWrite`: whether the last write of a scope since then succeeded. -/
structure SettingsHistory where
  loaded : SettingsScope → Settings
  changes : List SettingsChange := []
  lastWrite : SettingsScope → Option Bool := fun _ => none

structure SettingsState where
  manager : SettingsManager
  storage : SettingsStorage
  history : SettingsHistory

inductive SettingsAction where
  | set (setter : SettingsSetter)
  | reload
  /-- the next write, with the error of its storage operation -/
  | write (error : Option String)
  /-- the rest of the next reload, with the errors of its loads -/
  | load (globalError projectError : Option String)

def SettingsChange.applyTo (isSingleFile : Bool) (scope : SettingsScope) (settings : Settings) :
    SettingsChange → Settings
  | .fields changes => if scope = .global then changes.foldl Settings.assign settings else settings
  | .nested field key value =>
      if scope = .global then settings.assignNested field key value else settings
  | .project field value =>
      if scope = (if isSingleFile then .global else .project) then
        settings.assign (field, some value)
      else settings

namespace SettingsState

def start (storage : SettingsStorage) (projectTrusted : Bool) : SettingsState where
  manager := .fromStorage storage projectTrusted
  storage
  history := { loaded := fun scope => storage.load scope projectTrusted }

def step (s : SettingsState) : SettingsAction → Option SettingsState
  | .set setter => do
      let change ← setter.change
      let manager ← s.manager.apply s.storage.isSingleFile change
      return { s with
        manager
        history := { s.history with changes := s.history.changes ++ [change] } }
  | .reload =>
      some { s with manager := { s.manager with
        writeQueue := s.manager.writeQueue ++ [.reload] } }
  | .write error =>
      match s.manager.writeQueue with
      | .write w :: rest =>
          let next := { s.manager with writeQueue := rest }.runWrite s.storage w error
          let ok := error.isNone && (w.scope ≠ .project || s.manager.projectTrusted)
          some
            { manager := next.1
              storage := next.2
              history := { s.history with
                lastWrite := Function.update s.history.lastWrite w.scope (some ok) } }
      | _ => none
  | .load globalError projectError =>
      match s.manager.writeQueue with
      | .reload :: rest =>
          some { s with
            manager :=
              { s.manager with writeQueue := rest }.finishReload s.storage globalError projectError
            history :=
              if (globalError.or projectError).isSome then s.history
              else { loaded := fun scope => s.storage.load scope s.manager.projectTrusted } }
      | _ => none

/-! ## Side conditions -/

def writesOf (scope : SettingsScope) (queue : List SettingsTask) : List ScopedWrite :=
  queue.filterMap fun
    | .write w => if w.scope = scope then some w else none
    | .reload => none

def modifiedOf (s : SettingsManager) : SettingsScope → ModifiedFields
  | .global => s.modified
  | .project => s.modifiedProject

def LoadsSucceed : SettingsAction → Prop
  | .load globalError projectError => globalError = none ∧ projectError = none
  | _ => True

def globalFields : SettingsChange → List String
  | .fields changes => changes.map Prod.fst
  | .nested field _ _ => [field]
  | .project _ _ => []

/-- With one file for both scopes no global change is of a field that was set
for the project; a write that fails has no mark that is neither there still
nor with a later write; and a reload finds no write queued behind it. -/
def KeepsTrack (s : SettingsState) : SettingsAction → Prop
  | .set setter => s.storage.isSingleFile = true → ∀ change ∈ setter.change,
      ∀ field ∈ globalFields change, s.manager.projectSettings field = none
  | .write (some _) => ∀ w rest, s.manager.writeQueue = .write w :: rest →
      ∀ k ∈ w.modified.keys, k ∈ (modifiedOf s.manager w.scope).keys ∨
        ∃ w' ∈ writesOf w.scope rest, k ∈ w'.modified.keys
  | .load _ _ => ∀ rest, s.manager.writeQueue = .reload :: rest →
      ∀ scope, writesOf scope rest = []
  | _ => True

/-! ## What should survive -/

def intended (s : SettingsState) (scope : SettingsScope) : Settings :=
  s.history.changes.foldl (SettingsChange.applyTo s.storage.isSingleFile scope)
    (s.history.loaded scope)

def Settled (s : SettingsState) : Prop :=
  s.manager.writeQueue = [] ∧ ∀ scope, s.history.lastWrite scope ≠ some false

def hasProjectFile (s : SettingsState) : Bool :=
  s.manager.projectTrusted && !s.storage.isSingleFile

/-- The files and the effective settings have what was loaded and set since,
and a further reload changes no effective setting. -/
structure Survives (s : SettingsState) : Prop where
  globalFile : s.storage.content .global = s.intended .global
  projectFile : s.hasProjectFile = true → s.storage.content .project = s.intended .project
  effective : s.manager.settings = deepMergeSettings (s.intended .global) (s.intended .project)
  reload : (s.manager.finishReload s.storage none none).settings = s.manager.settings

end SettingsState

/-! ## Changes of several fields -/

/-- A change as the setters make it. -/
def SettingsChange.Fits : SettingsChange → Prop
  | .fields changes => ∀ c ∈ changes, FieldFits c.1 c.2
  | .nested field key _ => field ∈ nestedNames ∧ key ≠ "maxDelayMs"
  | .project field value => FieldFits field (some value)

theorem fits_plain {field : String} (hwhole : field ∉ nestedNames)
    (hlegacy : field ≠ "queueMode" ∧ field ≠ "websockets") (value : Json) :
    FieldFits field (some (.plain value)) where
  whole := hwhole
  legacy := hlegacy
  present _ := Option.some_ne_none _
  plain _ h := by cases h

theorem fits_undefined {field : String} (hwhole : field ∉ nestedNames)
    (hlegacy : field ≠ "queueMode" ∧ field ≠ "websockets")
    (hoptional : ¬ (field = "steeringMode" ∨ field = "transport")) : FieldFits field none where
  whole := hwhole
  legacy := hlegacy
  present h := absurd h hoptional
  plain _ h := by cases h

theorem fits_single {field : String} {value : Option SettingValue} (h : FieldFits field value) :
    (SettingsChange.fields [(field, value)]).Fits := by
  intro c hc
  obtain rfl := List.mem_singleton.mp hc
  exact h

theorem fits_change {setter : SettingsSetter} {change : SettingsChange}
    (h : setter.change = some change) : change.Fits := by
  cases setter with
  | setDefaultModelAndProvider provider modelId =>
    obtain rfl := Option.some.inj h
    have hprovider : FieldFits "defaultProvider" (SettingsSetter.text provider) :=
      fits_plain (by decide) (by decide) _
    have hmodel : FieldFits "defaultModel" (SettingsSetter.text modelId) :=
      fits_plain (by decide) (by decide) _
    intro c hc
    rcases List.mem_cons.mp hc with rfl | hc
    · exact hprovider
    · obtain rfl := List.mem_singleton.mp hc
      exact hmodel
  | setHttpIdleTimeoutMs timeoutMs =>
    obtain ⟨-, h⟩ := Option.ite_none_left_eq_some.mp h
    obtain rfl := Option.some.inj h
    exact fits_single (fits_plain (by decide) (by decide) _)
  | setShellPath value | setShellCommandPrefix value | setNpmCommand value
  | setEnabledModels value =>
    obtain rfl := Option.some.inj h
    cases value with
    | none => exact fits_single (fits_undefined (by decide) (by decide) (by decide))
    | some value => exact fits_single (fits_plain (by decide) (by decide) _)
  | setCompactionEnabled | setRetryEnabled | setShowImages | setImageWidthCells
  | setClearOnShrink | setShowTerminalProgress | setImageAutoResize | setBlockImages =>
    obtain rfl := Option.some.inj h
    exact ⟨by decide, by decide⟩
  | setProjectPackages | setProjectExtensionPaths | setProjectSkillPaths
  | setProjectPromptTemplatePaths | setProjectThemePaths =>
    obtain rfl := Option.some.inj h
    exact fits_plain (by decide) (by decide) _
  | _ =>
    obtain rfl := Option.some.inj h
    exact fits_single (fits_plain (by decide) (by decide) _)

section Fold

variable {settings : Settings} {m : ModifiedFields} {changes : List (String × Option SettingValue)}

theorem foldl_assign_of_notMem {field : String} (h : ∀ c ∈ changes, c.1 ≠ field) :
    changes.foldl Settings.assign settings field = settings field := by
  induction changes generalizing settings with
  | nil => rfl
  | cons c rest ih =>
    refine (ih fun c' hc' => h c' (List.mem_cons_of_mem _ hc')).trans ?_
    exact Function.update_of_ne (h c List.mem_cons_self).symm ..

theorem nested_foldl_markField (m : ModifiedFields) :
    (changes.foldl ModifiedFields.markField m).nested = m.nested := by
  induction changes generalizing m with
  | nil => rfl
  | cons c rest ih => exact ih (m.markField c)

theorem marks_foldl (h : Marks settings m) (hfits : ∀ c ∈ changes, FieldFits c.1 c.2) :
    Marks (changes.foldl Settings.assign settings) (changes.foldl ModifiedFields.markField m) ∧
      m.keySet ⊆ (changes.foldl ModifiedFields.markField m).keySet ∧
      ∀ p ∉ (changes.foldl ModifiedFields.markField m).keySet,
        Settings.at (changes.foldl Settings.assign settings) p = settings.at p := by
  induction changes generalizing settings m with
  | nil => exact ⟨h, subset_rfl, fun _ _ => rfl⟩
  | cons c rest ih =>
    have hc := hfits c List.mem_cons_self
    have hmem : ∀ p, p ∈ (m.markField c).keySet ↔ p.1 = c.1 ∨ p ∈ m.keySet :=
      fun p => h.mem_keySet_assign hc
    obtain ⟨hmarks, hmono, hat⟩ :=
      ih (h.assign hc) fun c' hc' => hfits c' (List.mem_cons_of_mem _ hc')
    refine ⟨hmarks, fun p hp => hmono ((hmem p).mpr (.inr hp)), fun p hp => ?_⟩
    refine (hat p hp).trans (at_assign_of_ne fun hsame => hp (hmono ?_))
    exact (hmem p).mpr (.inl hsame)

end Fold

/-- Marks count as the sets they are. -/
theorem mem_keySet_congr {m m' : ModifiedFields} (hfields : ∀ f, f ∈ m.fields ↔ f ∈ m'.fields)
    (hnested : m.nested = m'.nested) : m.keySet = m'.keySet := by
  have hkeys : ∀ k, k ∈ m.keys ↔ k ∈ m'.keys := by
    intro k
    rw [mem_keys, mem_keys, hfields, hnested]
  ext p
  simp only [ModifiedFields.keySet, Set.mem_ofPred_eq, hkeys]

theorem Marks.congr {settings : Settings} {m m' : ModifiedFields} (h : Marks settings m)
    (hfields : ∀ f, f ∈ m.fields ↔ f ∈ m'.fields) (hnested : m.nested = m'.nested) :
    Marks settings m' where
  whole f hf hnone := h.whole f ((hfields f).mpr hf) (hnested ▸ hnone)
  inner f keys hkeys := by
    obtain ⟨hname, hf, hrest⟩ := h.inner f keys (hnested ▸ hkeys)
    exact ⟨hname, (hfields f).mp hf, hrest⟩
  legacy f hf := h.legacy f ((hfields f).mpr hf)
  present f hf := h.present f ((hfields f).mpr hf)
  skills hf := h.skills ((hfields _).mpr hf)

/-! ## What the operations do -/

section Operations

variable {s : SettingsManager} {storage : SettingsStorage} {w : ScopedWrite}

section

variable (h : s.globalSettingsLoadError = none)
include h

theorem save_eq :
    s.save = { s with
      settings := deepMergeSettings s.globalSettings s.projectSettings
      writeQueue := s.writeQueue ++ [.write ⟨.global, s.globalSettings, s.modified⟩] } := by
  simp only [SettingsManager.save, h, Option.isSome_none, Bool.false_eq_true, if_false,
    SettingsManager.enqueueWrite]

theorem setFields_eq (changes : List (String × Option SettingValue)) :
    let globalSettings := changes.foldl Settings.assign s.globalSettings
    let modified := changes.foldl ModifiedFields.markField s.modified
    s.setFields changes = { s with
      globalSettings
      settings := deepMergeSettings globalSettings s.projectSettings
      modified
      writeQueue := s.writeQueue ++ [.write ⟨.global, globalSettings, modified⟩] } :=
  save_eq h

theorem setNested_eq {field key : String} {value : Json} {s' : SettingsManager}
    (hset : s.setNested field key value = some s') :
    let globalSettings := s.globalSettings.assignNested field key value
    let modified := s.modified.mark field (some key)
    acceptsNested (s.globalSettings field) = true ∧
      s' = { s with
        globalSettings
        settings := deepMergeSettings globalSettings s.projectSettings
        modified
        writeQueue := s.writeQueue ++ [.write ⟨.global, globalSettings, modified⟩] } := by
  obtain ⟨haccepts, hset⟩ := Option.ite_none_right_eq_some.mp hset
  exact ⟨haccepts, (Option.some.inj hset).symm.trans (save_eq h)⟩

end

theorem saveProjectSettings_project (h : s.projectSettingsLoadError = none) (settings : Settings) :
    s.saveProjectSettings false settings = { s with
      projectSettings := settings
      settings := deepMergeSettings s.globalSettings settings
      writeQueue := s.writeQueue ++ [.write ⟨.project, settings, s.modifiedProject⟩] } := by
  simp only [SettingsManager.saveProjectSettings, h, Option.isSome_none, Bool.false_eq_true,
    if_false, SettingsManager.enqueueWrite]

theorem saveProjectSettings_single (hproject : s.projectSettingsLoadError = none)
    (hglobal : s.globalSettingsLoadError = none) (settings : Settings) :
    let globalSettings := deepMergeSettings s.globalSettings settings
    let modified := s.modified.join s.modifiedProject
    s.saveProjectSettings true settings = { s with
      projectSettings := settings
      globalSettings
      settings := deepMergeSettings globalSettings settings
      modified
      modifiedProject := {}
      writeQueue := s.writeQueue ++ [.write ⟨.global, globalSettings, modified⟩] } := by
  simp only [SettingsManager.saveProjectSettings, hproject, Option.isSome_none, Bool.false_eq_true,
    if_false, if_true]
  exact save_eq hglobal

theorem finishReload_eq (storage : SettingsStorage) :
    s.finishReload storage none none =
      let globalSettings := storage.load .global s.projectTrusted
      let projectSettings := storage.load .project s.projectTrusted
      { s with
        globalSettings
        projectSettings
        settings := deepMergeSettings globalSettings projectSettings
        modified := {}
        modifiedProject := {}
        globalSettingsLoadError := none
        projectSettingsLoadError := none } :=
  rfl

theorem load_global (storage : SettingsStorage) (projectTrusted : Bool) :
    storage.load .global projectTrusted = storage.content .global :=
  rfl

theorem migrated_content (storage : SettingsStorage) (scope : SettingsScope) :
    Migrated (storage.content scope) := by
  unfold SettingsStorage.content
  cases storage.current scope with
  | none =>
    refine ⟨fun h => absurd rfl h, fun _ _ h => ?_, fun _ h => ?_, fun _ h => ?_⟩ <;> cases h
  | some settings => exact migrated_migrateSettings settings

theorem load_untrusted {projectTrusted : Bool} (h : projectTrusted = false) :
    storage.load .project projectTrusted = .empty := by
  rw [SettingsStorage.load, h]
  rfl

theorem content_single (h : storage.isSingleFile = true) :
    storage.content .project = .empty := by
  simp [SettingsStorage.content, SettingsStorage.current, h]

theorem load_single (h : storage.isSingleFile = true) {projectTrusted : Bool} :
    storage.load .project projectTrusted = .empty := by
  cases projectTrusted with
  | false => rfl
  | true => exact content_single h

theorem persist_eq (hfile : w.scope = .project → storage.isSingleFile = false) :
    storage.persistScopedSettings w.scope w.snapshot w.modified.fields w.modified.nested =
      { storage with
        file := Function.update storage.file w.scope
          (some (w.persisted (storage.content w.scope))) } := by
  refine if_neg ?_
  rw [Bool.and_eq_true, decide_eq_true_eq]
  rintro ⟨hscope, hone⟩
  exact absurd (hone.symm.trans (hfile hscope)) (by decide)

/-- The files after it. -/
theorem content_persist (hfile : w.scope = .project → storage.isSingleFile = false)
    (hmigrated : Migrated (w.persisted (storage.content w.scope))) :
    SettingsStorage.content { storage with
      file := Function.update storage.file w.scope
        (some (w.persisted (storage.content w.scope))) } =
      Function.update storage.content w.scope (w.persisted (storage.content w.scope)) := by
  have hread : (w.scope = .project && storage.isSingleFile) = false := by
    cases hscope : w.scope with
    | global => rfl
    | project => simp [hfile hscope]
  funext scope
  by_cases hsame : scope = w.scope
  · subst hsame
    have hsame := migrateSettings_of_migrated hmigrated
    simp only [SettingsStorage.content, SettingsStorage.current, hread, Function.update_self,
      Bool.false_eq_true, if_false, Option.map_some, Option.getD_some] at hsame ⊢
    exact hsame
  · rw [Function.update_of_ne hsame]
    simp only [SettingsStorage.content, SettingsStorage.current, Function.update_of_ne hsame]

end Operations

end Eagent
