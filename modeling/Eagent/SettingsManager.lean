import Eagent.Machine
import Eagent.Settings

/-!
# The settings manager

`SettingsManager` with its storage. A setter changes the settings in memory
and queues a write; the queue runs one task at a time, and a `reload` waits
for the tasks queued before it, so that it is a task of the queue itself. A
write stores the marked fields of its snapshot in what the file holds then.

Nobody else writes the files. The errors of storage operations come from
outside; the text of a file is what it parses to.
-/

namespace Eagent

inductive SettingsScope where
  | global
  | project
deriving Repr, DecidableEq

structure SettingsError where
  scope : SettingsScope
  error : String
deriving Repr, DecidableEq

/-! ## Storage -/

/-- `FileSettingsStorage` or `InMemorySettingsStorage`: what each file parses
to, when it exists and is not empty. -/
structure SettingsStorage where
  /-- `storage instanceof FileSettingsStorage && storage.isSingleFile()` -/
  isSingleFile : Bool
  file : SettingsScope → Option Settings

namespace SettingsStorage

/-- What `withLock` passes to its callback. -/
def current (storage : SettingsStorage) (scope : SettingsScope) : Option Settings :=
  if scope = .project && storage.isSingleFile then none else storage.file scope

/-- `withLock` with a callback that returns a text. -/
def write (storage : SettingsStorage) (scope : SettingsScope) (next : Settings) :
    SettingsStorage :=
  if scope = .project && storage.isSingleFile then storage
  else { storage with file := Function.update storage.file scope (some next) }

/-- The settings a scope's file holds, in the present format. -/
def content (storage : SettingsStorage) (scope : SettingsScope) : Settings :=
  ((storage.current scope).map migrateSettings).getD .empty

/-- `loadFromStorage`. -/
def load (storage : SettingsStorage) (scope : SettingsScope) (projectTrusted : Bool) : Settings :=
  if scope = .project && !projectTrusted then .empty else storage.content scope

/-- `persistScopedSettings`: what a marked field gets. -/
def mergeField (current snapshot : Settings) (modifiedNestedFields : Obj (List String))
    (field : String) : Option SettingValue :=
  match modifiedNestedFields field, (snapshot field).bind SettingValue.asObject with
  | some nestedModified, some inMemoryNested =>
      some (.nested fun key =>
        if key ∈ nestedModified then inMemoryNested key else spread (current field) key)
  | _, _ => snapshot field

def persistScopedSettings (storage : SettingsStorage) (scope : SettingsScope)
    (snapshot : Settings) (modifiedFields : List String)
    (modifiedNestedFields : Obj (List String)) : SettingsStorage :=
  storage.write scope fun field =>
    if field ∈ modifiedFields then
      mergeField (storage.content scope) snapshot modifiedNestedFields field
    else storage.content scope field

end SettingsStorage

/-! ## The manager -/

/-- The marked fields of a scope, and of some of them the marked keys. -/
structure ModifiedFields where
  fields : List String := []
  nested : Obj (List String) := fun _ => none

/-- `markModified` and `markProjectModified`. -/
def ModifiedFields.mark (m : ModifiedFields) (field : String) (nestedKey : Option String) :
    ModifiedFields where
  fields := m.fields.insert field
  nested := match nestedKey with
    | none => m.nested
    | some key => Function.update m.nested field (some (((m.nested field).getD []).insert key))

def ModifiedFields.markField (m : ModifiedFields) (c : String × Option SettingValue) :
    ModifiedFields :=
  m.mark c.1 none

def ModifiedFields.join (m project : ModifiedFields) : ModifiedFields where
  fields := m.fields ∪ project.fields
  nested := fun key => match project.nested key with
    | none => m.nested key
    | some nested => some ((m.nested key).getD [] ∪ nested)

/-- A write in the queue. -/
structure ScopedWrite where
  scope : SettingsScope
  snapshot : Settings
  modified : ModifiedFields

inductive SettingsTask where
  | write (w : ScopedWrite)
  /-- the rest of `reload` -/
  | reload

structure SettingsManager where
  globalSettings : Settings
  projectSettings : Settings
  settings : Settings
  projectTrusted : Bool
  modified : ModifiedFields := {}
  modifiedProject : ModifiedFields := {}
  globalSettingsLoadError : Option String := none
  projectSettingsLoadError : Option String := none
  writeQueue : List SettingsTask := []
  errors : List SettingsError := []

namespace SettingsManager

/-- `fromStorage`, when both files can be read. -/
def fromStorage (storage : SettingsStorage) (projectTrusted : Bool) : SettingsManager :=
  let global := storage.load .global projectTrusted
  let project := storage.load .project projectTrusted
  { globalSettings := global
    projectSettings := project
    settings := deepMergeSettings global project
    projectTrusted }

variable (s : SettingsManager)

def recordError (scope : SettingsScope) (error : String) : SettingsManager :=
  { s with errors := s.errors ++ [⟨scope, error⟩] }

def clearModifiedScope (scope : SettingsScope) : SettingsManager :=
  match scope with
  | .global => { s with modified := {} }
  | .project => { s with modifiedProject := {} }

def enqueueWrite (w : ScopedWrite) : SettingsManager :=
  { s with writeQueue := s.writeQueue ++ [.write w] }

def save : SettingsManager :=
  let s := { s with settings := deepMergeSettings s.globalSettings s.projectSettings }
  if s.globalSettingsLoadError.isSome then s
  else s.enqueueWrite ⟨.global, s.globalSettings, s.modified⟩

/-- After `assertProjectTrustedForWrite`. -/
def saveProjectSettings (isSingleFile : Bool) (settings : Settings) : SettingsManager :=
  let s := { s with
    projectSettings := settings
    settings := deepMergeSettings s.globalSettings settings }
  if s.projectSettingsLoadError.isSome then s
  else if isSingleFile then
    { s with
      globalSettings := deepMergeSettings s.globalSettings settings
      modified := s.modified.join s.modifiedProject
      modifiedProject := {} }.save
  else s.enqueueWrite ⟨.project, s.projectSettings, s.modifiedProject⟩

def updateProjectSettings (isSingleFile : Bool) (field : String) (value : SettingValue) :
    Option SettingsManager :=
  if s.projectTrusted then
    some ({ s with modifiedProject := s.modifiedProject.mark field none }.saveProjectSettings
      isSingleFile (Function.update s.projectSettings field (some value)))
  else none

/-! ### Changes -/

def setFields (changes : List (String × Option SettingValue)) : SettingsManager :=
  { s with
    globalSettings := changes.foldl Settings.assign s.globalSettings
    modified := changes.foldl ModifiedFields.markField s.modified }.save

/-- The setters of one key of a nested field. On a string, a number or `true`
they throw, and an array would get the key as a property: nothing is left
then. -/
def setNested (field key : String) (value : Json) : Option SettingsManager :=
  if acceptsNested (s.globalSettings field) then
    some { s with
      globalSettings := s.globalSettings.assignNested field key value
      modified := s.modified.mark field (some key) }.save
  else none

/-! ### The queue -/

/-- The rest of `reload`, with the errors of its two loads; the settings of a
project that is not trusted are not read. -/
def finishReload (storage : SettingsStorage) (globalError projectError : Option String) :
    SettingsManager :=
  let s := match globalError with
    | none =>
        { s with
          globalSettings := storage.load .global s.projectTrusted
          globalSettingsLoadError := none }
    | some error => { s with globalSettingsLoadError := some error }.recordError .global error
  let s := { s with modified := {}, modifiedProject := {} }
  let s := match projectError.filter fun _ => s.projectTrusted with
    | none =>
        { s with
          projectSettings := storage.load .project s.projectTrusted
          projectSettingsLoadError := none }
    | some error => { s with projectSettingsLoadError := some error }.recordError .project error
  { s with settings := deepMergeSettings s.globalSettings s.projectSettings }

def runWrite (storage : SettingsStorage) (w : ScopedWrite) (error : Option String) :
    SettingsManager × SettingsStorage :=
  if w.scope = .project && !s.projectTrusted then
    (s.recordError .project "Project is not trusted; refusing to write project settings", storage)
  else match error with
    | some error => (s.recordError w.scope error, storage)
    | none =>
        (s.clearModifiedScope w.scope,
          storage.persistScopedSettings w.scope w.snapshot w.modified.fields w.modified.nested)

end SettingsManager

/-! ## The setters of the source -/

/-- One call of a setter. A text of a fixed set of texts is any text, and a
number is a whole one: the setters round down first. -/
inductive SettingsSetter where
  | setLastChangelogVersion (version : String)
  | setDefaultProvider (provider : String)
  | setDefaultModel (modelId : String)
  | setDefaultModelAndProvider (provider modelId : String)
  | setSteeringMode (mode : String)
  | setFollowUpMode (mode : String)
  | setTheme (theme : String)
  | setDefaultThinkingLevel (level : String)
  | setTransport (transport : String)
  | setCompactionEnabled (enabled : Bool)
  | setRetryEnabled (enabled : Bool)
  | setHttpIdleTimeoutMs (timeoutMs : Int)
  | setHideThinkingBlock (hide : Bool)
  | setShowCacheMissNotices (display : Bool)
  | setShellPath (path : Option String)
  | setQuietStartup (quiet : Bool)
  | setDefaultProjectTrust (defaultProjectTrust : String)
  | setShellCommandPrefix (command : Option String)
  | setNpmCommand (command : Option (List String))
  | setCollapseChangelog (collapse : Bool)
  | setPackages (packages : List Json)
  | setProjectPackages (packages : List Json)
  | setExtensionPaths (paths : List String)
  | setProjectExtensionPaths (paths : List String)
  | setSkillPaths (paths : List String)
  | setProjectSkillPaths (paths : List String)
  | setPromptTemplatePaths (paths : List String)
  | setProjectPromptTemplatePaths (paths : List String)
  | setThemePaths (paths : List String)
  | setProjectThemePaths (paths : List String)
  | setEnableSkillCommands (enabled : Bool)
  | setShowImages (display : Bool)
  | setImageWidthCells (width : Int)
  | setClearOnShrink (enabled : Bool)
  | setShowTerminalProgress (enabled : Bool)
  | setImageAutoResize (enabled : Bool)
  | setBlockImages (blocked : Bool)
  | setEnabledModels (patterns : Option (List String))
  | setDoubleEscapeAction (action : String)
  | setTreeFilterMode (mode : String)
  | setShowHardwareCursor (enabled : Bool)
  | setEditorPaddingX (padding : Int)
  | setOutputPad (padding : Int)
  | setAutocompleteMaxVisible (maxVisible : Int)

/-- What a setter changes: whole fields, one key of a nested field, or a
field of the project. -/
inductive SettingsChange where
  | fields (changes : List (String × Option SettingValue))
  | nested (field key : String) (value : Json)
  | project (field : String) (value : SettingValue)

namespace SettingsSetter

def text (s : String) : Option SettingValue := some (.plain (.str s))

def flag (b : Bool) : Option SettingValue := some (.plain (.bool b))

def number (n : Int) : Option SettingValue := some (.plain (.num (toString n)))

def texts (l : List String) : SettingValue := .plain (.arr (l.map .str))

def change : SettingsSetter → Option SettingsChange
  | setLastChangelogVersion version => some (.fields [("lastChangelogVersion", text version)])
  | setDefaultProvider provider => some (.fields [("defaultProvider", text provider)])
  | setDefaultModel modelId => some (.fields [("defaultModel", text modelId)])
  | setDefaultModelAndProvider provider modelId =>
      some (.fields [("defaultProvider", text provider), ("defaultModel", text modelId)])
  | setSteeringMode mode => some (.fields [("steeringMode", text mode)])
  | setFollowUpMode mode => some (.fields [("followUpMode", text mode)])
  | setTheme theme => some (.fields [("theme", text theme)])
  | setDefaultThinkingLevel level => some (.fields [("defaultThinkingLevel", text level)])
  | setTransport transport => some (.fields [("transport", text transport)])
  | setCompactionEnabled enabled => some (.nested "compaction" "enabled" (.bool enabled))
  | setRetryEnabled enabled => some (.nested "retry" "enabled" (.bool enabled))
  | setHttpIdleTimeoutMs timeoutMs =>
      if timeoutMs < 0 then none else some (.fields [("httpIdleTimeoutMs", number timeoutMs)])
  | setHideThinkingBlock hide => some (.fields [("hideThinkingBlock", flag hide)])
  | setShowCacheMissNotices display => some (.fields [("showCacheMissNotices", flag display)])
  | setShellPath path => some (.fields [("shellPath", path.bind text)])
  | setQuietStartup quiet => some (.fields [("quietStartup", flag quiet)])
  | setDefaultProjectTrust defaultProjectTrust =>
      some (.fields [("defaultProjectTrust", text defaultProjectTrust)])
  | setShellCommandPrefix command => some (.fields [("shellCommandPrefix", command.bind text)])
  | setNpmCommand command => some (.fields [("npmCommand", command.map texts)])
  | setCollapseChangelog collapse => some (.fields [("collapseChangelog", flag collapse)])
  | setPackages packages => some (.fields [("packages", some (.plain (.arr packages)))])
  | setProjectPackages packages => some (.project "packages" (.plain (.arr packages)))
  | setExtensionPaths paths => some (.fields [("extensions", some (texts paths))])
  | setProjectExtensionPaths paths => some (.project "extensions" (texts paths))
  | setSkillPaths paths => some (.fields [("skills", some (texts paths))])
  | setProjectSkillPaths paths => some (.project "skills" (texts paths))
  | setPromptTemplatePaths paths => some (.fields [("prompts", some (texts paths))])
  | setProjectPromptTemplatePaths paths => some (.project "prompts" (texts paths))
  | setThemePaths paths => some (.fields [("themes", some (texts paths))])
  | setProjectThemePaths paths => some (.project "themes" (texts paths))
  | setEnableSkillCommands enabled => some (.fields [("enableSkillCommands", flag enabled)])
  | setShowImages display => some (.nested "terminal" "showImages" (.bool display))
  | setImageWidthCells width =>
      some (.nested "terminal" "imageWidthCells" (.num (toString (max 1 width))))
  | setClearOnShrink enabled => some (.nested "terminal" "clearOnShrink" (.bool enabled))
  | setShowTerminalProgress enabled =>
      some (.nested "terminal" "showTerminalProgress" (.bool enabled))
  | setImageAutoResize enabled => some (.nested "images" "autoResize" (.bool enabled))
  | setBlockImages blocked => some (.nested "images" "blockImages" (.bool blocked))
  | setEnabledModels patterns => some (.fields [("enabledModels", patterns.map texts)])
  | setDoubleEscapeAction action => some (.fields [("doubleEscapeAction", text action)])
  | setTreeFilterMode mode => some (.fields [("treeFilterMode", text mode)])
  | setShowHardwareCursor enabled => some (.fields [("showHardwareCursor", flag enabled)])
  | setEditorPaddingX padding =>
      some (.fields [("editorPaddingX", number (max 0 (min 3 padding)))])
  | setOutputPad padding => some (.fields [("outputPad", number padding)])
  | setAutocompleteMaxVisible maxVisible =>
      some (.fields [("autocompleteMaxVisible", number (max 3 (min 20 maxVisible)))])

end SettingsSetter

def SettingsManager.apply (s : SettingsManager) (isSingleFile : Bool) :
    SettingsChange → Option SettingsManager
  | .fields changes => some (s.setFields changes)
  | .nested field key value => s.setNested field key value
  | .project field value => s.updateProjectSettings isSingleFile field value

end Eagent
