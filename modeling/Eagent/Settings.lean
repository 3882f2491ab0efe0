import Mathlib.Logic.Function.Basic
import Eagent.Json
import Eagent.OrdMap

/-!
# Settings

The settings of a scope as what its keys hold: a missing key is `undefined`.
Objects are two levels deep, as `deepMergeSettings` and the nested setters
treat them; what an object holds further in is a JSON value.
`migrateSettings` brings the older formats of a settings file up to date.
-/

namespace Eagent

/-! ## Objects -/

/-- An object, as what its keys hold. -/
abbrev Obj (α : Type) := String → Option α

inductive SettingValue where
  | plain (value : Json)
  | nested (fields : Obj Json)

abbrev Settings := Obj SettingValue

def Settings.empty : Settings := fun _ => none

/-- A setting as `JSON.parse` leaves it. -/
def SettingValue.ofJson : Json → SettingValue
  | .obj fields => .nested fun key => OrdMap.lookupIn key fields
  | value => .plain value

/-- The own properties of an array, by index. -/
def indexed (items : List Json) : List (String × Json) :=
  items.zipIdx.map fun item => (toString item.2, item.1)

/-- `{ ...value }` of what is no object: the items of an array, the
characters of a string. -/
def Json.spread : Json → List (String × Json)
  | .arr items => indexed items
  | .str s => indexed (s.toList.map fun c => .str (String.singleton c))
  | .obj fields => fields
  | _ => []

/-- `{ ...value }`. -/
def spread : Option SettingValue → Obj Json
  | none => fun _ => none
  | some (.nested fields) => fields
  | some (.plain value) => fun key => OrdMap.lookupIn key value.spread

def Json.isFalsy : Json → Bool
  | .null | .bool false | .str "" | .num "0" => true
  | _ => false

/-- A nested setter finds an object, or puts one in place of what is falsy. -/
def acceptsNested : Option SettingValue → Bool
  | none | some (.nested _) => true
  | some (.plain value) => value.isFalsy

/-- `value` where `typeof value === "object" && value !== null`. -/
def SettingValue.asObject : SettingValue → Option (Obj Json)
  | .nested fields => some fields
  | .plain (.arr items) => some fun key => OrdMap.lookupIn key (indexed items)
  | .plain _ => none

def Settings.assign (settings : Settings) (c : String × Option SettingValue) : Settings :=
  Function.update settings c.1 c.2

def Settings.assignNested (settings : Settings) (field key : String) (value : Json) : Settings :=
  Function.update settings field
    (some (.nested (Function.update (spread (settings field)) key (some value))))

/-! ## Merging -/

/-- Overrides take precedence; two objects are merged. -/
def deepMergeSettings (base overrides : Settings) : Settings := fun key =>
  match overrides key, base key with
  | none, value => value
  | some (.nested override), some (.nested fields) =>
      some (.nested fun k => (override k).or (fields k))
  | some override, _ => some override

@[simp] theorem deepMergeSettings_empty (base : Settings) :
    deepMergeSettings base .empty = base := by
  funext key
  rfl

theorem deepMergeSettings_of_same {base overrides : Settings} {key : String}
    (h : ∀ value, overrides key = some value → base key = some value) :
    deepMergeSettings base overrides key = base key := by
  unfold deepMergeSettings
  match hoverride : overrides key with
  | none => rfl
  | some (.plain value) =>
    rw [h _ hoverride]
  | some (.nested fields) =>
    have hor : ∀ k, (fields k).or (fields k) = fields k := by
      intro k
      cases fields k <;> rfl
    rw [h _ hoverride]
    simp only [hor]

/-! ## Migration -/

/-- `queueMode` becomes `steeringMode`. -/
def migrateQueueMode (settings : Settings) : Settings :=
  match settings "queueMode", settings "steeringMode" with
  | some mode, none =>
      Function.update (Function.update settings "steeringMode" (some mode)) "queueMode" none
  | _, _ => settings

/-- The `websockets` flag becomes a `transport`. -/
def migrateWebsockets (settings : Settings) : Settings :=
  match settings "transport", settings "websockets" with
  | none, some (.plain (.bool websockets)) =>
      Function.update
        (Function.update settings "transport"
          (some (.plain (.str (if websockets then "websocket" else "sse")))))
        "websockets" none
  | _, _ => settings

/-- The object of `skills` becomes its list of directories. -/
def migrateSkills (settings : Settings) : Settings :=
  match settings "skills" with
  | some (.nested skills) =>
      let settings := match skills "enableSkillCommands", settings "enableSkillCommands" with
        | some enabled, none =>
            Function.update settings "enableSkillCommands" (some (.ofJson enabled))
        | _, _ => settings
      match skills "customDirectories" with
      | some (.arr (directory :: rest)) =>
          Function.update settings "skills" (some (.plain (.arr (directory :: rest))))
      | _ => Function.update settings "skills" none
  | _ => settings

/-- `retry.provider` where it is an object. -/
def providerSettings (retry : Obj Json) : Option (List (String × Json)) :=
  match retry "provider" with
  | some (.obj fields) => some fields
  | some (.arr items) => some (indexed items)
  | _ => none

/-- `retry.maxDelayMs` becomes `retry.provider.maxRetryDelayMs`. -/
def migrateRetryFields (retry : Obj Json) : Obj Json :=
  let provider := (providerSettings retry).getD []
  let retry := match retry "maxDelayMs", OrdMap.lookupIn "maxRetryDelayMs" provider with
    | some (.num delay), none | some (.num delay), some .null =>
        Function.update retry "provider"
          (some (.obj (OrdMap.setIn "maxRetryDelayMs" (.num delay) provider)))
    | _, _ => retry
  Function.update retry "maxDelayMs" none

def migrateRetry (settings : Settings) : Settings :=
  match settings "retry" with
  | some (.nested retry) =>
      Function.update settings "retry" (some (.nested (migrateRetryFields retry)))
  | _ => settings

def migrateSettings (settings : Settings) : Settings :=
  migrateRetry (migrateSkills (migrateWebsockets (migrateQueueMode settings)))

/-- What migration leaves, and leaves alone. -/
structure Migrated (settings : Settings) : Prop where
  queueMode : settings "queueMode" ≠ none → settings "steeringMode" ≠ none
  websockets : settings "transport" = none →
    ∀ b, settings "websockets" ≠ some (.plain (.bool b))
  skills : ∀ fields, settings "skills" ≠ some (.nested fields)
  retry : ∀ fields, settings "retry" = some (.nested fields) → fields "maxDelayMs" = none

theorem migrateSettings_of_migrated {settings : Settings} (h : Migrated settings) :
    migrateSettings settings = settings := by
  have hqueue : migrateQueueMode settings = settings := by
    unfold migrateQueueMode
    split
    · rename_i hmode hsteering
      exact absurd hsteering (h.queueMode (by rw [hmode]; exact Option.some_ne_none _))
    · rfl
  have hwebsockets : migrateWebsockets settings = settings := by
    unfold migrateWebsockets
    split
    · rename_i htransport hflag
      exact absurd hflag (h.websockets htransport _)
    · rfl
  have hskills : migrateSkills settings = settings := by
    unfold migrateSkills
    split
    · rename_i hnested
      exact absurd hnested (h.skills _)
    · rfl
  have hretry : migrateRetry settings = settings := by
    unfold migrateRetry
    split
    · rename_i retry hnested
      have hnone := h.retry _ hnested
      have hfields : migrateRetryFields retry = retry := by
        unfold migrateRetryFields
        rw [hnone]
        exact Function.update_eq_self_iff.mpr hnone.symm
      rw [hfields, ← hnested]
      exact Function.update_eq_self _ _
    · rfl
  rw [migrateSettings, hqueue, hwebsockets, hskills, hretry]

/-! ### What one migration does -/

section Frame

variable (settings : Settings)

theorem migrateQueueMode_cases :
    (∃ mode, migrateQueueMode settings =
        Function.update (Function.update settings "steeringMode" (some mode)) "queueMode" none) ∨
      (settings "queueMode" ≠ none → settings "steeringMode" ≠ none) ∧
        migrateQueueMode settings = settings := by
  unfold migrateQueueMode
  split
  · exact .inl ⟨_, rfl⟩
  · rename_i hnot
    refine .inr ⟨?_, rfl⟩
    intro hmode hsteering
    obtain ⟨mode, hmode⟩ := Option.ne_none_iff_exists'.mp hmode
    exact hnot mode hmode hsteering

theorem migrateWebsockets_cases :
    (∃ transport, migrateWebsockets settings =
        Function.update (Function.update settings "transport" (some transport))
          "websockets" none) ∨
      (settings "transport" = none →
          ∀ b, settings "websockets" ≠ some (.plain (.bool b))) ∧
        migrateWebsockets settings = settings := by
  unfold migrateWebsockets
  split
  · exact .inl ⟨_, rfl⟩
  · rename_i hnot
    exact .inr ⟨fun htransport b hb => hnot b htransport hb, rfl⟩

theorem migrateSkills_cases :
    (∃ settings' value, (∀ fields, value ≠ some (.nested fields)) ∧
        (settings' = settings ∨ ∃ enabled, settings' =
          Function.update settings "enableSkillCommands" (some enabled)) ∧
        migrateSkills settings = Function.update settings' "skills" value) ∨
      (∀ fields, settings "skills" ≠ some (.nested fields)) ∧ migrateSkills settings = settings := by
  unfold migrateSkills
  split
  · left
    dsimp only
    split
    · refine ⟨_, _, ?_, ?_, rfl⟩
      · intro fields h
        cases h
      · split
        · exact .inr ⟨_, rfl⟩
        · exact .inl rfl
    · refine ⟨_, none, ?_, ?_, rfl⟩
      · intro fields h
        cases h
      · split
        · exact .inr ⟨_, rfl⟩
        · exact .inl rfl
  · rename_i hnot
    exact .inr ⟨hnot, rfl⟩

theorem migrateRetry_cases :
    (∃ retry, migrateRetry settings =
        Function.update settings "retry" (some (.nested (migrateRetryFields retry)))) ∨
      (∀ fields, settings "retry" ≠ some (.nested fields)) ∧ migrateRetry settings = settings := by
  unfold migrateRetry
  split
  · exact .inl ⟨_, rfl⟩
  · rename_i hnot
    exact .inr ⟨hnot, rfl⟩

variable {settings} {key : String}

theorem migrateWebsockets_of_ne (htransport : key ≠ "transport") (hflag : key ≠ "websockets") :
    migrateWebsockets settings key = settings key := by
  obtain ⟨transport, h⟩ | ⟨-, h⟩ := migrateWebsockets_cases settings
  · rw [h, Function.update_of_ne hflag, Function.update_of_ne htransport]
  · rw [h]

theorem migrateSkills_of_ne (henable : key ≠ "enableSkillCommands") (hskills : key ≠ "skills") :
    migrateSkills settings key = settings key := by
  obtain ⟨settings', value, -, rfl | ⟨enabled, rfl⟩, h⟩ | ⟨-, h⟩ := migrateSkills_cases settings
  · rw [h, Function.update_of_ne hskills]
  · rw [h, Function.update_of_ne hskills, Function.update_of_ne henable]
  · rw [h]

theorem migrateRetry_of_ne (hretry : key ≠ "retry") : migrateRetry settings key = settings key := by
  obtain ⟨retry, h⟩ | ⟨-, h⟩ := migrateRetry_cases settings
  · rw [h, Function.update_of_ne hretry]
  · rw [h]

end Frame

theorem migrated_migrateSettings (settings : Settings) : Migrated (migrateSettings settings) := by
  unfold migrateSettings
  refine ⟨?_, ?_, ?_, ?_⟩
  · have hframe : ∀ (s : Settings) key, key = "queueMode" ∨ key = "steeringMode" →
        migrateRetry (migrateSkills (migrateWebsockets s)) key = s key := by
      rintro s key (rfl | rfl) <;>
        rw [migrateRetry_of_ne (by decide), migrateSkills_of_ne (by decide) (by decide),
          migrateWebsockets_of_ne (by decide) (by decide)]
    rw [hframe _ _ (.inl rfl), hframe _ _ (.inr rfl)]
    obtain ⟨mode, h⟩ | ⟨hnot, h⟩ := migrateQueueMode_cases settings
    · rw [h, Function.update_self]
      exact fun hmode => absurd rfl hmode
    · rw [h]
      exact hnot
  · have hframe : ∀ (s : Settings) key, key = "transport" ∨ key = "websockets" →
        migrateRetry (migrateSkills s) key = s key := by
      rintro s key (rfl | rfl) <;>
        rw [migrateRetry_of_ne (by decide), migrateSkills_of_ne (by decide) (by decide)]
    rw [hframe _ _ (.inl rfl), hframe _ _ (.inr rfl)]
    obtain ⟨transport, h⟩ | ⟨hnot, h⟩ := migrateWebsockets_cases (migrateQueueMode settings)
    · rw [h]
      intro _ b hb
      rw [Function.update_self] at hb
      cases hb
    · rw [h]
      exact hnot
  · rw [migrateRetry_of_ne (by decide)]
    obtain ⟨settings', value, hvalue, -, h⟩ | ⟨hnot, h⟩ :=
      migrateSkills_cases (migrateWebsockets (migrateQueueMode settings))
    · rw [h, Function.update_self]
      exact hvalue
    · rw [h]
      exact hnot
  · intro fields hfields
    obtain ⟨retry, h⟩ | ⟨hnot, h⟩ :=
      migrateRetry_cases (migrateSkills (migrateWebsockets (migrateQueueMode settings)))
    · rw [h, Function.update_self] at hfields
      obtain rfl := SettingValue.nested.inj (Option.some.inj hfields)
      rw [migrateRetryFields, Function.update_self]
    · rw [h] at hfields
      exact absurd hfields (hnot fields)

end Eagent
