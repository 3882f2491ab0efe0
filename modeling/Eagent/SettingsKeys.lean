import Eagent.SettingsManager
import Eagent.WriteBehind

/-!
# The settings of a scope as a store

The settings as values at keys, a field or one key of a nested field, and the
marked fields as a set of keys. A write stores its snapshot at its marked keys
(`at_persisted`), as long as its marks fit (`Marks`): the nested setters mark
the fields that other setters do not, and no setter brings an old format back.
`ScopeStore` is what holds of one scope between the steps.
-/

namespace Eagent

/-! ## Keys -/

/-- A field, or one key of a nested field. -/
abbrev SettingKey := String × Option String

/-- What settings hold at a key: at a field its plain value, or that it is
nested; at a key of a nested field what is there. -/
def Settings.at (settings : Settings) : SettingKey → Option (Option Json)
  | (field, none) => (settings field).map fun
      | .plain value => some value
      | .nested _ => none
  | (field, some key) => match settings field with
      | some (.nested fields) => (fields key).map some
      | _ => none

theorem Settings.at_congr {settings settings' : Settings} {p : SettingKey}
    (h : settings p.1 = settings' p.1) : settings.at p = settings'.at p := by
  obtain ⟨field, _ | key⟩ := p
  · simp only [Settings.at, h]
  · simp only [Settings.at, h]

theorem Settings.ext_at {settings settings' : Settings}
    (h : settings.at = settings'.at) : settings = settings' := by
  funext field
  have hkind := congrFun h (field, none)
  simp only [Settings.at] at hkind
  match hs : settings field, hs' : settings' field with
  | none, none => rfl
  | none, some _ => rw [hs, hs'] at hkind; cases hkind
  | some _, none => rw [hs, hs'] at hkind; cases hkind
  | some (.plain v), some (.plain v') =>
    rw [hs, hs'] at hkind
    obtain rfl := Option.some.inj (Option.some.inj hkind)
    rfl
  | some (.plain _), some (.nested _) => rw [hs, hs'] at hkind; cases hkind
  | some (.nested _), some (.plain _) => rw [hs, hs'] at hkind; cases hkind
  | some (.nested fields), some (.nested fields') =>
    congr 2
    funext key
    have hkey := congrFun h (field, some key)
    simp only [Settings.at, hs, hs'] at hkey
    exact Option.map_injective (fun _ _ h => Option.some.inj h) hkey

theorem acceptsNested_of_at {settings settings' : Settings} {field : String}
    (h : settings.at (field, none) = settings'.at (field, none))
    (haccepts : acceptsNested (settings' field) = true) : acceptsNested (settings field) = true := by
  simp only [Settings.at] at h
  match hs : settings field, hs' : settings' field with
  | none, _ => rfl
  | some (.nested _), _ => rfl
  | some (.plain _), none => rw [hs, hs'] at h; cases h
  | some (.plain _), some (.nested _) => rw [hs, hs'] at h; cases h
  | some (.plain v), some (.plain v') =>
    rw [hs, hs'] at h
    obtain rfl := Option.some.inj (Option.some.inj h)
    rwa [hs'] at haccepts

/-- In place of what a nested setter accepts there are no keys but those of an
object. -/
theorem at_spread {settings : Settings} {field : String}
    (h : acceptsNested (settings field) = true) (key : String) :
    settings.at (field, some key) = (spread (settings field) key).map some := by
  simp only [Settings.at]
  match hs : settings field with
  | none => rfl
  | some (.nested fields) => rfl
  | some (.plain value) =>
    rw [hs] at h
    have hempty : value.spread = [] := by
      rw [acceptsNested, Json.isFalsy.eq_def] at h
      split at h
      · rfl
      · rfl
      · rfl
      · rfl
      · cases h
    rw [spread, hempty]
    rfl

def ModifiedFields.keys (m : ModifiedFields) : List SettingKey :=
  m.fields.flatMap fun field => match m.nested field with
    | none => [(field, none)]
    | some keys => keys.map fun key => (field, some key)

/-- The keys that a write with these marks decides: all of a field, or of a
nested field that it is nested and the marked keys. -/
def ModifiedFields.keySet (m : ModifiedFields) : Set SettingKey :=
  {p | ∃ k ∈ m.keys, k.1 = p.1 ∧ (k.2 = none ∨ p.2 = none ∨ k.2 = p.2)}

/-! ## Marks -/

/-- The fields of the nested setters. -/
def nestedNames : List String := ["compaction", "retry", "terminal", "images"]

/-- The marks on settings whose marked fields were set by setters. -/
structure Marks (settings : Settings) (m : ModifiedFields) : Prop where
  whole : ∀ field ∈ m.fields, m.nested field = none → field ∉ nestedNames
  inner : ∀ field keys, m.nested field = some keys → field ∈ nestedNames ∧ field ∈ m.fields ∧
    keys ≠ [] ∧ "maxDelayMs" ∉ keys ∧ ∃ fields, settings field = some (.nested fields)
  legacy : ∀ field ∈ m.fields, field ≠ "queueMode" ∧ field ≠ "websockets"
  present : ∀ field ∈ m.fields, field = "steeringMode" ∨ field = "transport" →
    settings field ≠ none
  skills : "skills" ∈ m.fields → ∀ fields, settings "skills" ≠ some (.nested fields)

theorem Marks.unmarked (settings : Settings) : Marks settings {} where
  whole _ h := absurd h List.not_mem_nil
  inner _ _ h := by cases h
  legacy _ h := absurd h List.not_mem_nil
  present _ h := absurd h List.not_mem_nil
  skills h := absurd h List.not_mem_nil

section Marked

variable {settings : Settings} {m : ModifiedFields} {field : String}

theorem mem_keys {p : SettingKey} :
    p ∈ m.keys ↔ p.1 ∈ m.fields ∧
      (m.nested p.1 = none ∧ p.2 = none ∨
        ∃ keys, m.nested p.1 = some keys ∧ ∃ key ∈ keys, p.2 = some key) := by
  obtain ⟨field, key⟩ := p
  unfold ModifiedFields.keys
  rw [List.mem_flatMap]
  constructor
  · rintro ⟨f, hf, hp⟩
    cases hn : m.nested f with
    | none =>
      rw [hn, List.mem_singleton] at hp
      cases hp
      exact ⟨hf, .inl ⟨hn, rfl⟩⟩
    | some keys =>
      rw [hn] at hp
      obtain ⟨k, hk, hp⟩ := List.mem_map.mp hp
      cases hp
      exact ⟨hf, .inr ⟨keys, hn, k, hk, rfl⟩⟩
  · rintro ⟨hf, ⟨hn, hkey⟩ | ⟨keys, hn, k, hk, hkey⟩⟩
    · refine ⟨field, hf, ?_⟩
      rw [hn, List.mem_singleton]
      exact Prod.ext rfl hkey
    · refine ⟨field, hf, ?_⟩
      rw [hn]
      exact List.mem_map.mpr ⟨k, hk, Prod.ext rfl hkey.symm⟩

theorem Marks.mem_keySet (h : Marks settings m) {p : SettingKey} :
    p ∈ m.keySet ↔ p.1 ∈ m.fields ∧
      ∀ keys, m.nested p.1 = some keys → p.2 = none ∨ ∃ key ∈ keys, p.2 = some key := by
  obtain ⟨field, key⟩ := p
  constructor
  · rintro ⟨⟨f, k⟩, hk, hfield, hkey⟩
    obtain rfl : f = field := hfield
    obtain ⟨hf, ⟨hn, -⟩ | ⟨keys, hn, key', hmem, hk'⟩⟩ := mem_keys.mp hk
    · refine ⟨hf, fun keys hkeys => ?_⟩
      rw [hn] at hkeys
      cases hkeys
    · refine ⟨hf, fun keys' hkeys => ?_⟩
      obtain rfl : keys = keys' := Option.some.inj (hn.symm.trans hkeys)
      rcases hkey with hnone | hkind | hsame
      · rw [hk'] at hnone
        cases hnone
      · exact .inl hkind
      · exact .inr ⟨key', hmem, hsame.symm.trans hk'⟩
  · rintro ⟨hf, hkeys⟩
    cases hn : m.nested field with
    | none => exact ⟨(field, none), mem_keys.mpr ⟨hf, .inl ⟨hn, rfl⟩⟩, rfl, .inl rfl⟩
    | some keys =>
      rcases hkeys keys hn with hkind | ⟨key', hmem, hkey⟩
      · obtain ⟨-, -, hne, -⟩ := h.inner field keys hn
        obtain ⟨first, hfirst⟩ := List.exists_mem_of_ne_nil keys hne
        exact ⟨(field, some first), mem_keys.mpr ⟨hf, .inr ⟨keys, hn, first, hfirst, rfl⟩⟩, rfl,
          .inr (.inl hkind)⟩
      · exact ⟨(field, some key'), mem_keys.mpr ⟨hf, .inr ⟨keys, hn, key', hmem, rfl⟩⟩, rfl,
          .inr (.inr hkey.symm)⟩

/-- Fields of the nested setters are marked key by key, others as a whole. -/
theorem Marks.nested_none (h : Marks settings m) (hfield : field ∉ nestedNames) :
    m.nested field = none := by
  by_contra hne
  obtain ⟨keys, hkeys⟩ := Option.ne_none_iff_exists'.mp hne
  exact hfield (h.inner field keys hkeys).1

theorem Marks.nested_some (h : Marks settings m) (hfield : field ∈ nestedNames)
    (hmem : field ∈ m.fields) : ∃ keys, m.nested field = some keys := by
  by_contra hne
  rw [← Option.isSome_iff_exists, Option.not_isSome_iff_eq_none] at hne
  exact h.whole field hmem hne hfield

theorem keySet_unmarked : ModifiedFields.keySet {} = ∅ := by
  ext p
  rw [(Marks.unmarked .empty).mem_keySet]
  simp

end Marked

/-! ## Changes -/

/-- What the setters keep to. -/
structure FieldFits (field : String) (value : Option SettingValue) : Prop where
  whole : field ∉ nestedNames
  legacy : field ≠ "queueMode" ∧ field ≠ "websockets"
  present : field = "steeringMode" ∨ field = "transport" → value ≠ none
  plain : ∀ fields, value ≠ some (.nested fields)

section Changed

variable {settings : Settings} {m : ModifiedFields} {field key : String}
  {value : Option SettingValue} {v : Json}

theorem Marks.assign (h : Marks settings m) (hfits : FieldFits field value) :
    Marks (settings.assign (field, value)) (m.markField (field, value)) where
  whole f hf hnone := by
    rcases List.mem_insert_iff.mp hf with rfl | hf
    · exact hfits.whole
    · exact h.whole f hf hnone
  inner f keys hkeys := by
    obtain ⟨hname, hf, hne, hmax, fields, hfields⟩ := h.inner f keys hkeys
    have hother : f ≠ field := fun heq => hfits.whole (heq ▸ hname)
    refine ⟨hname, List.mem_insert_of_mem hf, hne, hmax, fields, ?_⟩
    rw [Settings.assign, Function.update_of_ne hother, hfields]
  legacy f hf := by
    rcases List.mem_insert_iff.mp hf with rfl | hf
    · exact hfits.legacy
    · exact h.legacy f hf
  present f hf hname := by
    by_cases hsame : f = field
    · subst hsame
      rw [Settings.assign, Function.update_self]
      exact hfits.present hname
    · rw [Settings.assign, Function.update_of_ne hsame]
      exact h.present f ((List.mem_insert_iff.mp hf).resolve_left hsame) hname
  skills hf := by
    by_cases hsame : "skills" = field
    · subst hsame
      rw [Settings.assign, Function.update_self]
      exact hfits.plain
    · rw [Settings.assign, Function.update_of_ne hsame]
      exact h.skills ((List.mem_insert_iff.mp hf).resolve_left hsame)

variable {p : SettingKey}

theorem Marks.mem_keySet_assign (h : Marks settings m) (hfits : FieldFits field value) :
    p ∈ (m.markField (field, value)).keySet ↔ p.1 = field ∨ p ∈ m.keySet := by
  rw [(h.assign hfits).mem_keySet, h.mem_keySet]
  have hnested : (m.markField (field, value)).nested = m.nested := rfl
  rw [hnested]
  constructor
  · rintro ⟨hf, hkeys⟩
    rcases List.mem_insert_iff.mp hf with hsame | hf
    · exact .inl hsame
    · exact .inr ⟨hf, hkeys⟩
  · rintro (hsame | ⟨hf, hkeys⟩)
    · refine ⟨List.mem_insert_iff.mpr (.inl hsame), fun keys hkeys => ?_⟩
      rw [hsame, h.nested_none hfits.whole] at hkeys
      cases hkeys
    · exact ⟨List.mem_insert_of_mem hf, hkeys⟩

theorem at_assign_of_ne (h : p.1 ≠ field) :
    (settings.assign (field, value)).at p = settings.at p :=
  Settings.at_congr (Function.update_of_ne h ..)

theorem Marks.assignNested (h : Marks settings m) (hname : field ∈ nestedNames)
    (hkey : key ≠ "maxDelayMs") :
    Marks (settings.assignNested field key v) (m.mark field (some key)) where
  whole f hf hnone := by
    by_cases hsame : f = field
    · subst hsame
      simp only [ModifiedFields.mark, Function.update_self] at hnone
      cases hnone
    · simp only [ModifiedFields.mark, Function.update_of_ne hsame] at hnone
      exact h.whole f ((List.mem_insert_iff.mp hf).resolve_left hsame) hnone
  inner f keys hkeys := by
    by_cases hsame : f = field
    · subst hsame
      simp only [ModifiedFields.mark, Function.update_self] at hkeys
      obtain rfl := Option.some.inj hkeys
      refine ⟨hname, List.mem_insert_self, List.ne_nil_of_mem List.mem_insert_self, ?_, _,
        Function.update_self ..⟩
      intro hmem
      rcases List.mem_insert_iff.mp hmem with hmax | hmem
      · exact hkey hmax.symm
      · cases hn : m.nested f with
        | none =>
          rw [hn] at hmem
          exact absurd hmem List.not_mem_nil
        | some keys =>
          rw [hn] at hmem
          exact (h.inner f keys hn).2.2.2.1 hmem
    · simp only [ModifiedFields.mark, Function.update_of_ne hsame] at hkeys
      obtain ⟨hf, hmem, hne, hmax, fields, hfields⟩ := h.inner f keys hkeys
      refine ⟨hf, List.mem_insert_of_mem hmem, hne, hmax, fields, ?_⟩
      rw [Settings.assignNested, Function.update_of_ne hsame, hfields]
  legacy f hf := by
    rcases List.mem_insert_iff.mp hf with rfl | hf
    · constructor <;> rintro rfl <;> exact absurd hname (by decide)
    · exact h.legacy f hf
  present f hf hpresent := by
    by_cases hsame : f = field
    · subst hsame
      rw [Settings.assignNested, Function.update_self]
      exact Option.some_ne_none _
    · rw [Settings.assignNested, Function.update_of_ne hsame]
      exact h.present f ((List.mem_insert_iff.mp hf).resolve_left hsame) hpresent
  skills hf := by
    have hsame : "skills" ≠ field := by
      rintro rfl
      exact absurd hname (by decide)
    rw [Settings.assignNested, Function.update_of_ne hsame]
    exact h.skills ((List.mem_insert_iff.mp hf).resolve_left hsame)

theorem Marks.mem_keySet_assignNested (h : Marks settings m) (hname : field ∈ nestedNames)
    (hkey : key ≠ "maxDelayMs") :
    p ∈ (m.mark field (some key)).keySet ↔
      p = (field, none) ∨ p = (field, some key) ∨ p ∈ m.keySet := by
  have hmarks : Marks (settings.assignNested field key .null) (m.mark field (some key)) :=
    h.assignNested hname hkey
  rw [hmarks.mem_keySet, h.mem_keySet]
  obtain ⟨f, o⟩ := p
  by_cases hsame : f = field
  · subst hsame
    simp only [ModifiedFields.mark, Function.update_self, Option.some.injEq, forall_eq',
      List.mem_insert_iff, true_or, true_and, Prod.mk.injEq]
    constructor
    · rintro (hkind | ⟨k, rfl | hk, rfl⟩)
      · exact .inl hkind
      · exact .inr (.inl rfl)
      · cases hn : m.nested f with
        | none =>
          rw [hn] at hk
          exact absurd hk List.not_mem_nil
        | some keys =>
          rw [hn] at hk
          refine .inr (.inr ⟨(h.inner f keys hn).2.1, fun keys' hkeys => .inr ⟨k, ?_, rfl⟩⟩)
          rwa [← Option.some.inj hkeys]
    · rintro (hkind | hnew | ⟨hf, hkeys⟩)
      · exact .inl hkind
      · exact .inr ⟨key, .inl rfl, hnew⟩
      · obtain ⟨keys, hn⟩ := h.nested_some hname hf
        rcases hkeys keys hn with hkind | ⟨k, hk, hkey⟩
        · exact .inl hkind
        · refine .inr ⟨k, .inr ?_, hkey⟩
          rwa [hn]
  · simp only [ModifiedFields.mark, Function.update_of_ne hsame, List.mem_insert_iff, hsame,
      false_or, Prod.mk.injEq, false_and]

theorem at_assignNested (hkind : p ≠ (field, none)) (hother : p ≠ (field, some key))
    (haccepts : acceptsNested (settings field) = true) :
    (settings.assignNested field key v).at p = settings.at p := by
  obtain ⟨f, o⟩ := p
  by_cases hsame : f = field
  · subst hsame
    cases o with
    | none => exact absurd rfl hkind
    | some k =>
      have hk : k ≠ key := fun heq => hother (heq ▸ rfl)
      rw [at_spread haccepts]
      simp only [Settings.at, Settings.assignNested, Function.update_self,
        Function.update_of_ne hk]
  · exact Settings.at_congr (Function.update_of_ne hsame ..)

end Changed

/-! ## Writes -/

def ScopedWrite.behind (w : ScopedWrite) : WriteBehind.Write SettingKey (Option (Option Json)) where
  keys := w.modified.keySet
  snapshot := w.snapshot.at

/-- What a write leaves in the file. -/
def ScopedWrite.persisted (w : ScopedWrite) (content : Settings) : Settings := fun field =>
  if field ∈ w.modified.fields then
    SettingsStorage.mergeField content w.snapshot w.modified.nested field
  else content field

section Written

variable {w : ScopedWrite} {content : Settings}

variable (content) in
theorem persisted_nested (h : Marks w.snapshot w.modified) {field : String} {keys : List String}
    (hkeys : w.modified.nested field = some keys) : ∃ fields,
      w.snapshot field = some (.nested fields) ∧
      w.persisted content field = some (.nested fun key =>
        if key ∈ keys then fields key else spread (content field) key) := by
  obtain ⟨-, hf, -, -, fields, hfields⟩ := h.inner field keys hkeys
  refine ⟨fields, hfields, ?_⟩
  rw [ScopedWrite.persisted, if_pos hf, SettingsStorage.mergeField, hkeys, hfields]
  rfl

theorem persisted_whole {field : String} (hf : field ∈ w.modified.fields)
    (hnone : w.modified.nested field = none) :
    w.persisted content field = w.snapshot field := by
  rw [ScopedWrite.persisted, if_pos hf, SettingsStorage.mergeField, hnone]

/-- A write stores its snapshot at its keys. -/
theorem at_persisted (h : Marks w.snapshot w.modified)
    (haccepts : ∀ field, (w.modified.nested field).isSome = true →
      acceptsNested (content field) = true) :
    (w.persisted content).at = w.behind.apply content.at := by
  funext p
  by_cases hp : p ∈ w.modified.keySet
  · rw [WriteBehind.Write.apply_of_mem hp]
    obtain ⟨hf, hkeys⟩ := h.mem_keySet.mp hp
    cases hn : w.modified.nested p.1 with
    | none => exact Settings.at_congr (persisted_whole hf hn)
    | some keys =>
      obtain ⟨fields, hfields, hpersisted⟩ := persisted_nested content h hn
      obtain ⟨field, o⟩ := p
      rcases hkeys keys hn with rfl | ⟨key, hkey, rfl⟩
      · simp only [Settings.at, ScopedWrite.behind, hfields, hpersisted, Option.map_some]
      · simp only [Settings.at, ScopedWrite.behind, hfields, hpersisted, if_pos hkey]
  · rw [WriteBehind.Write.apply_of_notMem hp]
    rw [h.mem_keySet] at hp
    by_cases hf : p.1 ∈ w.modified.fields
    · cases hn : w.modified.nested p.1 with
      | none =>
        refine absurd ⟨hf, fun keys hkeys => ?_⟩ hp
        rw [hn] at hkeys
        cases hkeys
      | some keys =>
        obtain ⟨fields, hfields, hpersisted⟩ := persisted_nested content h hn
        obtain ⟨field, o⟩ := p
        cases o with
        | none => exact absurd ⟨hf, fun _ _ => .inl rfl⟩ hp
        | some key =>
          have hkey : key ∉ keys := by
            intro hmem
            refine hp ⟨hf, fun keys' hkeys => .inr ⟨key, ?_, rfl⟩⟩
            rwa [← Option.some.inj (hn.symm.trans hkeys)]
          rw [at_spread (haccepts field (by rw [hn]; rfl))]
          simp only [Settings.at, hpersisted, if_neg hkey]
    · exact Settings.at_congr (if_neg hf)

/-- A write brings no old format back. -/
theorem migrated_persisted (h : Marks w.snapshot w.modified) (hcontent : Migrated content)
    (haccepts : ∀ field, (w.modified.nested field).isSome = true →
      acceptsNested (content field) = true) : Migrated (w.persisted content) := by
  have hother : ∀ field, field ∉ w.modified.fields → w.persisted content field = content field :=
    fun field hf => if_neg hf
  have hwhole : ∀ field, field ∉ nestedNames → field ∈ w.modified.fields →
      w.persisted content field = w.snapshot field :=
    fun field hname hf => persisted_whole hf (h.nested_none hname)
  have hlegacy : ∀ field, field = "queueMode" ∨ field = "websockets" →
      w.persisted content field = content field := by
    refine fun field hfield => hother field fun hf => ?_
    rcases hfield with rfl | rfl
    · exact (h.legacy _ hf).1 rfl
    · exact (h.legacy _ hf).2 rfl
  refine ⟨fun hmode => ?_, fun htransport => ?_, ?_, fun fields hfields => ?_⟩
  · by_cases hf : "steeringMode" ∈ w.modified.fields
    · rw [hwhole _ (by decide) hf]
      exact h.present _ hf (.inl rfl)
    · rw [hlegacy _ (.inl rfl)] at hmode
      rw [hother _ hf]
      exact hcontent.queueMode hmode
  · by_cases hf : "transport" ∈ w.modified.fields
    · rw [hwhole _ (by decide) hf] at htransport
      exact absurd htransport (h.present _ hf (.inr rfl))
    · rw [hother _ hf] at htransport
      rw [hlegacy _ (.inr rfl)]
      exact hcontent.websockets htransport
  · by_cases hf : "skills" ∈ w.modified.fields
    · rw [hwhole _ (by decide) hf]
      exact h.skills hf
    · rw [hother _ hf]
      exact hcontent.skills
  · by_cases hf : "retry" ∈ w.modified.fields
    · obtain ⟨keys, hkeys⟩ := h.nested_some (by decide) hf
      obtain ⟨-, -, -, hmax, -⟩ := h.inner _ _ hkeys
      obtain ⟨inner, -, hpersisted⟩ := persisted_nested content h hkeys
      rw [hpersisted] at hfields
      obtain rfl := SettingValue.nested.inj (Option.some.inj hfields)
      dsimp only
      rw [if_neg hmax]
      have hspread := at_spread (haccepts "retry" (by rw [hkeys]; rfl)) "maxDelayMs"
      refine Option.map_eq_none_iff.mp (hspread.symm.trans ?_)
      simp only [Settings.at]
      split
      · rename_i fields hretry
        rw [hcontent.retry fields hretry]
        rfl
      · rfl
    · rw [hother _ hf] at hfields
      exact hcontent.retry fields hfields

end Written

/-! ## One scope between the steps -/

/-- What the file of a scope holds, its settings in memory, the marks, the
queued writes of the scope, and whether the last one succeeded. -/
structure ScopeStore (content memory : Settings) (m : ModifiedFields) (writes : List ScopedWrite)
    (ok : Prop) : Prop where
  tracks : WriteBehind.Tracks content.at memory.at m.keySet (writes.map ScopedWrite.behind) ok
  marks : Marks memory m
  writeMarks : ∀ w ∈ writes, Marks w.snapshot w.modified
  accepts : ∀ field, (m.nested field).isSome = true → acceptsNested (content field) = true
  writeAccepts : ∀ w ∈ writes, ∀ field, (w.modified.nested field).isSome = true →
    acceptsNested (content field) = true
  migrated : Migrated content

namespace ScopeStore

variable {content memory memory' : Settings} {m m' : ModifiedFields} {writes : List ScopedWrite}
  {w : ScopedWrite} {ok : Prop}

theorem loaded (hcontent : Migrated content) (ok : Prop) : ScopeStore content content {} [] ok where
  tracks := by
    rw [keySet_unmarked]
    exact .loaded _ _
  marks := .unmarked _
  writeMarks _ h := absurd h List.not_mem_nil
  accepts _ h := by cases h
  writeAccepts _ h := absurd h List.not_mem_nil
  migrated := hcontent

theorem imp (h : ScopeStore content memory m writes ok) {ok' : Prop} (himp : ok' → ok) :
    ScopeStore content memory m writes ok' :=
  { h with tracks := { h.tracks with settled := fun hnil hok => h.tracks.settled hnil (himp hok) } }

theorem content_eq (h : ScopeStore content memory m [] ok) (hok : ok) : content = memory :=
  Settings.ext_at (h.tracks.stored_eq hok)

theorem change (h : ScopeStore content memory m writes ok) (hmarks : Marks memory' m')
    (hmono : m.keySet ⊆ m'.keySet) (hmemory : ∀ p ∉ m'.keySet, memory'.at p = memory.at p)
    (haccepts : ∀ field, (m'.nested field).isSome = true → acceptsNested (content field) = true)
    (scope : SettingsScope) (ok' : Prop) :
    ScopeStore content memory' m' (writes ++ [⟨scope, memory', m'⟩]) ok' where
  tracks := by
    rw [List.map_append]
    exact h.tracks.change hmono hmemory
  marks := hmarks
  writeMarks w hw := by
    rcases List.mem_append.mp hw with hw | hw
    · exact h.writeMarks w hw
    · obtain rfl := List.mem_singleton.mp hw
      exact hmarks
  accepts := haccepts
  writeAccepts w hw := by
    rcases List.mem_append.mp hw with hw | hw
    · exact h.writeAccepts w hw
    · obtain rfl := List.mem_singleton.mp hw
      exact haccepts
  migrated := h.migrated

theorem wrote (h : ScopeStore content memory m (w :: writes) ok) (ok' : Prop) :
    ScopeStore (w.persisted content) memory {} writes ok' := by
  have hmarks := h.writeMarks w List.mem_cons_self
  have haccepts := h.writeAccepts w List.mem_cons_self
  refine ⟨?_, .unmarked _, fun w' hw' => h.writeMarks w' (List.mem_cons_of_mem _ hw'),
    (fun _ h => by cases h), fun w' hw' field hfield => ?_,
    migrated_persisted hmarks h.migrated haccepts⟩
  · rw [keySet_unmarked, at_persisted hmarks haccepts]
    exact h.tracks.wrote
  · by_cases hf : field ∈ w.modified.fields
    · obtain ⟨keys', hkeys'⟩ := Option.isSome_iff_exists.mp hfield
      have hname := ((h.writeMarks w' (List.mem_cons_of_mem _ hw')).inner field keys' hkeys').1
      obtain ⟨keys, hkeys⟩ := hmarks.nested_some hname hf
      obtain ⟨fields, -, hpersisted⟩ := persisted_nested content hmarks hkeys
      rw [hpersisted]
      rfl
    · rw [ScopedWrite.persisted, if_neg hf]
      exact h.writeAccepts w' (List.mem_cons_of_mem _ hw') field hfield

/-- The next write fails, but each of its marks is still there or comes with a
later write. -/
theorem failed (h : ScopeStore content memory m (w :: writes) ok)
    (hkept : ∀ k ∈ w.modified.keys, k ∈ m.keys ∨ ∃ w' ∈ writes, k ∈ w'.modified.keys) :
    ScopeStore content memory m writes False where
  tracks := by
    refine h.tracks.failed fun p hp => ?_
    obtain ⟨k, hk, hwrites⟩ := hp
    rcases hkept k hk with hmarked | ⟨w', hw', hlater⟩
    · exact .inl ⟨k, hmarked, hwrites⟩
    · exact .inr ⟨w'.behind, List.mem_map_of_mem hw', k, hlater, hwrites⟩
  marks := h.marks
  writeMarks w' hw' := h.writeMarks w' (List.mem_cons_of_mem _ hw')
  accepts := h.accepts
  writeAccepts w' hw' := h.writeAccepts w' (List.mem_cons_of_mem _ hw')
  migrated := h.migrated

theorem acceptsNested_content (h : ScopeStore content memory m writes ok) {field : String}
    (hname : field ∈ nestedNames) (haccepts : acceptsNested (memory field) = true) :
    acceptsNested (content field) = true := by
  by_cases hmarked : field ∈ m.fields
  · obtain ⟨keys, hkeys⟩ := h.marks.nested_some hname hmarked
    exact h.accepts field (by rw [hkeys]; rfl)
  · by_cases hqueued : ∃ w ∈ writes, field ∈ w.modified.fields
    · obtain ⟨w, hw, hf⟩ := hqueued
      obtain ⟨keys, hkeys⟩ := (h.writeMarks w hw).nested_some hname hf
      exact h.writeAccepts w hw field (by rw [hkeys]; rfl)
    · refine acceptsNested_of_at (h.tracks.untouched ?_ ?_) haccepts
      · exact fun hp => hmarked (h.marks.mem_keySet.mp hp).1
      · intro b hb hp
        obtain ⟨w, hw, rfl⟩ := List.mem_map.mp hb
        exact hqueued ⟨w, hw, ((h.writeMarks w hw).mem_keySet.mp hp).1⟩

end ScopeStore

end Eagent
