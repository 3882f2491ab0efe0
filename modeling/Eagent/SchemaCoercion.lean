import Eagent.SessionManager

/-!
# Coercion of tool arguments

`coerceWithJsonSchema`, beside the validity of a value under a schema. An
absent list of a schema is the empty one. `Number`, `String` and
`Number.isInteger` come in as `NumberText`, on the texts JavaScript prints.

The test `key in value` also finds the functions every object inherits, and the
assignment after it makes one an own member. `structuredClone` throws on a value
that holds one: that is the result `none`.
-/

namespace Eagent

namespace Ai

/-! ## Schemas -/

inductive JsonType where
  | number
  | integer
  | boolean
  | string
  | null
  | array
  | object
deriving Repr, DecidableEq

mutual

/-- `JsonSchemaObject`; a single type is a list of one. -/
inductive Schema where
  | mk (types : List JsonType) (properties : List (String × Schema))
      (additionalProperties : Additional) (items : Items) (allOf anyOf oneOf : List Schema)

/-- `boolean | JsonSchemaObject`; `true` is the same as absent. -/
inductive Additional where
  | allowed
  | forbidden
  | schema (s : Schema)

/-- `JsonSchemaObject | JsonSchemaObject[]` -/
inductive Items where
  | absent
  | all (s : Schema)
  | tuple (schemas : List Schema)

end

/-- A JSON value, or one that holds an inherited function. -/
inductive Value where
  | null
  | bool (b : Bool)
  | num (text : String)
  | str (s : String)
  | arr (values : List Value)
  | obj (fields : List (String × Value))
  | function

mutual

/-- What `structuredClone` copies. -/
def isJson : Value → Bool
  | .arr values => allJson values
  | .obj fields => fieldsJson fields
  | .function => false
  | _ => true

def allJson : List Value → Bool
  | [] => true
  | value :: values => isJson value && allJson values

def fieldsJson : List (String × Value) → Bool
  | [] => true
  | (_, value) :: fields => isJson value && fieldsJson fields

end

/-- Numbers by the text JavaScript prints for them: `Number(s)` where it is
finite, and `Number.isInteger`. -/
structure NumberText where
  parse : String → Option String
  isInteger : String → Bool

section Types

variable (n : NumberText)

def matchesJsonType (value : Value) : JsonType → Bool
  | .number => match value with | .num _ => true | _ => false
  | .integer => match value with | .num t => n.isInteger t | _ => false
  | .boolean => match value with | .bool _ => true | _ => false
  | .string => match value with | .str _ => true | _ => false
  | .null => match value with | .null => true | _ => false
  | .array => match value with | .arr _ => true | _ => false
  | .object => match value with | .obj _ => true | _ => false

/-! ## Validity -/

/-- An own member of an object. -/
def hasOwn (key : String) (fields : List (String × Value)) : Bool :=
  (fields.map Prod.fst).contains key

mutual

/-- `validator.Check`: validity by the keywords of the schema. -/
def check : Schema → Value → Bool
  | .mk types properties additionalProperties items allOf anyOf oneOf, value =>
      (types.isEmpty || types.any (matchesJsonType n value)) &&
        checkAll allOf value &&
        (anyOf.isEmpty || decide (0 < countValid anyOf value)) &&
        (oneOf.isEmpty || countValid oneOf value = 1) &&
        match value with
        | .obj fields =>
            checkProperties properties fields &&
              checkAdditional (properties.map Prod.fst) additionalProperties fields
        | .arr values => checkItems items values
        | _ => true

def checkAll : List Schema → Value → Bool
  | [], _ => true
  | s :: rest, value => check s value && checkAll rest value

/-- How many members the value satisfies. -/
def countValid : List Schema → Value → Nat
  | [], _ => 0
  | s :: rest, value => (if check s value then 1 else 0) + countValid rest value

def checkProperties : List (String × Schema) → List (String × Value) → Bool
  | [], _ => true
  | (key, s) :: rest, fields =>
      fields.all (fun (k, v) => k ≠ key || check s v) && checkProperties rest fields

def checkAdditional (defined : List String) : Additional → List (String × Value) → Bool
  | .allowed, _ => true
  | .forbidden, fields => fields.all fun (k, _) => defined.contains k
  | .schema s, fields => fields.all fun (k, v) => defined.contains k || check s v

def checkItems : Items → List Value → Bool
  | .absent, _ => true
  | .all s, values => values.all (check s)
  | .tuple schemas, values => checkTuple schemas values

def checkTuple : List Schema → List Value → Bool
  | s :: rest, value :: values => check s value && checkTuple rest values
  | _, _ => true

end

/-! ## Coercion -/

/-- `value.trim() !== ""` -/
def hasText (s : String) : Bool := !(SessionManager.trimSpaces s.toList).isEmpty

/-- `none` where the value itself is returned; a conversion changes its type. -/
def coercePrimitiveByType (value : Value) : JsonType → Option Value
  | .number =>
      match value with
      | .null => some (.num "0")
      | .str s => if hasText s then (n.parse s).map Value.num else none
      | .bool b => some (.num (if b then "1" else "0"))
      | _ => none
  | .integer =>
      match value with
      | .null => some (.num "0")
      | .str s => if hasText s then ((n.parse s).filter n.isInteger).map Value.num else none
      | .bool b => some (.num (if b then "1" else "0"))
      | _ => none
  | .boolean =>
      match value with
      | .null => some (.bool false)
      | .str s =>
          if s = "true" then some (.bool true)
          else if s = "false" then some (.bool false)
          else none
      | .num t =>
          if t = "1" then some (.bool true) else if t = "0" then some (.bool false) else none
      | _ => none
  | .string =>
      match value with
      | .null => some (.str "")
      | .num t => some (.str t)
      | .bool b => some (.str (if b then "true" else "false"))
      | _ => none
  | .null =>
      match value with
      | .str s => if s = "" then some .null else none
      | .num t => if t = "0" then some .null else none
      | .bool b => if b then none else some .null
      | _ => none
  | .array | .object => none

/-- The first type that converts the value does; a list of which a type
matches converts nothing. -/
def coerceByTypes (types : List JsonType) (value : Value) : Value :=
  let matchesUnionMember := types.length > 1 && types.any (matchesJsonType n value)
  if matchesUnionMember then value
  else (types.findSome? (coercePrimitiveByType n value)).getD value

/-- The functions every object inherits. `__proto__` is not one of them:
assigning it makes no member. -/
def inheritedKeys : List String :=
  ["constructor", "hasOwnProperty", "isPrototypeOf", "propertyIsEnumerable", "toLocaleString",
    "toString", "valueOf", "__defineGetter__", "__defineSetter__", "__lookupGetter__",
    "__lookupSetter__"]

mutual

def coerceWithJsonSchema : Schema → Value → Option Value
  | .mk types properties additionalProperties items allOf anyOf oneOf, value => do
      let nextValue ← coerceAllOf allOf value
      let nextValue ← coerceWithUnionSchema anyOf nextValue
      let nextValue ← coerceWithUnionSchema oneOf nextValue
      match coerceByTypes n types nextValue with
      | .obj fields =>
          if types.contains .object then
            (applySchemaProperties properties fields).bind fun fields =>
              (applySchemaAdditional (properties.map Prod.fst) additionalProperties fields).map
                Value.obj
          else some (.obj fields)
      | .arr values =>
          if types.contains .array then (applySchemaArrayCoercion items values).map Value.arr
          else some (.arr values)
      | nextValue => some nextValue

def coerceAllOf : List Schema → Value → Option Value
  | [], value => some value
  | nested :: rest, value => (coerceWithJsonSchema nested value).bind (coerceAllOf rest)

def coerceWithUnionSchema : List Schema → Value → Option Value
  | [], value => some value
  | schema :: rest, value =>
      if isJson value then
        (coerceWithJsonSchema schema value).bind fun coerced =>
          if check n schema coerced then some coerced else coerceWithUnionSchema rest value
      else none

/-- The loop over the properties of `applySchemaObjectCoercion`. -/
def applySchemaProperties : List (String × Schema) → List (String × Value) →
    Option (List (String × Value))
  | [], fields => some fields
  | (key, propertySchema) :: rest, fields =>
      if hasOwn key fields then
        (fields.mapM fun (k, v) =>
          if k = key then (coerceWithJsonSchema propertySchema v).map fun v => (k, v)
          else some (k, v)).bind (applySchemaProperties rest)
      else if inheritedKeys.contains key then
        (coerceWithJsonSchema propertySchema .function).bind fun v =>
          applySchemaProperties rest (fields ++ [(key, v)])
      else applySchemaProperties rest fields

/-- The loop over the other members. -/
def applySchemaAdditional (definedKeys : List String) : Additional → List (String × Value) →
    Option (List (String × Value))
  | .allowed, fields | .forbidden, fields => some fields
  | .schema s, fields => fields.mapM fun (k, v) =>
      if definedKeys.contains k then some (k, v)
      else (coerceWithJsonSchema s v).map fun v => (k, v)

def applySchemaArrayCoercion : Items → List Value → Option (List Value)
  | .absent, values => some values
  | .all s, values => values.mapM (coerceWithJsonSchema s)
  | .tuple schemas, values => coerceTuple schemas values

def coerceTuple : List Schema → List Value → Option (List Value)
  | s :: rest, value :: values =>
      (coerceWithJsonSchema s value).bind fun value =>
        (coerceTuple rest values).map (value :: ·)
  | _, values => some values

end

/-! ## Members that leave a value alone -/

def RejectsConverted (s : Schema) (value : Value) : Prop :=
  ∃ coerced, coerceWithJsonSchema n s value = some coerced ∧ check n s coerced = false

mutual

/-- No union on the way reaches a member that rejects the value and accepts it
after conversion, and no inherited function is taken for a property. -/
def Keeps : Schema → Value → Prop
  | .mk types properties additionalProperties items allOf anyOf oneOf, value =>
      KeepsAll allOf value ∧ KeepsUnion anyOf value ∧ KeepsUnion oneOf value ∧
        match value with
        | .obj fields => .object ∈ types →
            KeepsProperties properties fields ∧
              KeepsAdditional (properties.map Prod.fst) additionalProperties fields
        | .arr values => .array ∈ types → KeepsItems items values
        | _ => True

def KeepsAll : List Schema → Value → Prop
  | [], _ => True
  | nested :: rest, value => Keeps nested value ∧ KeepsAll rest value

def KeepsUnion : List Schema → Value → Prop
  | [], _ => True
  | s :: rest, value =>
      if check n s value then Keeps s value
      else RejectsConverted n s value ∧ KeepsUnion rest value

def KeepsProperties : List (String × Schema) → List (String × Value) → Prop
  | [], _ => True
  | (key, s) :: rest, fields =>
      (∀ field ∈ fields, field.1 = key → Keeps s field.2) ∧
        (hasOwn key fields = false → key ∉ inheritedKeys) ∧ KeepsProperties rest fields

def KeepsAdditional (definedKeys : List String) : Additional → List (String × Value) → Prop
  | .allowed, _ | .forbidden, _ => True
  | .schema s, fields => ∀ field ∈ fields, field.1 ∉ definedKeys → Keeps s field.2

def KeepsItems : Items → List Value → Prop
  | .absent, _ => True
  | .all s, values => ∀ value ∈ values, Keeps s value
  | .tuple schemas, values => KeepsTuple schemas values

def KeepsTuple : List Schema → List Value → Prop
  | s :: rest, value :: values => Keeps s value ∧ KeepsTuple rest values
  | _, _ => True

end

variable {n}

theorem coercePrimitiveByType_of_matches {value : Value} {type : JsonType}
    (h : matchesJsonType n value type = true) : coercePrimitiveByType n value type = none := by
  cases type <;> cases value <;> simp_all [matchesJsonType, coercePrimitiveByType]

theorem coerceByTypes_of_matches {types : List JsonType} {value : Value}
    (h : types.isEmpty = true ∨ types.any (matchesJsonType n value) = true) :
    coerceByTypes n types value = value := by
  rcases types with _ | ⟨type, _ | ⟨next, rest⟩⟩
  · simp [coerceByTypes]
  · have hmatches : matchesJsonType n value type = true := by simpa using h
    simp [coerceByTypes, coercePrimitiveByType_of_matches hmatches]
  · have hany : (type :: next :: rest).any (matchesJsonType n value) = true := by simpa using h
    simp [coerceByTypes, hany]

theorem isJson_of_mem {values : List Value} (h : allJson values = true) {value : Value}
    (hv : value ∈ values) : isJson value = true := by
  induction values with
  | nil => simp at hv
  | cons head tail ih =>
    simp only [allJson, Bool.and_eq_true] at h
    rcases List.mem_cons.mp hv with rfl | hv
    · exact h.1
    · exact ih h.2 hv

theorem isJson_of_mem_fields {fields : List (String × Value)} (h : fieldsJson fields = true)
    {field : String × Value} (hf : field ∈ fields) : isJson field.2 = true := by
  induction fields with
  | nil => simp at hf
  | cons head tail ih =>
    simp only [fieldsJson, Bool.and_eq_true] at h
    rcases List.mem_cons.mp hf with rfl | hf
    · exact h.1
    · exact ih h.2 hf

/-- Conversions that leave every element alone leave the list alone. -/
theorem mapM_eq_self {α : Type*} {f : α → Option α} {l : List α} (h : ∀ a ∈ l, f a = some a) :
    l.mapM f = some l := by
  induction l with
  | nil => rfl
  | cons head tail ih =>
    have htail := ih fun a ha => h a (List.mem_cons_of_mem _ ha)
    simp [List.mapM_cons, h head List.mem_cons_self, htail]

mutual

theorem coerceWithJsonSchema_of_keeps : ∀ (s : Schema) {value : Value}, isJson value = true →
    check n s value = true → Keeps n s value → coerceWithJsonSchema n s value = some value
  | .mk types properties additionalProperties items allOf anyOf oneOf, value, hjson, hcheck,
      hkeeps => by
    simp only [check, Bool.and_eq_true, Bool.or_eq_true] at hcheck
    obtain ⟨⟨⟨⟨htypes, hall⟩, -⟩, -⟩, hmembers⟩ := hcheck
    obtain ⟨hkall, hkany, hkone, hkmembers⟩ := hkeeps
    simp only [coerceWithJsonSchema, coerceAllOf_of_keeps allOf hjson hall hkall,
      coerceWithUnionSchema_of_keeps anyOf hjson hkany,
      coerceWithUnionSchema_of_keeps oneOf hjson hkone, coerceByTypes_of_matches htypes,
      Option.bind_eq_bind, Option.bind_some]
    cases value with
    | obj fields =>
      simp only [Bool.and_eq_true] at hmembers
      by_cases hobject : JsonType.object ∈ types
      · obtain ⟨hkprops, hkadd⟩ := hkmembers hobject
        simp [hobject, applySchemaProperties_of_keeps properties hjson hmembers.1 hkprops,
          applySchemaAdditional_of_keeps _ additionalProperties hjson hmembers.2 hkadd]
      · simp [hobject]
    | arr values =>
      by_cases harray : JsonType.array ∈ types
      · simp [harray, applySchemaArrayCoercion_of_keeps items hjson hmembers (hkmembers harray)]
      · simp [harray]
    | _ => rfl

theorem coerceAllOf_of_keeps : ∀ (schemas : List Schema) {value : Value}, isJson value = true →
    checkAll n schemas value = true → KeepsAll n schemas value →
    coerceAllOf n schemas value = some value
  | [], _, _, _, _ => rfl
  | nested :: rest, value, hjson, hcheck, hkeeps => by
    simp only [checkAll, Bool.and_eq_true] at hcheck
    simp [coerceAllOf, coerceWithJsonSchema_of_keeps nested hjson hcheck.1 hkeeps.1,
      coerceAllOf_of_keeps rest hjson hcheck.2 hkeeps.2]

/-- Before the first member that the value satisfies every candidate is rejected. -/
theorem coerceWithUnionSchema_of_keeps : ∀ (schemas : List Schema) {value : Value},
    isJson value = true → KeepsUnion n schemas value →
    coerceWithUnionSchema n schemas value = some value
  | [], _, _, _ => rfl
  | s :: rest, value, hjson, hkeeps => by
    simp only [KeepsUnion] at hkeeps
    by_cases hcheck : check n s value = true
    · simp only [hcheck, if_true] at hkeeps
      simp [coerceWithUnionSchema, hjson, coerceWithJsonSchema_of_keeps s hjson hcheck hkeeps,
        hcheck]
    · simp only [hcheck] at hkeeps
      obtain ⟨⟨coerced, hcoerced, hrejected⟩, hrest⟩ := hkeeps
      simp [coerceWithUnionSchema, hjson, hcoerced, hrejected,
        coerceWithUnionSchema_of_keeps rest hjson hrest]

theorem applySchemaProperties_of_keeps : ∀ (properties : List (String × Schema))
    {fields : List (String × Value)}, fieldsJson fields = true →
    checkProperties n properties fields = true → KeepsProperties n properties fields →
    applySchemaProperties n properties fields = some fields
  | [], _, _, _, _ => rfl
  | (key, s) :: rest, fields, hjson, hcheck, hkeeps => by
    simp only [checkProperties, Bool.and_eq_true] at hcheck
    obtain ⟨hown, hinherited, hkrest⟩ := hkeeps
    have hrest := applySchemaProperties_of_keeps rest hjson hcheck.2 hkrest
    have hfields : (fields.mapM fun (k, v) =>
        if k = key then (coerceWithJsonSchema n s v).map fun v => (k, v)
        else some (k, v)) = some fields := by
      refine mapM_eq_self fun (k, v) hmem => ?_
      by_cases hk : k = key
      · have hv : check n s v = true := by
          have := List.all_eq_true.mp hcheck.1 _ hmem
          simpa [hk] using this
        simp [hk, coerceWithJsonSchema_of_keeps s (isJson_of_mem_fields hjson hmem) hv
          (hown _ hmem hk)]
      · simp [hk]
    by_cases hhas : hasOwn key fields = true
    · simp [applySchemaProperties, hhas, hfields, hrest]
    · have := hinherited (by simpa using hhas)
      simp [applySchemaProperties, hhas, this, hrest]

theorem applySchemaAdditional_of_keeps (definedKeys : List String) : ∀ (additional : Additional)
    {fields : List (String × Value)}, fieldsJson fields = true →
    checkAdditional n definedKeys additional fields = true →
    KeepsAdditional n definedKeys additional fields →
    applySchemaAdditional n definedKeys additional fields = some fields
  | .allowed, _, _, _, _ => rfl
  | .forbidden, _, _, _, _ => rfl
  | .schema s, fields, hjson, hcheck, hkeeps => by
    refine mapM_eq_self fun (k, v) hmem => ?_
    by_cases hk : k ∈ definedKeys
    · simp [hk]
    · have hv : check n s v = true := by
        have := List.all_eq_true.mp hcheck _ hmem
        simpa [hk] using this
      simp [hk, coerceWithJsonSchema_of_keeps s (isJson_of_mem_fields hjson hmem) hv
        (hkeeps _ hmem hk)]

theorem applySchemaArrayCoercion_of_keeps : ∀ (items : Items) {values : List Value},
    allJson values = true → checkItems n items values = true → KeepsItems n items values →
    applySchemaArrayCoercion n items values = some values
  | .absent, _, _, _, _ => rfl
  | .all s, _, hjson, hcheck, hkeeps =>
    mapM_eq_self fun v hmem => coerceWithJsonSchema_of_keeps s (isJson_of_mem hjson hmem)
      (List.all_eq_true.mp hcheck v hmem) (hkeeps v hmem)
  | .tuple schemas, _, hjson, hcheck, hkeeps =>
    coerceTuple_of_keeps schemas hjson hcheck hkeeps

theorem coerceTuple_of_keeps : ∀ (schemas : List Schema) {values : List Value},
    allJson values = true → checkTuple n schemas values = true → KeepsTuple n schemas values →
    coerceTuple n schemas values = some values
  | [], [], _, _, _ => rfl
  | [], _ :: _, _, _, _ => rfl
  | _ :: _, [], _, _, _ => rfl
  | s :: rest, value :: values, hjson, hcheck, hkeeps => by
    simp only [allJson, Bool.and_eq_true] at hjson
    simp only [checkTuple, Bool.and_eq_true] at hcheck
    simp [coerceTuple, coerceWithJsonSchema_of_keeps s hjson.1 hcheck.1 hkeeps.1,
      coerceTuple_of_keeps rest hjson.2 hcheck.2 hkeeps.2]

end

/-- A valid value of which no union converts anything stays as it is. -/
theorem valid_arguments_kept (s : Schema) (value : Value) (hjson : isJson value = true)
    (hvalid : check n s value = true) (hkeeps : Keeps n s value) :
    coerceWithJsonSchema n s value = some value :=
  coerceWithJsonSchema_of_keeps s hjson hvalid hkeeps

end Types

/-! ## A number in a string -/

def ofTypes (types : List JsonType) : Schema :=
  .mk types [] .allowed .absent [] [] []

/-- `{ anyOf: [{ type: "number" }, { type: "string" }] }` -/
def numberOrString : Schema :=
  .mk [] [] .allowed .absent [] [ofTypes [.number], ofTypes [.string]] []

/-- `{ type: "object", properties: { path: … } }` -/
def pathArgument : Schema :=
  .mk [.object] [("path", numberOrString)] .allowed .absent [] [] []

/-- `Number` on digits without a leading zero, and on texts without any digit. -/
def digits : NumberText where
  parse s := if s.toList.all Char.isDigit then some s else none
  isInteger _ := true

theorem numberOrString_keeps_name : Keeps digits numberOrString (.str "src") := by
  have hnumber : RejectsConverted digits (ofTypes [.number]) (.str "src") :=
    ⟨.str "src", by rfl, by rfl⟩
  exact ⟨trivial, ⟨hnumber, trivial, trivial, trivial, trivial⟩, trivial, trivial⟩

theorem valid_arguments_kept_path :
    coerceWithJsonSchema digits pathArgument (.obj [("path", .str "src")]) =
      some (.obj [("path", .str "src")]) := by
  refine valid_arguments_kept pathArgument _ (by rfl) (by rfl)
    ⟨trivial, trivial, trivial, fun _ => ⟨⟨?_, ?_, trivial⟩, trivial⟩⟩
  · rintro field hfield -
    obtain rfl : field = ("path", .str "src") := by simpa using hfield
    exact numberOrString_keeps_name
  · intro h
    exact absurd h (by decide)

/-- The number member comes first and takes the string `"5"`, which satisfies
the second. -/
theorem valid_arguments_changed :
    ¬ ∀ (s : Schema) (value : Value), isJson value = true → check digits s value = true →
      coerceWithJsonSchema digits s value = some value := by
  intro h
  have hsame := h numberOrString (.str "5") (by rfl) (by rfl)
  have hnumber : coerceWithJsonSchema digits numberOrString (.str "5") = some (.num "5") := by
    rfl
  rw [hnumber] at hsame
  simp at hsame

end Ai

end Eagent
