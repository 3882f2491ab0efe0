import Eagent.Json
import Eagent.OrdMap

/-!
# JSON texts

`JSON.parse`, and that it reads back what `JSON.stringify` writes. The
parser runs with fuel; a text of `n` characters needs `n + 1`.

A number is the text JavaScript prints for it, and JavaScript prints a
literal it has printed once in the same way again, so the parser keeps the
literal as it stands.
-/

namespace Eagent

namespace Json

/-! ## Strings -/

def hexValue (c : Char) : Option Nat :=
  if '0' ≤ c ∧ c ≤ '9' then some (c.toNat - 48)
  else if 'a' ≤ c ∧ c ≤ 'f' then some (c.toNat - 87)
  else if 'A' ≤ c ∧ c ≤ 'F' then some (c.toNat - 55)
  else none

def hexFour (a b c d : Char) : Option Nat := do
  return (((← hexValue a) * 16 + (← hexValue b)) * 16 + (← hexValue c)) * 16 + (← hexValue d)

/-- The character of a one-letter escape. -/
def unescape (c : Char) : Option Char :=
  if c = '"' then some '"'
  else if c = '\\' then some '\\'
  else if c = '/' then some '/'
  else if c = 'n' then some '\n'
  else if c = 'r' then some '\r'
  else if c = 't' then some '\t'
  else if c = 'b' then some (Char.ofNat 8)
  else if c = 'f' then some (Char.ofNat 12)
  else none

def isHighSurrogate (n : Nat) : Bool := 0xD800 ≤ n && n < 0xDC00

def isLowSurrogate (n : Nat) : Bool := 0xDC00 ≤ n && n < 0xE000

/-- The rest of a string literal with `c` before it. -/
def prepend (c : Char) (read : Option (List Char × List Char)) : Option (List Char × List Char) :=
  read.map fun p => (c :: p.1, p.2)

/-- A string literal after its opening quote, or after a high surrogate. A
lone surrogate, which no Lean string holds, is refused. -/
def parseString : Option Nat → List Char → Option (List Char × List Char)
  | high, '\\' :: 'u' :: a :: b :: c :: d :: rest =>
      match high, hexFour a b c d with
      | _, none => none
      | some h, some n =>
          if isLowSurrogate n then
            prepend (Char.ofNat (0x10000 + (h - 0xD800) * 0x400 + (n - 0xDC00)))
              (parseString none rest)
          else none
      | none, some n =>
          if isHighSurrogate n then parseString (some n) rest
          else if isLowSurrogate n then none
          else prepend (Char.ofNat n) (parseString none rest)
  | none, '\\' :: c :: rest =>
      match unescape c with
      | none => none
      | some c => prepend c (parseString none rest)
  | none, c :: rest =>
      if c = '"' then some ([], rest)
      else if c = '\\' ∨ c.toNat < 32 then none
      else prepend c (parseString none rest)
  | _, _ => none

/-! ## Numbers -/

def isDigit (c : Char) : Bool := '0' ≤ c && c ≤ '9'

def isNumberChar (c : Char) : Bool :=
  isDigit c || c = '-' || c = '+' || c = '.' || c = 'e' || c = 'E'

/-- `-?(0|[1-9]\d*)`, and what is left. -/
def intPart (cs : List Char) : Option (List Char) :=
  let cs := if cs.head? = some '-' then cs.tail else cs
  match cs.takeWhile isDigit with
  | [] => none
  | '0' :: _ :: _ => none
  | _ => some (cs.dropWhile isDigit)

/-- `(\.\d+)?` -/
def fractionPart : List Char → Option (List Char)
  | '.' :: cs => if cs.takeWhile isDigit = [] then none else some (cs.dropWhile isDigit)
  | cs => some cs

/-- `([eE][+-]?\d+)?` -/
def exponentPart (cs : List Char) : Option (List Char) :=
  match cs with
  | [] => some []
  | c :: cs =>
      if c = 'e' ∨ c = 'E' then
        let cs := if cs.head? = some '+' ∨ cs.head? = some '-' then cs.tail else cs
        if cs.takeWhile isDigit = [] then none else some (cs.dropWhile isDigit)
      else some (c :: cs)

def isNumberLiteral (cs : List Char) : Bool :=
  cs.all isNumberChar && ((intPart cs).bind fractionPart).bind exponentPart = some []

def parseNumber (cs : List Char) : Option (Json × List Char) :=
  let text := cs.takeWhile isNumberChar
  if isNumberLiteral text then some (.num (String.ofList text), cs.dropWhile isNumberChar)
  else none

/-! ## Values -/

def isSpace (c : Char) : Bool := c = ' ' || c = '\n' || c = '\r' || c = '\t'

def skipSpace (cs : List Char) : List Char := cs.dropWhile isSpace

/-- The rest after `c`, white space before it skipped. -/
def expect (c : Char) (cs : List Char) : Option (List Char) :=
  match skipSpace cs with
  | c' :: rest => if c' = c then some rest else none
  | [] => none

mutual

def parseValue : Nat → List Char → Option (Json × List Char)
  | 0, _ => none
  | fuel + 1, cs =>
      match skipSpace cs with
      | 'n' :: 'u' :: 'l' :: 'l' :: rest => some (.null, rest)
      | 't' :: 'r' :: 'u' :: 'e' :: rest => some (.bool true, rest)
      | 'f' :: 'a' :: 'l' :: 's' :: 'e' :: rest => some (.bool false, rest)
      | '"' :: rest => (parseString none rest).map fun p => (.str (String.ofList p.1), p.2)
      | '[' :: rest =>
          match expect ']' rest with
          | some rest => some (.arr [], rest)
          | none => (parseItems fuel rest).map fun p => (.arr p.1, p.2)
      | '{' :: rest =>
          match expect '}' rest with
          | some rest => some (.obj [], rest)
          | none => (parseFields fuel [] rest).map fun p => (.obj p.1, p.2)
      | cs => parseNumber cs

/-- The items of an array, up to its closing bracket. -/
def parseItems : Nat → List Char → Option (List Json × List Char)
  | 0, _ => none
  | fuel + 1, cs =>
      match parseValue fuel cs with
      | none => none
      | some (item, rest) =>
          match expect ',' rest with
          | some rest => (parseItems fuel rest).map fun p => (item :: p.1, p.2)
          | none => (expect ']' rest).map fun rest => ([item], rest)

/-- The fields of an object, up to its closing brace; a key written again
gets the later value. -/
def parseFields : Nat → List (String × Json) → List Char →
    Option (List (String × Json) × List Char)
  | 0, _, _ => none
  | fuel + 1, fields, cs => do
      let (key, rest) ← parseString none (← expect '"' cs)
      let (value, rest) ← parseValue fuel (← expect ':' rest)
      let fields := OrdMap.setIn (String.ofList key) value fields
      match expect ',' rest with
      | some rest => parseFields fuel fields rest
      | none => (expect '}' rest).map fun rest => (fields, rest)

end

/-- `JSON.parse`; `none` is a `SyntaxError`. -/
def parse (text : List Char) : Option Json :=
  match parseValue (text.length + 1) text with
  | none => none
  | some (value, rest) => if skipSpace rest = [] then some value else none

/-! ## Values that come back -/

mutual

/-- A value of JavaScript: a number's text is a literal, and the keys of an
object are distinct. -/
def Canonical : Json → Prop
  | .null | .bool _ | .str _ => True
  | .num text => isNumberLiteral text.toList = true
  | .arr items => CanonicalItems items
  | .obj fields => (fields.map Prod.fst).Nodup ∧ CanonicalFields fields

def CanonicalItems : List Json → Prop
  | [] => True
  | item :: items => Canonical item ∧ CanonicalItems items

def CanonicalFields : List (String × Json) → Prop
  | [] => True
  | (_, value) :: fields => Canonical value ∧ CanonicalFields fields

end

/-! ## What `stringify` writes is read back -/

theorem hexValue_hexDigit {n : Nat} (h : n < 16) : hexValue (hexDigit n) = some n := by
  have hall : ∀ n : Fin 16, hexValue (hexDigit n) = some n.val := by decide
  exact hall ⟨n, h⟩

theorem hexFour_control {n : Nat} (h : n < 32) :
    hexFour '0' '0' (hexDigit (n / 16)) (hexDigit (n % 16)) = some n := by
  have hhigh := hexValue_hexDigit (n := n / 16) (by omega)
  have hlow := hexValue_hexDigit (n := n % 16) (by omega)
  have hzero : hexValue '0' = some 0 := rfl
  simp only [hexFour, hzero, hhigh, hlow, Option.bind_eq_bind, Option.bind_some, Option.pure_def,
    Option.some.injEq]
  omega

theorem parseString_unicode {a b c d : Char} {n : Nat} (hn : hexFour a b c d = some n)
    (hplain : n < 0xD800) (rest : List Char) :
    parseString none ('\\' :: 'u' :: a :: b :: c :: d :: rest) =
      prepend (Char.ofNat n) (parseString none rest) := by
  have hhigh : isHighSurrogate n = false := by
    simp only [isHighSurrogate, Bool.and_eq_false_iff, decide_eq_false_iff_not]
    omega
  have hlow : isLowSurrogate n = false := by
    simp only [isLowSurrogate, Bool.and_eq_false_iff, decide_eq_false_iff_not]
    omega
  rw [parseString.eq_def]
  simp only [hn, hhigh, hlow, Bool.false_eq_true, if_false]

theorem parseString_escapeChar (c : Char) (rest : List Char) :
    parseString none (escapeChar c ++ rest) = prepend c (parseString none rest) := by
  have hofNat : Char.ofNat c.toNat = c := Char.ofNat_toNat c
  unfold escapeChar
  split_ifs with hquote hback hn hr ht hb hf hcontrol
  · subst hquote; rfl
  · subst hback; rfl
  · subst hn; rfl
  · subst hr; rfl
  · subst ht; rfl
  · rw [hb] at hofNat; subst hofNat; rfl
  · rw [hf] at hofNat; subst hofNat; rfl
  · have hread := parseString_unicode (hexFour_control hcontrol) (by omega) rest
    rw [hofNat] at hread
    exact hread
  · have hplain : ¬ (c = '\\' ∨ c.toNat < 32) := by tauto
    rw [List.singleton_append, parseString, if_neg hquote, if_neg hplain]
    · rintro a b c' d rest' rfl
      exact fun _ => hback rfl
    · rintro c' rest' rfl
      exact fun _ => hback rfl

theorem parseString_quote (cs rest : List Char) :
    parseString none (cs.flatMap escapeChar ++ '"' :: rest) = some (cs, rest) := by
  induction cs with
  | nil => rfl
  | cons c cs ih =>
    rw [List.flatMap_cons, List.append_assoc, parseString_escapeChar, ih]
    rfl

/-- What may follow a value: the end, or no character of a number. -/
def Ends (rest : List Char) : Prop := ∀ c ∈ rest.head?, isNumberChar c = false

theorem takeWhile_append_ends {p : Char → Bool} {cs rest : List Char} (hcs : ∀ c ∈ cs, p c = true)
    (hrest : ∀ c ∈ rest.head?, p c = false) :
    (cs ++ rest).takeWhile p = cs ∧ (cs ++ rest).dropWhile p = rest := by
  rw [List.takeWhile_append_of_pos hcs, List.dropWhile_append_of_pos hcs]
  cases rest with
  | nil => simp
  | cons c rest => simp [hrest c rfl]

theorem isNumberLiteral.all {cs : List Char} (h : isNumberLiteral cs = true) :
    ∀ c ∈ cs, isNumberChar c = true := by
  rw [isNumberLiteral, Bool.and_eq_true] at h
  exact List.all_eq_true.mp h.1

theorem parseNumber_literal {text : String} (h : isNumberLiteral text.toList = true)
    {rest : List Char} (hrest : Ends rest) :
    parseNumber (text.toList ++ rest) = some (.num text, rest) := by
  obtain ⟨htake, hdrop⟩ := takeWhile_append_ends (isNumberLiteral.all h) hrest
  rw [parseNumber]
  simp only [htake, hdrop, h, if_true, String.ofList_toList]

theorem isNumberLiteral.head {cs : List Char} (h : isNumberLiteral cs = true) :
    ∃ c rest, cs = c :: rest ∧ isNumberChar c = true := by
  cases cs with
  | nil => cases h
  | cons c rest => exact ⟨c, rest, rfl, isNumberLiteral.all h c List.mem_cons_self⟩

variable {c : Char}

theorem isSpace_of_isNumberChar (h : isNumberChar c = true) : isSpace c = false := by
  by_contra hspace
  rw [Bool.not_eq_false] at hspace
  simp only [isSpace, Bool.or_eq_true, decide_eq_true_eq] at hspace
  rcases hspace with ((rfl | rfl) | rfl) | rfl <;> cases h

/-- The first character of a value is no space and closes nothing. -/
theorem stringify_head {v : Json} (hv : v.Canonical) :
    ∃ c rest, stringify v = c :: rest ∧ isSpace c = false ∧ c ≠ ']' := by
  cases v with
  | null => exact ⟨_, _, rfl, rfl, by decide⟩
  | bool b => cases b <;> exact ⟨_, _, rfl, rfl, by decide⟩
  | num text =>
    obtain ⟨c, rest, heq, hc⟩ := isNumberLiteral.head hv
    refine ⟨c, rest, heq, isSpace_of_isNumberChar hc, ?_⟩
    rintro rfl
    cases hc
  | str s => exact ⟨_, _, rfl, rfl, by decide⟩
  | arr items => exact ⟨_, _, rfl, rfl, by decide⟩
  | obj fields => exact ⟨_, _, rfl, rfl, by decide⟩

theorem skipSpace_cons (h : isSpace c = false) (rest : List Char) :
    skipSpace (c :: rest) = c :: rest := by
  simp [skipSpace, h]

theorem expect_self (h : isSpace c = false) (rest : List Char) :
    expect c (c :: rest) = some rest := by
  rw [expect, skipSpace_cons h]
  exact if_pos rfl

theorem expect_other {c c' : Char} (h : isSpace c' = false) (hne : c' ≠ c) (rest : List Char) :
    expect c (c' :: rest) = none := by
  rw [expect, skipSpace_cons h]
  exact if_neg hne

/-- A literal is read as a number and nothing else. -/
theorem parseValue_number {fuel : Nat} {cs : List Char} {rest : List Char} (hcs : cs = c :: rest)
    (hc : isNumberChar c = true) :
    parseValue (fuel + 1) cs = parseNumber cs := by
  have hskip : skipSpace cs = cs := by rw [hcs, skipSpace_cons (isSpace_of_isNumberChar hc)]
  rw [parseValue, hskip]
  subst hcs
  split
  case h_7 => rfl
  all_goals
    rename_i heq
    cases heq
    cases hc

theorem key_fresh {read fields : List (String × Json)} {key : String} {value : Json}
    (h : ((read ++ (key, value) :: fields).map Prod.fst).Nodup) : key ∉ read.map Prod.fst := by
  rw [List.map_append, List.nodup_append] at h
  exact fun hmem => h.2.2 key hmem key List.mem_cons_self rfl

theorem ends_cons (h : isNumberChar c = false) (rest : List Char) :
    Ends (c :: rest) := by
  rintro c' hc'
  obtain rfl := Option.some.inj hc'
  exact h

theorem stringifyItems_head {item : Json} {items : List Json}
    (h : CanonicalItems (item :: items)) :
    ∃ c rest, stringifyItems (item :: items) = c :: rest ∧ isSpace c = false ∧ c ≠ ']' := by
  obtain ⟨c, rest, heq, hspace, hclose⟩ := stringify_head h.1
  cases items with
  | nil => exact ⟨c, rest, heq, hspace, hclose⟩
  | cons item' items =>
    refine ⟨c, rest ++ ',' :: stringifyItems (item' :: items), ?_, hspace, hclose⟩
    rw [stringifyItems, heq]
    rfl

theorem stringifyFields_head (key : String) (value : Json) (fields : List (String × Json)) :
    ∃ rest, stringifyFields ((key, value) :: fields) = '"' :: rest := by
  cases fields with
  | nil => exact ⟨_, rfl⟩
  | cons field fields => exact ⟨_, rfl⟩

mutual

theorem parseValue_stringify : ∀ (v : Json) {fuel : Nat} {rest : List Char}, v.Canonical →
    (stringify v).length < fuel → Ends rest →
    parseValue fuel (stringify v ++ rest) = some (v, rest)
  | v, 0, _, _, hfuel, _ => absurd hfuel (Nat.not_lt_zero _)
  | .null, fuel + 1, rest, _, _, _ => rfl
  | .bool true, fuel + 1, rest, _, _, _ => rfl
  | .bool false, fuel + 1, rest, _, _, _ => rfl
  | .num text, fuel + 1, rest, hv, _, hrest => by
    obtain ⟨c, cs, heq, hc⟩ := isNumberLiteral.head hv
    have hcs : text.toList ++ rest = c :: (cs ++ rest) := by rw [heq]; rfl
    rw [stringify, parseValue_number hcs hc]
    exact parseNumber_literal hv hrest
  | .str s, fuel + 1, rest, _, _, _ => by
    have hread := parseString_quote s.toList rest
    rw [stringify, quote, parseValue]
    simp only [List.cons_append, List.append_assoc, List.nil_append,
      skipSpace_cons (show isSpace '"' = false from rfl), hread, Option.map_some,
      String.ofList_toList]
  | .arr [], fuel + 1, rest, _, _, _ => rfl
  | .arr (item :: items), fuel + 1, rest, hv, hfuel, _ => by
    obtain ⟨c, cs, hhead, hspace, hclose⟩ := stringifyItems_head hv
    have hitems := parseItems_stringify item items fuel rest hv (by
      rw [stringify, List.length_append, List.length_cons, List.length_singleton] at hfuel
      omega)
    rw [hhead] at hitems
    rw [stringify, parseValue, hhead]
    simp only [List.cons_append, List.append_assoc, List.nil_append] at hitems ⊢
    rw [skipSpace_cons rfl]
    simp only [expect_other hspace hclose, hitems, Option.map_some]
  | .obj [], fuel + 1, rest, _, _, _ => rfl
  | .obj ((key, value) :: fields), fuel + 1, rest, hv, hfuel, _ => by
    obtain ⟨cs, hhead⟩ := stringifyFields_head key value fields
    have hfields := parseFields_stringify key value fields fuel [] rest hv.2 hv.1 (by
        rw [stringify, List.length_append, List.length_cons, List.length_singleton] at hfuel
        omega)
    rw [hhead] at hfields
    rw [stringify, parseValue, hhead]
    simp only [List.cons_append, List.append_assoc, List.nil_append] at hfields ⊢
    rw [skipSpace_cons rfl]
    simp only [expect_other (show isSpace '"' = false from rfl) (show '"' ≠ '}' by decide),
      hfields, Option.map_some]

theorem parseItems_stringify : ∀ (item : Json) (items : List Json) (fuel : Nat) (rest : List Char),
    CanonicalItems (item :: items) → (stringifyItems (item :: items)).length + 1 < fuel →
    parseItems fuel (stringifyItems (item :: items) ++ ']' :: rest) = some (item :: items, rest)
  | _, _, 0, _, _, hfuel => absurd hfuel (Nat.not_lt_zero _)
  | item, [], fuel + 1, rest, hv, hfuel => by
    rw [stringifyItems] at hfuel
    have hends : Ends (']' :: rest) := ends_cons rfl rest
    rw [parseItems, stringifyItems, parseValue_stringify item hv.1 (by omega) hends]
    simp only [expect_other (show isSpace ']' = false from rfl) (show ']' ≠ ',' by decide),
      expect_self (show isSpace ']' = false from rfl), Option.map_some]
  | item, item' :: items, fuel + 1, rest, hv, hfuel => by
    rw [stringifyItems, List.length_append, List.length_cons] at hfuel
    have hends : Ends (',' :: (stringifyItems (item' :: items) ++ ']' :: rest)) :=
      ends_cons rfl _
    have hitems := parseItems_stringify item' items fuel rest hv.2 (by omega)
    rw [parseItems, stringifyItems, List.append_assoc, List.cons_append,
      parseValue_stringify item hv.1 (by omega) hends]
    simp only [expect_self (show isSpace ',' = false from rfl), hitems, Option.map_some]

theorem parseFields_stringify : ∀ (key : String) (value : Json) (fields : List (String × Json))
    (fuel : Nat) (read : List (String × Json)) (rest : List Char),
    CanonicalFields ((key, value) :: fields) →
    ((read ++ (key, value) :: fields).map Prod.fst).Nodup →
    (stringifyFields ((key, value) :: fields)).length + 1 < fuel →
    parseFields fuel read (stringifyFields ((key, value) :: fields) ++ '}' :: rest) =
      some (read ++ (key, value) :: fields, rest)
  | _, _, _, 0, _, _, _, _, hfuel => absurd hfuel (Nat.not_lt_zero _)
  | key, value, [], fuel + 1, read, rest, hv, hnodup, hfuel => by
    have hkey := parseString_quote key.toList (':' :: (stringify value ++ '}' :: rest))
    have hends : Ends ('}' :: rest) := ends_cons rfl rest
    have hfresh := key_fresh hnodup
    rw [stringifyFields, quote, List.length_append, List.length_cons] at hfuel
    have hvalue : parseValue fuel (stringify value ++ '}' :: rest) = _ :=
      parseValue_stringify value hv.1 (by omega) hends
    rw [parseFields, stringifyFields, quote]
    simp only [List.cons_append, List.append_assoc, List.nil_append,
      expect_self (show isSpace '"' = false from rfl), Option.bind_eq_bind, Option.bind_some,
      hkey, expect_self (show isSpace ':' = false from rfl), hvalue,
      expect_other (show isSpace '}' = false from rfl) (show '}' ≠ ',' by decide),
      expect_self (show isSpace '}' = false from rfl), Option.map_some, String.ofList_toList,
      OrdMap.setIn_fresh value hfresh]
  | key, value, (key', value') :: fields, fuel + 1, read, rest, hv, hnodup, hfuel => by
    have hkey := parseString_quote key.toList (':' :: (stringify value ++
      ',' :: (stringifyFields ((key', value') :: fields) ++ '}' :: rest)))
    have hends : Ends (',' :: (stringifyFields ((key', value') :: fields) ++ '}' :: rest)) :=
      ends_cons rfl _
    have hfresh := key_fresh hnodup
    rw [stringifyFields, quote, List.length_append, List.length_cons, List.length_append,
      List.length_cons] at hfuel
    have hvalue : parseValue fuel (stringify value ++
        ',' :: (stringifyFields ((key', value') :: fields) ++ '}' :: rest)) = _ :=
      parseValue_stringify value hv.1 (by omega) hends
    have hfields := parseFields_stringify key' value' fields fuel (read ++ [(key, value)]) rest
      hv.2 (by simpa using hnodup) (by omega)
    rw [List.append_assoc, List.singleton_append] at hfields
    rw [parseFields, stringifyFields, quote]
    simp only [List.cons_append, List.append_assoc, List.nil_append,
      expect_self (show isSpace '"' = false from rfl), Option.bind_eq_bind, Option.bind_some,
      hkey, expect_self (show isSpace ':' = false from rfl), hvalue,
      expect_self (show isSpace ',' = false from rfl), String.ofList_toList,
      OrdMap.setIn_fresh value hfresh, hfields]

end

/-- `JSON.parse(JSON.stringify(value))` is the value. -/
theorem parse_stringify {v : Json} (hv : v.Canonical) : parse (stringify v) = some v := by
  have hvalue : parseValue ((stringify v).length + 1) (stringify v ++ []) = some (v, []) :=
    parseValue_stringify v hv (Nat.lt_succ_self _) nofun
  rw [List.append_nil] at hvalue
  rw [parse, hvalue]
  rfl

/-! ## What `parse` returns can be written -/

theorem canonicalFields_setIn (key : String) {value : Json} (hvalue : value.Canonical) :
    ∀ {fields : List (String × Json)}, CanonicalFields fields →
      CanonicalFields (OrdMap.setIn key value fields)
  | [], _ => ⟨hvalue, trivial⟩
  | (other, _) :: rest, h => by
    unfold OrdMap.setIn
    split_ifs
    · exact ⟨hvalue, h.2⟩
    · exact ⟨h.1, canonicalFields_setIn key hvalue h.2⟩

theorem parseNumber_canonical {cs rest : List Char} {v : Json}
    (h : parseNumber cs = some (v, rest)) : v.Canonical := by
  unfold parseNumber at h
  dsimp only at h
  split_ifs at h with hliteral
  obtain ⟨rfl, -⟩ := Prod.mk.inj (Option.some.inj h)
  simpa [Canonical] using hliteral

mutual

theorem parseValue_canonical : ∀ (fuel : Nat) {cs rest : List Char} {v : Json},
    parseValue fuel cs = some (v, rest) → v.Canonical
  | 0, _, _, _, h => by cases h
  | fuel + 1, cs, rest, v, h => by
    unfold parseValue at h
    split at h
    · obtain ⟨rfl, -⟩ := Prod.mk.inj (Option.some.inj h)
      trivial
    · obtain ⟨rfl, -⟩ := Prod.mk.inj (Option.some.inj h)
      trivial
    · obtain ⟨rfl, -⟩ := Prod.mk.inj (Option.some.inj h)
      trivial
    · obtain ⟨p, -, hp⟩ := Option.map_eq_some_iff.mp h
      obtain ⟨rfl, -⟩ := Prod.mk.inj hp
      trivial
    · split at h
      · obtain ⟨rfl, -⟩ := Prod.mk.inj (Option.some.inj h)
        trivial
      · obtain ⟨p, hitems, hp⟩ := Option.map_eq_some_iff.mp h
        obtain ⟨rfl, -⟩ := Prod.mk.inj hp
        exact parseItems_canonical fuel hitems
    · split at h
      · obtain ⟨rfl, -⟩ := Prod.mk.inj (Option.some.inj h)
        exact ⟨List.nodup_nil, trivial⟩
      · obtain ⟨p, hfields, hp⟩ := Option.map_eq_some_iff.mp h
        obtain ⟨rfl, -⟩ := Prod.mk.inj hp
        have hempty : (([] : List (String × Json)).map Prod.fst).Nodup := List.nodup_nil
        exact parseFields_canonical fuel hempty trivial hfields
    · exact parseNumber_canonical h

theorem parseItems_canonical : ∀ (fuel : Nat) {cs : List Char} {p : List Json × List Char},
    parseItems fuel cs = some p → CanonicalItems p.1
  | 0, _, _, h => by cases h
  | fuel + 1, cs, p, h => by
    unfold parseItems at h
    split at h
    · cases h
    · rename_i item rest hitem
      have hcanonical := parseValue_canonical fuel hitem
      split at h
      · obtain ⟨q, hitems, rfl⟩ := Option.map_eq_some_iff.mp h
        exact ⟨hcanonical, parseItems_canonical fuel hitems⟩
      · obtain ⟨rest, -, rfl⟩ := Option.map_eq_some_iff.mp h
        exact ⟨hcanonical, trivial⟩

theorem parseFields_canonical : ∀ (fuel : Nat) {fields : List (String × Json)} {cs : List Char}
    {p : List (String × Json) × List Char}, (fields.map Prod.fst).Nodup → CanonicalFields fields →
    parseFields fuel fields cs = some p → (p.1.map Prod.fst).Nodup ∧ CanonicalFields p.1
  | 0, _, _, _, _, _, h => by cases h
  | fuel + 1, fields, cs, p, hnodup, hfields, h => by
    unfold parseFields at h
    obtain ⟨afterQuote, -, h⟩ := Option.bind_eq_some_iff.mp h
    obtain ⟨⟨key, afterKey⟩, -, h⟩ := Option.bind_eq_some_iff.mp h
    obtain ⟨afterColon, -, h⟩ := Option.bind_eq_some_iff.mp h
    obtain ⟨⟨value, rest⟩, hvalue, h⟩ := Option.bind_eq_some_iff.mp h
    have hset := OrdMap.nodup_setIn (String.ofList key) value hnodup
    have hsetFields := canonicalFields_setIn (String.ofList key)
      (parseValue_canonical fuel hvalue) hfields
    dsimp only at h
    split at h
    · exact parseFields_canonical fuel hset hsetFields h
    · obtain ⟨rest, -, rfl⟩ := Option.map_eq_some_iff.mp h
      exact ⟨hset, hsetFields⟩

end

theorem parse_canonical {text : List Char} {v : Json} (h : parse text = some v) :
    v.Canonical := by
  unfold parse at h
  split at h
  · cases h
  · rename_i value rest hvalue
    split_ifs at h
    obtain rfl := Option.some.inj h
    exact parseValue_canonical _ hvalue

/-! ## One line -/

theorem escapeChar_no_newline (c : Char) : '\n' ∉ escapeChar c := by
  have hdigit : ∀ n : Fin 16, hexDigit n ≠ '\n' := by decide
  unfold escapeChar
  split_ifs with hquote hback hn hr ht hb hf hcontrol
  · decide
  · decide
  · decide
  · decide
  · decide
  · decide
  · decide
  · have hhigh := hdigit ⟨c.toNat / 16, by omega⟩
    have hlow := hdigit ⟨c.toNat % 16, by omega⟩
    simp [hhigh.symm, hlow.symm]
  · simpa using fun h => hn h.symm

theorem quote_no_newline (s : String) : '\n' ∉ quote s := by
  intro h
  rw [quote, List.cons_append, List.mem_cons, List.mem_append, List.mem_flatMap] at h
  rcases h with h | ⟨c, -, h⟩ | h
  · exact absurd h (by decide)
  · exact escapeChar_no_newline c h
  · exact absurd h (by decide)

mutual

/-- A text without indentation is one line. -/
theorem stringify_no_newline : ∀ {v : Json}, v.Canonical → '\n' ∉ stringify v
  | .null, _ => by decide
  | .bool true, _ => by decide
  | .bool false, _ => by decide
  | .num text, hv => fun h => nomatch isNumberLiteral.all hv _ h
  | .str s, _ => quote_no_newline s
  | .arr items, hv => by
    have hitems := stringifyItems_no_newline hv
    simpa [stringify] using hitems
  | .obj fields, hv => by
    have hfields := stringifyFields_no_newline hv.2
    simpa [stringify] using hfields

theorem stringifyItems_no_newline : ∀ {items : List Json}, CanonicalItems items →
    '\n' ∉ stringifyItems items
  | [], _ => by decide
  | [_], h => stringify_no_newline h.1
  | item :: item' :: items, h => by
    have hitem := stringify_no_newline h.1
    have hitems := stringifyItems_no_newline h.2
    simp [stringifyItems, hitem, hitems]

theorem stringifyFields_no_newline : ∀ {fields : List (String × Json)}, CanonicalFields fields →
    '\n' ∉ stringifyFields fields
  | [], _ => by decide
  | [(key, value)], h => by
    have hvalue := stringify_no_newline h.1
    simp [stringifyFields, quote_no_newline, hvalue]
  | (key, value) :: field :: fields, h => by
    have hvalue := stringify_no_newline h.1
    have hfields := stringifyFields_no_newline h.2
    simp [stringifyFields, quote_no_newline, hvalue, hfields]

end

end Json

end Eagent
