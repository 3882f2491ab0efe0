import Eagent.JsonText

/-!
# The grammar of JSON texts

JSON texts by the grammar of the standard, over UTF-16 units. A text is a
list of parts: units outside strings, and string literals, whose content is
opaque to the grammar of values (`Derives`) and has a grammar of its own
(`StringContent`). So a text stays a JSON text when the contents of its
literals are replaced (`IsJsonParts.replace`).
-/

namespace JsonGrammar

abbrev Units := List UInt16

def quote : UInt16 := 0x22

def backslash : UInt16 := 0x5c

/-! ## String literals -/

def isControl (u : UInt16) : Bool := u ≤ 0x1f

/-- `[0-9a-fA-F]` -/
def isHex (u : UInt16) : Bool :=
  (0x30 ≤ u && u ≤ 0x39) || (0x61 ≤ u && u ≤ 0x66) || (0x41 ≤ u && u ≤ 0x46)

/-- The units that make an escape of two units: `" \ / b f n r t`. -/
def shortEscapes : List UInt16 := [quote, backslash, 0x2f, 0x62, 0x66, 0x6e, 0x72, 0x74]

/-- `u` -/
def unicodeEscape : UInt16 := 0x75

/-- What stands between the quotes of a string literal. -/
inductive StringContent : Units → Prop where
  | nil : StringContent []
  | plain {u : UInt16} {rest : Units} (hquote : u ≠ quote) (hbackslash : u ≠ backslash)
      (hcontrol : isControl u = false) : StringContent rest → StringContent (u :: rest)
  | short {u : UInt16} {rest : Units} (hshort : u ∈ shortEscapes) :
      StringContent rest → StringContent (backslash :: u :: rest)
  | unicode {a b c d : UInt16} {rest : Units}
      (hhex : [a, b, c, d].all isHex = true) :
      StringContent rest → StringContent (backslash :: unicodeEscape :: a :: b :: c :: d :: rest)

/-! ## Parts and symbols -/

/-- A unit that is not a quote, or a whole string literal. -/
inductive Part where
  | outside (unit : UInt16) (hquote : unit ≠ quote)
  | literal (content : Units)

def Part.render : Part → Units
  | .outside unit _ => [unit]
  | .literal content => quote :: content ++ [quote]

def render (parts : List Part) : Units := parts.flatMap Part.render

/-- What the grammar of values sees of a part: its unit, or that it is a
string. -/
def Part.symbol : Part → Option UInt16
  | .outside unit _ => some unit
  | .literal _ => none

abbrev Symbols := List (Option UInt16)

def word (s : String) : Symbols := s.toList.map fun c => some c.toNat.toUInt16

def IsSpace (symbols : Symbols) : Prop :=
  ∀ x ∈ symbols, x ∈ ([some 0x20, some 0x0a, some 0x0d, some 0x09] : Symbols)

inductive Nonterminal where
  | value
  | element
  | elements
  | members

/-- `value`, `element` (a value between white space), `elements` and
`members` (separated by commas). -/
inductive Derives : Nonterminal → Symbols → Prop where
  | null : Derives .value (word "null")
  | true : Derives .value (word "true")
  | false : Derives .value (word "false")
  | number {literal : List Char} (h : Eagent.Json.isNumberLiteral literal = Bool.true) :
      Derives .value (literal.map fun c => some c.toNat.toUInt16)
  | string : Derives .value [none]
  | emptyArray {space : Symbols} (h : IsSpace space) :
      Derives .value (word "[" ++ space ++ word "]")
  | array {items : Symbols} (h : Derives .elements items) :
      Derives .value (word "[" ++ items ++ word "]")
  | emptyObject {space : Symbols} (h : IsSpace space) :
      Derives .value (word "\x7b" ++ space ++ word "\x7d")
  | object {fields : Symbols} (h : Derives .members fields) :
      Derives .value (word "\x7b" ++ fields ++ word "\x7d")
  | element {before value after : Symbols} (hbefore : IsSpace before)
      (hvalue : Derives .value value) (hafter : IsSpace after) :
      Derives .element (before ++ value ++ after)
  | lastElement {item : Symbols} (h : Derives .element item) : Derives .elements item
  | moreElements {item items : Symbols} (hitem : Derives .element item)
      (hitems : Derives .elements items) : Derives .elements (item ++ word "," ++ items)
  | lastMember {before after value : Symbols} (hbefore : IsSpace before) (hafter : IsSpace after)
      (hvalue : Derives .element value) :
      Derives .members (before ++ [none] ++ after ++ word ":" ++ value)
  | moreMembers {before after value fields : Symbols} (hbefore : IsSpace before)
      (hafter : IsSpace after) (hvalue : Derives .element value)
      (hfields : Derives .members fields) :
      Derives .members (before ++ [none] ++ after ++ word ":" ++ value ++ word "," ++ fields)

def Part.WellFormed : Part → Prop
  | .outside _ _ => True
  | .literal content => StringContent content

/-- Parts whose symbols derive from `element`. -/
structure IsJsonParts (parts : List Part) : Prop where
  derives : Derives .element (parts.map Part.symbol)
  wellFormed : ∀ part ∈ parts, part.WellFormed

def IsJson (text : Units) : Prop := ∃ parts, IsJsonParts parts ∧ render parts = text

/-! ## Small facts -/

@[simp] theorem render_nil : render [] = [] := rfl

@[simp] theorem render_outside (unit : UInt16) (hquote : unit ≠ quote) (rest : List Part) :
    render (.outside unit hquote :: rest) = unit :: render rest := rfl

@[simp] theorem render_literal (content : Units) (rest : List Part) :
    render (.literal content :: rest) = quote :: (content ++ quote :: render rest) := by
  simp [render, Part.render]

theorem StringContent.append {as bs : Units} (ha : StringContent as) (hb : StringContent bs) :
    StringContent (as ++ bs) := by
  induction ha with
  | nil => exact hb
  | plain hquote hbackslash hcontrol _ ih => exact .plain hquote hbackslash hcontrol ih
  | short hshort _ ih => exact .short hshort ih
  | unicode hhex _ ih => exact .unicode hhex ih

theorem StringContent.of_cons {u : UInt16} {rest : Units} (h : StringContent (u :: rest))
    (hu : u ≠ backslash) : u ≠ quote ∧ isControl u = false ∧ StringContent rest := by
  cases h with
  | plain hquote _ hcontrol hrest => exact ⟨hquote, hcontrol, hrest⟩
  | short _ _ => exact absurd rfl hu
  | unicode _ _ => exact absurd rfl hu

/-- A hexadecimal digit is a plain unit. -/
theorem plain_of_isHex {u : UInt16} (h : isHex u = true) :
    u ≠ quote ∧ u ≠ backslash ∧ isControl u = false := by
  have hrange : 0x1f < u ∧ u ≠ quote ∧ u ≠ backslash := by
    simp only [isHex, Bool.or_eq_true, Bool.and_eq_true, decide_eq_true_eq] at h
    simp only [quote, backslash, ne_eq, UInt16.lt_iff_toNat_lt, UInt16.le_iff_toNat_le,
      ← UInt16.toNat_inj, UInt16.toNat_ofNat] at h ⊢
    omega
  refine ⟨hrange.2.1, hrange.2.2, ?_⟩
  rw [isControl, decide_eq_false_iff_not, UInt16.not_le]
  exact hrange.1

theorem isControl_of_short {u : UInt16} (h : u ∈ shortEscapes) : isControl u = false := by
  simp only [shortEscapes, List.mem_cons, List.not_mem_nil, or_false] at h
  rcases h with rfl | rfl | rfl | rfl | rfl | rfl | rfl | rfl <;> rfl

theorem IsJsonParts.replace {parts parts' : List Part} (h : IsJsonParts parts)
    (hsymbols : parts'.map Part.symbol = parts.map Part.symbol)
    (hwell : ∀ part ∈ parts', part.WellFormed) : IsJsonParts parts' :=
  ⟨by rw [hsymbols]; exact h.derives, hwell⟩

end JsonGrammar
