import Mathlib.Data.List.Basic

/-!
# JSON values

The JSON-compatible values the program passes around: tool-call
arguments, the `details` of entries, the payloads redaction walks over.
A number is kept as the text JavaScript prints for it, so nothing below
depends on floating point.

`Json.stringify` is `JSON.stringify` without indentation; its length is
what the token estimate counts.
-/

namespace Eagent

/-- A JSON-compatible value; object fields in insertion order. -/
inductive Json where
  | null
  | bool (b : Bool)
  | num (text : String)
  | str (s : String)
  | arr (items : List Json)
  | obj (fields : List (String × Json))
deriving Repr, Inhabited

namespace Json

/-! ## Decidable equality -/

mutual

def beq : Json → Json → Bool
  | .null, .null => true
  | .bool a, .bool b => a == b
  | .num a, .num b => a == b
  | .str a, .str b => a == b
  | .arr as, .arr bs => beqItems as bs
  | .obj as, .obj bs => beqFields as bs
  | _, _ => false

def beqItems : List Json → List Json → Bool
  | [], [] => true
  | a :: as, b :: bs => beq a b && beqItems as bs
  | _, _ => false

def beqFields : List (String × Json) → List (String × Json) → Bool
  | [], [] => true
  | (k, a) :: as, (l, b) :: bs => k == l && beq a b && beqFields as bs
  | _, _ => false

end

mutual

theorem beq_iff : ∀ a b : Json, beq a b = true ↔ a = b
  | .null, b => by cases b <;> simp [beq]
  | .bool x, b => by cases b <;> simp [beq]
  | .num x, b => by cases b <;> simp [beq]
  | .str x, b => by cases b <;> simp [beq]
  | .arr xs, b => by cases b <;> simp [beq, beqItems_iff xs]
  | .obj xs, b => by cases b <;> simp [beq, beqFields_iff xs]

theorem beqItems_iff : ∀ as bs : List Json, beqItems as bs = true ↔ as = bs
  | [], bs => by cases bs <;> simp [beqItems]
  | a :: as, bs => by cases bs <;> simp [beqItems, beq_iff a, beqItems_iff as]

theorem beqFields_iff : ∀ as bs : List (String × Json),
    beqFields as bs = true ↔ as = bs
  | [], bs => by cases bs <;> simp [beqFields]
  | (k, a) :: as, bs => by
    cases bs <;> simp [beqFields, beq_iff a, beqFields_iff as, Prod.ext_iff]

end

instance : DecidableEq Json := fun a b => decidable_of_iff _ (beq_iff a b)

/-! ## Printing -/

/-- A lower-case hexadecimal digit. -/
def hexDigit (n : Nat) : Char :=
  if n < 10 then Char.ofNat (48 + n) else Char.ofNat (87 + n)

/-- One character of a string literal, escaped as `JSON.stringify` does. -/
def escapeChar (c : Char) : List Char :=
  if c = '"' then ['\\', '"']
  else if c = '\\' then ['\\', '\\']
  else if c = '\n' then ['\\', 'n']
  else if c = '\r' then ['\\', 'r']
  else if c = '\t' then ['\\', 't']
  else if c.toNat = 8 then ['\\', 'b']
  else if c.toNat = 12 then ['\\', 'f']
  else if c.toNat < 32 then
    ['\\', 'u', '0', '0', hexDigit (c.toNat / 16), hexDigit (c.toNat % 16)]
  else [c]

def quote (s : String) : List Char :=
  '"' :: s.toList.flatMap escapeChar ++ ['"']

mutual

/-- `JSON.stringify(value)`, as a list of characters. -/
def stringify : Json → List Char
  | .null => ['n', 'u', 'l', 'l']
  | .bool true => ['t', 'r', 'u', 'e']
  | .bool false => ['f', 'a', 'l', 's', 'e']
  | .num text => text.toList
  | .str s => quote s
  | .arr items => '[' :: stringifyItems items ++ [']']
  | .obj fields => '{' :: stringifyFields fields ++ ['}']

def stringifyItems : List Json → List Char
  | [] => []
  | [x] => stringify x
  | x :: y :: rest => stringify x ++ ',' :: stringifyItems (y :: rest)

def stringifyFields : List (String × Json) → List Char
  | [] => []
  | [(k, v)] => quote k ++ ':' :: stringify v
  | (k, v) :: f :: rest =>
      quote k ++ ':' :: stringify v ++ ',' :: stringifyFields (f :: rest)

end

end Json

/-- `String.prototype.length`: a character outside the basic plane counts
as two UTF-16 code units. -/
def utf16Length (cs : List Char) : Nat :=
  cs.foldl (fun n c => n + if c.toNat < 0x10000 then 1 else 2) 0

end Eagent
