import Mathlib.Data.List.Basic

/-!
# Stripping escape sequences

`stripAnsi` removes what a regular expression matches. A matcher backtracks:
`Pattern.ends` lists what is left of a text after each way of matching, in
the order in which the ways are tried, and the first of them is the match.
-/

namespace Eagent

/-- The regular expressions that are needed. -/
inductive Pattern where
  | empty
  | one (p : Char → Bool)
  | seq (a b : Pattern)
  | alt (a b : Pattern)
  /-- `a?` -/
  | optional (a : Pattern)
  /-- `a*` -/
  | many (a : Pattern)
  /-- `a*?` -/
  | fewest (a : Pattern)

namespace Pattern

/-- `a*`: as often as possible; a turn that takes nothing is none. -/
def manyEnds (ends : List Char → List (List Char)) : Nat → List Char → List (List Char)
  | 0, text => [text]
  | n + 1, text =>
      ((ends text).filter fun rest => rest.length < text.length).flatMap (manyEnds ends n) ++ [text]

/-- `a*?`: as seldom as possible. -/
def fewestEnds (ends : List Char → List (List Char)) : Nat → List Char → List (List Char)
  | 0, text => [text]
  | n + 1, text =>
      text :: ((ends text).filter fun rest => rest.length < text.length).flatMap (fewestEnds ends n)

def ends : Pattern → List Char → List (List Char)
  | .empty, text => [text]
  | .one p, text =>
      match text with
      | c :: rest => if p c then [rest] else []
      | [] => []
  | .seq a b, text => (a.ends text).flatMap b.ends
  | .alt a b, text => a.ends text ++ b.ends text
  | .optional a, text => a.ends text ++ [text]
  | .many a, text => manyEnds a.ends text.length text
  | .fewest a, text => fewestEnds a.ends text.length text

/-- `a{0,n}` -/
def upTo (a : Pattern) : Nat → Pattern
  | 0 => .empty
  | n + 1 => .optional (.seq a (upTo a n))

/-- `text.replace(a, "")` of a global `a` that matches no empty text. -/
def removeAllFrom (a : Pattern) : Nat → List Char → List Char
  | _, [] => []
  | 0, text => text
  | n + 1, c :: text =>
      match (a.ends (c :: text)).head? with
      | some rest => removeAllFrom a n rest
      | none => c :: removeAllFrom a n text

def removeAll (a : Pattern) (text : List Char) : List Char := a.removeAllFrom text.length text

end Pattern

/-! ## The expression -/

namespace AnsiRegex

open Pattern

def escape : Char := '\u001b'

def csiIntroducer : Char := '\u009b'

def char (c : Char) : Pattern := .one (· == c)

def digit : Pattern := .one Char.isDigit

/-- `(?:\u0007|\u001B\u005C|\u009C)` -/
def ST : Pattern := .alt (char '\u0007') (.alt (.seq (char escape) (char '\\')) (char '\u009c'))

/-- `(?:\u001B\][\s\S]*?ST)` -/
def osc : Pattern :=
  .seq (char escape) (.seq (char ']') (.seq (.fewest (.one fun _ => true)) ST))

/-- `[\dA-PR-TZcf-nq-uy=><~]` -/
def isFinal (c : Char) : Bool :=
  c.isDigit || ('A' ≤ c && c ≤ 'P') || ('R' ≤ c && c ≤ 'T') || c == 'Z' || c == 'c' ||
    ('f' ≤ c && c ≤ 'n') || ('q' ≤ c && c ≤ 'u') || c == 'y' || c == '=' || c == '>' ||
    c == '<' || c == '~'

/-- `[\u001B\u009B][[\]()#;?]*(?:\d{1,4}(?:[;:]\d{0,4})*)?[\dA-PR-TZcf-nq-uy=><~]` -/
def csi : Pattern :=
  .seq (.one fun c => c == escape || c == csiIntroducer)
    (.seq (.many (.one fun c => "[]()#;?".toList.contains c))
      (.seq
        (.optional (.seq digit (.seq (upTo digit 3)
          (.many (.seq (.one fun c => c == ';' || c == ':') (upTo digit 4))))))
        (.one isFinal)))

def pattern : Pattern := .alt osc csi

end AnsiRegex

open AnsiRegex

def stripAnsi (value : List Char) : List Char :=
  if escape ∉ value ∧ csiIntroducer ∉ value then value else pattern.removeAll value

example : stripAnsi "a\u001b[31mred\u001b]0;t\u0007!".toList = "ared!".toList := by decide

end Eagent
