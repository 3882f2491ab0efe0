import Eagent.JsonGrammar

/-!
# Repair of JSON texts

`repairJson`: raw control characters inside string literals are escaped, and
a backslash that starts no escape is doubled. It does so for every backslash
except one before `u` without four hexadecimal digits; without such a
backslash it reaches its goal (`repairJson_meets_iff`).
-/

namespace Eagent

open JsonGrammar

namespace Ai

/-! ## The repair -/

/-- `/^[0-9a-fA-F]{4}$/` on the next four units. -/
def fourHex (text : Units) : Bool := (text.take 4).length = 4 && (text.take 4).all isHex

def VALID_JSON_ESCAPES : List UInt16 := shortEscapes ++ [unicodeEscape]

/-- How many units behind a backslash are copied with it; `none` where it is
doubled. -/
def copiedAfter (rest : Units) : Option Nat :=
  match rest with
  | [] => none
  | nextChar :: more =>
      if nextChar = unicodeEscape ∧ fourHex more = true then some 5
      else if nextChar ∈ VALID_JSON_ESCAPES then some 1
      else none

/-- A digit of `toString(16)`. -/
def hexUnit (n : Nat) : UInt16 := if n < 10 then (0x30 + n).toUInt16 else (0x57 + n).toUInt16

def escapeControlCharacter (char : UInt16) : Units :=
  if char = 0x08 then [backslash, 0x62]
  else if char = 0x0c then [backslash, 0x66]
  else if char = 0x0a then [backslash, 0x6e]
  else if char = 0x0d then [backslash, 0x72]
  else if char = 0x09 then [backslash, 0x74]
  else [backslash, unicodeEscape, 0x30, 0x30, hexUnit (char.toNat / 16), hexUnit (char.toNat % 16)]

/-- The loop over the units; the number counts units that belong to the
escape before and are copied, which the source skips by moving its index. -/
def repairLoop : Bool → Nat → Units → Units
  | _, _, [] => []
  | inString, copied + 1, char :: rest => char :: repairLoop inString copied rest
  | false, 0, char :: rest => char :: repairLoop (char = quote) 0 rest
  | true, 0, char :: rest =>
      if char = quote then char :: repairLoop false 0 rest
      else if char = backslash then
        match copiedAfter rest with
        | some copied => backslash :: repairLoop true copied rest
        | none => backslash :: backslash :: repairLoop true 0 rest
      else if isControl char then escapeControlCharacter char ++ repairLoop true 0 rest
      else char :: repairLoop true 0 rest

def repairJson (json : Units) : Units := repairLoop false 0 json

/-! ## What the repair is for -/

def escapeLength (rest : Units) : Option Nat :=
  match rest with
  | [] => none
  | nextChar :: more =>
      if nextChar = unicodeEscape then if fourHex more then some 5 else none
      else if nextChar ∈ shortEscapes then some 1
      else none

/-- Inside string literals every backslash starts an escape, and no control
character occurs; the number counts units of the escape before. -/
def wellEscaped : Bool → Nat → Units → Bool
  | _, _, [] => true
  | inString, skipped + 1, _ :: rest => wellEscaped inString skipped rest
  | false, 0, char :: rest => wellEscaped (char = quote) 0 rest
  | true, 0, char :: rest =>
      if char = quote then wellEscaped false 0 rest
      else if char = backslash then
        match escapeLength rest with
        | some skipped => wellEscaped true skipped rest
        | none => false
      else !isControl char && wellEscaped true 0 rest

/-- A literal's content with units inserted: control characters, and
backslashes that neither the closing quote nor a backslash follows. Where a
backslash escapes a quote or a backslash the two stay together. -/
inductive Inserted : Units → Units → Prop where
  | nil : Inserted [] []
  | control {u : UInt16} {v x : Units} (hcontrol : isControl u = true) :
      Inserted v x → Inserted v (u :: x)
  | stray {u : UInt16} {v x : Units} (hquote : u ≠ quote) (hbackslash : u ≠ backslash) :
      Inserted v (u :: x) → Inserted v (backslash :: u :: x)
  | unit {u : UInt16} {v x : Units} (hbackslash : u ≠ backslash) :
      Inserted v x → Inserted (u :: v) (u :: x)
  | escaped {u : UInt16} {v x : Units} (hu : u = quote ∨ u = backslash) :
      Inserted v x → Inserted (backslash :: u :: v) (backslash :: u :: x)
  | escape {u : UInt16} {v x : Units} (hquote : u ≠ quote) (hbackslash : u ≠ backslash) :
      Inserted (u :: v) x → Inserted (backslash :: u :: v) (backslash :: x)

/-- Parts of which the literals have insertions. -/
inductive InsertedPart : Part → Part → Prop where
  | outside (unit : UInt16) (hquote : unit ≠ quote) :
      InsertedPart (.outside unit hquote) (.outside unit hquote)
  | literal {v x : Units} (h : Inserted v x) : InsertedPart (.literal v) (.literal x)

/-- A text obtained from a JSON text by insertions inside its literals. -/
def IsDamagedJson (json : Units) : Prop :=
  ∃ parts parts', IsJsonParts parts ∧ List.Forall₂ InsertedPart parts parts' ∧ render parts' = json

/-- The goal of the repair, at one input. -/
structure RepairMeets (json : Units) : Prop where
  damaged : IsDamagedJson json → IsJson (repairJson json)
  escaped : wellEscaped false 0 (repairJson json) = true
  identity : IsJson json → repairJson json = json

/-- Inside a string literal a backslash that is not escaped itself stands
before `u` without four hexadecimal digits. -/
def bareUnicode : Bool → Nat → Units → Bool
  | _, _, [] => false
  | inString, copied + 1, _ :: rest => bareUnicode inString copied rest
  | false, 0, char :: rest => bareUnicode (char = quote) 0 rest
  | true, 0, char :: rest =>
      if char = quote then bareUnicode false 0 rest
      else if char = backslash then
        match copiedAfter rest with
        | some copied =>
            (rest.head? = some unicodeEscape && copied = 1) || bareUnicode true copied rest
        | none => bareUnicode true 0 rest
      else bareUnicode true 0 rest

/-! ## The result is well escaped -/

/-- The next `k` units are hexadecimal digits. -/
def hexRun (k : Nat) (text : Units) : Bool := (text.take k).length = k && (text.take k).all isHex

theorem hexRun_cons (k : Nat) (u : UInt16) (rest : Units) :
    hexRun (k + 1) (u :: rest) = (isHex u && hexRun k rest) := by
  rw [hexRun, hexRun, List.take_succ_cons, List.length_cons, List.all_cons]
  simp only [Nat.add_right_cancel_iff]
  cases isHex u <;> simp

theorem fourHex_eq (text : Units) : fourHex text = hexRun 4 text := rfl

variable {u : UInt16}

theorem hexRun_of_not_hex {k : Nat} (h : isHex u = false) (rest : Units) :
    hexRun (k + 1) (u :: rest) = false := by
  rw [hexRun_cons, h, Bool.false_and]

theorem escapeControlCharacter_content (h : isControl u = true) :
    StringContent (escapeControlCharacter u) := by
  have hdigit : ∀ n : Fin 16, isHex (hexUnit n) = true := by decide
  have hle : u.toNat < 32 := by
    have := of_decide_eq_true h
    rw [UInt16.le_iff_toNat_le] at this
    exact Nat.lt_succ_of_le this
  unfold escapeControlCharacter
  split_ifs
  · exact .short (by decide) .nil
  · exact .short (by decide) .nil
  · exact .short (by decide) .nil
  · exact .short (by decide) .nil
  · exact .short (by decide) .nil
  · refine .unicode ?_ .nil
    have hhigh := hdigit ⟨u.toNat / 16, by omega⟩
    have hlow := hdigit ⟨u.toNat % 16, by omega⟩
    simp only [List.all_cons, List.all_nil, hhigh, hlow]
    rfl

theorem escapeControlCharacter_cons (u : UInt16) :
    ∃ rest, escapeControlCharacter u = backslash :: rest := by
  unfold escapeControlCharacter
  split_ifs <;> exact ⟨_, rfl⟩

/-- Only a digit comes out as a digit. -/
theorem hexRun_repairLoop :
    ∀ (k : Nat) (text : Units), hexRun k (repairLoop true 0 text) = hexRun k text
  | 0, _ => rfl
  | k + 1, [] => rfl
  | k + 1, u :: rest => by
    have hbackslash : isHex backslash = false := by decide
    rw [repairLoop]
    split_ifs with hquote hslash hcontrol
    · have hhex : isHex u = false := by rw [hquote]; decide
      rw [hexRun_of_not_hex hhex, hexRun_of_not_hex hhex]
    · rw [hslash, hexRun_of_not_hex hbackslash]
      split <;> exact hexRun_of_not_hex hbackslash _
    · obtain ⟨tail, htail⟩ := escapeControlCharacter_cons u
      have hhex : isHex u = false := by
        by_contra hhex
        rw [Bool.not_eq_false] at hhex
        rw [(plain_of_isHex hhex).2.2] at hcontrol
        cases hcontrol
      rw [htail, List.cons_append, hexRun_of_not_hex hbackslash, hexRun_of_not_hex hhex]
    · rw [hexRun_cons, hexRun_cons, hexRun_repairLoop k rest]

theorem hexRun_copied :
    ∀ (k n : Nat) (text : Units), k ≤ n → hexRun k (repairLoop true n text) = hexRun k text
  | 0, _, _, _ => rfl
  | k + 1, n, [], _ => by cases n <;> rfl
  | k + 1, n + 1, u :: rest, h => by
    rw [repairLoop, hexRun_cons, hexRun_cons, hexRun_copied k n rest (Nat.le_of_succ_le_succ h)]

theorem wellEscaped_content {content : Units} (h : StringContent content) (rest : Units) :
    wellEscaped true 0 (content ++ rest) = wellEscaped true 0 rest := by
  induction h with
  | nil => rfl
  | plain hquote hslash hcontrol _ ih =>
    rw [List.cons_append, wellEscaped, if_neg hquote, if_neg hslash, hcontrol, ih]
    rfl
  | @short u tail hshort _ ih =>
    have hlength : escapeLength (u :: (tail ++ rest)) = some 1 := by
      have hne : u ≠ unicodeEscape := by
        rintro rfl
        exact absurd hshort (by decide)
      rw [escapeLength, if_neg hne, if_pos hshort]
    rw [List.cons_append, List.cons_append, wellEscaped, if_neg (by decide), if_pos rfl, hlength]
    exact ih
  | @unicode a b c d tail hhex _ ih =>
    have hlength : escapeLength (unicodeEscape :: a :: b :: c :: d :: (tail ++ rest)) =
        some 5 := by
      have hfour : fourHex (a :: b :: c :: d :: (tail ++ rest)) = true := by
        rw [fourHex]
        simpa using hhex
      rw [escapeLength, if_pos rfl, if_pos hfour]
    simp only [List.cons_append]
    rw [wellEscaped, if_neg (by decide), if_pos rfl, hlength]
    exact ih

/-- Behind a backslash that is copied with what follows, the result has an
escape of the same length, except before a bare `u`. -/
theorem escapeLength_copied {rest : Units} {copied : Nat} (h : copiedAfter rest = some copied) :
    escapeLength (repairLoop true copied rest) =
      if rest.head? = some unicodeEscape ∧ copied = 1 then none else some copied := by
  cases rest with
  | nil => cases h
  | cons nextChar more =>
    rw [copiedAfter] at h
    split_ifs at h with hunicode hvalid
    · obtain ⟨rfl, hfour⟩ := hunicode
      obtain rfl := Option.some.inj h
      have hcopied : fourHex (repairLoop true 4 more) = true := by
        rw [fourHex_eq, hexRun_copied 4 4 more (Nat.le_refl _), ← fourHex_eq, hfour]
      rw [repairLoop, escapeLength, if_pos rfl, if_pos hcopied]
      rfl
    · obtain rfl := Option.some.inj h
      rw [repairLoop, escapeLength, fourHex_eq, hexRun_repairLoop, ← fourHex_eq]
      by_cases hu : nextChar = unicodeEscape
      · have hfour : ¬ fourHex more = true := fun hfour => hunicode ⟨hu, hfour⟩
        rw [if_pos hu, if_neg hfour, hu, if_pos ⟨rfl, rfl⟩]
      · have hshort : nextChar ∈ shortEscapes := by
          rcases List.mem_append.mp hvalid with hshort | hlast
          · exact hshort
          · exact absurd (List.mem_singleton.mp hlast) hu
        rw [if_neg hu, if_pos hshort, if_neg fun hhead => hu (Option.some.inj hhead.1)]

/-- The result is well escaped up to the first bare `u`. -/
theorem wellEscaped_repairLoop :
    ∀ (text : Units) (inString : Bool) (n : Nat),
      wellEscaped inString n (repairLoop inString n text) = !bareUnicode inString n text
  | [], inString, n => by
    cases inString <;> cases n <;> rfl
  | char :: rest, inString, n + 1 => by
    rw [repairLoop, wellEscaped, bareUnicode]
    exact wellEscaped_repairLoop rest inString n
  | char :: rest, false, 0 => by
    rw [repairLoop, wellEscaped, bareUnicode]
    exact wellEscaped_repairLoop rest _ 0
  | char :: rest, true, 0 => by
    rw [repairLoop, bareUnicode]
    split_ifs with hquote hslash hcontrol
    · rw [wellEscaped, if_pos hquote]
      exact wellEscaped_repairLoop rest false 0
    · cases hcopied : copiedAfter rest with
      | none =>
        -- the second backslash is the escape of the first
        have hdouble : escapeLength (backslash :: repairLoop true 0 rest) = some 1 := rfl
        dsimp only
        rw [wellEscaped, if_neg (by decide), if_pos rfl, hdouble]
        exact wellEscaped_repairLoop rest true 0
      | some copied =>
        dsimp only
        rw [wellEscaped, if_neg (by decide), if_pos rfl, escapeLength_copied hcopied]
        by_cases hbare : rest.head? = some unicodeEscape ∧ copied = 1
        · rw [if_pos hbare]
          simp [hbare.1, hbare.2]
        · have hskip := wellEscaped_repairLoop rest true copied
          rw [if_neg hbare]
          dsimp only
          rw [hskip]
          have hfalse : (decide (rest.head? = some unicodeEscape) && decide (copied = 1)) =
              false := by
            simpa using hbare
          rw [hfalse, Bool.false_or]
    · rw [wellEscaped_content (escapeControlCharacter_content hcontrol)]
      exact wellEscaped_repairLoop rest true 0
    · rw [wellEscaped, if_neg hquote, if_neg hslash, Bool.not_eq_true _ |>.mp hcontrol]
      exact wellEscaped_repairLoop rest true 0

/-! ## Valid texts stay as they are -/

theorem copiedAfter_short (h : u ∈ shortEscapes) (rest : Units) :
    copiedAfter (u :: rest) = some 1 := by
  have hne : u ≠ unicodeEscape := by
    rintro rfl
    exact absurd h (by decide)
  have hvalid : u ∈ VALID_JSON_ESCAPES := List.mem_append_left _ h
  rw [copiedAfter, if_neg fun hu => hne hu.1, if_pos hvalid]

theorem copiedAfter_unicode {more : Units} (h : fourHex more = true) :
    copiedAfter (unicodeEscape :: more) = some 5 := by
  rw [copiedAfter, if_pos ⟨rfl, h⟩]

theorem repairLoop_copied :
    ∀ (copied rest : Units) (inString : Bool),
      repairLoop inString copied.length (copied ++ rest) = copied ++ repairLoop inString 0 rest
  | [], _, _ => rfl
  | u :: copied, rest, inString => by
    rw [List.cons_append, List.length_cons, repairLoop, repairLoop_copied copied rest inString,
      List.cons_append]

theorem bareUnicode_copied :
    ∀ (copied rest : Units) (inString : Bool),
      bareUnicode inString copied.length (copied ++ rest) = bareUnicode inString 0 rest
  | [], _, _ => rfl
  | _ :: copied, rest, inString => bareUnicode_copied copied rest inString

theorem repairLoop_content {content : Units} (h : StringContent content) (rest : Units) :
    repairLoop true 0 (content ++ rest) = content ++ repairLoop true 0 rest := by
  induction h with
  | nil => rfl
  | plain hquote hslash hcontrol _ ih =>
    rw [List.cons_append, repairLoop, if_neg hquote, if_neg hslash, hcontrol, ih]
    rfl
  | @short u tail hshort _ ih =>
    have hcopied := repairLoop_copied [u] (tail ++ rest) true
    rw [List.cons_append, List.cons_append, repairLoop, if_neg (by decide), if_pos rfl,
      copiedAfter_short hshort]
    rw [List.singleton_append, ih] at hcopied
    exact congrArg (List.cons backslash) hcopied
  | @unicode a b c d tail hhex _ ih =>
    have hfour : fourHex (a :: b :: c :: d :: (tail ++ rest)) = true := by
      rw [fourHex]
      simpa using hhex
    have hcopied := repairLoop_copied [unicodeEscape, a, b, c, d] (tail ++ rest) true
    simp only [List.cons_append]
    rw [repairLoop, if_neg (by decide), if_pos rfl, copiedAfter_unicode hfour]
    rw [ih] at hcopied
    exact congrArg (List.cons backslash) hcopied

theorem repairLoop_render {parts : List Part} (h : ∀ part ∈ parts, part.WellFormed) :
    repairLoop false 0 (render parts) = render parts := by
  induction parts with
  | nil => rfl
  | cons part rest ih =>
    have hrest := ih fun other hother => h other (List.mem_cons_of_mem _ hother)
    cases part with
    | outside unit hquote =>
      rw [render_outside, repairLoop, decide_eq_false hquote, hrest]
    | literal content =>
      have hcontent : StringContent content := h _ List.mem_cons_self
      rw [render_literal, repairLoop, decide_eq_true rfl, repairLoop_content hcontent,
        repairLoop, if_pos rfl, hrest]

theorem repairJson_of_isJson {json : Units} (h : IsJson json) : repairJson json = json := by
  obtain ⟨parts, hparts, rfl⟩ := h
  exact repairLoop_render hparts.wellFormed

/-! ## Damaged texts become valid -/

theorem Inserted.of_unit {v x : Units} (h : Inserted v (u :: x)) (hcontrol : isControl u = false)
    (hslash : u ≠ backslash) :
    ∃ v', v = u :: v' ∧ Inserted v' x := by
  cases h with
  | control hu _ =>
    rw [hcontrol] at hu
    cases hu
  | stray _ _ _ => exact absurd rfl hslash
  | unit _ hrest => exact ⟨_, rfl, hrest⟩
  | escaped _ _ => exact absurd rfl hslash
  | escape _ _ _ => exact absurd rfl hslash

theorem Inserted.head_of_unit {v x : Units} (h : Inserted (u :: v) x) (hquote : u ≠ quote)
    (hslash : u ≠ backslash) :
    ∃ w x', x = w :: x' ∧ w ≠ quote ∧ (w = backslash → Inserted (u :: v) x') := by
  cases h with
  | @control w _ x' hcontrol hx =>
    refine ⟨w, x', rfl, ?_, fun _ => hx⟩
    rintro rfl
    exact absurd hcontrol (by decide)
  | stray _ _ hx => exact ⟨_, _, rfl, by decide, fun _ => hx⟩
  | unit _ _ => exact ⟨u, _, rfl, hquote, fun hu => absurd hu hslash⟩
  | escaped _ _ => exact absurd rfl hslash
  | escape _ _ _ => exact absurd rfl hslash

/-- Digits before the closing quote are digits of the content before the
insertions. -/
theorem Inserted.of_hexRun :
    ∀ {k : Nat} {v x tail : Units}, Inserted v x → StringContent v →
      hexRun k (x ++ quote :: tail) = true →
      ∃ digits v' x', digits.length = k ∧ digits.all isHex = true ∧ x = digits ++ x' ∧
        Inserted v' x' ∧ StringContent v'
  | 0, v, x, _, hx, hv, _ => ⟨[], v, x, rfl, rfl, rfl, hx, hv⟩
  | k + 1, v, [], tail, _, _, h => by
    rw [List.nil_append, hexRun_of_not_hex (by decide)] at h
    cases h
  | k + 1, v, u :: x, tail, hx, hv, h => by
    rw [List.cons_append, hexRun_cons, Bool.and_eq_true] at h
    obtain ⟨hhex, hrun⟩ := h
    obtain ⟨-, hslash, hcontrol⟩ := plain_of_isHex hhex
    obtain ⟨v', rfl, hx'⟩ := hx.of_unit hcontrol hslash
    obtain ⟨digits, v'', x', hlength, hall, rfl, hx'', hv''⟩ :=
      Inserted.of_hexRun hx' (hv.of_cons hslash).2.2 hrun
    refine ⟨u :: digits, v'', x', by rw [List.length_cons, hlength], ?_, rfl, hx'', hv''⟩
    rw [List.all_cons, hhex, hall]
    rfl

/-- The content that is repaired: it ends where the literal ends. -/
structure Repaired (tail x y : Units) : Prop where
  content : StringContent y
  result : repairLoop true 0 (x ++ quote :: tail) = y ++ quote :: repairLoop false 0 tail
  bare : bareUnicode false 0 tail = false

/-- A backslash with content behind it, in which a further backslash is an
insertion. -/
theorem repaired_backslash {tail v x : Units} (hv : StringContent v) (hx : Inserted v (u :: x))
    (hquote : u ≠ quote) (hslash : u = backslash → Inserted v x)
    (hbare : bareUnicode true 0 (backslash :: ((u :: x) ++ quote :: tail)) = false)
    (ih : ∀ {v' x' : Units}, x'.length ≤ x.length + 1 → StringContent v' → Inserted v' x' →
      bareUnicode true 0 (x' ++ quote :: tail) = false → ∃ y, Repaired tail x' y) :
    ∃ y, Repaired tail (backslash :: u :: x) y := by
  have hstep : repairLoop true 0 ((backslash :: u :: x) ++ quote :: tail) =
      match copiedAfter (u :: (x ++ quote :: tail)) with
      | some copied => backslash :: repairLoop true copied (u :: (x ++ quote :: tail))
      | none => backslash :: backslash :: repairLoop true 0 (u :: (x ++ quote :: tail)) := by
    rw [List.cons_append, List.cons_append, repairLoop, if_neg (by decide), if_pos rfl]
  rw [List.cons_append, bareUnicode, if_neg (by decide), if_pos rfl] at hbare
  cases hcopied : copiedAfter (u :: (x ++ quote :: tail)) with
  | none =>
    rw [hcopied] at hstep hbare
    obtain ⟨y, hy⟩ := ih (Nat.le_refl _) hv hx hbare
    refine ⟨backslash :: backslash :: y, .short (by decide) hy.content, ?_, hy.bare⟩
    have hresult := hy.result
    rw [List.cons_append] at hresult
    rw [hstep, hresult]
    rfl
  | some copied =>
    rw [hcopied] at hstep hbare
    dsimp only at hstep hbare
    rw [Bool.or_eq_false_iff] at hbare
    obtain ⟨hnot, hbare⟩ := hbare
    rw [copiedAfter] at hcopied
    split_ifs at hcopied with hunicode hvalid
    · obtain ⟨rfl, hfour⟩ := hunicode
      obtain rfl := Option.some.inj hcopied
      obtain ⟨v', rfl, hx'⟩ := hx.of_unit (by decide) (by decide)
      obtain ⟨digits, v'', x', hlength, hall, rfl, hx'', hv''⟩ :=
        hx'.of_hexRun (hv.of_cons (by decide)).2.2 hfour
      have htext : unicodeEscape :: (digits ++ x' ++ quote :: tail) =
          (unicodeEscape :: digits) ++ (x' ++ quote :: tail) := by
        rw [List.append_assoc, List.cons_append]
      have hcount : 5 = (unicodeEscape :: digits).length := by rw [List.length_cons, hlength]
      rw [htext, hcount, bareUnicode_copied] at hbare
      obtain ⟨y, hy⟩ := ih (by rw [List.length_append]; omega) hv'' hx'' hbare
      obtain ⟨a, b, c, d, rfl⟩ : ∃ a b c d, digits = [a, b, c, d] :=
        List.length_eq_four.mp hlength
      refine ⟨_, .unicode hall hy.content, ?_, hy.bare⟩
      rw [hstep, htext, hcount, repairLoop_copied, hy.result]
      rfl
    · obtain rfl := Option.some.inj hcopied
      have hu : u ≠ unicodeEscape := by
        rintro rfl
        simp at hnot
      have hshort : u ∈ shortEscapes := by
        rcases List.mem_append.mp hvalid with hshort | hlast
        · exact hshort
        · exact absurd (List.mem_singleton.mp hlast) hu
      have hcopied := repairLoop_copied [u] (x ++ quote :: tail) true
      have hbare' : bareUnicode true 0 (x ++ quote :: tail) = false := hbare
      have hrest : ∃ v', StringContent v' ∧ Inserted v' x := by
        by_cases hu' : u = backslash
        · exact ⟨v, hv, hslash hu'⟩
        · obtain ⟨v', rfl, hx'⟩ := hx.of_unit (isControl_of_short hshort) hu'
          exact ⟨v', (hv.of_cons hu').2.2, hx'⟩
      obtain ⟨v', hv', hx'⟩ := hrest
      obtain ⟨y, hy⟩ := ih (Nat.le_succ _) hv' hx' hbare'
      refine ⟨backslash :: u :: y, .short hshort hy.content, ?_, hy.bare⟩
      rw [List.singleton_append, hy.result] at hcopied
      rw [hstep]
      exact congrArg (List.cons backslash) hcopied

/-- Behind a backslash that escapes a unit other than a quote or a backslash,
that unit is plain. -/
theorem content_of_escape {v : Units} (h : StringContent (backslash :: u :: v)) (hquote : u ≠ quote)
    (hslash : u ≠ backslash) : StringContent (u :: v) := by
  cases h with
  | plain _ hne _ _ => exact absurd rfl hne
  | short hshort hv => exact .plain hquote hslash (isControl_of_short hshort) hv
  | @unicode a b c d rest hhex hv =>
    simp only [List.all_cons, List.all_nil, Bool.and_true, Bool.and_eq_true] at hhex
    obtain ⟨ha, hb, hc, hd⟩ := hhex
    obtain ⟨ha, ha', ha''⟩ := plain_of_isHex ha
    obtain ⟨hb, hb', hb''⟩ := plain_of_isHex hb
    obtain ⟨hc, hc', hc''⟩ := plain_of_isHex hc
    obtain ⟨hd, hd', hd''⟩ := plain_of_isHex hd
    exact .plain (by decide) (by decide) (by decide) (.plain ha ha' ha'' (.plain hb hb' hb''
      (.plain hc hc' hc'' (.plain hd hd' hd'' hv))))

theorem content_of_escaped {v : Units} (h : StringContent (backslash :: u :: v))
    (hu : u = quote ∨ u = backslash) : u ∈ shortEscapes ∧ StringContent v := by
  cases h with
  | plain _ hne _ _ => exact absurd rfl hne
  | short hshort hv => exact ⟨hshort, hv⟩
  | unicode _ _ => rcases hu with hu | hu <;> exact absurd hu (by decide)

theorem repaired_of_inserted {tail : Units} :
    ∀ (n : Nat) {v x : Units}, x.length ≤ n → StringContent v → Inserted v x →
      bareUnicode true 0 (x ++ quote :: tail) = false → ∃ y, Repaired tail x y := by
  intro n
  induction n with
  | zero =>
    intro v x hn _ _ hbare
    obtain rfl := List.length_eq_zero_iff.mp (Nat.le_zero.mp hn)
    exact ⟨[], .nil, rfl, hbare⟩
  | succ n ih =>
    intro v x hn hv hx hbare
    cases hx with
    | nil => exact ⟨[], .nil, rfl, hbare⟩
    | @control u _ x hcontrol hx =>
      have hquote : u ≠ quote := by
        rintro rfl
        exact absurd hcontrol (by decide)
      have hslash : u ≠ backslash := by
        rintro rfl
        exact absurd hcontrol (by decide)
      rw [List.cons_append, bareUnicode, if_neg hquote, if_neg hslash] at hbare
      obtain ⟨y, hy⟩ := ih (Nat.le_of_succ_le_succ hn) hv hx hbare
      refine ⟨_, (escapeControlCharacter_content hcontrol).append hy.content, ?_, hy.bare⟩
      rw [List.cons_append, repairLoop, if_neg hquote, if_neg hslash, if_pos hcontrol,
        hy.result, List.append_assoc]
    | @unit u v x hslash hx =>
      obtain ⟨hquote, hcontrol, hv⟩ := hv.of_cons hslash
      rw [List.cons_append, bareUnicode, if_neg hquote, if_neg hslash] at hbare
      obtain ⟨y, hy⟩ := ih (Nat.le_of_succ_le_succ hn) hv hx hbare
      refine ⟨u :: y, .plain hquote hslash hcontrol hy.content, ?_, hy.bare⟩
      rw [List.cons_append, repairLoop, if_neg hquote, if_neg hslash, hcontrol, hy.result]
      rfl
    | @escaped u v x hu hx =>
      obtain ⟨hshort, hv⟩ := content_of_escaped hv hu
      have hne : u ≠ unicodeEscape := by
        rintro rfl
        exact absurd hshort (by decide)
      have hcopied := repairLoop_copied [u] (x ++ quote :: tail) true
      rw [List.cons_append, List.cons_append, bareUnicode, if_neg (by decide), if_pos rfl,
        copiedAfter_short hshort] at hbare
      have hbare' : bareUnicode true 0 (x ++ quote :: tail) = false :=
        (Bool.or_eq_false_iff.mp hbare).2
      rw [List.length_cons, List.length_cons] at hn
      obtain ⟨y, hy⟩ := ih (by omega) hv hx hbare'
      refine ⟨backslash :: u :: y, .short hshort hy.content, ?_, hy.bare⟩
      rw [List.singleton_append, hy.result] at hcopied
      rw [List.cons_append, List.cons_append, repairLoop, if_neg (by decide), if_pos rfl,
        copiedAfter_short hshort]
      exact congrArg (List.cons backslash) hcopied
    | @stray u _ x hquote hslash hx =>
      refine repaired_backslash hv hx hquote (fun hu => absurd hu hslash) hbare ?_
      intro v' x' hlength hv' hx' hbare'
      rw [List.length_cons, List.length_cons] at hn
      exact ih (by omega) hv' hx' hbare'
    | @escape u v x hquote hslash hx =>
      obtain ⟨w, x, rfl, hw, hw'⟩ := hx.head_of_unit hquote hslash
      refine repaired_backslash (content_of_escape hv hquote hslash) hx hw hw' hbare ?_
      intro v' x' hlength hv' hx' hbare'
      rw [List.length_cons, List.length_cons] at hn
      exact ih (by omega) hv' hx' hbare'

theorem repaired_render {parts parts' : List Part} (h : List.Forall₂ InsertedPart parts parts')
    (hwell : ∀ part ∈ parts, part.WellFormed)
    (hbare : bareUnicode false 0 (render parts') = false) :
    ∃ repaired : List Part, repaired.map Part.symbol = parts.map Part.symbol ∧
      (∀ part ∈ repaired, part.WellFormed) ∧
      repairLoop false 0 (render parts') = render repaired := by
  induction h with
  | nil => exact ⟨[], rfl, fun part hpart => (by cases hpart), rfl⟩
  | @cons part part' rest rest' hpart hrest ih =>
    have hwellRest : ∀ other ∈ rest, other.WellFormed :=
      fun other hother => hwell other (List.mem_cons_of_mem _ hother)
    cases hpart with
    | outside unit hquote =>
      rw [render_outside, bareUnicode, decide_eq_false hquote] at hbare
      obtain ⟨repaired, hsymbols, hrepaired, hrender⟩ := ih hwellRest hbare
      refine ⟨.outside unit hquote :: repaired, ?_, ?_, ?_⟩
      · rw [List.map_cons, List.map_cons, hsymbols]
      · exact List.forall_mem_cons.mpr ⟨trivial, hrepaired⟩
      · rw [render_outside, repairLoop, decide_eq_false hquote, hrender, render_outside]
    | @literal v x hinserted =>
      have hv : StringContent v := hwell _ List.mem_cons_self
      rw [render_literal, bareUnicode, decide_eq_true rfl] at hbare
      obtain ⟨y, hy⟩ := repaired_of_inserted x.length (Nat.le_refl _) hv hinserted hbare
      obtain ⟨repaired, hsymbols, hrepaired, hrender⟩ := ih hwellRest hy.bare
      refine ⟨.literal y :: repaired, ?_, ?_, ?_⟩
      · rw [List.map_cons, List.map_cons, hsymbols]
        rfl
      · exact List.forall_mem_cons.mpr ⟨hy.content, hrepaired⟩
      · rw [render_literal, repairLoop, decide_eq_true rfl, hy.result, hrender, render_literal]

/-- The repair reaches its goal exactly where no unescaped backslash inside
a string literal stands before `u` without four hexadecimal digits. -/
theorem repairJson_meets_iff (json : Units) :
    RepairMeets json ↔ bareUnicode false 0 json = false := by
  have hescaped := wellEscaped_repairLoop json false 0
  constructor
  · intro h
    have hwell : wellEscaped false 0 (repairLoop false 0 json) = true := h.escaped
    rw [hescaped, Bool.not_eq_true'] at hwell
    exact hwell
  · intro hbare
    refine ⟨?_, by rw [repairJson, hescaped, hbare]; rfl, repairJson_of_isJson⟩
    rintro ⟨parts, parts', hparts, hinserted, rfl⟩
    obtain ⟨repaired, hsymbols, hwell, hrender⟩ :=
      repaired_render hinserted hparts.wellFormed hbare
    exact ⟨repaired, hparts.replace hsymbols hwell, hrender.symm⟩

theorem wellEscaped_of_isJson {json : Units} (h : IsJson json) :
    wellEscaped false 0 json = true := by
  obtain ⟨parts, ⟨-, hwell⟩, rfl⟩ := h
  induction parts with
  | nil => rfl
  | cons part rest ih =>
    have hrest := ih fun other hother => hwell other (List.mem_cons_of_mem _ hother)
    cases part with
    | outside unit hquote =>
      rw [render_outside, wellEscaped, decide_eq_false hquote, hrest]
    | literal content =>
      have hcontent : StringContent content := hwell _ List.mem_cons_self
      rw [render_literal, wellEscaped, decide_eq_true rfl, wellEscaped_content hcontent,
        wellEscaped, if_pos rfl, hrest]

/-- The literal `"\users"`. -/
def windowsPath : Units :=
  [quote, backslash, unicodeEscape, 0x73, 0x65, 0x72, 0x73, quote]

/-- It comes from a JSON text by one backslash, and is not repaired. -/
theorem repairJson_misses_windowsPath :
    IsDamagedJson windowsPath ∧ repairJson windowsPath = windowsPath ∧
      ¬ IsJson (repairJson windowsPath) ∧ ¬ RepairMeets windowsPath := by
  have hdamaged : IsDamagedJson windowsPath := by
    refine ⟨[.literal [unicodeEscape, 0x73, 0x65, 0x72, 0x73]],
      [.literal [backslash, unicodeEscape, 0x73, 0x65, 0x72, 0x73]], ⟨?_, ?_⟩, ?_, rfl⟩
    · have hnone : IsSpace [] := fun x hx => by cases hx
      exact Derives.element hnone .string hnone
    · rintro part hpart
      obtain rfl := List.mem_singleton.mp hpart
      exact .plain (by decide) (by decide) (by decide) (.plain (by decide) (by decide) (by decide)
        (.plain (by decide) (by decide) (by decide) (.plain (by decide) (by decide) (by decide)
          (.plain (by decide) (by decide) (by decide) .nil))))
    · refine .cons (.literal (.stray (by decide) (by decide) ?_)) .nil
      exact .unit (by decide) (.unit (by decide) (.unit (by decide) (.unit (by decide)
        (.unit (by decide) .nil))))
  have hinvalid : ¬ IsJson (repairJson windowsPath) := by
    intro h
    have hwell := wellEscaped_of_isJson h
    revert hwell
    decide
  exact ⟨hdamaged, by decide, hinvalid, fun h => hinvalid (h.damaged hdamaged)⟩

end Ai

end Eagent
