import Eagent.Editor

/-!
# Jumping to a character

A jump is to go to the nearest occurrence beyond the cursor: the first one
after it or the last one before it, in the order of the text. From column 0 a
jump backward searches position -1 of the cursor's line, which counts as 0:
where the character stands under the cursor it is found there, and the lines
before are not searched (`jump_nearest_iff`).
-/

namespace Eagent

namespace Tui

open EditTool (indexOf)

/-! ## Positions -/

/-- A line and a column. -/
abbrev Position := Nat × Nat

/-- The order of the text. -/
def Precedes (p q : Position) : Prop := p.1 < q.1 ∨ p.1 = q.1 ∧ p.2 < q.2

/-- The character begins at the position. -/
def Occurs (char : Text) (lines : List Text) (p : Position) : Prop :=
  char <+: (lines.getD p.1 []).drop p.2

/-- On the side of a position that a jump searches. -/
def Beyond (direction : Direction) (p q : Position) : Prop :=
  match direction with
  | .forward => Precedes p q
  | .backward => Precedes q p

/-- The nearest occurrence beyond a position, or the position itself where
there is none. -/
def Nearest (direction : Direction) (char : Text) (lines : List Text) (start target : Position) :
    Prop :=
  (Occurs char lines target ∧ Beyond direction start target ∧
    ∀ p, Occurs char lines p → Beyond direction start p → ¬ Beyond direction p target) ∨
  (target = start ∧ ∀ p, Occurs char lines p → ¬ Beyond direction start p)

def Editor.cursor (e : Editor) : Position := (e.state.cursorLine, e.state.cursorCol)

/-- The cursor is in the text. -/
structure Editor.InText (e : Editor) : Prop where
  line : e.state.cursorLine < e.state.lines.length
  col : e.state.cursorCol ≤ e.currentLine.length

/-! ## Searching a line -/

section Line

variable {char text : Text} {i : Nat}

/-- `indexOf` finds the first occurrence. -/
theorem indexOf_first :
    ∀ {text : Text} {i : Nat}, indexOf char text = some i →
      char <+: text.drop i ∧ ∀ j, char <+: text.drop j → i ≤ j
  | [], i, h => by
    rw [indexOf] at h
    split at h
    · rename_i hnil
      obtain rfl := Option.some.inj h
      exact ⟨hnil ▸ List.nil_prefix, fun j _ => Nat.zero_le j⟩
    · cases h
  | u :: rest, i, h => by
    rw [indexOf] at h
    split at h
    · rename_i hprefix
      obtain rfl := Option.some.inj h
      exact ⟨List.isPrefixOf_iff_prefix.mp hprefix, fun j _ => Nat.zero_le j⟩
    · rename_i hprefix
      obtain ⟨k, hk, rfl⟩ := Option.map_eq_some_iff.mp h
      obtain ⟨hoccurs, hfirst⟩ := indexOf_first hk
      refine ⟨hoccurs, fun j hj => ?_⟩
      cases j with
      | zero => exact absurd (List.isPrefixOf_iff_prefix.mpr hj) hprefix
      | succ j => exact Nat.succ_le_succ (hfirst j hj)

theorem indexOf_absent (hchar : char ≠ []) :
    ∀ {text : Text}, indexOf char text = none → ∀ j, ¬ char <+: text.drop j
  | [], _, j, hj => hchar (List.prefix_nil.mp (List.drop_nil ▸ hj))
  | u :: rest, h, j, hj => by
    rw [indexOf] at h
    split at h
    · cases h
    · rename_i hprefix
      cases j with
      | zero => exact hprefix (List.isPrefixOf_iff_prefix.mpr hj)
      | succ j => exact indexOf_absent hchar (Option.map_eq_none_iff.mp h) j hj

/-- The last number below a bound with a property. -/
theorem find?_range_reverse {p : Nat → Bool} :
    ∀ {n : Nat}, (List.range n).reverse.find? p = some i →
      i < n ∧ p i = true ∧ ∀ j < n, p j = true → j ≤ i
  | 0, h => by cases h
  | n + 1, h => by
    rw [List.range_succ, List.reverse_append, List.reverse_singleton, List.singleton_append,
      List.find?_cons] at h
    split at h
    · rename_i hn
      obtain rfl := Option.some.inj h
      exact ⟨Nat.lt_succ_self n, hn, fun j hj _ => Nat.le_of_lt_succ hj⟩
    · rename_i hn
      obtain ⟨hlt, hi, hlast⟩ := find?_range_reverse h
      refine ⟨Nat.lt_succ_of_lt hlt, hi, fun j hj hpj => ?_⟩
      obtain hlt | rfl := Nat.lt_succ_iff_lt_or_eq.mp hj
      · exact hlast j hlt hpj
      · rw [hpj] at hn
        cases hn

/-- The position from which `lastIndexOf` searches backward. -/
def searchStart (text : Text) (position : Option Int) : Nat :=
  (position.map fun position => min position.toNat text.length).getD text.length

theorem lastIndexOf_eq (char text : Text) (position : Option Int) :
    lastIndexOf char text position =
      (List.range (searchStart text position + 1)).reverse.find? fun i =>
        char.isPrefixOf (text.drop i) := by
  cases position with
  | none => rfl
  | some position => rfl

/-- `lastIndexOf` finds the last occurrence up to where it starts. -/
theorem lastIndexOf_last {position : Option Int} (h : lastIndexOf char text position = some i) :
    i ≤ searchStart text position ∧ char <+: text.drop i ∧
      ∀ j ≤ searchStart text position, char <+: text.drop j → j ≤ i := by
  rw [lastIndexOf_eq] at h
  obtain ⟨hlt, hi, hlast⟩ := find?_range_reverse h
  exact ⟨Nat.le_of_lt_succ hlt, List.isPrefixOf_iff_prefix.mp hi, fun j hj hoccurs =>
    hlast j (Nat.lt_succ_of_le hj) (List.isPrefixOf_iff_prefix.mpr hoccurs)⟩

theorem lastIndexOf_absent {position : Option Int} (h : lastIndexOf char text position = none)
    (j : Nat) (hj : j ≤ searchStart text position) : ¬ char <+: text.drop j := by
  rw [lastIndexOf_eq, List.find?_eq_none] at h
  intro hoccurs
  refine h j ?_ (List.isPrefixOf_iff_prefix.mpr hoccurs)
  rw [List.mem_reverse, List.mem_range]
  exact Nat.lt_succ_of_le hj

theorem lt_length_of_isPrefix (hchar : char ≠ []) (h : char <+: text.drop i) : i < text.length := by
  by_contra hle
  rw [List.drop_eq_nil_of_le (Nat.le_of_not_lt hle)] at h
  exact hchar (List.prefix_nil.mp h)

end Line

/-! ## Searching the text -/

namespace Editor

variable {char : Text} {lines : List Text}

/-- The first occurrence in the lines from `lineIdx` on. -/
theorem jumpForward_some (hchar : char ≠ []) {l c : Nat} :
    ∀ {lines : List Text} {lineIdx searchFrom : Nat},
      jumpForward char lines lineIdx searchFrom = some (l, c) →
      ∃ k, l = lineIdx + k ∧ char <+: (lines.getD k []).drop c ∧ (k = 0 → searchFrom ≤ c) ∧
        ∀ k' c', char <+: (lines.getD k' []).drop c' → (k' = 0 → searchFrom ≤ c') →
          ¬ Precedes (k', c') (k, c)
  | [], _, _, h => by cases h
  | line :: lines, lineIdx, searchFrom, h => by
    rw [jumpForward] at h
    split at h
    · rename_i idx hidx
      obtain ⟨i, hi, rfl⟩ := Option.map_eq_some_iff.mp hidx
      obtain ⟨rfl, rfl⟩ := Prod.mk.inj (Option.some.inj h)
      obtain ⟨hoccurs, hfirst⟩ := indexOf_first hi
      rw [List.drop_drop, Nat.add_comm] at hoccurs
      refine ⟨0, rfl, hoccurs, fun _ => Nat.le_add_left _ _, fun k' c' hc' hfrom hbefore => ?_⟩
      obtain hlt | ⟨rfl, hlt⟩ := hbefore
      · exact absurd hlt (Nat.not_lt_zero _)
      · have hle := hfirst (c' - searchFrom) (by
          rw [List.drop_drop, Nat.add_sub_cancel' (hfrom rfl)]
          exact hc')
        have hle' := hfrom rfl
        dsimp only at hlt
        omega
    · rename_i hidx
      have habsent := Option.map_eq_none_iff.mp hidx
      obtain ⟨k, rfl, hoccurs, -, hfirst⟩ := jumpForward_some hchar h
      refine ⟨k + 1, by omega, hoccurs, fun hk => (by omega), fun k' c' hc' hfrom hbefore => ?_⟩
      cases k' with
      | zero =>
        -- the first line was searched in vain
        refine indexOf_absent hchar habsent (c' - searchFrom) ?_
        rw [List.drop_drop, Nat.add_sub_cancel' (hfrom rfl)]
        exact hc'
      | succ k' =>
        refine hfirst k' c' hc' (fun _ => Nat.zero_le _) ?_
        obtain hlt | ⟨heq, hlt⟩ := hbefore
        · exact .inl (Nat.lt_of_succ_lt_succ hlt)
        · exact .inr ⟨Nat.succ.inj heq, hlt⟩

theorem jumpForward_none (hchar : char ≠ []) :
    ∀ {lines : List Text} {lineIdx searchFrom : Nat},
      jumpForward char lines lineIdx searchFrom = none →
      ∀ k c, (k = 0 → searchFrom ≤ c) → ¬ char <+: (lines.getD k []).drop c
  | [], _, _, _, k, c, _, hc => by
    rw [List.getD_nil, List.drop_nil] at hc
    exact hchar (List.prefix_nil.mp hc)
  | line :: lines, lineIdx, searchFrom, h, k, c, hfrom, hc => by
    rw [jumpForward] at h
    split at h
    · cases h
    · rename_i hidx
      cases k with
      | zero =>
        refine indexOf_absent hchar (Option.map_eq_none_iff.mp hidx) (c - searchFrom) ?_
        rw [List.drop_drop, Nat.add_sub_cancel' (hfrom rfl)]
        exact hc
      | succ k => exact jumpForward_none hchar h k c (fun _ => Nat.zero_le _) hc

/-- The last occurrence in the lines up to `lineIdx`. -/
theorem jumpBackward_some (hchar : char ≠ []) {l c : Nat} {lineIdx : Nat}
    {searchFrom : Option Int} (h : jumpBackward char lines lineIdx searchFrom = some (l, c)) :
    l ≤ lineIdx ∧ char <+: (lines.getD l []).drop c ∧
      (l = lineIdx → c ≤ searchStart (lines.getD l []) searchFrom) ∧
      ∀ l' c', l' ≤ lineIdx → char <+: (lines.getD l' []).drop c' →
        (l' = lineIdx → c' ≤ searchStart (lines.getD l' []) searchFrom) →
        ¬ Precedes (l, c) (l', c') := by
  induction lineIdx generalizing searchFrom with
  | zero =>
    rw [jumpBackward] at h
    split at h
    · rename_i idx hidx
      obtain ⟨rfl, rfl⟩ := Prod.mk.inj (Option.some.inj h)
      obtain ⟨hle, hoccurs, hlast⟩ := lastIndexOf_last hidx
      refine ⟨Nat.le_refl _, hoccurs, fun _ => hle, fun l' c' hl' hc' hfrom hbefore => ?_⟩
      obtain rfl := Nat.le_zero.mp hl'
      have hc := hlast c' (hfrom rfl) hc'
      obtain hlt | ⟨-, hlt⟩ := hbefore
      · exact Nat.lt_irrefl _ hlt
      · exact absurd hc (Nat.not_le.mpr hlt)
    · cases h
  | succ lineIdx ih =>
    rw [jumpBackward] at h
    split at h
    · rename_i idx hidx
      obtain ⟨rfl, rfl⟩ := Prod.mk.inj (Option.some.inj h)
      obtain ⟨hle, hoccurs, hlast⟩ := lastIndexOf_last hidx
      refine ⟨Nat.le_refl _, hoccurs, fun _ => hle, fun l' c' hl' hc' hfrom hbefore => ?_⟩
      obtain hlt | ⟨heq, hlt⟩ := hbefore
      · exact absurd hl' (Nat.not_le.mpr hlt)
      · dsimp only at heq hlt
        subst heq
        exact absurd (hlast c' (hfrom rfl) hc') (Nat.not_le.mpr hlt)
    · rename_i hidx
      obtain ⟨hle, hoccurs, -, hlast⟩ := ih h
      refine ⟨Nat.le_succ_of_le hle, hoccurs, fun heq => (by omega),
        fun l' c' hl' hc' hfrom hbefore => ?_⟩
      obtain hlt | rfl := Nat.lt_or_eq_of_le hl'
      · exact hlast l' c' (Nat.le_of_lt_succ hlt) hc'
          (fun _ => Nat.le_of_lt (lt_length_of_isPrefix hchar hc')) hbefore
      · exact lastIndexOf_absent hidx c' (hfrom rfl) hc'

theorem jumpBackward_none (hchar : char ≠ []) {lineIdx : Nat} {searchFrom : Option Int}
    (h : jumpBackward char lines lineIdx searchFrom = none) (l c : Nat) (hl : l ≤ lineIdx)
    (hfrom : l = lineIdx → c ≤ searchStart (lines.getD l []) searchFrom) :
    ¬ char <+: (lines.getD l []).drop c := by
  intro hc
  induction lineIdx generalizing searchFrom with
  | zero =>
    rw [jumpBackward] at h
    split at h
    · cases h
    · rename_i hidx
      obtain rfl := Nat.le_zero.mp hl
      exact lastIndexOf_absent hidx c (hfrom rfl) hc
  | succ lineIdx ih =>
    rw [jumpBackward] at h
    split at h
    · cases h
    · rename_i hidx
      obtain hlt | rfl := Nat.lt_or_eq_of_le hl
      · exact ih h (Nat.le_of_lt_succ hlt) fun _ =>
          Nat.le_of_lt (lt_length_of_isPrefix hchar hc)
      · exact lastIndexOf_absent hidx c (hfrom rfl) hc

/-! ## The jumps -/

variable {e : Editor}

theorem cursor_jumpToChar_forward (e : Editor) (char : Text) :
    (e.jumpToChar char .forward).cursor =
      (jumpForward char (e.state.lines.drop e.state.cursorLine) e.state.cursorLine
        (e.state.cursorCol + 1)).getD e.cursor := by
  unfold jumpToChar
  dsimp only
  cases jumpForward char (e.state.lines.drop e.state.cursorLine) e.state.cursorLine
      (e.state.cursorCol + 1) with
  | some target => rfl
  | none => rfl

theorem cursor_jumpToChar_backward (e : Editor) (char : Text) :
    (e.jumpToChar char .backward).cursor =
      (jumpBackward char e.state.lines e.state.cursorLine
        (some (e.state.cursorCol - 1 : Int))).getD e.cursor := by
  unfold jumpToChar
  dsimp only
  cases jumpBackward char e.state.lines e.state.cursorLine
      (some (e.state.cursorCol - 1 : Int)) with
  | some target => rfl
  | none => rfl

theorem jump_forward (hchar : char ≠ []) :
    Nearest .forward char e.state.lines e.cursor (e.jumpToChar char .forward).cursor := by
  rw [cursor_jumpToChar_forward]
  have hgetD : ∀ k, (e.state.lines.drop e.state.cursorLine).getD k [] =
      e.state.lines.getD (e.state.cursorLine + k) [] := fun k => by
    rw [List.getD_eq_getElem?_getD, List.getElem?_drop, ← List.getD_eq_getElem?_getD]
  cases hfound : jumpForward char (e.state.lines.drop e.state.cursorLine) e.state.cursorLine
      (e.state.cursorCol + 1) with
  | some target =>
    obtain ⟨l, c⟩ := target
    obtain ⟨k, rfl, hoccurs, hfrom, hfirst⟩ := jumpForward_some hchar hfound
    rw [hgetD] at hoccurs
    refine .inl ⟨hoccurs, ?_, fun p hp hbeyond hcloser => ?_⟩
    · cases k with
      | zero => exact .inr ⟨rfl, hfrom rfl⟩
      | succ k => exact .inl (Nat.lt_add_of_pos_right (Nat.succ_pos k))
    · obtain ⟨l', c'⟩ := p
      have hle : e.state.cursorLine ≤ l' := by
        obtain hlt | ⟨heq, -⟩ := hbeyond
        · exact Nat.le_of_lt hlt
        · exact Nat.le_of_eq heq
      obtain ⟨k', rfl⟩ := Nat.exists_eq_add_of_le hle
      refine hfirst k' c' ((hgetD k').symm ▸ hp) (fun hk => ?_) ?_
      · obtain hlt | ⟨-, hlt⟩ := hbeyond
        · dsimp only [cursor] at hlt
          omega
        · exact hlt
      · obtain hlt | ⟨heq, hlt⟩ := hcloser
        · exact .inl (Nat.lt_of_add_lt_add_left hlt)
        · exact .inr ⟨Nat.add_left_cancel heq, hlt⟩
  | none =>
    refine .inr ⟨rfl, fun p hp hbeyond => ?_⟩
    obtain ⟨l', c'⟩ := p
    have hle : e.state.cursorLine ≤ l' := by
      obtain hlt | ⟨heq, -⟩ := hbeyond
      · exact Nat.le_of_lt hlt
      · exact Nat.le_of_eq heq
    obtain ⟨k', rfl⟩ := Nat.exists_eq_add_of_le hle
    refine jumpForward_none hchar hfound k' c' (fun hk => ?_) ((hgetD k').symm ▸ hp)
    obtain hlt | ⟨-, hlt⟩ := hbeyond
    · dsimp only [cursor] at hlt
      omega
    · exact hlt

theorem searchStart_before (hcursor : e.InText) :
    searchStart (e.state.lines.getD e.state.cursorLine [])
      (some (e.state.cursorCol - 1 : Int)) = e.state.cursorCol - 1 := by
  have hcol := hcursor.col
  rw [currentLine] at hcol
  rw [searchStart, Option.map_some, Option.getD_some]
  omega

/-- An earlier line has the character. -/
def OccursBefore (e : Editor) (char : Text) : Prop :=
  ∃ l < e.state.cursorLine, ∃ c, Occurs char e.state.lines (l, c)

theorem jump_backward_iff (hchar : char ≠ []) (hcursor : e.InText) :
    Nearest .backward char e.state.lines e.cursor (e.jumpToChar char .backward).cursor ↔
      ¬ (e.state.cursorCol = 0 ∧ char <+: e.currentLine ∧ e.OccursBefore char) := by
  rw [cursor_jumpToChar_backward]
  have hstart := searchStart_before hcursor
  -- what a jump backward may find, and what it does find
  have hsearched : ∀ {p : Position}, Beyond .backward e.cursor p →
      p.1 ≤ e.state.cursorLine ∧ (p.1 = e.state.cursorLine → p.2 ≤ searchStart
        (e.state.lines.getD p.1 []) (some (e.state.cursorCol - 1 : Int))) := by
    rintro ⟨l, c⟩ (hlt | ⟨heq, hlt⟩)
    · dsimp only [cursor] at hlt ⊢
      exact ⟨Nat.le_of_lt hlt, fun heq => by omega⟩
    · dsimp only [cursor] at heq hlt ⊢
      subst heq
      refine ⟨Nat.le_refl _, fun _ => ?_⟩
      rw [hstart]
      omega
  cases hfound : jumpBackward char e.state.lines e.state.cursorLine
      (some (e.state.cursorCol - 1 : Int)) with
  | none =>
    refine iff_of_true (.inr ⟨rfl, fun p hp hbeyond => ?_⟩) ?_
    · obtain ⟨hle, hfrom⟩ := hsearched hbeyond
      exact jumpBackward_none hchar hfound p.1 p.2 hle hfrom hp
    · rintro ⟨-, -, l, hl, c, hc⟩
      exact jumpBackward_none hchar hfound l c (Nat.le_of_lt hl) (fun heq => (by omega)) hc
  | some target =>
    obtain ⟨l, c⟩ := target
    obtain ⟨hle, hoccurs, hfrom, hlast⟩ := jumpBackward_some hchar hfound
    rw [Option.getD_some]
    by_cases hstay : e.state.cursorCol = 0 ∧ l = e.state.cursorLine
    · -- the character under the cursor is found
      obtain ⟨hcol, rfl⟩ := hstay
      have hc : c = 0 := by
        have hle := hfrom rfl
        rw [hstart, hcol] at hle
        exact Nat.le_zero.mp hle
      subst hc
      have hhere : (e.state.cursorLine, 0) = e.cursor := by rw [cursor, hcol]
      have hunder : char <+: e.currentLine := hoccurs
      rw [hhere]
      constructor
      · rintro (⟨-, hbeyond, -⟩ | ⟨-, hnone⟩) ⟨-, -, l, hl, c, hc⟩
        · obtain hlt | ⟨-, hlt⟩ := hbeyond
          · exact Nat.lt_irrefl _ hlt
          · exact Nat.lt_irrefl _ hlt
        · exact hnone (l, c) hc (.inl hl)
      · intro hnot
        refine .inr ⟨rfl, fun p hp hbeyond => hnot ⟨hcol, hunder, p.1, ?_, p.2, hp⟩⟩
        obtain hlt | ⟨-, hlt⟩ := hbeyond
        · exact hlt
        · dsimp only [cursor] at hlt
          omega
    · refine iff_of_true (.inl ⟨hoccurs, ?_, fun p hp hbeyond hcloser => ?_⟩) ?_
      · obtain hlt | rfl := Nat.lt_or_eq_of_le hle
        · exact .inl hlt
        · refine .inr ⟨rfl, ?_⟩
          have hc := hfrom rfl
          rw [hstart] at hc
          dsimp only [cursor]
          omega
      · obtain ⟨hle', hfrom'⟩ := hsearched hbeyond
        exact hlast p.1 p.2 hle' hp hfrom' hcloser
      · rintro ⟨hcol, hunder, -⟩
        -- nothing precedes the character under the cursor
        refine hlast e.state.cursorLine 0 (Nat.le_refl _) hunder (fun _ => Nat.zero_le _) ?_
        exact .inl (Nat.lt_of_le_of_ne hle fun heq => hstay ⟨hcol, heq⟩)

/-- A jump goes to the nearest occurrence, but for a jump backward from
column 0 of a line that begins with the character where an earlier line has
it. -/
theorem jump_nearest_iff (hchar : char ≠ []) (hcursor : e.InText) (direction : Direction) :
    Nearest direction char e.state.lines e.cursor (e.jumpToChar char direction).cursor ↔
      (direction = .backward → ¬ (e.state.cursorCol = 0 ∧ char <+: e.currentLine ∧
        e.OccursBefore char)) := by
  cases direction with
  | forward => exact iff_of_true (jump_forward hchar) fun h => by cases h
  | backward => exact (jump_backward_iff hchar hcursor).trans ⟨fun h _ => h, fun h => h rfl⟩

/-- The cursor at the start of the second line of two equal ones. -/
def twoLines : Editor := { state := ⟨[unitsOf "a", unitsOf "a"], 1, 0⟩ }

theorem jump_nearest_iff_twoLines :
    Nearest .forward (unitsOf "a") twoLines.state.lines twoLines.cursor
        (twoLines.jumpToChar (unitsOf "a") .forward).cursor ↔
      (Direction.forward = .backward → ¬ (twoLines.state.cursorCol = 0 ∧
        unitsOf "a" <+: twoLines.currentLine ∧ twoLines.OccursBefore (unitsOf "a"))) :=
  jump_nearest_iff (by decide) ⟨by decide, by decide⟩ .forward

/-- A jump backward stays where it is, though the line before has the
character. -/
theorem jump_misses_earlier_line :
    ¬ Nearest .backward (unitsOf "a") twoLines.state.lines twoLines.cursor
        (twoLines.jumpToChar (unitsOf "a") .backward).cursor := by
  have hstays : (twoLines.jumpToChar (unitsOf "a") .backward).cursor = twoLines.cursor := by decide
  rw [hstays]
  rintro (⟨-, hbeyond, -⟩ | ⟨-, hnone⟩)
  · obtain hlt | ⟨-, hlt⟩ := hbeyond
    · exact Nat.lt_irrefl _ hlt
    · exact Nat.lt_irrefl _ hlt
  · have hfirst : Occurs (unitsOf "a") twoLines.state.lines (0, 0) := List.prefix_rfl
    exact hnone (0, 0) hfirst (.inl (by decide))

end Editor

end Tui

end Eagent
