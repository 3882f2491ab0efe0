import Eagent.EditorJump

/-!
# The text around the cursor

Where the cursor is in the text, the lines are those above it, its own in two
parts, and those below it (`Editor.At`). What a command does to them is stated
with these parts, so that the text is never indexed.
-/

namespace Eagent

namespace Tui

open EditTool (lf)

/-! ## Joined lines -/

theorem joinLines_cons (line next : Text) (lines : List Text) :
    joinLines (line :: next :: lines) = line ++ lf :: joinLines (next :: lines) := by
  simp [joinLines, List.intercalate]

theorem joinLines_singleton (line : Text) : joinLines [line] = line := by
  simp [joinLines, List.intercalate]

theorem joinLines_extend_first (text line : Text) (below : List Text) :
    joinLines ((text ++ line) :: below) = text ++ joinLines (line :: below) := by
  cases below with
  | nil => rw [joinLines_singleton, joinLines_singleton]
  | cons next below => rw [joinLines_cons, joinLines_cons, List.append_assoc]

theorem joinLines_at (above : List Text) (before after : Text) (below : List Text) :
    joinLines (above ++ (before ++ after) :: below) =
      joinLines (above ++ [before]) ++ joinLines (after :: below) := by
  induction above with
  | nil => rw [List.nil_append, List.nil_append, joinLines_singleton, joinLines_extend_first]
  | cons line above ih =>
    cases above with
    | nil =>
      rw [List.nil_append, List.nil_append] at ih
      rw [List.singleton_append, List.singleton_append, joinLines_cons, joinLines_cons, ih,
        List.append_assoc]
      rfl
    | cons next above =>
      rw [List.cons_append, List.cons_append] at ih
      rw [List.cons_append, List.cons_append, List.cons_append, List.cons_append,
        joinLines_cons, joinLines_cons, ih, List.append_assoc]
      rfl

theorem joinLines_extend_last (above : List Text) (line text : Text) :
    joinLines (above ++ [line ++ text]) = joinLines (above ++ [line]) ++ text := by
  rw [joinLines_at, joinLines_singleton]

theorem joinLines_break (above : List Text) (line : Text) (next : Text) (below : List Text) :
    joinLines (above ++ line :: next :: below) =
      joinLines (above ++ [line]) ++ lf :: joinLines (next :: below) := by
  have hparts := joinLines_at above line [] (next :: below)
  rwa [List.append_nil, joinLines_cons, List.nil_append] at hparts

theorem joinLines_splitLines (text : Text) : joinLines (splitLines text) = text :=
  List.intercalate_splitOn lf

theorem splitLines_ne_nil (text : Text) : splitLines text ≠ [] := List.splitOn_ne_nil lf text

theorem getD_at (above : List Text) (line : Text) (below : List Text) :
    (above ++ line :: below).getD above.length [] = line := by
  rw [List.getD_eq_getElem?_getD, List.getElem?_append_right (Nat.le_refl _), Nat.sub_self]
  rfl

theorem getD_after (above : List Text) (line next : Text) (below : List Text) :
    (above ++ line :: next :: below).getD (above.length + 1) [] = next := by
  rw [List.getD_eq_getElem?_getD, List.getElem?_append_right (Nat.le_succ _),
    Nat.succ_sub (Nat.le_refl _), Nat.sub_self]
  rfl

namespace Editor

/-! ## The parts -/

/-- The lines above the cursor, the parts of its own and the lines below. -/
structure At (e : Editor) (above : List Text) (before after : Text) (below : List Text) : Prop where
  lines : e.state.lines = above ++ (before ++ after) :: below
  line : e.state.cursorLine = above.length
  col : e.state.cursorCol = before.length

variable {e : Editor} {above : List Text} {before after : Text} {below : List Text}

theorem InText.at (h : e.InText) : e.At (e.state.lines.take e.state.cursorLine) e.beforeCursor
    e.afterCursor (e.state.lines.drop (e.state.cursorLine + 1)) := by
  have hin := h.line
  refine ⟨?_, ?_, ?_⟩
  · have hline : e.beforeCursor ++ e.afterCursor = e.state.lines[e.state.cursorLine] := by
      rw [beforeCursor, afterCursor, List.take_append_drop, currentLine,
        List.getD_eq_getElem?_getD, List.getElem?_eq_getElem h.line, Option.getD_some]
    rw [hline, ← List.drop_eq_getElem_cons h.line, List.take_append_drop]
  · rw [List.length_take, Nat.min_eq_left (Nat.le_of_lt h.line)]
  · rw [beforeCursor, List.length_take, Nat.min_eq_left h.col]

namespace At

section

variable (h : e.At above before after below)
include h

theorem currentLine : e.currentLine = before ++ after := by
  rw [Editor.currentLine, h.lines, h.line, getD_at]

theorem beforeCursor : e.beforeCursor = before := by
  rw [Editor.beforeCursor, h.currentLine, h.col, List.take_left]

theorem afterCursor : e.afterCursor = after := by
  rw [Editor.afterCursor, h.currentLine, h.col, List.drop_left]

theorem inText : e.InText := by
  refine ⟨?_, ?_⟩
  · rw [h.lines, h.line, List.length_append, List.length_cons]
    omega
  · rw [h.currentLine, h.col, List.length_append]
    omega

theorem getText :
    e.getText = joinLines (above ++ [before]) ++ joinLines (after :: below) := by
  rw [Editor.getText, h.lines, joinLines_at]

theorem setCurrentLine (line : Text) :
    (e.setCurrentLine line).state.lines = above ++ line :: below := by
  rw [Editor.setCurrentLine, setLines]
  dsimp only
  rw [h.lines, h.line, List.set_append_right _ _ (Nat.le_refl _), Nat.sub_self]
  rfl

/-- The parts are determined. -/
theorem state_eq {e' : Editor} (h' : e'.At above before after below) : e'.state = e.state := by
  have hlines := h'.lines.trans h.lines.symm
  have hline := h'.line.trans h.line.symm
  have hcol := h'.col.trans h.col.symm
  cases hs : e.state
  cases hs' : e'.state
  rw [hs, hs'] at hlines hline hcol
  dsimp only at hlines hline hcol
  rw [hlines, hline, hcol]

theorem of_state {e' : Editor} (hstate : e'.state = e.state) :
    e'.At above before after below :=
  ⟨hstate ▸ h.lines, hstate ▸ h.line, hstate ▸ h.col⟩

theorem replace (before' after' : Text) :
    ((e.setCurrentLine (before' ++ after')).setCursorCol before'.length).At above before' after'
      below := ⟨h.setCurrentLine _, h.line, rfl⟩

/-- The part after the cursor is replaced. -/
theorem truncate (after' : Text) :
    (e.setCurrentLine (before ++ after')).At above before after' below :=
  ⟨h.setCurrentLine _, h.line, h.col⟩

end

theorem mergeWithPrevious {line : Text} (h : e.At (above ++ [line]) [] after below) :
    e.mergeWithPrevious.At above line after below := by
  have hline : e.state.cursorLine = above.length + 1 := by rw [h.line, List.length_append]; rfl
  have hprevious : e.state.lines.getD (e.state.cursorLine - 1) [] = line := by
    rw [hline, Nat.add_sub_cancel, h.lines, List.append_assoc]
    exact getD_at above line _
  have hlines : (e.state.lines.set (e.state.cursorLine - 1) (line ++ e.currentLine)).eraseIdx
      e.state.cursorLine = above ++ (line ++ after) :: below := by
    rw [h.currentLine, hline, Nat.add_sub_cancel, h.lines, List.append_assoc,
      List.set_append_right _ _ (Nat.le_refl _), Nat.sub_self,
      List.eraseIdx_append_of_length_le (Nat.le_succ _), Nat.succ_sub (Nat.le_refl _),
      Nat.sub_self]
    rfl
  refine ⟨?_, ?_, ?_⟩
  · rw [Editor.mergeWithPrevious, hprevious]
    exact hlines
  · rw [Editor.mergeWithPrevious]
    change e.state.cursorLine - 1 = _
    rw [hline, Nat.add_sub_cancel]
  · rw [Editor.mergeWithPrevious, hprevious]
    rfl

theorem mergeWithNext {line : Text} (h : e.At above before [] (line :: below)) :
    e.mergeWithNext.At above before line below := by
  have hnext : e.state.lines.getD (e.state.cursorLine + 1) [] = line := by
    rw [h.lines, h.line, getD_after]
  refine ⟨?_, h.line, h.col⟩
  rw [Editor.mergeWithNext, hnext, h.currentLine, h.lines, h.line,
    List.set_append_right _ _ (Nat.le_refl _), Nat.sub_self, setLines]
  dsimp only
  rw [List.eraseIdx_append_of_length_le (Nat.le_succ _), Nat.succ_sub (Nat.le_refl _),
    Nat.sub_self, List.append_nil]
  rfl

end At

end Editor

end Tui

end Eagent
