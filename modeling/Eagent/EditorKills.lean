import Eagent.EditorCursor

/-!
# Kills and yanks of the editor

The kill commands are steps of `Killing` on the text before and after the
cursor, so what a yank at the end of a run gives is `Killing.restores_iff`.
Deleting a yanked text undoes its insertion, so a yank-pop puts another entry
in its place.
-/

namespace Eagent

namespace Tui

open EditTool (lf)

namespace Editor

variable (m : Measures) (e : Editor)

def runKill : KillCommand → Editor
  | .toStartOfLine => e.deleteToStartOfLine
  | .toEndOfLine => e.deleteToEndOfLine
  | .wordBackwards => e.deleteWordBackwards m
  | .wordForward => e.deleteWordForward m

/-! ## What a kill takes -/

def lineEndBefore : Option (Direction × Text) :=
  if 0 < e.state.cursorLine then some (.backward, [lf]) else none

def lineEndAfter : Option (Direction × Text) :=
  if e.state.cursorLine < e.state.lines.length - 1 then some (.forward, [lf]) else none

def killed : KillCommand → Option (Direction × Text)
  | .toStartOfLine =>
      if 0 < e.state.cursorCol then some (.backward, e.beforeCursor) else e.lineEndBefore
  | .toEndOfLine =>
      if e.state.cursorCol < e.currentLine.length then some (.forward, e.afterCursor)
      else e.lineEndAfter
  | .wordBackwards =>
      if e.state.cursorCol = 0 then e.lineEndBefore
      else
        some (.backward,
          slice e.currentLine (e.moveWordBackwards m).state.cursorCol e.state.cursorCol)
  | .wordForward =>
      if e.currentLine.length ≤ e.state.cursorCol then e.lineEndAfter
      else
        some (.forward,
          slice e.currentLine e.state.cursorCol (e.moveWordForwards m).state.cursorCol)

def killing : Killing :=
  { before := joinLines (e.state.lines.take e.state.cursorLine ++ [e.beforeCursor])
    after := joinLines (e.afterCursor :: e.state.lines.drop (e.state.cursorLine + 1))
    ring := e.killRing
    killing := e.lastAction = some .kill }

variable {m e} {above : List Text} {before after : Text} {below : List Text}

theorem At.killing (h : e.At above before after below) : e.killing =
    { before := joinLines (above ++ [before])
      after := joinLines (after :: below)
      ring := e.killRing
      killing := e.lastAction = some .kill } := by
  have habove : e.state.lines.take e.state.cursorLine = above := by
    rw [h.lines, h.line, List.take_left]
  have hbelow : e.state.lines.drop (e.state.cursorLine + 1) = below := by
    rw [h.lines, h.line, List.drop_append, List.drop_eq_nil_of_le (Nat.le_succ _),
      Nat.succ_sub (Nat.le_refl _), Nat.sub_self]
    rfl
  rw [Editor.killing, habove, hbelow, h.beforeCursor, h.afterCursor]

theorem At.above_eq (h : e.At above before after below) (hline : 0 < e.state.cursorLine) :
    ∃ above' line, above = above' ++ [line] := by
  rcases List.eq_nil_or_concat' above with rfl | hsome
  · rw [h.line] at hline
    exact absurd hline (Nat.lt_irrefl 0)
  · exact hsome

theorem At.below_eq (h : e.At above before after below)
    (hline : e.state.cursorLine < e.state.lines.length - 1) :
    ∃ line below', below = line :: below' := by
  cases below with
  | nil =>
    rw [h.line, h.lines, List.length_append, List.length_singleton, Nat.add_sub_cancel] at hline
    exact absurd hline (Nat.lt_irrefl _)
  | cons line below => exact ⟨line, below, rfl⟩

variable {e' : Editor} {text : Text}

theorem At.kill_before (h : e.At above (before ++ text) after below)
    (h' : e'.At above before after below)
    (hring : e'.killRing = e.killRing.push text true (e.lastAction = some .kill))
    (hlast : e'.lastAction = some .kill) :
    Killing.Step e.killing (some (.backward, text)) e'.killing := by
  rw [h.killing, h'.killing, joinLines_extend_last, hring, hlast]
  exact .backward _ text _ _ _

theorem At.kill_after (h : e.At above before (text ++ after) below)
    (h' : e'.At above before after below)
    (hring : e'.killRing = e.killRing.push text false (e.lastAction = some .kill))
    (hlast : e'.lastAction = some .kill) :
    Killing.Step e.killing (some (.forward, text)) e'.killing := by
  rw [h.killing, h'.killing, joinLines_extend_first, hring, hlast]
  exact .forward _ text _ _ _

theorem At.kill_line_end_before {line : Text} (h : e.At (above ++ [line]) [] after below)
    (h' : e'.At above line after below)
    (hring : e'.killRing = e.killRing.push [lf] true (e.lastAction = some .kill))
    (hlast : e'.lastAction = some .kill) :
    Killing.Step e.killing (some (.backward, [lf])) e'.killing := by
  have hbefore : joinLines (above ++ [line] ++ [[]]) = joinLines (above ++ [line]) ++ [lf] := by
    rw [List.append_assoc, List.singleton_append, joinLines_break, joinLines_singleton]
  rw [h.killing, h'.killing, hbefore, hring, hlast]
  exact .backward _ [lf] _ _ _

theorem At.kill_line_end_after {line : Text} (h : e.At above before [] (line :: below))
    (h' : e'.At above before line below)
    (hring : e'.killRing = e.killRing.push [lf] false (e.lastAction = some .kill))
    (hlast : e'.lastAction = some .kill) :
    Killing.Step e.killing (some (.forward, [lf])) e'.killing := by
  have hafter : joinLines ([] :: line :: below) = [lf] ++ joinLines (line :: below) := by
    rw [joinLines_cons]
    rfl
  rw [h.killing, h'.killing, hafter, hring, hlast]
  exact .forward _ [lf] _ _ _

/-! ## The commands -/

theorem At.kill (h : e.At above before after below) (text : Text) (prepend : Bool) :
    (e.exitHistoryBrowsing.pushUndoSnapshot.kill text prepend).At above before after below :=
  h.of_state rfl

def killLineEndBefore (e : Editor) : Editor :=
  if 0 < e.state.cursorLine then
    (e.exitHistoryBrowsing.pushUndoSnapshot.kill [lf] true).mergeWithPrevious
  else e.exitHistoryBrowsing

def killLineEndAfter (e : Editor) : Editor :=
  if e.state.cursorLine < e.state.lines.length - 1 then
    (e.exitHistoryBrowsing.pushUndoSnapshot.kill [lf] false).mergeWithNext
  else e.exitHistoryBrowsing

theorem step_killLineEndBefore (h : e.InText) (hcol : e.state.cursorCol = 0) :
    e.killLineEndBefore.InText ∧
      Killing.Step e.killing e.lineEndBefore e.killLineEndBefore.killing := by
  have hat := h.at
  unfold lineEndBefore killLineEndBefore
  split
  · rename_i hline
    obtain ⟨above, line, habove⟩ := hat.above_eq hline
    have hbefore : e.beforeCursor = [] := by rw [beforeCursor, hcol, List.take_zero]
    rw [habove, hbefore] at hat
    have hmerged := (hat.kill [lf] true).mergeWithPrevious
    exact ⟨hmerged.inText, hat.kill_line_end_before hmerged rfl rfl⟩
  · exact ⟨⟨h.line, h.col⟩, .nothing _⟩

theorem step_killLineEndAfter (h : e.InText) (hcol : e.currentLine.length ≤ e.state.cursorCol) :
    e.killLineEndAfter.InText ∧
      Killing.Step e.killing e.lineEndAfter e.killLineEndAfter.killing := by
  have hat := h.at
  unfold lineEndAfter killLineEndAfter
  split
  · rename_i hline
    obtain ⟨line, below, hbelow⟩ := hat.below_eq hline
    have hafter : e.afterCursor = [] := by rw [afterCursor, List.drop_eq_nil_of_le hcol]
    rw [hbelow, hafter] at hat
    have hmerged := (hat.kill [lf] false).mergeWithNext
    exact ⟨hmerged.inText, hat.kill_line_end_after hmerged rfl rfl⟩
  · exact ⟨⟨h.line, h.col⟩, .nothing _⟩

theorem step_toStartOfLine (h : e.InText) : e.deleteToStartOfLine.InText ∧
    Killing.Step e.killing (e.killed m .toStartOfLine) e.deleteToStartOfLine.killing := by
  have hat := h.at
  by_cases hcol : 0 < e.state.cursorCol
  · have hrun : e.deleteToStartOfLine =
        ((e.exitHistoryBrowsing.pushUndoSnapshot.kill e.beforeCursor true).setCurrentLine
          ([] ++ e.afterCursor)).setCursorCol 0 := if_pos hcol
    have hkilled : e.killed m .toStartOfLine = some (.backward, e.beforeCursor) := if_pos hcol
    have hafter := (hat.kill e.beforeCursor true).replace [] e.afterCursor
    rw [hrun, hkilled]
    exact ⟨hafter.inText, At.kill_before hat hafter rfl rfl⟩
  · have hrun : e.deleteToStartOfLine = e.killLineEndBefore := if_neg hcol
    have hkilled : e.killed m .toStartOfLine = e.lineEndBefore := if_neg hcol
    rw [hrun, hkilled]
    exact step_killLineEndBefore h (Nat.eq_zero_of_not_pos hcol)

theorem step_toEndOfLine (h : e.InText) : e.deleteToEndOfLine.InText ∧
    Killing.Step e.killing (e.killed m .toEndOfLine) e.deleteToEndOfLine.killing := by
  have hat := h.at
  by_cases hcol : e.state.cursorCol < e.currentLine.length
  · have hrun : e.deleteToEndOfLine =
        (e.exitHistoryBrowsing.pushUndoSnapshot.kill e.afterCursor false).setCurrentLine
          e.beforeCursor := if_pos hcol
    have hkilled : e.killed m .toEndOfLine = some (.forward, e.afterCursor) := if_pos hcol
    have hafter := (hat.kill e.afterCursor false).truncate []
    rw [List.append_nil] at hafter
    rw [← List.append_nil e.afterCursor] at hat
    rw [hrun, hkilled]
    exact ⟨hafter.inText, hat.kill_after hafter rfl rfl⟩
  · have hrun : e.deleteToEndOfLine = e.killLineEndAfter := if_neg hcol
    have hkilled : e.killed m .toEndOfLine = e.lineEndAfter := if_neg hcol
    rw [hrun, hkilled]
    exact step_killLineEndAfter h (Nat.not_lt.mp hcol)

theorem col_moveWordBackwards (hcol : e.state.cursorCol ≠ 0) :
    (e.moveWordBackwards m).state.cursorCol =
      findWordBackward (e.words m) isPasteMarker e.currentLine e.state.cursorCol := by
  have hrun : e.moveWordBackwards m = ({ e with lastAction := none }).setCursorCol
      (findWordBackward (e.words m) isPasteMarker e.currentLine e.state.cursorCol) := if_neg hcol
  rw [hrun]
  rfl

theorem col_moveWordForwards (hcol : ¬ e.currentLine.length ≤ e.state.cursorCol) :
    (e.moveWordForwards m).state.cursorCol =
      findWordForward (e.words m) isPasteMarker e.currentLine e.state.cursorCol := by
  have hrun : e.moveWordForwards m = ({ e with lastAction := none }).setCursorCol
      (findWordForward (e.words m) isPasteMarker e.currentLine e.state.cursorCol) := if_neg hcol
  rw [hrun]
  rfl

theorem step_wordBackwards (h : e.InText) : (e.deleteWordBackwards m).InText ∧
    Killing.Step e.killing (e.killed m .wordBackwards) (e.deleteWordBackwards m).killing := by
  have hat := h.at
  by_cases hcol : e.state.cursorCol = 0
  · have hrun : e.deleteWordBackwards m = e.killLineEndBefore := if_pos hcol
    have hkilled : e.killed m .wordBackwards = e.lineEndBefore := if_pos hcol
    rw [hrun, hkilled]
    exact step_killLineEndBefore h hcol
  · obtain ⟨deleteFrom, hfrom⟩ : ∃ n, (e.moveWordBackwards m).state.cursorCol = n := ⟨_, rfl⟩
    have hfrom' : (e.exitHistoryBrowsing.moveWordBackwards m).state.cursorCol = deleteFrom := by
      rw [← hfrom, col_moveWordBackwards hcol]
      exact col_moveWordBackwards (e := e.exitHistoryBrowsing) hcol
    have hle : deleteFrom ≤ e.state.cursorCol := by
      rw [← hfrom, col_moveWordBackwards hcol]
      exact findWordBackward_le _ _ _ _
    have hslice : slice e.currentLine deleteFrom e.state.cursorCol =
        e.beforeCursor.drop deleteFrom := rfl
    have htake : e.currentLine.take deleteFrom = e.beforeCursor.take deleteFrom := by
      rw [beforeCursor, List.take_take, Nat.min_eq_left hle]
    have hlength : (e.beforeCursor.take deleteFrom).length = deleteFrom := by
      rw [List.length_take, ← hat.col, Nat.min_eq_left hle]
    have hrun : e.deleteWordBackwards m =
        ((e.exitHistoryBrowsing.pushUndoSnapshot.kill (e.beforeCursor.drop deleteFrom)
          true).setCurrentLine (e.beforeCursor.take deleteFrom ++ e.afterCursor)).setCursorCol
          (e.beforeCursor.take deleteFrom).length := by
      refine (if_neg hcol).trans ?_
      rw [hfrom', hlength, ← htake]
      rfl
    have hkilled : e.killed m .wordBackwards =
        some (.backward, e.beforeCursor.drop deleteFrom) := by
      refine (if_neg hcol).trans ?_
      rw [hfrom, hslice]
    have hafter := (hat.kill (e.beforeCursor.drop deleteFrom) true).replace
      (e.beforeCursor.take deleteFrom) e.afterCursor
    rw [← List.take_append_drop deleteFrom e.beforeCursor] at hat
    rw [hrun, hkilled]
    exact ⟨hafter.inText, hat.kill_before hafter rfl rfl⟩

theorem step_wordForward (h : e.InText) : (e.deleteWordForward m).InText ∧
    Killing.Step e.killing (e.killed m .wordForward) (e.deleteWordForward m).killing := by
  have hat := h.at
  by_cases hcol : e.currentLine.length ≤ e.state.cursorCol
  · have hrun : e.deleteWordForward m = e.killLineEndAfter := if_pos hcol
    have hkilled : e.killed m .wordForward = e.lineEndAfter := if_pos hcol
    rw [hrun, hkilled]
    exact step_killLineEndAfter h hcol
  · obtain ⟨deleteTo, hto⟩ : ∃ n, (e.moveWordForwards m).state.cursorCol = n := ⟨_, rfl⟩
    have hto' : (e.exitHistoryBrowsing.moveWordForwards m).state.cursorCol = deleteTo := by
      rw [← hto, col_moveWordForwards hcol]
      exact col_moveWordForwards (e := e.exitHistoryBrowsing) hcol
    have hle : e.state.cursorCol ≤ deleteTo := by
      rw [← hto, col_moveWordForwards hcol]
      exact le_findWordForward _ _ h.col
    obtain ⟨n, rfl⟩ := Nat.exists_eq_add_of_le hle
    have hslice : slice e.currentLine e.state.cursorCol (e.state.cursorCol + n) =
        e.afterCursor.take n := by
      rw [slice, afterCursor, List.take_drop]
    have hdrop : e.currentLine.drop (e.state.cursorCol + n) = e.afterCursor.drop n := by
      rw [afterCursor, List.drop_drop]
    have hrun : e.deleteWordForward m =
        ((e.exitHistoryBrowsing.pushUndoSnapshot.kill (e.afterCursor.take n) false).setCursorCol
          e.state.cursorCol).setCurrentLine (e.beforeCursor ++ e.afterCursor.drop n) := by
      refine (if_neg hcol).trans ?_
      rw [hto', ← hslice, ← hdrop]
      rfl
    have hkilled : e.killed m .wordForward = some (.forward, e.afterCursor.take n) := by
      refine (if_neg hcol).trans ?_
      rw [hto, hslice]
    have hset : ((e.exitHistoryBrowsing.pushUndoSnapshot.kill (e.afterCursor.take n)
        false).setCursorCol e.state.cursorCol).At _ _ _ _ := hat.of_state rfl
    have hafter := hset.truncate (e.afterCursor.drop n)
    rw [← List.take_append_drop n e.afterCursor] at hat
    rw [hrun, hkilled]
    exact ⟨hafter.inText, hat.kill_after hafter rfl rfl⟩

theorem step_runKill (h : e.InText) (command : KillCommand) : (e.runKill m command).InText ∧
    Killing.Step e.killing (e.killed m command) (e.runKill m command).killing := by
  cases command with
  | toStartOfLine => exact step_toStartOfLine h
  | toEndOfLine => exact step_toEndOfLine h
  | wordBackwards => exact step_wordBackwards h
  | wordForward => exact step_wordForward h

/-! ## Runs of kills -/

def runKills (m : Measures) (e : Editor) (commands : List KillCommand) : Editor :=
  commands.foldl (runKill m) e

def killsOf (m : Measures) : Editor → List KillCommand → List (Option (Direction × Text))
  | _, [] => []
  | e, command :: rest => e.killed m command :: killsOf m (e.runKill m command) rest

theorem run_runKills (h : e.InText) (commands : List KillCommand) :
    (e.runKills m commands).InText ∧
      Killing.Run e.killing (killsOf m e commands) (e.runKills m commands).killing := by
  induction commands generalizing e with
  | nil => exact ⟨h, .nil _⟩
  | cons command rest ih =>
    obtain ⟨hin, hstep⟩ := step_runKill (m := m) h command
    obtain ⟨hin', hrun⟩ := ih hin
    exact ⟨hin', .cons hstep hrun⟩

theorem killed_exitHistoryBrowsing (e : Editor) (command : KillCommand) :
    e.exitHistoryBrowsing.killed m command = e.killed m command := by
  cases command with
  | toStartOfLine => rfl
  | toEndOfLine => rfl
  | wordBackwards =>
    by_cases hcol : e.state.cursorCol = 0
    · exact (if_pos hcol).trans (if_pos hcol).symm
    · refine (if_neg hcol).trans (Eq.trans ?_ (if_neg hcol).symm)
      rw [col_moveWordBackwards hcol, col_moveWordBackwards (e := e.exitHistoryBrowsing) hcol]
      rfl
  | wordForward =>
    by_cases hcol : e.currentLine.length ≤ e.state.cursorCol
    · exact (if_pos hcol).trans (if_pos hcol).symm
    · refine (if_neg hcol).trans (Eq.trans ?_ (if_neg hcol).symm)
      rw [col_moveWordForwards hcol, col_moveWordForwards (e := e.exitHistoryBrowsing) hcol]
      rfl

theorem runKill_of_none {command : KillCommand} (h : e.killed m command = none) :
    e.runKill m command = e.exitHistoryBrowsing := by
  have hbefore (hnone : e.lineEndBefore = none) : e.killLineEndBefore = e.exitHistoryBrowsing := by
    unfold lineEndBefore at hnone
    split at hnone
    · cases hnone
    · rename_i hline
      exact if_neg hline
  have hafter (hnone : e.lineEndAfter = none) : e.killLineEndAfter = e.exitHistoryBrowsing := by
    unfold lineEndAfter at hnone
    split at hnone
    · cases hnone
    · rename_i hline
      exact if_neg hline
  cases command with
  | toStartOfLine =>
    by_cases hcol : 0 < e.state.cursorCol
    · rw [killed, if_pos hcol] at h
      cases h
    · rw [killed, if_neg hcol] at h
      exact (if_neg hcol).trans (hbefore h)
  | toEndOfLine =>
    by_cases hcol : e.state.cursorCol < e.currentLine.length
    · rw [killed, if_pos hcol] at h
      cases h
    · rw [killed, if_neg hcol] at h
      exact (if_neg hcol).trans (hafter h)
  | wordBackwards =>
    by_cases hcol : e.state.cursorCol = 0
    · rw [killed, if_pos hcol] at h
      exact (if_pos hcol).trans (hbefore h)
    · rw [killed, if_neg hcol] at h
      cases h
  | wordForward =>
    by_cases hcol : e.currentLine.length ≤ e.state.cursorCol
    · rw [killed, if_pos hcol] at h
      exact (if_pos hcol).trans (hafter h)
    · rw [killed, if_neg hcol] at h
      cases h

/-- The first kill that does something does it to the text of the start. -/
theorem findSome_killsOf (e : Editor) (commands : List KillCommand) :
    (killsOf m e commands).findSome? id = commands.findSome? (e.killed m) := by
  induction commands generalizing e with
  | nil => rfl
  | cons command rest ih =>
    rw [killsOf, List.findSome?_cons, List.findSome?_cons]
    cases hkilled : e.killed m command with
    | some taken => rfl
    | none =>
      have hsame : e.exitHistoryBrowsing.killed m = e.killed m :=
        funext (killed_exitHistoryBrowsing e)
      dsimp only [id]
      rw [runKill_of_none hkilled, ih, hsame]

/-! ## Yanks -/

theorem splice_at {α : Type} (before deleted after items : List α) :
    splice (before ++ (deleted ++ after)) before.length deleted.length items =
      before ++ items ++ after := by
  rw [splice, List.take_left, ← List.length_append, ← List.append_assoc, List.drop_left]

theorem insertLines_at (before after texts : List Text) :
    insertLines (before ++ after) before.length texts = before ++ texts ++ after := by
  induction texts generalizing before with
  | nil => rw [insertLines, List.append_nil]
  | cons text texts ih =>
    have hsplice := splice_at before [] after [text]
    have hlength : before.length + 1 = (before ++ [text]).length := by
      rw [List.length_append, List.length_singleton]
    rw [List.nil_append] at hsplice
    rw [insertLines, List.length_nil] at *
    rw [hsplice, hlength, ih, List.append_assoc before, List.singleton_append]

/-- A text has been inserted at a place, and the cursor is behind it. -/
inductive Inserted (e : Editor) (above : List Text) (before after : Text) (below : List Text)
    (text : Text) : Prop
  | line (hsplit : splitLines text = [text]) (h : e.At above (before ++ text) after below)
  | lines (first : Text) (middle : List Text) (last : Text)
      (hsplit : splitLines text = first :: (middle ++ [last]))
      (h : e.At (above ++ (before ++ first) :: middle) last after below)

theorem splitLines_cases (text : Text) : splitLines text = [text] ∨
    ∃ first middle last, splitLines text = first :: (middle ++ [last]) := by
  have hjoin := joinLines_splitLines text
  cases hsplit : splitLines text with
  | nil => exact absurd hsplit (splitLines_ne_nil text)
  | cons first rest =>
    rcases List.eq_nil_or_concat' rest with rfl | ⟨middle, last, rfl⟩
    · rw [hsplit, joinLines_singleton] at hjoin
      exact .inl (congrArg (fun line => [line]) hjoin)
    · exact .inr ⟨first, middle, last, rfl⟩

theorem Inserted.of_state (h : e.Inserted above before after below text)
    (hstate : e'.state = e.state) : e'.Inserted above before after below text := by
  cases h with
  | line hsplit h => exact .line hsplit (h.of_state hstate)
  | lines first middle last hsplit h => exact .lines first middle last hsplit (h.of_state hstate)

theorem At.insertYankedText (h : e.At above before after below) (text : Text) :
    (e.insertYankedText text).Inserted above before after below text := by
  have hexit : e.exitHistoryBrowsing.At above before after below := h.of_state rfl
  unfold Editor.insertYankedText
  dsimp only
  rw [hexit.beforeCursor, hexit.afterCursor]
  rcases splitLines_cases text with hsplit | ⟨first, middle, last, hsplit⟩
  · rw [hsplit, if_pos List.length_singleton]
    refine .line hsplit ?_
    have hcol : e.exitHistoryBrowsing.state.cursorCol + text.length = (before ++ text).length := by
      rw [hexit.col, List.length_append]
    rw [hcol]
    exact hexit.replace (before ++ text) after
  · have hmany : (first :: (middle ++ [last])).length ≠ 1 := by
      rw [List.length_cons, List.length_append]
      simp
    rw [hsplit, if_neg hmany]
    refine .lines first middle last hsplit ?_
    have hlast : (first :: (middle ++ [last])).getLastD [] = last := by
      rw [List.getLastD_cons, List.getLastD_concat]
    have hmiddle : (first :: (middle ++ [last])).tail.dropLast = middle := List.dropLast_concat
    have hindex : e.exitHistoryBrowsing.state.cursorLine +
        (first :: (middle ++ [last])).length - 1 = (above ++ (before ++ first) :: middle).length := by
      rw [hexit.line]
      simp
    have hset : e.exitHistoryBrowsing.state.lines.set e.exitHistoryBrowsing.state.cursorLine
        (before ++ first) = (above ++ [before ++ first]) ++ below := by
      rw [hexit.lines, hexit.line, List.set_append_right _ _ (Nat.le_refl _), Nat.sub_self,
        List.append_assoc]
      rfl
    have hposition : e.exitHistoryBrowsing.state.cursorLine + 1 =
        (above ++ [before ++ first]).length := by
      rw [hexit.line, List.length_append]
      rfl
    have hlines : above ++ [before ++ first] ++ middle = above ++ (before ++ first) :: middle := by
      rw [List.append_assoc, List.singleton_append]
    have hsplice := splice_at (above ++ (before ++ first) :: middle) [] below [last ++ after]
    rw [List.nil_append, List.length_nil] at hsplice
    rw [hlast, hmiddle, hindex, List.headD_cons, hset, hposition, insertLines_at, hlines, hsplice]
    exact ⟨by rw [List.append_assoc]; rfl, rfl, rfl⟩

theorem Inserted.getText (h : e.Inserted above before after below text) :
    e.getText = joinLines (above ++ [before]) ++ text ++ joinLines (after :: below) := by
  cases h with
  | line hsplit h => rw [h.getText, joinLines_extend_last]
  | lines first middle last hsplit h =>
    have hjoin := joinLines_splitLines text
    rw [hsplit] at hjoin
    have hbefore : joinLines (above ++ (before ++ first) :: middle ++ [last]) =
        joinLines (above ++ [before]) ++ text := by
      rw [List.append_assoc, List.cons_append, joinLines_at, hjoin]
    rw [h.getText, hbefore]

theorem Inserted.deleteYankedText (h : e.Inserted above before after below text)
    (hpeek : e.killRing.peek = some text) :
    e.deleteYankedText.At above before after below := by
  have hne := KillRing.peek_ne_nil hpeek
  unfold Editor.deleteYankedText
  rw [hpeek]
  dsimp only
  rw [if_neg hne]
  cases h with
  | line hsplit h =>
    have hcol : e.state.cursorCol - text.length = before.length := by
      rw [h.col, List.length_append, Nat.add_sub_cancel]
    rw [hsplit, if_pos List.length_singleton, hcol, h.currentLine, h.afterCursor,
      List.append_assoc, List.take_left]
    have hplaced := h.replace before after
    exact hplaced
  | lines first middle last hsplit h =>
    have hmany : (first :: (middle ++ [last])).length ≠ 1 := by
      rw [List.length_cons, List.length_append]
      simp
    have hstart : e.state.cursorLine - ((first :: (middle ++ [last])).length - 1) =
        above.length := by
      rw [h.line]
      simp
    have hlines : e.state.lines =
        above ++ (((before ++ first) :: (middle ++ [last ++ after])) ++ below) := by
      rw [h.lines]
      simp
    have hline : e.state.lines.getD above.length [] = before ++ first := by
      rw [hlines]
      exact getD_at above (before ++ first) _
    have hcol : (before ++ first).length - first.length = before.length := by
      rw [List.length_append, Nat.add_sub_cancel]
    have hlength : (first :: (middle ++ [last])).length =
        ((before ++ first) :: (middle ++ [last ++ after])).length := by simp
    rw [hsplit, if_neg hmany, hstart, hline, List.headD_cons, hcol, List.take_left,
      h.afterCursor, hlength, hlines, splice_at, List.append_assoc]
    exact ⟨rfl, rfl, rfl⟩

/-- A yank puts the last entry at the cursor. -/
theorem getText_yank (h : e.InText) : e.yank.getText =
    e.killing.before ++ e.killRing.peek.getD [] ++ e.killing.after := by
  have hat := h.at
  unfold yank
  split
  · rename_i hnone
    rw [hat.getText, hat.killing, hnone, Option.getD_none, List.append_nil]
  · rename_i text hpeek
    have hplaced : e.pushUndoSnapshot.At _ _ _ _ := hat.of_state rfl
    rw [hat.killing, hpeek, Option.getD_some]
    exact (hplaced.insertYankedText text).getText

/-- A yank at the end of a run of kills restores the text if and only if the
ring was empty, or no kill was just before the run and the first command of it
that does something takes a text. -/
theorem yank_restores_iff (m : Measures) (h : e.InText) (commands : List KillCommand) :
    (e.runKills m commands).yank.getText = e.getText ↔
      e.killRing.ring = [] ∨ (e.lastAction ≠ some .kill ∧ ∃ direction text,
        commands.findSome? (e.killed m) = some (direction, text) ∧ text ≠ []) := by
  obtain ⟨hin, hrun⟩ := run_runKills (m := m) h commands
  have hrestores := Killing.restores_iff hrun
  have htext : e.getText = e.killing.before ++ e.killing.after := by
    rw [h.at.getText, h.at.killing]
  have hring : e.killing.ring = e.killRing := rfl
  have hkilling : e.killing.killing = decide (e.lastAction = some .kill) := rfl
  rw [Killing.Begins, findSome_killsOf, hring, hkilling, decide_eq_false_iff_not] at hrestores
  rw [getText_yank hin, htext, ← hrestores]
  rfl

/-! ## Yank-pops -/

/-- The entry of a ring is at a place, and was yanked there. -/
structure Yanked (e : Editor) (above : List Text) (before after : Text) (below : List Text)
    (ring : KillRing) : Prop where
  inserted : ∃ text, ring.peek = some text ∧ e.Inserted above before after below text
  ring : e.killRing = ring
  last : e.lastAction = some .yank

theorem killRing_insertYankedText (e : Editor) (text : Text) :
    (e.insertYankedText text).killRing = e.killRing := by
  unfold Editor.insertYankedText
  dsimp only
  split <;> rfl

theorem killRing_deleteYankedText (e : Editor) : e.deleteYankedText.killRing = e.killRing := by
  unfold Editor.deleteYankedText
  split
  · rfl
  · split
    · rfl
    · dsimp only
      split <;> rfl

theorem At.yank (h : e.At above before after below) (hring : e.killRing.ring ≠ []) :
    e.yank.Yanked above before after below e.killRing := by
  obtain ⟨text, hpeek, -⟩ := Killing.exists_peek hring
  have hplaced : e.pushUndoSnapshot.At above before after below := h.of_state rfl
  unfold Editor.yank
  rw [hpeek]
  exact ⟨⟨text, hpeek, (hplaced.insertYankedText text).of_state rfl⟩,
    killRing_insertYankedText _ _, rfl⟩

theorem Yanked.yankPop {ring : KillRing} (h : e.Yanked above before after below ring) :
    e.yankPop.Yanked above before after below ring.rotate := by
  obtain ⟨⟨text, hpeek, hinserted⟩, hring, hlast⟩ := h
  unfold Editor.yankPop
  split
  · rename_i hfew
    have hone := hfew.resolve_left fun hne => hne hlast
    rw [KillRing.rotate_of_le (hring ▸ hone)]
    exact ⟨⟨text, hpeek, hinserted⟩, hring, hlast⟩
  · have hsnapshot : e.pushUndoSnapshot.Inserted above before after below text :=
      hinserted.of_state rfl
    have hback := hsnapshot.deleteYankedText (hring ▸ hpeek)
    have hringBack : e.pushUndoSnapshot.deleteYankedText.killRing = ring :=
      (killRing_deleteYankedText _).trans hring
    obtain ⟨next, hnext⟩ := KillRing.exists_peek_rotate hpeek
    have hplaced : ({ e.pushUndoSnapshot.deleteYankedText with
        killRing := ring.rotate } : Editor).At above before after below := hback.of_state rfl
    dsimp only
    rw [hringBack, hnext]
    exact ⟨⟨next, hnext, (hplaced.insertYankedText next).of_state rfl⟩,
      killRing_insertYankedText _ _, rfl⟩

theorem Yanked.yankPops {ring : KillRing} (h : e.Yanked above before after below ring) (n : Nat) :
    (Editor.yankPop^[n] e).Yanked above before after below (KillRing.rotate^[n] ring) := by
  induction n with
  | zero => exact h
  | succ n ih =>
    rw [Function.iterate_succ_apply', Function.iterate_succ_apply']
    exact ih.yankPop

/-- The text and the cursor are determined by the entry and its place. -/
theorem Inserted.state_eq (h : e.Inserted above before after below text)
    (h' : e'.Inserted above before after below text) : e'.state = e.state := by
  cases h with
  | line hsplit h =>
    cases h' with
    | line hsplit' h' => exact h.state_eq h'
    | lines first middle last hsplit' h' =>
      rw [hsplit] at hsplit'
      simp at hsplit'
  | lines first middle last hsplit h =>
    cases h' with
    | line hsplit' h' =>
      rw [hsplit] at hsplit'
      simp at hsplit'
    | lines first' middle' last' hsplit' h' =>
      rw [hsplit, List.cons.injEq] at hsplit'
      obtain ⟨rfl, hrest⟩ := hsplit'
      obtain ⟨rfl, hlast⟩ := List.append_inj' hrest rfl
      cases hlast
      exact h.state_eq h'

/-- `n` yank-pops after a yank put the `n`-th older entry, cyclically, in its
place; as many as there are entries restore what the yank gave. -/
theorem yankPops_yank (h : e.InText) (hring : e.killRing.ring ≠ []) :
    (∀ n, (Editor.yankPop^[n] e.yank).getText = e.killing.before ++
        (e.killRing.ring.reverse[n % e.killRing.ring.length]?).getD [] ++ e.killing.after) ∧
      (Editor.yankPop^[e.killRing.ring.length] e.yank).state = e.yank.state := by
  have hyanked := h.at.yank hring
  constructor
  · intro n
    obtain ⟨⟨text, hpeek, hinserted⟩, -, -⟩ := hyanked.yankPops n
    rw [KillRing.peek_rotations] at hpeek
    rw [hinserted.getText, hpeek, Option.getD_some, h.at.killing]
  · obtain ⟨⟨text', hpeek', hinserted'⟩, -, -⟩ := hyanked.yankPops e.killRing.ring.length
    obtain ⟨⟨text, hpeek, hinserted⟩, -, -⟩ := hyanked
    rw [KillRing.peek_all_rotations, hpeek] at hpeek'
    cases hpeek'
    exact hinserted.state_eq hinserted'

end Editor

end Tui

end Eagent
