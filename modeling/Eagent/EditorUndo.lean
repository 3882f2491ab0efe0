import Eagent.InputKills

/-!
# Undo

Which commands are changes, which of them continue the change before them, and
what an undo restores. `Changes` records the states before the changes that
are not undone from the commands alone; the undo stack of the editor holds
just these (`Follows`).
-/

namespace Eagent

namespace Tui

namespace Editor

/-! ## What a command leaves -/

/-- What the commands record about one another. -/
structure Control where
  undoStack : List EditorState
  lastAction : Option LastAction
  historyIndex : Option Nat
  history : List Text

variable (m : Measures) (e : Editor)

def control : Control := ⟨e.undoStack, e.lastAction, e.historyIndex, e.history⟩

variable {m e}

theorem control_insertTextAtCursorInternal (text : Text) :
    (e.insertTextAtCursorInternal text).control = e.control := by
  unfold insertTextAtCursorInternal
  split
  · rfl
  · dsimp only
    split
    · rfl
    · rfl

theorem control_insertYankedText (text : Text) :
    (e.insertYankedText text).control = { e.control with historyIndex := none } := by
  unfold insertYankedText
  dsimp only
  split
  · rfl
  · rfl

theorem control_deleteYankedText : e.deleteYankedText.control = e.control := by
  unfold deleteYankedText
  split
  · rfl
  · split
    · rfl
    · dsimp only
      split
      · rfl
      · rfl

theorem control_setTextInternal (text : Text) (cursorPlacement : CursorPlacement) :
    (e.setTextInternal text cursorPlacement).control = e.control := by
  cases cursorPlacement with
  | start => rfl
  | «end» => rfl

/-! ## Commands -/

inductive Command where
  | insert (char : Text)
  | newLine
  | backspace
  | forwardDelete
  | kill (command : KillCommand)
  | yank
  | yankPop
  | paste (pastedText : Text)
  | historyUp
  | historyDown
  | complete (result : EditorState)
  | insertText (text : Text)
  | undo
deriving DecidableEq

variable (m e)

def step : Command → Editor
  | .insert char => e.insertCharacter char
  | .newLine => e.addNewLine
  | .backspace => e.handleBackspace m
  | .forwardDelete => e.handleForwardDelete m
  | .kill command => e.runKill m command
  | .yank => e.yank
  | .yankPop => e.yankPop
  | .paste pastedText => e.handlePaste pastedText
  | .historyUp => e.navigateHistoryUp
  | .historyDown => e.navigateHistoryDown
  | .complete result => e.applyCompletion result
  | .insertText text => e.insertTextAtCursor text
  | .undo => e.undo

/-! ## Changes -/

def hasBefore : Bool := 0 < e.state.cursorCol || 0 < e.state.cursorLine

def hasAfter : Bool :=
  e.state.cursorCol < e.currentLine.length || e.state.cursorLine < e.state.lines.length - 1

/-- A kill has text on its side. -/
def canKill : KillCommand → Bool
  | .toStartOfLine => e.hasBefore
  | .wordBackwards => e.hasBefore
  | .toEndOfLine => e.hasAfter
  | .wordForward => e.hasAfter

def canYankPop : Bool := e.lastAction = some .yank && 1 < e.killRing.length

end Editor

/-- The states before the changes that are not undone, the last first, and what
the last commands were: typing, or going through the history. -/
structure Changes where
  states : List EditorState := []
  typing : Bool := false
  browsing : Option Nat := none

namespace Changes

open Editor (Command)

variable (s : Changes) (e : Editor)

/-- A command that is a change of its own. -/
def opened : Changes := ⟨e.state :: s.states, false, none⟩

/-- A command that does nothing, but ends the typing and the browsing. -/
def ended : Changes := ⟨s.states, false, none⟩

def older : Changes :=
  match s.browsing with
  | none => if 0 < e.history.length then ⟨e.state :: s.states, false, some 0⟩
      else ⟨s.states, false, none⟩
  | some i => if i + 1 < e.history.length then ⟨s.states, false, some (i + 1)⟩
      else ⟨s.states, false, some i⟩

/-- A newer entry, or at last the draft. -/
def newer : Changes :=
  match s.browsing with
  | none => ⟨s.states, false, none⟩
  | some 0 => ⟨s.states, false, none⟩
  | some (i + 1) => ⟨s.states, false, some i⟩

/-- What a command is to the changes. White space begins a change, and so does
a character that does not follow another one. -/
def next : Command → Changes
  | .insert char =>
      if s.typing && !isWhitespaceChar char then ⟨s.states, true, none⟩
      else ⟨e.state :: s.states, true, none⟩
  | .newLine => s.opened e
  | .backspace => if e.hasBefore then s.opened e else s.ended
  | .forwardDelete => if e.hasAfter then s.opened e else s.ended
  | .kill command => if e.canKill command then s.opened e else ⟨s.states, s.typing, none⟩
  | .yank => if e.killRing.ring ≠ [] then s.opened e else s
  | .yankPop => if e.canYankPop then s.opened e else s
  | .paste _ => s.opened e
  | .historyUp => s.older e
  | .historyDown => s.newer
  | .complete _ => s.opened e
  | .insertText text => if text ≠ [] then s.opened e else s
  | .undo => ⟨s.states.tail, false, none⟩

end Changes

namespace Editor

variable (m : Measures)

def stepWith (x : Editor × Changes) (command : Command) : Option (Editor × Changes) :=
  some (x.1.step m command, x.2.next x.1 command)

/-- The history is gone through from the text or from the entry that was
browsed to, and not from one that a completion has changed. -/
def Browses (x : Editor × Changes) (command : Command) : Prop :=
  command = .historyUp ∨ command = .historyDown → x.1.historyIndex = x.2.browsing

instance (x : Editor × Changes) (command : Command) : Decidable (Browses x command) :=
  inferInstanceAs (Decidable (_ → _))

/-- A new editor with a text, or one whose text has been submitted. -/
structure Fresh (e : Editor) : Prop where
  undoStack : e.undoStack = []
  lastAction : e.lastAction = none
  historyIndex : e.historyIndex = none

/-- The fields that group the commands say what the last of them were. -/
structure Marked (e : Editor) (s : Changes) : Prop where
  typing : s.typing = true ↔ e.lastAction = some .typeWord
  browsing : ∀ i, s.browsing = some i → e.historyIndex = some i ∧ i < e.history.length

def Continues (s : Changes) (command : Command) : Prop :=
  (s.typing = true ∧ ∃ char, command = .insert char ∧ isWhitespaceChar char = false) ∨
    (s.browsing ≠ none ∧ (command = .historyUp ∨ command = .historyDown))

/-- What a command can do to the changes, but for an undo. -/
inductive Effect (e : Editor) (s : Changes) (command : Command) (e' : Editor) (s' : Changes) : Prop
  | opens (hmarked : Marked e' s') (hstack : e'.undoStack = e.state :: e.undoStack)
      (hstates : s'.states = e.state :: s.states)
  | keeps (hmarked : Marked e' s') (hstack : e'.undoStack = e.undoStack)
      (hstates : s'.states = s.states) (hstate : e'.state = e.state ∨ Continues s command)
      (htyping : s'.typing = true → s.typing = true)
      (hbrowsing : s'.browsing ≠ none → s.browsing ≠ none)

/-- The undo stack holds the states before the changes, and the text of the
start is the oldest of them. -/
structure Follows (initial : EditorState) (e : Editor) (s : Changes) : Prop where
  undoStack : e.undoStack = s.states
  marked : Marked e s
  grouped : s.typing = true ∨ s.browsing ≠ none → s.states ≠ []
  initial : s.states.getLast?.getD e.state = initial

variable {m} {initial : EditorState} {e e' : Editor} {s s' : Changes} {command : Command}

theorem getLast_cons (state : EditorState) (states : List EditorState) (state' : EditorState) :
    (state :: states).getLast?.getD state' = states.getLast?.getD state := by
  rw [List.getLast?_cons, Option.getD_some]

theorem Continues.nonempty (h : Continues s command) (hfollows : Follows initial e s) :
    s.states ≠ [] := by
  rcases h with ⟨htyping, -⟩ | ⟨hbrowsing, -⟩
  · exact hfollows.grouped (.inl htyping)
  · exact hfollows.grouped (.inr hbrowsing)

theorem Follows.effect (h : Follows initial e s) (heffect : Effect e s command e' s') :
    Follows initial e' s' := by
  cases heffect with
  | opens hmarked hstack hstates =>
    refine ⟨?_, hmarked, fun _ => ?_, ?_⟩
    · rw [hstack, hstates, h.undoStack]
    · rw [hstates]
      exact List.cons_ne_nil _ _
    · rw [hstates, getLast_cons]
      exact h.initial
  | keeps hmarked hstack hstates hstate htyping hbrowsing =>
    refine ⟨?_, hmarked, fun hgrouped => ?_, ?_⟩
    · rw [hstack, hstates, h.undoStack]
    · rw [hstates]
      exact h.grouped (hgrouped.imp htyping hbrowsing)
    · rw [hstates]
      rcases hstate with hsame | hcontinues
      · rw [hsame]
        exact h.initial
      · have hlast := List.getLast?_eq_some_getLast (hcontinues.nonempty h)
        have hinitial := h.initial
        rw [hlast] at hinitial ⊢
        exact hinitial

/-! ## The commands -/

theorem effect_opened (lastAction : Option LastAction) (historyIndex : Option Nat)
    (hcontrol : e'.control = ⟨e.state :: e.undoStack, lastAction, historyIndex, e.history⟩)
    (hlast : lastAction ≠ some .typeWord) : Effect e s command e' (s.opened e) := by
  refine .opens ⟨⟨?_, ?_⟩, ?_⟩ ?_ rfl
  · exact fun h => by cases h
  · exact fun h => absurd ((congrArg Control.lastAction hcontrol).symm.trans h) hlast
  · exact fun i h => by cases h
  · exact congrArg Control.undoStack hcontrol

/-- A command without a snapshot, after which no typing goes on. -/
theorem effect_browse {historyIndex browsing : Option Nat}
    (hcontrol : e'.control = ⟨e.undoStack, none, historyIndex, e.history⟩)
    (hstate : e'.state = e.state ∨ Continues s command)
    (hindex : ∀ i, browsing = some i → historyIndex = some i ∧ i < e.history.length)
    (hbrowsing : browsing ≠ none → s.browsing ≠ none) :
    Effect e s command e' ⟨s.states, false, browsing⟩ := by
  have hlast : e'.lastAction = none := congrArg Control.lastAction hcontrol
  have hindex' : e'.historyIndex = historyIndex := congrArg Control.historyIndex hcontrol
  have hhistory : e'.history = e.history := congrArg Control.history hcontrol
  refine .keeps ⟨⟨?_, ?_⟩, ?_⟩ ?_ rfl hstate ?_ hbrowsing
  · exact fun h => by cases h
  · exact fun h => by rw [hlast] at h; cases h
  · rw [hindex', hhistory]
    exact hindex
  · exact congrArg Control.undoStack hcontrol
  · exact fun h => by cases h

theorem effect_ended (historyIndex : Option Nat)
    (hcontrol : e'.control = ⟨e.undoStack, none, historyIndex, e.history⟩)
    (hstate : e'.state = e.state) : Effect e s command e' s.ended :=
  effect_browse hcontrol (.inl hstate) (fun i h => by cases h) fun h => absurd rfl h

theorem effect_idle (h : Marked e s) : Effect e s command e s :=
  .keeps h rfl rfl (.inl rfl) id id

/-- A kill that finds nothing to do leaves the last action. -/
theorem effect_none (h : Marked e s)
    (hcontrol : e'.control = { e.control with historyIndex := none })
    (hstate : e'.state = e.state) : Effect e s command e' ⟨s.states, s.typing, none⟩ := by
  have hlast : e'.lastAction = e.lastAction := congrArg Control.lastAction hcontrol
  refine .keeps ⟨?_, ?_⟩ ?_ rfl (.inl hstate) id ?_
  · rw [hlast]
    exact h.typing
  · exact fun i h => by cases h
  · exact congrArg Control.undoStack hcontrol
  · exact fun h => absurd rfl h

theorem effect_insert (h : Marked e s) (char : Text) :
    Effect e s (.insert char) (e.insertCharacter char) (s.next e (.insert char)) := by
  unfold Changes.next insertCharacter
  dsimp only
  have hlast : s.typing = true ↔ e.exitHistoryBrowsing.lastAction = some .typeWord := h.typing
  by_cases hopens : isWhitespaceChar char = true ∨ e.exitHistoryBrowsing.lastAction ≠ some .typeWord
  · have hnext : ¬ (s.typing && !isWhitespaceChar char) = true := by
      rw [Bool.and_eq_true, hlast, Bool.not_eq_true']
      rcases hopens with hspace | hnot
      · exact fun hboth => by rw [hspace] at hboth; cases hboth.2
      · exact fun hboth => hnot hboth.1
    rw [if_pos hopens, if_neg hnext]
    refine .opens ⟨⟨fun _ => rfl, fun _ => rfl⟩, fun i h => by cases h⟩ rfl rfl
  · rw [not_or, not_not, Bool.not_eq_true] at hopens
    have hnext : (s.typing && !isWhitespaceChar char) = true := by
      rw [Bool.and_eq_true, hlast, Bool.not_eq_true']
      exact ⟨hopens.2, hopens.1⟩
    rw [if_neg (by rw [not_or, not_not, Bool.not_eq_true]; exact hopens), if_pos hnext]
    refine .keeps ⟨⟨fun _ => rfl, fun _ => rfl⟩, fun i h => by cases h⟩ rfl rfl (.inr ?_) ?_ ?_
    · exact .inl ⟨hlast.mpr hopens.2, char, rfl, hopens.1⟩
    · exact fun _ => hlast.mpr hopens.2
    · exact fun h => absurd rfl h

theorem hasBefore_eq_true :
    e.hasBefore = true ↔ 0 < e.state.cursorCol ∨ 0 < e.state.cursorLine := by
  rw [hasBefore, Bool.or_eq_true, decide_eq_true_iff, decide_eq_true_iff]

theorem hasAfter_eq_true : e.hasAfter = true ↔ e.state.cursorCol < e.currentLine.length ∨
    e.state.cursorLine < e.state.lines.length - 1 := by
  rw [hasAfter, Bool.or_eq_true, decide_eq_true_iff, decide_eq_true_iff]

theorem control_removePaste (targetId : Nat) : (e.removePaste targetId).control = e.control := rfl

theorem effect_backspace (m : Measures) :
    Effect e s .backspace (e.handleBackspace m) (s.next e .backspace) := by
  unfold Changes.next
  dsimp only
  by_cases hcol : 0 < e.state.cursorCol
  · have hline (e' : Editor) (line : Text) (col : Nat) :
        ((e'.setCurrentLine line).setCursorCol col).control = e'.control := rfl
    rw [if_pos (hasBefore_eq_true.mpr (.inl hcol))]
    refine effect_opened none none ?_ (by decide)
    refine (congrArg control (if_pos hcol)).trans ((hline _ _ _).trans ?_)
    split
    · split
      · split
        · exact control_removePaste _
        · rfl
      · rfl
    · rfl
  · by_cases habove : 0 < e.state.cursorLine
    · rw [if_pos (hasBefore_eq_true.mpr (.inr habove))]
      refine effect_opened none none ?_ (by decide)
      exact congrArg control ((if_neg hcol).trans (if_pos habove))
    · rw [if_neg (fun h => (hasBefore_eq_true.mp h).elim hcol habove)]
      have hrun : handleBackspace m e = { e.exitHistoryBrowsing with lastAction := none } :=
        (if_neg hcol).trans (if_neg habove)
      exact effect_ended none (congrArg control hrun) ((congrArg state hrun).trans rfl)

theorem effect_forwardDelete (m : Measures) :
    Effect e s .forwardDelete (e.handleForwardDelete m) (s.next e .forwardDelete) := by
  unfold Changes.next
  by_cases hcol : e.state.cursorCol < e.currentLine.length
  · have hacts := hasAfter_eq_true.mpr (.inl hcol)
    dsimp only
    rw [if_pos hacts]
    refine effect_opened none none ?_ (by decide)
    exact congrArg control (if_pos hcol)
  · by_cases hbelow : e.state.cursorLine < e.state.lines.length - 1
    · dsimp only
      rw [if_pos (hasAfter_eq_true.mpr (.inr hbelow))]
      refine effect_opened none none ?_ (by decide)
      exact congrArg control ((if_neg hcol).trans (if_pos hbelow))
    · dsimp only
      rw [if_neg (fun h => (hasAfter_eq_true.mp h).elim hcol hbelow)]
      have hrun : handleForwardDelete m e = { e.exitHistoryBrowsing with lastAction := none } :=
        (if_neg hcol).trans (if_neg hbelow)
      exact effect_ended none (congrArg control hrun) ((congrArg state hrun).trans rfl)

theorem effect_kill (h : Marked e s) (m : Measures) (command : KillCommand) :
    Effect e s (.kill command) (e.runKill m command) (s.next e (.kill command)) := by
  unfold Changes.next
  dsimp only
  have hbefore (hrun : e.runKill m command = e.killLineEndBefore) (hcol : e.state.cursorCol = 0)
      (hkill : e.canKill command = e.hasBefore) : Effect e s (.kill command) (e.runKill m command)
        (if e.canKill command = true then s.opened e else ⟨s.states, s.typing, none⟩) := by
    rw [hrun, hkill]
    by_cases habove : 0 < e.state.cursorLine
    · rw [if_pos (hasBefore_eq_true.mpr (.inr habove))]
      exact effect_opened (some .kill) none (congrArg control (if_pos habove)) (by decide)
    · rw [if_neg fun h => (hasBefore_eq_true.mp h).elim (by omega) habove]
      have hidle : e.killLineEndBefore = e.exitHistoryBrowsing := if_neg habove
      exact effect_none h (congrArg control hidle) ((congrArg state hidle).trans rfl)
  have hafter (hrun : e.runKill m command = e.killLineEndAfter)
      (hcol : e.currentLine.length ≤ e.state.cursorCol)
      (hkill : e.canKill command = e.hasAfter) : Effect e s (.kill command) (e.runKill m command)
        (if e.canKill command = true then s.opened e else ⟨s.states, s.typing, none⟩) := by
    rw [hrun, hkill]
    by_cases hbelow : e.state.cursorLine < e.state.lines.length - 1
    · rw [if_pos (hasAfter_eq_true.mpr (.inr hbelow))]
      exact effect_opened (some .kill) none (congrArg control (if_pos hbelow)) (by decide)
    · rw [if_neg fun h => (hasAfter_eq_true.mp h).elim (by omega) hbelow]
      have hidle : e.killLineEndAfter = e.exitHistoryBrowsing := if_neg hbelow
      exact effect_none h (congrArg control hidle) ((congrArg state hidle).trans rfl)
  cases command with
  | toStartOfLine =>
    by_cases hcol : 0 < e.state.cursorCol
    · have hkill : e.canKill .toStartOfLine = true := hasBefore_eq_true.mpr (.inl hcol)
      rw [if_pos hkill]
      exact effect_opened (some .kill) none (congrArg control (if_pos hcol)) (by decide)
    · exact hbefore (if_neg hcol) (by omega) rfl
  | wordBackwards =>
    by_cases hcol : e.state.cursorCol = 0
    · exact hbefore (if_pos hcol) hcol rfl
    · have hkill : e.canKill .wordBackwards = true :=
        hasBefore_eq_true.mpr (.inl (Nat.pos_of_ne_zero hcol))
      rw [if_pos hkill]
      exact effect_opened (some .kill) none (congrArg control (if_neg hcol)) (by decide)
  | toEndOfLine =>
    by_cases hcol : e.state.cursorCol < e.currentLine.length
    · have hkill : e.canKill .toEndOfLine = true := hasAfter_eq_true.mpr (.inl hcol)
      rw [if_pos hkill]
      exact effect_opened (some .kill) none (congrArg control (if_pos hcol)) (by decide)
    · exact hafter (if_neg hcol) (Nat.not_lt.mp hcol) rfl
  | wordForward =>
    by_cases hcol : e.currentLine.length ≤ e.state.cursorCol
    · exact hafter (if_pos hcol) hcol rfl
    · have hkill : e.canKill .wordForward = true :=
        hasAfter_eq_true.mpr (.inl (Nat.not_le.mp hcol))
      rw [if_pos hkill]
      exact effect_opened (some .kill) none (congrArg control (if_neg hcol)) (by decide)

theorem effect_yank (h : Marked e s) : Effect e s .yank e.yank (s.next e .yank) := by
  unfold Changes.next yank
  dsimp only
  split
  · rename_i hnone
    rw [if_neg fun hring => hring (Killing.peek_eq_none.mp hnone)]
    exact effect_idle h
  · rename_i text hpeek
    have hring : e.killRing.ring ≠ [] := by
      intro hnil
      rw [Killing.peek_eq_none.mpr hnil] at hpeek
      cases hpeek
    rw [if_pos hring]
    refine effect_opened (some .yank) none ?_ (by decide)
    exact congrArg (fun c : Control => { c with lastAction := some .yank })
      (control_insertYankedText (e := e.pushUndoSnapshot) text)

theorem effect_yankPop (h : Marked e s) : Effect e s .yankPop e.yankPop (s.next e .yankPop) := by
  unfold Changes.next
  dsimp only
  have hcan : e.canYankPop = true ↔ ¬ (e.lastAction ≠ some .yank ∨ e.killRing.length ≤ 1) := by
    rw [canYankPop, Bool.and_eq_true, decide_eq_true_iff, decide_eq_true_iff, not_or, not_not,
      Nat.not_le]
  by_cases hidle : e.lastAction ≠ some .yank ∨ e.killRing.length ≤ 1
  · rw [if_neg fun hacts => hcan.mp hacts hidle]
    have hrun : e.yankPop = e := if_pos hidle
    rw [hrun]
    exact effect_idle h
  · rw [if_pos (hcan.mpr hidle)]
    refine effect_opened (some .yank) none ?_ (by decide)
    refine (congrArg control (if_neg hidle)).trans ?_
    have hdelete := control_deleteYankedText (e := e.pushUndoSnapshot)
    have hinsert (e' : Editor) (text : Text) : ({ e'.insertYankedText text with
        lastAction := some .yank } : Editor).control =
          { e'.control with lastAction := some .yank, historyIndex := none } :=
      congrArg (fun c : Control => { c with lastAction := some .yank })
        (control_insertYankedText (e := e') text)
    refine (hinsert _ _).trans ?_
    have hrotated (e' : Editor) (ring : KillRing) :
        ({ e' with killRing := ring } : Editor).control = e'.control := rfl
    rw [hrotated, hdelete]
    rfl

theorem effect_paste (pastedText : Text) :
    Effect e s (.paste pastedText) (e.handlePaste pastedText) (s.next e (.paste pastedText)) := by
  refine effect_opened none none ?_ (by decide)
  unfold handlePaste
  dsimp only
  split
  · exact control_insertTextAtCursorInternal _
  · exact control_insertTextAtCursorInternal _

theorem effect_insertText (h : Marked e s) (text : Text) :
    Effect e s (.insertText text) (e.insertTextAtCursor text) (s.next e (.insertText text)) := by
  unfold Changes.next
  dsimp only
  by_cases htext : text = []
  · rw [if_neg (not_not.mpr htext)]
    have hrun : e.insertTextAtCursor text = e := if_pos htext
    rw [hrun]
    exact effect_idle h
  · rw [if_pos htext]
    refine effect_opened none none ?_ (by decide)
    exact (congrArg control (if_neg htext)).trans (control_insertTextAtCursorInternal text)

theorem effect_complete (result : EditorState) :
    Effect e s (.complete result) (e.applyCompletion result) (s.next e (.complete result)) :=
  effect_opened none e.historyIndex rfl (by decide)

/-! ## The history -/

theorem effect_historyUp (h : Marked e s) (hbrowses : e.historyIndex = s.browsing) :
    Effect e s .historyUp e.navigateHistoryUp (s.next e .historyUp) := by
  unfold Changes.next Changes.older navigateHistoryUp olderIndex
  dsimp only
  rw [hbrowses]
  cases hindex : s.browsing with
  | none =>
    dsimp only
    by_cases hlength : 0 < e.history.length
    · rw [if_neg (Nat.not_le.mpr hlength), if_pos hlength, if_pos rfl]
      refine .opens ⟨⟨?_, ?_⟩, ?_⟩ rfl rfl
      · exact fun h => by cases h
      · exact fun h => by cases h
      · exact fun i hi => ⟨hi, by cases hi; exact hlength⟩
    · rw [if_pos (Nat.not_lt.mp hlength), if_neg hlength]
      exact effect_ended none rfl rfl
  | some i =>
    dsimp only
    by_cases hlength : i + 1 < e.history.length
    · rw [if_neg (Nat.not_le.mpr hlength), if_pos hlength, if_neg (Option.some_ne_none i)]
      have hbrowsing : s.browsing ≠ none := by
        rw [hindex]
        exact Option.some_ne_none i
      refine effect_browse (control_setTextInternal _ _) ?_ ?_ fun _ => hbrowsing
      · exact .inr (.inr ⟨hbrowsing, .inl rfl⟩)
      · exact fun j hj => ⟨hj, by cases hj; exact hlength⟩
    · rw [if_pos (Nat.not_lt.mp hlength), if_neg hlength]
      refine effect_browse rfl (.inl rfl) ?_ fun _ => by rw [hindex]; exact Option.some_ne_none i
      intro j hj
      cases hj
      exact ⟨rfl, (h.browsing i hindex).2⟩

theorem effect_historyDown (h : Marked e s) (hbrowses : e.historyIndex = s.browsing) :
    Effect e s .historyDown e.navigateHistoryDown (s.next e .historyDown) := by
  unfold Changes.next Changes.newer navigateHistoryDown
  dsimp only
  rw [hbrowses]
  cases hindex : s.browsing with
  | none =>
    dsimp only
    exact effect_ended none rfl rfl
  | some i =>
    obtain ⟨-, hlength⟩ := h.browsing i hindex
    have hbrowsing : s.browsing ≠ none := by
      rw [hindex]
      exact Option.some_ne_none i
    have hcontinues : Continues s .historyDown := .inr ⟨hbrowsing, .inr rfl⟩
    cases i with
    | zero =>
      dsimp only
      rw [if_neg (List.ne_nil_of_length_pos hlength)]
      split
      · exact effect_browse rfl (.inr hcontinues) (fun i h => by cases h) fun h => absurd rfl h
      · exact effect_browse (control_setTextInternal _ _) (.inr hcontinues)
          (fun i h => by cases h) fun h => absurd rfl h
    | succ i =>
      dsimp only
      rw [if_neg (by omega)]
      refine effect_browse (control_setTextInternal _ _) (.inr hcontinues) ?_
        fun _ => hbrowsing
      exact fun j hj => ⟨hj, by cases hj; exact Nat.lt_of_succ_lt hlength⟩

/-! ## Runs -/

theorem effect_step (h : Marked e s) (hbrowses : Browses (e, s) command)
    (hundo : command ≠ .undo) : Effect e s command (e.step m command) (s.next e command) := by
  cases command with
  | insert char => exact effect_insert h char
  | newLine => exact effect_opened none none rfl (by decide)
  | backspace => exact effect_backspace m
  | forwardDelete => exact effect_forwardDelete m
  | kill command => exact effect_kill h m command
  | yank => exact effect_yank h
  | yankPop => exact effect_yankPop h
  | paste pastedText => exact effect_paste pastedText
  | historyUp => exact effect_historyUp h (hbrowses (.inl rfl))
  | historyDown => exact effect_historyDown h (hbrowses (.inr rfl))
  | complete result => exact effect_complete result
  | insertText text => exact effect_insertText h text
  | undo => exact absurd rfl hundo

theorem Follows.undo (h : Follows initial e s) : Follows initial e.undo (s.next e .undo) := by
  obtain ⟨hstack, hmarked, hgrouped, hinitial⟩ := h
  unfold Changes.next Editor.undo
  cases hchanges : s.states with
  | nil =>
    rw [hstack, hchanges]
    rw [hchanges] at hinitial
    have htyping : e.lastAction ≠ some .typeWord := fun hlast =>
      hgrouped (.inl (hmarked.typing.mpr hlast)) hchanges
    refine ⟨hstack.trans hchanges, ⟨⟨?_, ?_⟩, ?_⟩, ?_, hinitial⟩
    · exact fun h => by cases h
    · exact fun h => absurd h htyping
    · exact fun i h => by cases h
    · rintro (h | h)
      · cases h
      · exact absurd rfl h
  | cons before states =>
    rw [hstack, hchanges]
    rw [hchanges, getLast_cons] at hinitial
    refine ⟨rfl, ⟨⟨?_, ?_⟩, ?_⟩, ?_, hinitial⟩
    · exact fun h => by cases h
    · exact fun h => by cases h
    · exact fun i h => by cases h
    · rintro (h | h)
      · cases h
      · exact absurd rfl h

theorem Follows.step (h : Follows initial e s) (hbrowses : Browses (e, s) command) :
    Follows initial (e.step m command) (s.next e command) := by
  by_cases hundo : command = .undo
  · rw [hundo]
    exact h.undo
  · exact h.effect (effect_step h.marked hbrowses hundo)

theorem Fresh.follows (h : e.Fresh) : Follows e.state e {} := by
  refine ⟨h.undoStack, ⟨⟨?_, ?_⟩, ?_⟩, ?_, rfl⟩
  · exact fun h => by cases h
  · exact fun hlast => by rw [h.lastAction] at hlast; cases hlast
  · exact fun i h => by cases h
  · rintro (h | h)
    · cases h
    · exact absurd rfl h

theorem Fresh.run {e₀ : Editor} (h₀ : e₀.Fresh)
    (h : Machine.Reaches (stepWith m) Browses (e₀, {}) (e, s)) : Follows e₀.state e s := by
  have hinvariant := h.invariant (I := fun x => Follows e₀.state x.1 x.2) h₀.follows ?_
  · exact hinvariant
  · rintro x command x' hfollows hbrowses hstep
    obtain rfl := Option.some.inj hstep
    exact hfollows.step hbrowses

/-- As many undos as there are snapshots reach the oldest. -/
theorem state_undos (e : Editor) : (Editor.undo^[e.undoStack.length] e).state =
    e.undoStack.getLast?.getD e.state := by
  generalize hstack : e.undoStack = stack
  induction stack generalizing e with
  | nil => rfl
  | cons before stack ih =>
    have hstep : e.undo.state = before ∧ e.undo.undoStack = stack := by
      unfold Editor.undo
      rw [hstack]
      exact ⟨rfl, rfl⟩
    rw [List.length_cons, Function.iterate_succ_apply, ih _ hstep.2, getLast_cons, hstep.1]

/-- In every run an undo restores the state before the last change that is not
undone, a command that changes the text or the cursor is a change or goes on
with one, and undoing every change restores the start. -/
theorem undo_exact {e₀ : Editor} (h₀ : e₀.Fresh)
    (h : Machine.Reaches (stepWith m) Browses (e₀, {}) (e, s)) :
    (e.step m .undo).state = s.states.headD e.state ∧
    (∀ command, command ≠ .undo → Browses (e, s) command → (e.step m command).state ≠ e.state →
      (s.next e command).states = e.state :: s.states ∨
        (s.next e command).states = s.states ∧ s.states ≠ [] ∧ Continues s command) ∧
    (Editor.undo^[s.states.length] e).state = e₀.state := by
  have hfollows := h₀.run h
  refine ⟨?_, ?_, ?_⟩
  · change e.undo.state = _
    rw [← hfollows.undoStack]
    unfold Editor.undo
    split
    · rename_i hnil
      rw [hnil]
      rfl
    · rename_i before rest hcons
      rw [hcons]
      rfl
  · intro command hundo hbrowses hchanged
    cases effect_step hfollows.marked hbrowses hundo with
    | opens hmarked hstack hstates => exact .inl hstates
    | keeps hmarked hstack hstates hstate htyping hbrowsing =>
        have hcontinues := hstate.resolve_left hchanged
        exact .inr ⟨hstates, hcontinues.nonempty hfollows, hcontinues⟩
  · rw [← hfollows.undoStack, state_undos, hfollows.undoStack]
    exact hfollows.initial

def prompted : Editor := { history := [unitsOf "old"] }

def typedCommands : List Command :=
  [.insert (unitsOf "a"), .insert (unitsOf " "), .insert (unitsOf "b"), .historyUp, .historyDown,
    .kill .toStartOfLine]

theorem undo_exact_prompted : ∃ e s,
    Machine.Reaches (stepWith oneWord) Browses (prompted, {}) (e, s) ∧ s.states.length = 4 ∧
      (e.step oneWord .undo).state = ⟨[unitsOf "a b"], 0, 3⟩ ∧
      (Editor.undo^[4] e).state = prompted.state := by
  have hrun : ((Machine.run (stepWith oneWord) Browses (prompted, {}) typedCommands).map fun x =>
      (x.2.states.length, x.2.states.headD x.1.state)) = some (4, ⟨[unitsOf "a b"], 0, 3⟩) := by
    decide
  obtain ⟨⟨e, s⟩, hx, hresult⟩ := Option.map_eq_some_iff.mp hrun
  obtain ⟨hlength, hstates⟩ := Prod.mk.inj hresult
  have hreach := Machine.reaches_of_run hx
  obtain ⟨hundo, -, hundos⟩ := undo_exact (m := oneWord) ⟨rfl, rfl, rfl⟩ hreach
  rw [hlength] at hundos
  exact ⟨e, s, hreach, hlength, hundo.trans hstates, hundos⟩

/-- What is left of a run of commands. -/
def stateAfter (e : Editor) (commands : List Command) : EditorState :=
  (commands.foldl (step oneWord) e).state

/-- An undo takes back a space with the word typed after it; and an entry of the
history that a completion changed is lost for the undo where it is left. -/
theorem undo_joins_changes :
    prompted.stateAfter [.insert (unitsOf "a"), .insert (unitsOf " "), .insert (unitsOf "b"),
        .undo] ≠ prompted.stateAfter [.insert (unitsOf "a"), .insert (unitsOf " ")] ∧
    prompted.stateAfter [.historyUp, .complete ⟨[unitsOf "done"], 0, 4⟩, .historyDown, .undo] ≠
      prompted.stateAfter [.historyUp, .complete ⟨[unitsOf "done"], 0, 4⟩] := by
  decide

end Editor

end Tui

end Eagent
