import Eagent.EditorKills
import Eagent.Machine

/-!
# Kills and yanks of the input

The input's kills are steps of `Killing` as the editor's are. Its cursor stays
in the value as long as no yank-pop finds it before the end of the entry it
deletes: `setValue` shortens the value and keeps the last action.
-/

namespace Eagent

namespace Tui

/-- What `Intl.Segmenter` promises: the segments of a text are the text. -/
structure Measures.Partitions (m : Measures) : Prop where
  graphemes : ∀ text, (m.graphemes text).flatten = text
  words : ∀ text, ((m.words text).map Prod.fst).flatten = text

def InputState.InValue (s : InputState) : Prop := 0 ≤ s.cursor ∧ s.cursor ≤ s.value.length

namespace Input

variable {m : Measures} {i i' : Input} {before after : Text}

/-! ## The parts -/

/-- The value before and after the cursor. -/
structure At (i : Input) (before after : Text) : Prop where
  value : i.value = before ++ after
  cursor : i.cursor = before.length

def InValue (i : Input) : Prop := 0 ≤ i.cursor ∧ i.cursor ≤ i.value.length

theorem resolve_natCast (text : Text) (n : Nat) : resolve text n = n := by
  rw [resolve, if_neg (Int.not_lt.mpr (Int.natCast_nonneg n)), Int.toNat_natCast]

theorem InValue.at (h : i.InValue) :
    i.At (i.value.take i.cursor.toNat) (i.value.drop i.cursor.toNat) := by
  obtain ⟨hzero, hlength⟩ := h
  refine ⟨(List.take_append_drop _ _).symm, ?_⟩
  rw [List.length_take, Nat.min_eq_left (by omega)]
  omega

namespace At

section

variable (h : i.At before after)
include h

theorem sliceTo : Tui.sliceTo i.value i.cursor = before := by
  rw [Tui.sliceTo, h.cursor, resolve_natCast, h.value, List.take_left]

theorem sliceFrom : Tui.sliceFrom i.value i.cursor = after := by
  rw [Tui.sliceFrom, h.cursor, resolve_natCast, h.value, List.drop_left]

theorem inValue : i.InValue := by
  rw [InValue, h.value, h.cursor, List.length_append]
  omega

theorem of_eq (hvalue : i'.value = i.value) (hcursor : i'.cursor = i.cursor) :
    i'.At before after :=
  ⟨hvalue.trans h.value, hcursor.trans h.cursor⟩

theorem insertText (text : Text) :
    (i.insertText text).At (before ++ text) after := by
  refine ⟨?_, ?_⟩
  · rw [Input.insertText, h.sliceTo, h.sliceFrom]
  · rw [Input.insertText, h.cursor, List.length_append, Int.natCast_add]

theorem state_eq (h' : i'.At before after) :
    i'.value = i.value ∧ i'.cursor = i.cursor :=
  ⟨h'.value.trans h.value.symm, h'.cursor.trans h.cursor.symm⟩

end

end At

/-! ## What a kill takes -/

def killed (m : Measures) (i : Input) : KillCommand → Option (Direction × Text)
  | .toStartOfLine => if i.cursor = 0 then none else some (.backward, sliceTo i.value i.cursor)
  | .toEndOfLine =>
      if i.value.length ≤ i.cursor then none else some (.forward, sliceFrom i.value i.cursor)
  | .wordBackwards =>
      if i.cursor = 0 then none
      else some (.backward, sliceBetween i.value (i.moveWordBackwards m).cursor i.cursor)
  | .wordForward =>
      if i.value.length ≤ i.cursor then none
      else some (.forward, sliceBetween i.value i.cursor (i.moveWordForwards m).cursor)

def killing (i : Input) : Killing :=
  { before := sliceTo i.value i.cursor
    after := sliceFrom i.value i.cursor
    ring := i.killRing
    killing := i.lastAction = some .kill }

theorem At.killing (h : i.At before after) : i.killing =
    { before, after, ring := i.killRing, killing := i.lastAction = some .kill } := by
  rw [Input.killing, h.sliceTo, h.sliceFrom]

theorem At.kill_before {text : Text} (h : i.At (before ++ text) after) (h' : i'.At before after)
    (hring : i'.killRing = i.killRing.push text true (i.lastAction = some .kill))
    (hlast : i'.lastAction = some .kill) :
    Killing.Step i.killing (some (.backward, text)) i'.killing := by
  rw [h.killing, h'.killing, hring, hlast]
  exact .backward _ text _ _ _

theorem At.kill_after {text : Text} (h : i.At before (text ++ after)) (h' : i'.At before after)
    (hring : i'.killRing = i.killRing.push text false (i.lastAction = some .kill))
    (hlast : i'.lastAction = some .kill) :
    Killing.Step i.killing (some (.forward, text)) i'.killing := by
  rw [h.killing, h'.killing, hring, hlast]
  exact .forward _ text _ _ _

/-! ## The commands -/

theorem cursor_moveWordBackwards (hcursor : i.cursor ≠ 0) :
    (i.moveWordBackwards m).cursor = wordBackward m i.value i.cursor := by
  have hrun : i.moveWordBackwards m =
      { i with lastAction := none, cursor := wordBackward m i.value i.cursor } := if_neg hcursor
  rw [hrun]

theorem cursor_moveWordForwards (hcursor : ¬ i.value.length ≤ i.cursor) :
    (i.moveWordForwards m).cursor = wordForward m i.value i.cursor := by
  have hrun : i.moveWordForwards m =
      { i with lastAction := none, cursor := wordForward m i.value i.cursor } := if_neg hcursor
  rw [hrun]

theorem At.wordBackward (h : i.At before after) :
    ∃ n ≤ before.length, Input.wordBackward m i.value i.cursor = (n : Nat) := by
  refine ⟨_, ?_, rfl⟩
  have hle := findWordBackward_le m.wordSegments (fun _ => false) i.value i.cursor.toNat
  have hcursor := h.cursor
  omega

theorem At.wordForward (h : i.At before after) (hcursor : ¬ i.value.length ≤ i.cursor) :
    ∃ n : Nat, Input.wordForward m i.value i.cursor = (before.length + n : Nat) := by
  rw [Input.wordForward, if_neg hcursor, h.cursor]
  exact ⟨_, rfl⟩

theorem step_runKill (h : i.InValue) (command : KillCommand) : (i.runKill m command).InValue ∧
    Killing.Step i.killing (i.killed m command) (i.runKill m command).killing := by
  have hat := h.at
  generalize i.value.take i.cursor.toNat = before at hat
  generalize i.value.drop i.cursor.toNat = after at hat
  have hnothing : i.InValue ∧ Killing.Step i.killing none i.killing := ⟨h, .nothing _⟩
  cases command with
  | toStartOfLine =>
    by_cases hcursor : i.cursor = 0
    · have hrun : i.runKill m .toStartOfLine = i := if_pos hcursor
      have hkilled : i.killed m .toStartOfLine = none := if_pos hcursor
      rw [hrun, hkilled]
      exact hnothing
    · have hrun : i.runKill m .toStartOfLine =
          { i.pushUndo.kill before true with value := after, cursor := 0 } := by
        refine (if_neg hcursor).trans ?_
        rw [hat.sliceTo]
        exact congrArg (fun value => { i.pushUndo.kill before true with value, cursor := 0 })
          hat.sliceFrom
      have hkilled : i.killed m .toStartOfLine = some (.backward, before) := by
        rw [killed, if_neg hcursor, hat.sliceTo]
      rw [hrun, hkilled]
      have hafter : At { i.pushUndo.kill before true with value := after, cursor := 0 } []
          after := ⟨rfl, rfl⟩
      rw [← List.nil_append before] at hat
      exact ⟨hafter.inValue, At.kill_before hat hafter rfl rfl⟩
  | toEndOfLine =>
    by_cases hcursor : i.value.length ≤ i.cursor
    · have hrun : i.runKill m .toEndOfLine = i := if_pos hcursor
      have hkilled : i.killed m .toEndOfLine = none := if_pos hcursor
      rw [hrun, hkilled]
      exact hnothing
    · have hrun : i.runKill m .toEndOfLine =
          { i.pushUndo.kill after false with value := before } := by
        refine (if_neg hcursor).trans ?_
        rw [hat.sliceFrom]
        exact congrArg (fun value => { i.pushUndo.kill after false with value }) hat.sliceTo
      have hkilled : i.killed m .toEndOfLine = some (.forward, after) := by
        rw [killed, if_neg hcursor, hat.sliceFrom]
      rw [hrun, hkilled]
      have hafter : At { i.pushUndo.kill after false with value := before } before [] :=
        ⟨(List.append_nil _).symm, hat.cursor⟩
      rw [← List.append_nil after] at hat
      exact ⟨hafter.inValue, At.kill_after hat hafter rfl rfl⟩
  | wordBackwards =>
    by_cases hcursor : i.cursor = 0
    · have hrun : i.runKill m .wordBackwards = i := if_pos hcursor
      have hkilled : i.killed m .wordBackwards = none := if_pos hcursor
      rw [hrun, hkilled]
      exact hnothing
    · obtain ⟨n, hn, hmoved⟩ := hat.wordBackward (m := m)
      rw [← cursor_moveWordBackwards hcursor] at hmoved
      have htaken : sliceBetween i.value (i.moveWordBackwards m).cursor i.cursor =
          before.drop n := by
        rw [hmoved, sliceBetween, hat.cursor, resolve_natCast, resolve_natCast, hat.value, slice,
          List.take_left]
      have hkept : sliceTo i.value (i.moveWordBackwards m).cursor = before.take n := by
        rw [hmoved, sliceTo, resolve_natCast, hat.value, List.take_append_of_le_length hn]
      have hrun : i.runKill m .wordBackwards =
          { i.pushUndo.kill (before.drop n) true with
            value := before.take n ++ after, cursor := n } := by
        refine (if_neg hcursor).trans ?_
        dsimp only
        rw [htaken, ← hkept, ← hmoved, ← hat.sliceFrom]
        rfl
      have hkilled : i.killed m .wordBackwards = some (.backward, before.drop n) := by
        rw [killed, if_neg hcursor, htaken]
      rw [hrun, hkilled]
      have hafter : At { i.pushUndo.kill (before.drop n) true with
          value := before.take n ++ after, cursor := n } (before.take n) after :=
        ⟨rfl, congrArg Int.ofNat (List.length_take_of_le hn).symm⟩
      rw [← List.take_append_drop n before] at hat
      exact ⟨hafter.inValue, At.kill_before hat hafter rfl rfl⟩
  | wordForward =>
    by_cases hcursor : i.value.length ≤ i.cursor
    · have hrun : i.runKill m .wordForward = i := if_pos hcursor
      have hkilled : i.killed m .wordForward = none := if_pos hcursor
      rw [hrun, hkilled]
      exact hnothing
    · obtain ⟨n, hmoved⟩ := hat.wordForward (m := m) hcursor
      rw [← cursor_moveWordForwards hcursor] at hmoved
      have htaken : sliceBetween i.value i.cursor (i.moveWordForwards m).cursor =
          after.take n := by
        rw [hmoved, sliceBetween, hat.cursor, resolve_natCast, resolve_natCast, hat.value, slice,
          List.drop_take, List.drop_left, Nat.add_sub_cancel_left]
      have hkept : sliceFrom i.value (i.moveWordForwards m).cursor = after.drop n := by
        rw [hmoved, sliceFrom, resolve_natCast, hat.value, ← List.drop_drop, List.drop_left]
      have hrun : i.runKill m .wordForward =
          { i.pushUndo.kill (after.take n) false with value := before ++ after.drop n } := by
        refine (if_neg hcursor).trans ?_
        dsimp only
        rw [htaken, ← hkept, ← hat.sliceTo]
        rfl
      have hkilled : i.killed m .wordForward = some (.forward, after.take n) := by
        rw [killed, if_neg hcursor, htaken]
      rw [hrun, hkilled]
      have hafter : At { i.pushUndo.kill (after.take n) false with
          value := before ++ after.drop n } before (after.drop n) := ⟨rfl, hat.cursor⟩
      rw [← List.take_append_drop n after] at hat
      exact ⟨hafter.inValue, At.kill_after hat hafter rfl rfl⟩

/-! ## Runs of kills -/

def runKills (m : Measures) (i : Input) (commands : List KillCommand) : Input :=
  commands.foldl (runKill m) i

def killsOf (m : Measures) : Input → List KillCommand → List (Option (Direction × Text))
  | _, [] => []
  | i, command :: rest => i.killed m command :: killsOf m (i.runKill m command) rest

theorem run_runKills (h : i.InValue) (commands : List KillCommand) :
    (i.runKills m commands).InValue ∧
      Killing.Run i.killing (killsOf m i commands) (i.runKills m commands).killing := by
  induction commands generalizing i with
  | nil => exact ⟨h, .nil _⟩
  | cons command rest ih =>
    obtain ⟨hin, hstep⟩ := step_runKill (m := m) h command
    obtain ⟨hin', hrun⟩ := ih hin
    exact ⟨hin', .cons hstep hrun⟩

theorem runKill_of_none {command : KillCommand} (h : i.killed m command = none) :
    i.runKill m command = i := by
  have hdone {condition : Prop} [Decidable condition] {taken : Direction × Text} {j : Input}
      (hnone : (if condition then none else some taken) = none) :
      (if condition then i else j) = i := by
    split at hnone
    · rename_i hcondition
      exact if_pos hcondition
    · cases hnone
  cases command with
  | toStartOfLine => exact hdone h
  | toEndOfLine => exact hdone h
  | wordBackwards => exact hdone h
  | wordForward => exact hdone h

/-- The first kill that does something does it to the value of the start. -/
theorem findSome_killsOf (i : Input) (commands : List KillCommand) :
    (killsOf m i commands).findSome? id = commands.findSome? (i.killed m) := by
  induction commands with
  | nil => rfl
  | cons command rest ih =>
    rw [killsOf, List.findSome?_cons, List.findSome?_cons]
    cases hkilled : i.killed m command with
    | some taken => rfl
    | none =>
      dsimp only [id]
      rw [runKill_of_none hkilled, ih]

/-! ## Yanks -/

/-- The entry of a ring is at a place, and was yanked there. -/
structure Yanked (i : Input) (before after : Text) (ring : KillRing) : Prop where
  inserted : ∃ text, ring.peek = some text ∧ i.At (before ++ text) after
  ring : i.killRing = ring
  last : i.lastAction = some .yank

theorem value_yank (h : i.InValue) :
    i.yank.value = i.killing.before ++ i.killRing.peek.getD [] ++ i.killing.after := by
  obtain ⟨before, after, hat⟩ : ∃ before after, i.At before after := ⟨_, _, h.at⟩
  unfold yank
  split
  · rename_i hnone
    rw [hat.killing, hnone, Option.getD_none, List.append_nil, hat.value]
  · rename_i text hpeek
    have hplaced : i.pushUndo.At before after := hat.of_eq rfl rfl
    rw [hat.killing, hpeek, Option.getD_some]
    exact (hplaced.insertText text).value

/-- A yank at the end of a run of kills restores the value if and only if the
ring was empty, or no kill was just before the run and the first command of it
that does anything takes a text. -/
theorem yank_restores_iff (m : Measures) (h : i.InValue) (commands : List KillCommand) :
    (i.runKills m commands).yank.value = i.value ↔
      i.killRing.ring = [] ∨ (i.lastAction ≠ some .kill ∧ ∃ direction text,
        commands.findSome? (i.killed m) = some (direction, text) ∧ text ≠ []) := by
  obtain ⟨hin, hrun⟩ := run_runKills (m := m) h commands
  have hrestores := Killing.restores_iff hrun
  have hvalue : i.value = i.killing.before ++ i.killing.after := by
    rw [h.at.killing]
    exact h.at.value
  have hring : i.killing.ring = i.killRing := rfl
  have hkilling : i.killing.killing = decide (i.lastAction = some .kill) := rfl
  rw [Killing.Begins, findSome_killsOf, hring, hkilling, decide_eq_false_iff_not] at hrestores
  rw [value_yank hin, hvalue, ← hrestores]
  rfl

theorem At.yank (h : i.At before after) (hring : i.killRing.ring ≠ []) :
    i.yank.Yanked before after i.killRing := by
  obtain ⟨text, hpeek, -⟩ := Killing.exists_peek hring
  have hplaced : i.pushUndo.At before after := h.of_eq rfl rfl
  unfold Input.yank
  rw [hpeek]
  exact ⟨⟨text, hpeek, (hplaced.insertText text).of_eq rfl rfl⟩, rfl, rfl⟩

theorem Yanked.yankPop {ring : KillRing} (h : i.Yanked before after ring) :
    i.yankPop.Yanked before after ring.rotate := by
  obtain ⟨⟨text, hpeek, hat⟩, hring, hlast⟩ := h
  unfold Input.yankPop
  split
  · rename_i hfew
    have hone := hfew.resolve_left fun hne => hne hlast
    rw [KillRing.rotate_of_le (hring ▸ hone)]
    exact ⟨⟨text, hpeek, hat⟩, hring, hlast⟩
  · obtain ⟨next, hnext⟩ := KillRing.exists_peek_rotate hpeek
    have hcursor : i.cursor - text.length = (before.length : Nat) := by
      rw [hat.cursor, List.length_append]
      omega
    have hbefore : Tui.sliceTo i.value (i.cursor - text.length) = before := by
      rw [hcursor, Tui.sliceTo, resolve_natCast, hat.value, List.append_assoc, List.take_left]
    have hplaced : ({ i.pushUndo with
        value := before ++ after
        cursor := (before.length : Nat)
        killRing := ring.rotate } : Input).At before after := ⟨rfl, rfl⟩
    have hdone := hplaced.insertText next
    dsimp only [pushUndo]
    rw [hring, hpeek, hnext, Option.getD_some, Option.getD_some, hbefore, hat.sliceFrom, hcursor]
    exact ⟨⟨next, hnext, hdone.of_eq rfl rfl⟩, rfl, rfl⟩

theorem Yanked.yankPops {ring : KillRing} (h : i.Yanked before after ring) (n : Nat) :
    (Input.yankPop^[n] i).Yanked before after (KillRing.rotate^[n] ring) := by
  induction n with
  | zero => exact h
  | succ n ih =>
    rw [Function.iterate_succ_apply', Function.iterate_succ_apply']
    exact ih.yankPop

/-- `n` yank-pops after a yank put the `n`-th older entry, cyclically, in its
place; as many as there are entries restore what the yank gave. -/
theorem yankPops_yank (h : i.InValue) (hring : i.killRing.ring ≠ []) :
    (∀ n, (Input.yankPop^[n] i.yank).value = i.killing.before ++
        (i.killRing.ring.reverse[n % i.killRing.ring.length]?).getD [] ++ i.killing.after) ∧
      (Input.yankPop^[i.killRing.ring.length] i.yank).value = i.yank.value ∧
      (Input.yankPop^[i.killRing.ring.length] i.yank).cursor = i.yank.cursor := by
  have hyanked := h.at.yank hring
  constructor
  · intro n
    obtain ⟨⟨text, hpeek, hat⟩, -, -⟩ := hyanked.yankPops n
    rw [KillRing.peek_rotations] at hpeek
    rw [hat.value, hpeek, Option.getD_some, h.at.killing]
  · obtain ⟨⟨text', hpeek', hat'⟩, -, -⟩ := hyanked.yankPops i.killRing.ring.length
    obtain ⟨⟨text, hpeek, hat⟩, -, -⟩ := hyanked
    rw [KillRing.peek_all_rotations, hpeek] at hpeek'
    cases hpeek'
    exact hat.state_eq hat'

/-! ## The cursor over a run -/

/-- The cursor is in the value, and is so in each snapshot. -/
structure Sound (i : Input) : Prop where
  inValue : i.InValue
  snapshots : ∀ s ∈ i.undoStack, s.InValue

/-- A yank-pop that does something finds the cursor behind the entry it deletes. -/
def Anchored (i : Input) (command : Command) : Prop :=
  command = .yankPop → i.lastAction = some .yank → 1 < i.killRing.length →
    ((i.killRing.peek.getD []).length : Int) ≤ i.cursor

theorem Sound.pushUndo (h : i.Sound) : i.pushUndo.Sound :=
  ⟨h.inValue, List.forall_mem_cons.mpr ⟨h.inValue, h.snapshots⟩⟩

theorem Sound.of_at (h : i.Sound) (hundo : i'.undoStack = i.undoStack) (hat : i'.At before after) :
    i'.Sound := ⟨hat.inValue, hundo ▸ h.snapshots⟩

theorem Sound.move (h : i.Sound) (hundo : i'.undoStack = i.undoStack) (hvalue : i'.value = i.value)
    (hlow : 0 ≤ i'.cursor) (hhigh : i'.cursor ≤ i.value.length) : i'.Sound :=
  ⟨⟨hlow, hvalue ▸ hhigh⟩, hundo ▸ h.snapshots⟩

theorem Sound.insertText (h : i.Sound) (text : Text) : (i.insertText text).Sound :=
  h.of_at rfl (h.inValue.at.insertText text)

theorem Sound.forget (h : i.Sound) (lastAction : Option LastAction) :
    Sound { i with lastAction } := ⟨h.inValue, h.snapshots⟩

theorem length_last_le {texts : List Text} {text last : Text} (h : texts.flatten = text)
    (hlast : texts.getLast? = some last) : last.length ≤ text.length := by
  obtain ⟨init, rfl⟩ := List.getLast?_eq_some_iff.mp hlast
  rw [← h, List.flatten_append, List.flatten_singleton, List.length_append]
  exact Nat.le_add_left _ _

theorem length_first_le {texts : List Text} {text first : Text} (h : texts.flatten = text)
    (hfirst : texts.head? = some first) : first.length ≤ text.length := by
  obtain ⟨rest, rfl⟩ := List.head?_eq_some_iff.mp hfirst
  rw [← h, List.flatten_cons, List.length_append]
  exact Nat.le_add_right _ _

theorem At.graphemeBefore_le (h : i.At before after) (hm : m.Partitions) (hcursor : 0 < i.cursor) :
    i.graphemeBefore m ≤ before.length := by
  have hpos : 1 ≤ before.length := by
    have hlength := h.cursor
    omega
  rw [graphemeBefore, h.sliceTo]
  cases hlast : (m.graphemes before).getLast? with
  | none => exact hpos
  | some last => exact length_last_le (hm.graphemes before) hlast

theorem At.graphemeAfter_le (h : i.At before after) (hm : m.Partitions)
    (hcursor : i.cursor < i.value.length) : i.graphemeAfter m ≤ after.length := by
  have hpos : 1 ≤ after.length := by
    rw [h.value, h.cursor, List.length_append] at hcursor
    omega
  rw [graphemeAfter, h.sliceFrom]
  cases hfirst : (m.graphemes after).head? with
  | none => exact hpos
  | some first => exact length_first_le (hm.graphemes after) hfirst

theorem wordForward_le (hm : m.Partitions) (h : i.InValue) :
    wordForward m i.value i.cursor ≤ i.value.length := by
  obtain ⟨before, after, hat⟩ : ∃ before after, i.At before after := ⟨_, _, h.at⟩
  unfold wordForward
  split
  · exact Int.le_refl _
  · have hparts : lengthOf (m.wordSegments (after.drop 0)) ≤ (after.drop 0).length := by
      rw [Measures.wordSegments, lengthOf_segmentsFrom, hm.words]
    have hword := findWordForward_le m.wordSegments (fun _ => false) hparts
    rw [hat.sliceFrom, hat.cursor, hat.value, List.length_append]
    omega

/-- The text before the cursor loses its end. -/
theorem Sound.deleteBefore (h : i.Sound) {n : Nat} (hn : (n : Int) ≤ i.cursor) : Sound { i with
    value := sliceTo i.value (i.cursor - n) ++ sliceFrom i.value i.cursor
    cursor := i.cursor - n } := by
  obtain ⟨before, after, hat⟩ : ∃ before after, i.At before after := ⟨_, _, h.inValue.at⟩
  rw [hat.cursor, Int.ofNat_le] at hn
  have hcursor : i.cursor - n = (before.length - n : Nat) := by rw [hat.cursor, Int.ofNat_sub hn]
  have hbefore : sliceTo i.value (i.cursor - n) = before.take (before.length - n) := by
    rw [hcursor, sliceTo, resolve_natCast, hat.value,
      List.take_append_of_le_length (Nat.sub_le _ _)]
  rw [hbefore, hat.sliceFrom, hcursor]
  have hlength : (before.take (before.length - n)).length = before.length - n :=
    List.length_take_of_le (Nat.sub_le _ _)
  have hafter : At { i with
      value := before.take (before.length - n) ++ after
      cursor := (before.length - n : Nat) } (before.take (before.length - n)) after :=
    ⟨rfl, congrArg Int.ofNat hlength.symm⟩
  exact h.of_at rfl hafter

theorem Sound.runKill (h : i.Sound) (command : KillCommand) : (i.runKill m command).Sound := by
  have hundo : (i.runKill m command).undoStack = i.undoStack ∨
      (i.runKill m command).undoStack = i.pushUndo.undoStack := by
    cases command with
    | toStartOfLine =>
      change i.deleteToLineStart.undoStack = _ ∨ i.deleteToLineStart.undoStack = _
      unfold deleteToLineStart
      split
      · exact .inl rfl
      · exact .inr rfl
    | toEndOfLine =>
      change i.deleteToLineEnd.undoStack = _ ∨ i.deleteToLineEnd.undoStack = _
      unfold deleteToLineEnd
      split
      · exact .inl rfl
      · exact .inr rfl
    | wordBackwards =>
      change (i.deleteWordBackwards m).undoStack = _ ∨ (i.deleteWordBackwards m).undoStack = _
      unfold deleteWordBackwards
      split
      · exact .inl rfl
      · exact .inr rfl
    | wordForward =>
      change (i.deleteWordForward m).undoStack = _ ∨ (i.deleteWordForward m).undoStack = _
      unfold deleteWordForward
      split
      · exact .inl rfl
      · exact .inr rfl
  refine ⟨(step_runKill h.inValue command).1, ?_⟩
  rcases hundo with hundo | hundo
  · rw [hundo]
    exact h.snapshots
  · rw [hundo]
    exact h.pushUndo.snapshots

theorem Sound.step (h : i.Sound) (hm : m.Partitions) {command : Command}
    (hanchored : i.Anchored command) : (i.step m command).Sound := by
  obtain ⟨before, after, hat⟩ : ∃ before after, i.At before after := ⟨_, _, h.inValue.at⟩
  obtain ⟨hzero, hlength⟩ := h.inValue
  cases command with
  | setValue value =>
    refine ⟨?_, h.snapshots⟩
    change 0 ≤ min i.cursor value.length ∧ min i.cursor value.length ≤ value.length
    omega
  | report => exact h
  | undo =>
    change i.undo.Sound
    unfold undo
    split
    · exact h
    · rename_i snapshot undoStack hundo
      have hall := h.snapshots
      rw [hundo, List.forall_mem_cons] at hall
      exact ⟨hall.1, hall.2⟩
  | backspace =>
    change (i.handleBackspace m).Sound
    unfold handleBackspace
    dsimp only
    split
    · rename_i hcursor
      have hgrapheme := hat.graphemeBefore_le hm hcursor
      rw [← Int.ofNat_le, ← hat.cursor] at hgrapheme
      exact (h.forget none).pushUndo.deleteBefore hgrapheme
    · exact h.forget none
  | forwardDelete =>
    change (i.handleForwardDelete m).Sound
    unfold handleForwardDelete
    dsimp only
    split
    · have hafter : At { ({ i with lastAction := none } : Input).pushUndo with
          value := sliceTo i.value i.cursor ++
            sliceFrom i.value (i.cursor + graphemeAfter m { i with lastAction := none }) }
          before (sliceFrom i.value
            (i.cursor + graphemeAfter m { i with lastAction := none })) := by
        refine ⟨?_, hat.cursor⟩
        dsimp only
        rw [hat.sliceTo]
      exact (h.forget none).pushUndo.of_at rfl hafter
    · exact h.forget none
  | kill command => exact h.runKill command
  | yank =>
    change i.yank.Sound
    unfold yank
    split
    · exact h
    · exact (h.pushUndo.insertText _).forget _
  | yankPop =>
    change i.yankPop.Sound
    unfold yankPop
    split
    · exact h
    · rename_i hpops
      rw [not_or, not_not, Nat.not_le] at hpops
      have hprev := hanchored rfl hpops.1 hpops.2
      have hback := h.pushUndo.deleteBefore hprev
      have hrotated : Sound { { i.pushUndo with
          value := sliceTo i.value (i.cursor - (i.killRing.peek.getD []).length) ++
            sliceFrom i.value i.cursor
          cursor := i.cursor - (i.killRing.peek.getD []).length } with
          killRing := i.killRing.rotate } := ⟨hback.inValue, hback.snapshots⟩
      exact (hrotated.insertText _).forget _
  | left =>
    change (i.cursorLeft m).Sound
    unfold cursorLeft
    dsimp only
    split
    · rename_i hcursor
      have hgrapheme := hat.graphemeBefore_le hm hcursor
      rw [← Int.ofNat_le, ← hat.cursor] at hgrapheme
      exact h.move rfl rfl (Int.sub_nonneg_of_le hgrapheme)
        (Int.le_trans (Int.sub_le_self _ (Int.natCast_nonneg _)) hlength)
    · exact h.forget none
  | right =>
    change (i.cursorRight m).Sound
    unfold cursorRight
    dsimp only
    split
    · rename_i hcursor
      have hgrapheme := hat.graphemeAfter_le hm hcursor
      refine h.move rfl rfl (Int.add_nonneg hzero (Int.natCast_nonneg _)) ?_
      change i.cursor + (i.graphemeAfter m : Int) ≤ i.value.length
      rw [hat.cursor, hat.value, List.length_append]
      omega
    · exact h.forget none
  | lineStart => exact h.move rfl rfl (Int.le_refl 0) (Int.natCast_nonneg _)
  | lineEnd => exact h.move rfl rfl (Int.natCast_nonneg _) (Int.le_refl _)
  | wordLeft =>
    change (i.moveWordBackwards m).Sound
    unfold moveWordBackwards
    split
    · exact h
    · obtain ⟨n, hn, hword⟩ := hat.wordBackward (m := m)
      rw [← Int.ofNat_le, ← hword, ← hat.cursor] at hn
      exact h.move rfl rfl (hword ▸ Int.natCast_nonneg n) (Int.le_trans hn hlength)
  | wordRight =>
    change (i.moveWordForwards m).Sound
    unfold moveWordForwards
    split
    · exact h
    · rename_i hcursor
      obtain ⟨n, hword⟩ := hat.wordForward (m := m) hcursor
      exact h.move rfl rfl (hword ▸ Int.natCast_nonneg _) (wordForward_le hm h.inValue)
  | insert char =>
    change (i.insertCharacter char).Sound
    unfold insertCharacter
    split
    · exact (h.pushUndo.forget _).insertText char
    · exact (h.forget _).insertText char
  | paste pastedText => exact (h.forget none).pushUndo.insertText _

/-- Over a run whose yank-pops find the cursor behind what they delete, the
cursor is in the value. -/
theorem sound_of_reaches (hm : m.Partitions)
    (h : Machine.Reaches (fun i command => some (step m i command)) Anchored {} i) : i.Sound := by
  refine h.invariant ⟨⟨Int.le_refl 0, Int.le_refl 0⟩, List.forall_mem_nil _⟩ ?_
  rintro i command i' hsound hanchored hstep
  obtain rfl := Option.some.inj hstep
  exact hsound.step hm hanchored

end Input

/-! ## The editor and the input -/

/-- A yank after a run of kills restores the text if and only if the ring was
empty, or no kill was just before the run and the first command of it that
does anything takes a text; yank-pops go through the ring, and the input keeps
its cursor in the value where each yank-pop finds it behind what it deletes. -/
theorem yank_undoes_kills (m : Measures) (hm : m.Partitions) :
    (∀ (e : Editor) (commands : List KillCommand), e.InText →
      ((e.runKills m commands).yank.getText = e.getText ↔
        e.killRing.ring = [] ∨ (e.lastAction ≠ some .kill ∧ ∃ direction text,
          commands.findSome? (e.killed m) = some (direction, text) ∧ text ≠ []))) ∧
    (∀ e : Editor, e.InText → e.killRing.ring ≠ [] →
      (∀ n, (Editor.yankPop^[n] e.yank).getText = e.killing.before ++
        (e.killRing.ring.reverse[n % e.killRing.ring.length]?).getD [] ++ e.killing.after) ∧
      (Editor.yankPop^[e.killRing.ring.length] e.yank).state = e.yank.state) ∧
    (∀ (i : Input) (commands : List KillCommand), i.InValue →
      ((i.runKills m commands).yank.value = i.value ↔
        i.killRing.ring = [] ∨ (i.lastAction ≠ some .kill ∧ ∃ direction text,
          commands.findSome? (i.killed m) = some (direction, text) ∧ text ≠ []))) ∧
    (∀ i : Input, i.InValue → i.killRing.ring ≠ [] →
      (∀ n, (Input.yankPop^[n] i.yank).value = i.killing.before ++
        (i.killRing.ring.reverse[n % i.killRing.ring.length]?).getD [] ++ i.killing.after) ∧
      (Input.yankPop^[i.killRing.ring.length] i.yank).value = i.yank.value ∧
      (Input.yankPop^[i.killRing.ring.length] i.yank).cursor = i.yank.cursor) ∧
    (∀ i : Input, Machine.Reaches (fun i command => some (Input.step m i command)) Input.Anchored
      {} i → 0 ≤ i.cursor ∧ i.cursor ≤ i.value.length) :=
  ⟨fun _ commands h => Editor.yank_restores_iff m h commands,
    fun _ h hring => Editor.yankPops_yank h hring,
    fun _ commands h => Input.yank_restores_iff m h commands,
    fun _ h hring => Input.yankPops_yank h hring,
    fun _ h => (Input.sound_of_reaches hm h).inValue⟩

def oneWord : Measures where
  graphemes text := text.map ([·])
  words text := [(text, true)]
  visibleWidth := List.length
  isCjk _ := false

theorem partitions_oneWord : oneWord.Partitions where
  graphemes text := by
    induction text with
    | nil => rfl
    | cons u text ih => exact congrArg (u :: ·) ih
  words text := List.append_nil text

/-- A Hebrew letter and an apostrophe are one word, with the cursor at its end. -/
def geresh : Editor :=
  { state := ⟨[[0x5d2, 0x27]], 0, 2⟩, killRing := ⟨[unitsOf "old"], by decide⟩ }

theorem yank_undoes_kills_oneWord :
    (geresh.runKills oneWord [.toStartOfLine]).yank.getText = geresh.getText ∧
    (∀ i : Input, Machine.Reaches (fun i command => some (Input.step oneWord i command))
      Input.Anchored {} i → 0 ≤ i.cursor ∧ i.cursor ≤ i.value.length) := by
  have hkills := yank_undoes_kills oneWord partitions_oneWord
  have hfirst : [KillCommand.toStartOfLine].findSome? (geresh.killed oneWord) =
      some (.backward, [0x5d2, 0x27]) := by decide
  refine ⟨(hkills.1 geresh _ ⟨by decide, by decide⟩).mpr (.inr ⟨by decide, _, _, hfirst, ?_⟩),
    hkills.2.2.2.2⟩
  exact List.cons_ne_nil _ _

/-- The word backward ends in a punctuation and takes nothing, and the kill
after it is joined to an older entry; and a value is shortened between a yank
and a yank-pop. -/
theorem yank_after_empty_kill :
    (geresh.InText ∧ geresh.lastAction = none ∧
      (geresh.runKills oneWord [.wordBackwards, .toStartOfLine]).yank.getText ≠ geresh.getText) ∧
    ∃ i, Machine.Reaches (fun i command => some (Input.step oneWord i command))
      (fun _ _ => True) {} i ∧ i.cursor < 0 := by
  refine ⟨⟨⟨by decide, by decide⟩, rfl, by decide⟩, ?_⟩
  have hrun : ((Machine.run (fun i command => some (Input.step oneWord i command))
      (fun _ _ => True) {} [.paste (unitsOf "a"), .kill .toStartOfLine, .paste (unitsOf "hello"),
        .kill .toStartOfLine, .yank, .setValue [], .yankPop]).map Input.cursor) = some (-4) := by
    decide
  obtain ⟨i, hi, hcursor⟩ := Option.map_eq_some_iff.mp hrun
  exact ⟨i, Machine.reaches_of_run hi, by rw [hcursor]; decide⟩

end Tui

end Eagent
