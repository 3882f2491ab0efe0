import Eagent.KillRing

/-!
# Runs of kills

A kill takes a text before or after the cursor into the ring. Kills that
follow one another make one entry, with the texts killed backward before
those killed forward, so a yank at the end of a run puts the text back, unless
the entry has become part of an older one (`restores_iff`).
-/

namespace Eagent

namespace Tui

inductive Direction where
  | forward
  | backward
deriving DecidableEq

/-- A text as what is before and after the cursor, and the ring; `killing` says
that the last action was a kill. -/
structure Killing where
  before : Text
  after : Text
  ring : KillRing
  killing : Bool

namespace Killing

/-- A kill that does nothing, or that takes a text on one side. -/
inductive Step : Killing → Option (Direction × Text) → Killing → Prop
  | nothing (v : Killing) : Step v none v
  | backward (before text after : Text) (ring : KillRing) (killing : Bool) :
      Step ⟨before ++ text, after, ring, killing⟩ (some (.backward, text))
        ⟨before, after, ring.push text true killing, true⟩
  | forward (before text after : Text) (ring : KillRing) (killing : Bool) :
      Step ⟨before, text ++ after, ring, killing⟩ (some (.forward, text))
        ⟨before, after, ring.push text false killing, true⟩

inductive Run : Killing → List (Option (Direction × Text)) → Killing → Prop
  | nil (v : Killing) : Run v [] v
  | cons {v v' v'' : Killing} {kill : Option (Direction × Text)}
      {kills : List (Option (Direction × Text))} (hstep : Step v kill v')
      (hrun : Run v' kills v'') : Run v (kill :: kills) v''

/-- The last entry is the text killed since `start`, around `old`. -/
structure Merges (start : Killing) (old : Text) (v : Killing) : Prop where
  killing : v.killing = true
  entry : ∃ p s, start.before = v.before ++ p ∧ start.after = s ++ v.after ∧
    v.ring.peek = some (p ++ old ++ s)

/-- A yank puts the text of `start` back. -/
def Restores (start v : Killing) : Prop :=
  v.before ++ v.ring.peek.getD [] ++ v.after = start.before ++ start.after

/-- The ring is empty, or the run begins a new entry: no kill is just before
it, and the first kill that does something takes a text. -/
def Begins (start : Killing) (kills : List (Option (Direction × Text))) : Prop :=
  start.ring.ring = [] ∨ (start.killing = false ∧
    ∃ direction text, kills.findSome? id = some (direction, text) ∧ text ≠ [])

variable {start v v' : Killing} {old : Text} {kill : Option (Direction × Text)}
  {kills : List (Option (Direction × Text))}

theorem Merges.step (h : Merges start old v) (hstep : Step v kill v') : Merges start old v' := by
  obtain ⟨hkilling, p, s, hbefore, hafter, hpeek⟩ := h
  cases hstep with
  | nothing => exact ⟨hkilling, p, s, hbefore, hafter, hpeek⟩
  | backward before text after ring killing =>
    obtain rfl : killing = true := hkilling
    refine ⟨rfl, text ++ p, s, ?_, hafter, ?_⟩
    · rw [hbefore, List.append_assoc]
    · by_cases htext : text = []
      · subst htext
        exact hpeek
      · rw [KillRing.peek_push_merged hpeek htext]
        simp [KillRing.merged]
  | forward before text after ring killing =>
    obtain rfl : killing = true := hkilling
    refine ⟨rfl, p, s ++ text, hbefore, ?_, ?_⟩
    · rw [hafter, List.append_assoc]
    · by_cases htext : text = []
      · subst htext
        rw [List.append_nil]
        exact hpeek
      · rw [KillRing.peek_push_merged hpeek htext]
        simp [KillRing.merged]

theorem Merges.run (h : Merges start old v) (hrun : Run v kills v') : Merges start old v' := by
  induction hrun with
  | nil => exact h
  | cons hstep _ ih => exact ih (h.step hstep)

theorem Merges.restores_iff (h : Merges start old v) : Restores start v ↔ old = [] := by
  obtain ⟨-, p, s, hbefore, hafter, hpeek⟩ := h
  rw [Restores, hbefore, hafter, hpeek, Option.getD_some]
  constructor
  · intro heq
    have hlength := congrArg List.length heq
    simp only [List.length_append] at hlength
    exact List.length_eq_zero_iff.mp (by omega)
  · rintro rfl
    simp

theorem peek_eq_none {ring : KillRing} : ring.peek = none ↔ ring.ring = [] :=
  List.getLast?_eq_none_iff

theorem merges_first {direction : Direction} {text : Text}
    (hstep : Step v (some (direction, text)) v') (htext : text ≠ []) {old : Text}
    (hold : v.ring.peek = some old ∧ v.killing = true ∨
      old = [] ∧ (v.ring.ring = [] ∨ v.killing = false)) : Merges v old v' := by
  cases hstep with
  | backward before text after ring killing =>
    refine ⟨rfl, text, [], rfl, rfl, ?_⟩
    rcases hold with ⟨hpeek, hkilling⟩ | ⟨rfl, hnew⟩
    · obtain rfl : killing = true := hkilling
      rw [KillRing.peek_push_merged hpeek htext]
      simp [KillRing.merged]
    · rw [KillRing.peek_push_first htext hnew]
      simp
  | forward before text after ring killing =>
    refine ⟨rfl, [], text, (List.append_nil _).symm, rfl, ?_⟩
    rcases hold with ⟨hpeek, hkilling⟩ | ⟨rfl, hnew⟩
    · obtain rfl : killing = true := hkilling
      rw [KillRing.peek_push_merged hpeek htext]
      simp [KillRing.merged]
    · rw [KillRing.peek_push_first htext hnew]
      simp

/-- A kill that takes nothing still counts as one. -/
theorem step_nil {direction : Direction} (hstep : Step v (some (direction, [])) v') :
    v' = { v with killing := true } := by
  generalize hkill : some (direction, ([] : Text)) = kill at hstep
  cases hstep with
  | nothing => cases hkill
  | backward before text after ring killing =>
    cases hkill
    rw [List.append_nil, KillRing.push_nil]
  | forward before text after ring killing =>
    cases hkill
    rw [List.nil_append, KillRing.push_nil]

theorem exists_peek {ring : KillRing} (h : ring.ring ≠ []) :
    ∃ old, ring.peek = some old ∧ old ≠ [] := by
  cases hpeek : ring.peek with
  | none => exact absurd (peek_eq_none.mp hpeek) h
  | some old => exact ⟨old, rfl, KillRing.peek_ne_nil hpeek⟩

/-- A yank after a run of kills puts the text back if and only if the run has
an entry of its own, or the ring was empty. -/
theorem restores_iff (hrun : Run start kills v) : Restores start v ↔ start.Begins kills := by
  induction hrun with
  | nil v =>
    by_cases hempty : v.ring.ring = []
    · simp [Restores, Begins, peek_eq_none.mpr hempty, hempty]
    · obtain ⟨old, hpeek, hold⟩ := exists_peek hempty
      simp [Restores, Begins, hpeek, hempty, hold]
  | @cons v v' v'' kill kills hstep hrest ih =>
    cases kill with
    | none =>
      cases hstep
      rwa [Begins, List.findSome?_cons_of_isNone rfl]
    | some taken =>
      obtain ⟨direction, text⟩ := taken
      have hfirst : (some (direction, text) :: kills).findSome? id = some (direction, text) :=
        rfl
      by_cases htext : text = []
      · subst htext
        obtain rfl := step_nil hstep
        by_cases hempty : v.ring.ring = []
        · have hrestores := ih.mpr (.inl hempty)
          exact ⟨fun _ => .inl hempty, fun _ => hrestores⟩
        · obtain ⟨old, hpeek, hold⟩ := exists_peek hempty
          have hmerges : Merges v old { v with killing := true } :=
            ⟨rfl, [], [], (List.append_nil _).symm, rfl, by simpa using hpeek⟩
          rw [(hmerges.run hrest).restores_iff, Begins, hfirst]
          simp [hold, hempty]
      · by_cases hnew : v.ring.ring = [] ∨ v.killing = false
        · have hmerges := merges_first hstep htext (.inr ⟨rfl, hnew⟩)
          rw [(hmerges.run hrest).restores_iff, Begins, hfirst]
          simpa [htext] using hnew
        · rw [not_or, Bool.not_eq_false] at hnew
          obtain ⟨old, hpeek, hold⟩ := exists_peek hnew.1
          have hmerges := merges_first hstep htext (.inl ⟨hpeek, hnew.2⟩)
          rw [(hmerges.run hrest).restores_iff, Begins, hfirst]
          simp [hold, hnew.1, hnew.2]

end Killing

end Tui

end Eagent
