import Mathlib.Data.List.Basic

/-!
# Partial step functions

A machine is a step function that refuses what is not enabled. `Reaches`
are the runs whose steps all meet a side condition on the state before the
step; `Reaches.invariant` is the induction over them, and `run` executes a
list of actions.
-/

namespace Machine

variable {σ α : Type} {step : σ → α → Option σ} {ok ok' : σ → α → Prop} {s s' s'' : σ}

/-- The states reached from `s` by steps that meet `ok`. -/
inductive Reaches (step : σ → α → Option σ) (ok : σ → α → Prop) (s : σ) : σ → Prop
  | refl : Reaches step ok s s
  | tail {s' s'' : σ} {a : α} (h : Reaches step ok s s') (hok : ok s' a)
      (hstep : step s' a = some s'') : Reaches step ok s s''

/-- What every step keeps, every run keeps. -/
theorem Reaches.invariant {I : σ → Prop} (h : Reaches step ok s s') (hs : I s)
    (hkeep : ∀ s a s', I s → ok s a → step s a = some s' → I s') : I s' := by
  induction h with
  | refl => exact hs
  | tail _ hok hstep ih => exact hkeep _ _ _ ih hok hstep

theorem Reaches.trans (h : Reaches step ok s s') (h' : Reaches step ok s' s'') :
    Reaches step ok s s'' := by
  induction h' with
  | refl => exact h
  | tail _ hok hstep ih => exact ih.tail hok hstep

/-- Two machines in lockstep. -/
def both (step : σ → α → Option σ) (x : σ × σ) (a : α × α) : Option (σ × σ) :=
  (step x.1 a.1).bind fun s => (step x.2 a.2).map fun s' => (s, s')

theorem both_eq_some {x y : σ × σ} {a : α × α} :
    both step x a = some y ↔ step x.1 a.1 = some y.1 ∧ step x.2 a.2 = some y.2 := by
  simp [both, Option.bind_eq_some_iff, Prod.ext_iff]

/-- The first of two machines in lockstep. -/
theorem Reaches.first {okBoth : σ × σ → α × α → Prop} {x y : σ × σ}
    (h : Reaches (both step) okBoth x y) (hok : ∀ x a, okBoth x a → ok x.1 a.1) :
    Reaches step ok x.1 y.1 := by
  induction h with
  | refl => exact .refl
  | tail _ ha hstep ih => exact ih.tail (hok _ _ ha) (both_eq_some.mp hstep).1

theorem Reaches.beside (h : Reaches step ok s s') {okBoth : σ × σ → α × α → Prop}
    (hok : ∀ s a, ok s a → okBoth (s, s) (a, a)) :
    Reaches (both step) okBoth (s, s) (s', s') := by
  induction h with
  | refl => exact .refl
  | tail _ ha hstep ih => exact ih.tail (hok _ _ ha) (both_eq_some.mpr ⟨hstep, hstep⟩)

/-- Execute a list of actions, as long as each is enabled and meets the side
condition. -/
def run (step : σ → α → Option σ) (ok : σ → α → Prop) [∀ s a, Decidable (ok s a)] :
    σ → List α → Option σ
  | s, [] => some s
  | s, a :: rest => if ok s a then (step s a).bind fun s' => run step ok s' rest else none

theorem reaches_of_run [∀ s a, Decidable (ok s a)] {actions : List α}
    (h : run step ok s actions = some s') : Reaches step ok s s' := by
  induction actions generalizing s with
  | nil =>
    obtain rfl := Option.some.inj h
    exact .refl
  | cons a rest ih =>
    unfold run at h
    split at h
    · rename_i hok
      obtain ⟨s₁, hstep, hrest⟩ := Option.bind_eq_some_iff.mp h
      exact (Reaches.refl.tail hok hstep).trans (ih hrest)
    · cases h

/-- An execution of actions that are allowed in every state. -/
theorem reaches_of_run_of_forall {actions : List α}
    (h : run step (fun _ _ => True) s actions = some s') (hok : ∀ a ∈ actions, ∀ s, ok s a) :
    Reaches step ok s s' := by
  induction actions generalizing s with
  | nil =>
    obtain rfl := Option.some.inj h
    exact .refl
  | cons a rest ih =>
    obtain ⟨s₁, hstep, hrest⟩ := Option.bind_eq_some_iff.mp h
    refine (Reaches.refl.tail (hok a List.mem_cons_self s) hstep).trans (ih hrest ?_)
    exact fun b hb => hok b (List.mem_cons_of_mem a hb)

/-- An execution that succeeds is a run with a given last state. -/
theorem reaches_of_isSome [∀ s a, Decidable (ok s a)] {actions : List α}
    (h : (run step ok s actions).isSome = true) :
    ∃ s', run step ok s actions = some s' ∧ Reaches step ok s s' := by
  obtain ⟨s', hs'⟩ := Option.isSome_iff_exists.mp h
  exact ⟨s', hs', reaches_of_run hs'⟩

end Machine
