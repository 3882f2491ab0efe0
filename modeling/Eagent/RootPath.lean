import Mathlib.Data.List.Basic

/-!
# Walks to the root

Following a partial successor function (`next`: a parent pointer) from an
element until it has no successor. The walk is fuelled, `none` standing
for a walk that has not ended yet; a rank that `next` decreases bounds the
fuel it needs.

`IsWalk` is what a finished walk is, independent of fuel; `Linked` is the
same chain read from the root, the shape in which such chains are built.
-/

namespace RootPath

variable {α : Type*}

/-- The elements from `x` to the first one without a successor. -/
def walk (next : α → Option α) : Nat → α → Option (List α)
  | 0, _ => none
  | n + 1, x =>
      match next x with
      | none => some [x]
      | some y => (walk next n y).map (x :: ·)

/-- A finished walk: each element is the successor of the one before, and
the last one has none. -/
def IsWalk (next : α → Option α) : List α → Prop
  | [] => False
  | [x] => next x = none
  | x :: y :: rest => next x = some y ∧ IsWalk next (y :: rest)

/-- A chain read from its root: each element's successor is the element
before it. -/
def Linked (next : α → Option α) : Option α → List α → Prop
  | _, [] => True
  | prev, x :: rest => next x = prev ∧ Linked next (some x) rest

/-! ## Walks and fuel -/

variable {next : α → Option α}

theorem walk_isWalk :
    ∀ {n : Nat} {x : α} {l : List α}, walk next n x = some l →
      IsWalk next l ∧ l.head? = some x
  | 0, _, _, h => by cases h
  | n + 1, x, l, h => by
    rw [walk] at h
    split at h
    · rename_i hx
      cases h
      exact ⟨hx, rfl⟩
    · rename_i y hy
      obtain ⟨w, hw, rfl⟩ := Option.map_eq_some_iff.mp h
      obtain ⟨hwalk, hhead⟩ := walk_isWalk hw
      cases w with
      | nil => cases hhead
      | cons z rest =>
        obtain rfl : z = y := Option.some.inj hhead
        exact ⟨⟨hy, hwalk⟩, rfl⟩

theorem walk_of_isWalk :
    ∀ {l : List α} {x : α} {n : Nat}, IsWalk next (x :: l) → l.length < n →
      walk next n x = some (x :: l)
  | [], x, n + 1, h, _ => by
    rw [walk, show next x = none from h]
  | y :: rest, x, n + 1, h, hn => by
    have hrest : rest.length < n := by simpa using hn
    rw [walk, h.1]
    simp only [walk_of_isWalk h.2 hrest, Option.map_some]

/-- Among elements closed under `next`, a rank that `next` decreases. -/
def Descends (next : α → Option α) (p : α → Prop) (rank : α → Nat) : Prop :=
  ∀ x y, p x → next x = some y → p y ∧ rank y < rank x

/-- A rank that decreases along `next` bounds the walk. -/
theorem walk_terminates {p : α → Prop} {rank : α → Nat} (h : Descends next p rank) :
    ∀ {n : Nat} {x : α}, p x → rank x < n → ∃ l, walk next n x = some l
  | n + 1, x, hx, hn => by
    rw [walk]
    split
    · exact ⟨_, rfl⟩
    · rename_i y hy
      obtain ⟨hpy, hlt⟩ := h x y hx hy
      obtain ⟨l, hl⟩ := walk_terminates h hpy (show rank y < n by omega)
      exact ⟨x :: l, by rw [hl]; rfl⟩

theorem IsWalk.descends {p : α → Prop} {rank : α → Nat} (h : Descends next p rank) :
    ∀ {l : List α} {x : α}, IsWalk next (x :: l) → p x →
      (∀ y ∈ x :: l, p y) ∧ (x :: l).Pairwise fun a b => rank b < rank a
  | [], x, _, hx => by simpa using hx
  | y :: rest, x, hw, hx => by
    obtain ⟨hpy, hlt⟩ := h x y hx hw.1
    obtain ⟨hall, hpair⟩ := IsWalk.descends h hw.2 hpy
    refine ⟨List.forall_mem_cons.mpr ⟨hx, hall⟩, List.pairwise_cons.mpr ⟨?_, hpair⟩⟩
    intro z hz
    rcases List.mem_cons.mp hz with rfl | hz
    · exact hlt
    · exact Nat.lt_trans ((List.pairwise_cons.mp hpair).1 z hz) hlt

/-! ## Chains read from the root -/

theorem IsWalk.of_linked :
    ∀ {es : List α} {p : α} {w : List α}, Linked next (some p) es →
      IsWalk next (p :: w) → IsWalk next (es.reverse ++ p :: w)
  | [], _, _, _, hw => hw
  | x :: rest, p, w, hl, hw => by
    have h := IsWalk.of_linked (w := p :: w) hl.2 ⟨hl.1, hw⟩
    simpa using h

theorem isWalk_of_linked {es : List α} (h : Linked next none es) (hne : es ≠ []) :
    IsWalk next es.reverse := by
  cases es with
  | nil => exact absurd rfl hne
  | cons x rest => simpa using IsWalk.of_linked (w := []) h.2 h.1

theorem walk_linked {es : List α} {x : α} {n : Nat} (h : Linked next none es)
    (hx : es.getLast? = some x) (hn : es.length ≤ n) :
    walk next n x = some es.reverse := by
  obtain ⟨ys, rfl⟩ := List.getLast?_eq_some_iff.mp hx
  have hw := isWalk_of_linked h (by simp)
  rw [List.reverse_append, List.reverse_singleton, List.singleton_append] at hw ⊢
  have hlen : ys.reverse.length < n := by
    simp only [List.length_append, List.length_singleton] at hn
    rw [List.length_reverse]
    omega
  exact walk_of_isWalk hw hlen

theorem IsWalk.linked {l : List α} (h : IsWalk next l) :
    ∀ {acc : List α} {x : α}, l.head? = some x → Linked next (some x) acc →
      Linked next none (l.reverse ++ acc) := by
  induction l with
  | nil => exact h.elim
  | cons z rest ih =>
    intro acc x hx hacc
    obtain rfl : z = x := Option.some.inj hx
    cases rest with
    | nil => exact ⟨h, hacc⟩
    | cons z' rest' =>
      have hlinked := @ih h.2 (z :: acc) _ rfl ⟨h.1, hacc⟩
      simpa using hlinked

end RootPath
