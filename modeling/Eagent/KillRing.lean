import Mathlib.Data.List.Rotate
import Eagent.EditDiff

/-!
# The kill ring

`KillRing`: the killed texts, the oldest first. Kills that follow one another
are one entry. The texts a yank and the yank-pops after it insert are those of
the ring from the last one on backwards (`peek_rotations`).
-/

namespace Eagent

namespace Tui

/-- The entries, the oldest first; none is empty. -/
structure KillRing where
  ring : List Text := []
  nonempty : [] ∉ ring := by exact List.not_mem_nil
deriving DecidableEq

namespace KillRing

def empty : KillRing := {}

variable (k : KillRing)

/-- What the last entry becomes. -/
def merged (text last : Text) (prepend : Bool) : Text :=
  if prepend then text ++ last else last ++ text

variable {text : Text}

theorem merged_ne_nil (h : text ≠ []) (last : Text) (prepend : Bool) :
    merged text last prepend ≠ [] := by
  unfold merged
  split <;> simp [h]

def push (text : Text) (prepend accumulate : Bool) : KillRing :=
  if htext : text = [] then k
  else
    match accumulate, k.ring.getLast? with
    | true, some last =>
        ⟨k.ring.dropLast ++ [merged text last prepend], by
          rw [List.mem_append, List.mem_singleton, not_or]
          exact ⟨fun h => k.nonempty (List.mem_of_mem_dropLast h),
            Ne.symm (merged_ne_nil htext last prepend)⟩⟩
    | _, _ => ⟨k.ring ++ [text], by
        rw [List.mem_append, List.mem_singleton, not_or]
        exact ⟨k.nonempty, Ne.symm htext⟩⟩

def peek : Option Text := k.ring.getLast?

/-- The last entry becomes the first. -/
def rotate : KillRing :=
  match hlast : k.ring.getLast? with
  | some last =>
      if 1 < k.ring.length then
        ⟨last :: k.ring.dropLast, by
          rw [List.mem_cons, not_or]
          exact ⟨fun h => k.nonempty (h ▸ List.mem_of_getLast? hlast),
            fun h => k.nonempty (List.mem_of_mem_dropLast h)⟩⟩
      else k
  | none => k

def length : Nat := k.ring.length

/-! ## Pushing -/

variable {k}

theorem peek_ne_nil (h : k.peek = some text) : text ≠ [] := by
  rintro rfl
  exact k.nonempty (List.mem_of_getLast? h)

theorem push_nil (prepend accumulate : Bool) : k.push [] prepend accumulate = k := rfl

/-- A kill that does not follow another one, or the first of all. -/
theorem peek_push_first (h : text ≠ []) {accumulate : Bool}
    (hnew : k.ring = [] ∨ accumulate = false) (prepend : Bool) :
    (k.push text prepend accumulate).peek = some text := by
  rw [push, dif_neg h]
  split
  · rename_i hlast
    rcases hnew with hempty | hfalse
    · rw [hempty] at hlast
      cases hlast
    · cases hfalse
  · exact List.getLast?_concat

/-- A kill that follows another one. -/
theorem peek_push_merged {text last : Text} (hlast : k.peek = some last) (h : text ≠ [])
    (prepend : Bool) :
    (k.push text prepend true).peek = some (merged text last prepend) := by
  rw [push, dif_neg h]
  split
  · rename_i last' _ hlast'
    rw [peek, hlast'] at hlast
    cases hlast
    exact List.getLast?_concat
  · rename_i hne
    exact absurd hlast (hne last rfl)

/-! ## Rotating -/

theorem reverse_rotate (k : KillRing) : k.rotate.ring.reverse = k.ring.reverse.rotate 1 := by
  unfold rotate
  split
  · rename_i last hlast
    obtain ⟨init, hinit⟩ := List.getLast?_eq_some_iff.mp hlast
    split
    · change (last :: k.ring.dropLast).reverse = _
      rw [hinit, List.dropLast_concat, List.reverse_append, List.reverse_singleton,
        List.singleton_append, List.rotate_cons_succ, List.rotate_zero, List.reverse_cons]
    · rename_i hone
      have hnil : init = [] := by
        rw [hinit, List.length_append, List.length_singleton] at hone
        exact List.length_eq_zero_iff.mp (by omega)
      rw [hinit, hnil, List.nil_append, List.reverse_singleton, List.rotate_singleton]
  · rename_i hnone
    rw [List.getLast?_eq_none_iff.mp hnone, List.reverse_nil, List.rotate_nil]

/-- The last entry after `n` rotations is the `n`-th older one, cyclically. -/
theorem peek_rotations (k : KillRing) (n : Nat) :
    (rotate^[n] k).peek = k.ring.reverse[n % k.ring.length]? := by
  have hreverse : ∀ n, (rotate^[n] k).ring.reverse = k.ring.reverse.rotate n := by
    intro n
    induction n with
    | zero => exact (List.rotate_zero _).symm
    | succ n ih =>
      rw [Function.iterate_succ_apply', reverse_rotate, ih, List.rotate_rotate]
  rw [peek, ← List.head?_reverse, hreverse]
  by_cases hne : k.ring = []
  · rw [hne]
    rfl
  · have hpos := List.length_pos_iff.mpr hne
    rw [← List.rotate_mod, List.length_reverse,
      List.head?_rotate (by rw [List.length_reverse]; exact Nat.mod_lt _ hpos)]

theorem peek_all_rotations (k : KillRing) : (rotate^[k.ring.length] k).peek = k.peek := by
  have hfirst := peek_rotations k 0
  rw [Function.iterate_zero, id, Nat.zero_mod] at hfirst
  rw [peek_rotations, Nat.mod_self, hfirst]

theorem rotate_of_le (h : k.length ≤ 1) : k.rotate = k := by
  unfold rotate
  split
  · exact if_neg (Nat.not_lt.mpr h)
  · rfl

theorem exists_peek_rotate (h : k.peek = some text) :
    ∃ next, k.rotate.peek = some next := by
  rw [peek, List.getLast?_eq_some_iff] at h
  obtain ⟨init, hinit⟩ := h
  have hlength := congrArg List.length k.reverse_rotate
  rw [List.length_reverse, List.length_rotate, List.length_reverse, hinit, List.length_append,
    List.length_singleton] at hlength
  cases hpeek : k.rotate.peek with
  | some next => exact ⟨next, rfl⟩
  | none =>
    rw [List.getLast?_eq_none_iff.mp hpeek] at hlength
    cases hlength

end KillRing

end Tui

end Eagent
