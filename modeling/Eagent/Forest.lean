import Mathlib.Algebra.BigOperators.Group.List.Basic
import Mathlib.Algebra.GroupWithZero.Nat
import Mathlib.Data.List.Count
import Mathlib.Data.List.Nodup

/-!
# Forests grown from child lists

A rose tree is grown from a function giving each key its value and its
children. Where every key has at most one parent, found among the keys
with a smaller rank, growing from the parentless keys terminates and the
preorder of the forest lists every key exactly once (`preorder_perm`,
`growAll_perm`).
-/

/-- A tree with any number of children. -/
inductive Rose (α : Type*) where
  | node (value : α) (children : List (Rose α))

namespace Rose

variable {α ι : Type*}

mutual
def flatten : Rose α → List α
  | .node value children => value :: flattenAll children
/-- The values of a forest, in preorder. -/
def flattenAll : List (Rose α) → List α
  | [] => []
  | t :: ts => flatten t ++ flattenAll ts
end

/-- Grow the tree of `x`; `none` when the fuel does not reach the leaves
or a key has no value. -/
def grow (next : ι → Option (α × List ι)) : Nat → ι → Option (Rose α)
  | 0, _ => none
  | fuel + 1, x =>
      match next x with
      | none => none
      | some (value, kids) => (kids.mapM (grow next fuel)).map (Rose.node value)

/-- The keys of the tree of `x`, down to depth `fuel`. -/
def preorder (kids : ι → List ι) : Nat → ι → List ι
  | 0, _ => []
  | fuel + 1, x => x :: (kids x).flatMap (preorder kids fuel)

/-! ## Counting keys -/

section Count

variable [DecidableEq ι] (kids : ι → List ι)

/-- A key occurs in a preorder once for being the root, and once for each
time it is a child of a key above the last level. -/
theorem count_preorder (y : ι) :
    ∀ (fuel : Nat) (x : ι), (preorder kids (fuel + 1) x).count y =
      (if x = y then 1 else 0) + ((preorder kids fuel x).map fun z => (kids z).count y).sum
  | 0, x => by
    have hnone : (kids x).flatMap (preorder kids 0) = [] := by
      rw [List.flatMap_eq_nil_iff]
      exact fun _ _ => rfl
    have hroot : preorder kids 1 x = [x] := by
      rw [preorder, hnone]
    rw [hroot]
    simp [preorder, List.count_cons]
  | fuel + 1, x => by
    have hkids : ∀ l : List ι, (l.flatMap (preorder kids (fuel + 1))).count y =
        l.count y + ((l.flatMap (preorder kids fuel)).map fun z => (kids z).count y).sum := by
      intro l
      induction l with
      | nil => rfl
      | cons k l ih =>
        have hk := count_preorder y fuel k
        simp only [List.flatMap_cons, List.count_append, List.map_append, List.sum_append,
          List.count_cons, beq_iff_eq] at *
        omega
    have hx := hkids (kids x)
    simp only [preorder, List.count_cons, beq_iff_eq, List.map_cons, List.sum_cons] at *
    omega

theorem count_flatMap_preorder (y : ι) (fuel : Nat) (roots : List ι) :
    (roots.flatMap (preorder kids (fuel + 1))).count y =
      roots.count y
        + ((roots.flatMap (preorder kids fuel)).map fun z => (kids z).count y).sum := by
  induction roots with
  | nil => rfl
  | cons r roots ih =>
    have hr := count_preorder kids y fuel r
    simp only [List.flatMap_cons, List.count_append, List.map_append, List.sum_append,
      List.count_cons, beq_iff_eq] at *
    omega

end Count

/-! ## Forests with parents -/

/-- The keys `nodes`, each with at most one parent, of smaller rank; `kids`
and `roots` list the keys of one parent and of none. -/
structure Parented [DecidableEq ι] (nodes : List ι) (parent : ι → Option ι) (rank : ι → Nat)
    (kids : ι → List ι) (roots : List ι) : Prop where
  nodup : nodes.Nodup
  kids : ∀ x ∈ nodes, (kids x).Perm (nodes.filter fun y => parent y = some x)
  roots : roots.Perm (nodes.filter fun y => parent y = none)
  parent : ∀ y ∈ nodes, ∀ x ∈ parent y, x ∈ nodes ∧ rank x < rank y

namespace Parented

variable [DecidableEq ι] {nodes : List ι} {parent : ι → Option ι} {rank : ι → Nat}
  {kids : ι → List ι} {roots : List ι}

section

variable (h : Parented nodes parent rank kids roots)
include h

theorem of_mem_kids {x k : ι} (hx : x ∈ nodes) (hk : k ∈ kids x) :
    k ∈ nodes ∧ parent k = some x ∧ rank x < rank k := by
  have hmem := (h.kids x hx).mem_iff.mp hk
  simp only [List.mem_filter, decide_eq_true_eq] at hmem
  exact ⟨hmem.1, hmem.2, (h.parent k hmem.1 x hmem.2).2⟩

theorem of_mem_roots {r : ι} (hr : r ∈ roots) :
    r ∈ nodes ∧ parent r = none := by
  have hmem := h.roots.mem_iff.mp hr
  simpa using hmem

theorem reorder {kids' : ι → List ι} (hperm : ∀ x ∈ nodes, (kids' x).Perm (kids x)) :
    Parented nodes parent rank kids' roots :=
  ⟨h.nodup, fun x hx => (hperm x hx).trans (h.kids x hx), h.roots, h.parent⟩

theorem count_kids {x y : ι} (hx : x ∈ nodes) (hy : y ∈ nodes) :
    (kids x).count y = if parent y = some x then 1 else 0 := by
  rw [(h.kids x hx).count_eq]
  by_cases hp : parent y = some x
  · rw [if_pos hp, List.count_filter (by simpa using hp)]
    exact List.count_eq_one_of_mem h.nodup hy
  · rw [if_neg hp, List.count_eq_zero]
    simp [hp]

theorem count_roots {y : ι} (hy : y ∈ nodes) :
    roots.count y = if parent y = none then 1 else 0 := by
  rw [h.roots.count_eq]
  by_cases hp : parent y = none
  · rw [if_pos hp, List.count_filter (by simpa using hp)]
    exact List.count_eq_one_of_mem h.nodup hy
  · rw [if_neg hp, List.count_eq_zero]
    simp [hp]

/-- Once the fuel passes the ranks, more of it changes nothing. -/
theorem preorder_stable {bound : Nat} (hbound : ∀ x ∈ nodes, rank x < bound) :
    ∀ {fuel : Nat} {x : ι}, x ∈ nodes → bound ≤ fuel + rank x →
      preorder kids (fuel + 1) x = preorder kids fuel x
  | 0, x, hx, hfuel => by
    have := hbound x hx
    omega
  | fuel + 1, x, hx, hfuel => by
    have hkids : (kids x).flatMap (preorder kids (fuel + 1)) =
        (kids x).flatMap (preorder kids fuel) := by
      refine List.flatMap_congr ?_
      intro k hk
      obtain ⟨hmem, -, hrank⟩ := h.of_mem_kids hx hk
      exact preorder_stable hbound hmem (by omega)
    rw [preorder, hkids, preorder]

theorem preorder_mem :
    ∀ {fuel : Nat} {x : ι}, x ∈ nodes → ∀ y ∈ preorder kids fuel x, y ∈ nodes
  | 0, _, _, y, hy => by cases hy
  | fuel + 1, x, hx, y, hy => by
    rcases List.mem_cons.mp hy with rfl | hy
    · exact hx
    · obtain ⟨k, hk, hyk⟩ := List.mem_flatMap.mp hy
      exact preorder_mem (h.of_mem_kids hx hk).1 y hyk

theorem preorder_perm {bound fuel : Nat} (hbound : ∀ x ∈ nodes, rank x < bound)
    (hfuel : bound ≤ fuel) :
    (roots.flatMap (preorder kids fuel)).Perm nodes := by
  have hsub : ∀ y ∈ roots.flatMap (preorder kids fuel), y ∈ nodes := by
    intro y hy
    obtain ⟨r, hr, hyr⟩ := List.mem_flatMap.mp hy
    exact h.preorder_mem (h.of_mem_roots hr).1 y hyr
  have hstable : roots.flatMap (preorder kids (fuel + 1)) =
      roots.flatMap (preorder kids fuel) :=
    List.flatMap_congr fun r hr =>
      h.preorder_stable hbound (h.of_mem_roots hr).1 (by omega)
  -- by induction on the rank: a root is counted once, a child as often as its parent
  have hone : ∀ (n : Nat) (y : ι), y ∈ nodes → rank y = n →
      (roots.flatMap (preorder kids fuel)).count y = 1 := by
    intro n
    induction n using Nat.strongRecOn with
    | ind n ih =>
      intro y hy hrank
      have hcount := count_flatMap_preorder kids y fuel roots
      rw [hstable, h.count_roots hy] at hcount
      have hsum : ((roots.flatMap (preorder kids fuel)).map fun z => (kids z).count y).sum =
          (roots.flatMap (preorder kids fuel)).countP fun z => parent y = some z := by
        rw [List.map_congr_left fun z hz => h.count_kids (hsub z hz) hy]
        generalize roots.flatMap (preorder kids fuel) = l
        induction l with
        | nil => rfl
        | cons z l ih =>
          simp only [List.map_cons, List.sum_cons, List.countP_cons, ih, decide_eq_true_eq]
          omega
      rw [hcount, hsum]
      cases hp : parent y with
      | none => simp
      | some x =>
        obtain ⟨hx, hlt⟩ := h.parent y hy x hp
        have hxone := ih (rank x) (by omega) x hx rfl
        rw [if_neg (by simp), Nat.zero_add, ← hxone, List.count]
        refine List.countP_congr fun z _ => ?_
        simp only [Option.some.injEq, decide_eq_true_eq, beq_iff_eq]
        exact eq_comm
  rw [List.perm_iff_count]
  intro y
  by_cases hy : y ∈ nodes
  · rw [hone (rank y) y hy rfl, List.count_eq_one_of_mem h.nodup hy]
  · rw [List.count_eq_zero.mpr hy, List.count_eq_zero.mpr fun hmem => hy (hsub y hmem)]

/-- With enough fuel a key's tree is one larger than its children's. -/
theorem length_preorder {bound fuel : Nat} (hbound : ∀ x ∈ nodes, rank x < bound)
    (hfuel : bound ≤ fuel) {x : ι} (hx : x ∈ nodes) :
    (preorder kids fuel x).length =
      1 + ((kids x).map fun k => (preorder kids fuel k).length).sum := by
  rw [← h.preorder_stable hbound hx (by omega), preorder, List.length_cons, List.length_flatMap,
    Nat.add_comm]

end

/-! ## Growing -/

theorem grow_eq (h : Parented nodes parent rank kids roots)
    {next : ι → Option (α × List ι)} {value : ι → α}
    (hnext : ∀ x ∈ nodes, next x = some (value x, kids x)) {bound : Nat}
    (hbound : ∀ x ∈ nodes, rank x < bound) :
    ∀ (fuel : Nat) {x : ι}, x ∈ nodes → bound ≤ fuel + rank x →
      ∃ t, grow next fuel x = some t ∧ t.flatten = (preorder kids fuel x).map value
  | 0, x, hx, hfuel => by
    have := hbound x hx
    omega
  | fuel + 1, x, hx, hfuel => by
    have hall : ∀ l : List ι, (∀ k ∈ l, k ∈ kids x) →
        ∃ ts, l.mapM (grow next fuel) = some ts ∧
          flattenAll ts = (l.flatMap (preorder kids fuel)).map value := by
      intro l
      induction l with
      | nil => exact fun _ => ⟨[], rfl, rfl⟩
      | cons k l ih =>
        intro hl
        obtain ⟨ts, hts, hflat⟩ := ih fun k' hk' => hl k' (List.mem_cons_of_mem _ hk')
        obtain ⟨hmem, -, hrank⟩ := h.of_mem_kids hx (hl k (List.mem_cons_self ..))
        obtain ⟨t, ht, htflat⟩ := grow_eq h hnext hbound fuel hmem (by omega)
        refine ⟨t :: ts, ?_, ?_⟩
        · rw [List.mapM_cons, ht, hts]
          rfl
        · rw [flattenAll, htflat, hflat, List.flatMap_cons, List.map_append]
    obtain ⟨ts, hts, hflat⟩ := hall (kids x) fun _ hk => hk
    refine ⟨.node (value x) ts, ?_, ?_⟩
    · rw [grow, hnext x hx]
      simp only [hts, Option.map_some]
    · rw [flatten, hflat, preorder, List.map_cons]

/-- Growing from the roots gives a forest that holds every key's value
exactly once. -/
theorem growAll_perm (h : Parented nodes parent rank kids roots)
    (next : ι → Option (α × List ι)) (value : ι → α)
    (hnext : ∀ x ∈ nodes, next x = some (value x, kids x)) {bound fuel : Nat}
    (hbound : ∀ x ∈ nodes, rank x < bound) (hfuel : bound ≤ fuel) :
    ∃ ts, roots.mapM (grow next fuel) = some ts ∧
      (flattenAll ts).Perm (nodes.map value) := by
  have hall : ∀ l : List ι, (∀ r ∈ l, r ∈ nodes) →
      ∃ ts, l.mapM (grow next fuel) = some ts ∧
        flattenAll ts = (l.flatMap (preorder kids fuel)).map value := by
    intro l
    induction l with
    | nil => exact fun _ => ⟨[], rfl, rfl⟩
    | cons r l ih =>
      intro hl
      obtain ⟨ts, hts, hflat⟩ := ih fun r' hr' => hl r' (List.mem_cons_of_mem _ hr')
      obtain ⟨t, ht, htflat⟩ :=
        grow_eq h hnext hbound fuel (hl r (List.mem_cons_self ..)) (by omega)
      refine ⟨t :: ts, ?_, ?_⟩
      · rw [List.mapM_cons, ht, hts]
        rfl
      · rw [flattenAll, htflat, hflat, List.flatMap_cons, List.map_append]
  obtain ⟨ts, hts, hflat⟩ := hall roots fun r hr => (h.of_mem_roots hr).1
  refine ⟨ts, hts, ?_⟩
  rw [hflat]
  exact (h.preorder_perm hbound hfuel).map value

end Parented

end Rose
