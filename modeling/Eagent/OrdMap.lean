import Mathlib.Data.List.Nodup

/-!
# Insertion-ordered maps

A finite map that remembers the order in which its keys were first
inserted, as an association list with pairwise-distinct keys. Setting a
present key overwrites in place, setting a new one appends; deletion
closes the gap. Generic in keys and values.

The invariant (no key twice) is a field, so every lemma about lookup and
membership holds of every value of the type.
-/

/-- A finite map in insertion order. -/
structure OrdMap (κ : Type*) (β : Type*) where
  entries : List (κ × β)
  nodup : (entries.map Prod.fst).Nodup

namespace OrdMap

variable {κ : Type*} {β : Type*}

def empty : OrdMap κ β := ⟨[], List.nodup_nil⟩

def keys (m : OrdMap κ β) : List κ := m.entries.map Prod.fst

def values (m : OrdMap κ β) : List β := m.entries.map Prod.snd

def size (m : OrdMap κ β) : Nat := m.entries.length

variable [DecidableEq κ]

/-! ## Operations -/

def lookupIn (k : κ) : List (κ × β) → Option β
  | [] => none
  | (l, b) :: rest => if l = k then some b else lookupIn k rest

def setIn (k : κ) (b : β) : List (κ × β) → List (κ × β)
  | [] => [(k, b)]
  | (l, c) :: rest => if l = k then (k, b) :: rest else (l, c) :: setIn k b rest

theorem mem_keys_setIn {k l : κ} {b : β} {es : List (κ × β)} :
    l ∈ (setIn k b es).map Prod.fst ↔ l = k ∨ l ∈ es.map Prod.fst := by
  induction es with
  | nil => simp [setIn]
  | cons e rest ih =>
    obtain ⟨j, c⟩ := e
    by_cases h : j = k
    · subst h; simp [setIn]
    · simp only [setIn, if_neg h, List.map_cons, List.mem_cons, ih]
      tauto

theorem nodup_setIn (k : κ) (b : β) {es : List (κ × β)} (h : (es.map Prod.fst).Nodup) :
    ((setIn k b es).map Prod.fst).Nodup := by
  induction es with
  | nil => simp [setIn]
  | cons e rest ih =>
    obtain ⟨j, c⟩ := e
    simp only [List.map_cons, List.nodup_cons] at h
    by_cases hj : j = k
    · subst hj; simpa [setIn] using h
    · simp only [setIn, if_neg hj, List.map_cons, List.nodup_cons, mem_keys_setIn]
      exact ⟨by rintro (rfl | hm); exacts [hj rfl, h.1 hm], ih h.2⟩

def get (m : OrdMap κ β) (k : κ) : Option β := lookupIn k m.entries

def has (m : OrdMap κ β) (k : κ) : Bool := (m.get k).isSome

def set (m : OrdMap κ β) (k : κ) (b : β) : OrdMap κ β :=
  ⟨setIn k b m.entries, nodup_setIn k b m.nodup⟩

def delete (m : OrdMap κ β) (k : κ) : OrdMap κ β :=
  ⟨m.entries.filter (fun e => e.1 ≠ k),
    m.nodup.sublist (List.filter_sublist.map Prod.fst)⟩

/-! ## Lookup -/

@[simp] theorem get_empty (k : κ) : (empty : OrdMap κ β).get k = none := rfl

omit [DecidableEq κ] in
@[ext] theorem ext {m n : OrdMap κ β} (h : m.entries = n.entries) : m = n := by
  cases m; cases n; cases h; rfl

theorem lookupIn_setIn_self (k : κ) (b : β) (es : List (κ × β)) :
    lookupIn k (setIn k b es) = some b := by
  induction es with
  | nil => simp [setIn, lookupIn]
  | cons e rest ih =>
    obtain ⟨j, c⟩ := e
    by_cases h : j = k <;> simp [setIn, lookupIn, h, ih]

theorem lookupIn_setIn_ne {k l : κ} (h : l ≠ k) (b : β) (es : List (κ × β)) :
    lookupIn l (setIn k b es) = lookupIn l es := by
  induction es with
  | nil => simp [setIn, lookupIn, h.symm]
  | cons e rest ih =>
    obtain ⟨j, c⟩ := e
    by_cases hj : j = k
    · subst hj; simp [setIn, lookupIn, h.symm]
    · simp only [setIn, if_neg hj, lookupIn, ih]

@[simp] theorem get_set_self (m : OrdMap κ β) (k : κ) (b : β) :
    (m.set k b).get k = some b :=
  lookupIn_setIn_self k b m.entries

theorem get_set_ne (m : OrdMap κ β) {k l : κ} (h : l ≠ k) (b : β) :
    (m.set k b).get l = m.get l :=
  lookupIn_setIn_ne h b m.entries

theorem get_set (m : OrdMap κ β) (k l : κ) (b : β) :
    (m.set k b).get l = if l = k then some b else m.get l := by
  by_cases h : l = k
  · subst h; simp
  · simp [h, get_set_ne m h]

theorem lookupIn_eq_some {k : κ} {b : β} {es : List (κ × β)}
    (hn : (es.map Prod.fst).Nodup) : lookupIn k es = some b ↔ (k, b) ∈ es := by
  induction es with
  | nil => simp [lookupIn]
  | cons e rest ih =>
    obtain ⟨j, c⟩ := e
    simp only [List.map_cons, List.nodup_cons] at hn
    by_cases h : j = k
    · subst h
      simp only [lookupIn, ↓reduceIte, Option.some.injEq, List.mem_cons, Prod.mk.injEq,
        true_and]
      constructor
      · rintro rfl; exact Or.inl rfl
      · rintro (rfl | hm)
        · rfl
        · exact absurd (List.mem_map.mpr ⟨_, hm, rfl⟩) hn.1
    · simp only [lookupIn, if_neg h, ih hn.2, List.mem_cons, Prod.mk.injEq]
      constructor
      · exact Or.inr
      · rintro (⟨rfl, -⟩ | hm)
        · exact absurd rfl h
        · exact hm

/-- Lookup finds exactly the stored pairs. -/
theorem get_eq_some {m : OrdMap κ β} {k : κ} {b : β} :
    m.get k = some b ↔ (k, b) ∈ m.entries :=
  lookupIn_eq_some m.nodup

theorem lookupIn_eq_none {k : κ} {es : List (κ × β)} :
    lookupIn k es = none ↔ k ∉ es.map Prod.fst := by
  induction es with
  | nil => simp [lookupIn]
  | cons e rest ih =>
    obtain ⟨j, c⟩ := e
    by_cases h : j = k
    · subst h; simp [lookupIn]
    · simp only [lookupIn, if_neg h, ih, List.map_cons, List.mem_cons, not_or]
      exact ⟨fun hn => ⟨Ne.symm h, hn⟩, And.right⟩

theorem get_eq_none {m : OrdMap κ β} {k : κ} : m.get k = none ↔ k ∉ m.keys :=
  lookupIn_eq_none

theorem has_iff {m : OrdMap κ β} {k : κ} : m.has k = true ↔ k ∈ m.keys := by
  rw [has, Option.isSome_iff_ne_none, ne_eq, get_eq_none, not_not]

theorem get_delete (m : OrdMap κ β) (k l : κ) :
    (m.delete k).get l = if l = k then none else m.get l := by
  ext b
  rw [get_eq_some]
  by_cases h : l = k
  · simp [delete, h]
  · simp [delete, h, get_eq_some]

/-! ## Fresh keys -/

theorem setIn_fresh {k : κ} (b : β) {es : List (κ × β)} (h : k ∉ es.map Prod.fst) :
    setIn k b es = es ++ [(k, b)] := by
  induction es with
  | nil => rfl
  | cons e rest ih =>
    obtain ⟨j, c⟩ := e
    simp only [List.map_cons, List.mem_cons, not_or] at h
    simp [setIn, Ne.symm h.1, ih h.2]

theorem entries_set_fresh {m : OrdMap κ β} {k : κ} (b : β) (h : k ∉ m.keys) :
    (m.set k b).entries = m.entries ++ [(k, b)] :=
  setIn_fresh b h

/-- Setting a present key changes its value in place. -/
theorem setIn_present {k : κ} (b : β) {es : List (κ × β)} (hnodup : (es.map Prod.fst).Nodup)
    (h : k ∈ es.map Prod.fst) :
    setIn k b es = es.map fun e => if e.1 = k then (k, b) else e := by
  induction es with
  | nil => cases h
  | cons e rest ih =>
    obtain ⟨j, c⟩ := e
    rw [List.map_cons, List.nodup_cons] at hnodup
    by_cases hj : j = k
    · subst hj
      have hrest : rest.map (fun e => if e.1 = j then (j, b) else e) = rest := by
        conv_rhs => rw [← List.map_id rest]
        refine List.map_congr_left ?_
        intro e he
        have hne : e.1 ≠ j := fun heq => hnodup.1 (List.mem_map.mpr ⟨e, he, heq⟩)
        rw [if_neg hne]
        rfl
      simp [setIn, hrest]
    · have hmem : k ∈ rest.map Prod.fst := by simpa [Ne.symm hj] using h
      simp [setIn, hj, ih hnodup.2 hmem]

theorem entries_set_present {m : OrdMap κ β} {k : κ} (b : β) (h : k ∈ m.keys) :
    (m.set k b).entries = m.entries.map fun e => if e.1 = k then (k, b) else e :=
  setIn_present b m.nodup h

/-- Setting a key never loses an entry. -/
theorem size_le_size_set (m : OrdMap κ β) (k : κ) (b : β) : m.size ≤ (m.set k b).size := by
  by_cases h : k ∈ m.keys
  · have hsize : (m.set k b).size = m.size := by
      rw [size, size, entries_set_present b h, List.length_map]
    exact Nat.le_of_eq hsize.symm
  · rw [size, size, entries_set_fresh b h, List.length_append]
    exact Nat.le_add_right _ _

theorem size_set_le (m : OrdMap κ β) (k : κ) (b : β) : (m.set k b).size ≤ m.size + 1 := by
  by_cases h : k ∈ m.keys
  · rw [size, size, entries_set_present b h, List.length_map]
    exact Nat.le_succ _
  · rw [size, size, entries_set_fresh b h, List.length_append]
    exact Nat.le_refl _

/-! ## Values up to order -/

omit [DecidableEq κ] in
theorem nodup_entries (m : OrdMap κ β) : m.entries.Nodup :=
  List.Nodup.of_map Prod.fst m.nodup

theorem mem_entries_delete {m : OrdMap κ β} {k : κ} {e : κ × β} :
    e ∈ (m.delete k).entries ↔ e ∈ m.entries ∧ e.1 ≠ k := by
  rw [delete, List.mem_filter, decide_eq_true_iff]

/-- A stored value, apart from the others. -/
theorem values_perm_delete {m : OrdMap κ β} {k : κ} {b : β} (h : m.get k = some b) :
    m.values.Perm (b :: (m.delete k).values) := by
  have hnodup : ((k, b) :: (m.delete k).entries).Nodup := by
    refine List.nodup_cons.mpr ⟨?_, nodup_entries _⟩
    intro hmem
    exact (mem_entries_delete.mp hmem).2 rfl
  have hentries : m.entries.Perm ((k, b) :: (m.delete k).entries) := by
    refine (List.perm_ext_iff_of_nodup (nodup_entries m) hnodup).mpr ?_
    rintro ⟨l, c⟩
    rw [List.mem_cons, mem_entries_delete]
    constructor
    · intro hmem
      by_cases hl : l = k
      · subst hl
        obtain rfl := Option.some.inj (h.symm.trans (get_eq_some.mpr hmem))
        exact Or.inl rfl
      · exact Or.inr ⟨hmem, hl⟩
    · rintro (heq | ⟨hmem, -⟩)
      · rw [heq]
        exact get_eq_some.mp h
      · exact hmem
  exact hentries.map Prod.snd

theorem values_set_perm (m : OrdMap κ β) (k : κ) (b : β) :
    (m.set k b).values.Perm (b :: (m.delete k).values) := by
  refine (values_perm_delete (get_set_self m k b)).trans (List.Perm.cons b ?_)
  have hentries : ((m.set k b).delete k).entries.Perm (m.delete k).entries := by
    refine (List.perm_ext_iff_of_nodup (nodup_entries _) (nodup_entries _)).mpr ?_
    rintro ⟨l, c⟩
    rw [mem_entries_delete, mem_entries_delete, ← get_eq_some, ← get_eq_some]
    refine and_congr_left fun hl => ?_
    rw [get_set_ne m hl]
  exact hentries.map Prod.snd

theorem delete_of_get_none {m : OrdMap κ β} {k : κ} (h : m.get k = none) : m.delete k = m := by
  refine ext (List.filter_eq_self.mpr ?_)
  intro e he
  rw [decide_eq_true_iff]
  rintro rfl
  exact get_eq_none.mp h (List.mem_map_of_mem he)

end OrdMap
