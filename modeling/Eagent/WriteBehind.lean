import Mathlib.Data.Set.Basic
import Mathlib.Data.List.Basic

/-!
# Writing behind

A store is changed in memory first. Each change queues a write: a snapshot of
the memory, and the keys that have changed since they were last known to be
written. A write that succeeds stores its snapshot at its keys and forgets all
the changed keys, also those changed after the snapshot was taken: they are
keys of a write further back in the queue. So a write that fails loses a key
exactly when the key was forgotten and no later write has it (`Tracks.failed`).
-/

namespace WriteBehind

variable {K V : Type*}

structure Write (K V : Type*) where
  keys : Set K
  snapshot : K → V

open Classical in
noncomputable def Write.apply (w : Write K V) (stored : K → V) : K → V := fun k =>
  if k ∈ w.keys then w.snapshot k else stored k

noncomputable def applyAll (queue : List (Write K V)) (stored : K → V) : K → V :=
  queue.foldl (fun stored w => w.apply stored) stored

/-- What is stored, what is in memory, the changed keys, the queue, and
whether the last write succeeded. -/
structure Tracks (stored memory : K → V) (changed : Set K) (queue : List (Write K V)) (ok : Prop) :
    Prop where
  /-- without a queue only changed keys differ -/
  idle : queue = [] → ∀ k ∉ changed, stored k = memory k
  /-- the queue brings everything up to date -/
  queued : queue ≠ [] → applyAll queue stored = memory
  /-- the last write has all the changed keys -/
  last : ∀ w ∈ queue.getLast?, changed ⊆ w.keys
  settled : queue = [] → ok → changed = ∅

variable {stored memory memory' : K → V} {changed changed' : Set K} {queue : List (Write K V)}
  {w : Write K V} {ok : Prop}

/-! ## Applying writes -/

theorem Write.apply_of_mem {k : K} (h : k ∈ w.keys) : w.apply stored k = w.snapshot k :=
  if_pos h

theorem Write.apply_of_notMem {k : K} (h : k ∉ w.keys) : w.apply stored k = stored k :=
  if_neg h

theorem applyAll_congr {stored stored' : K → V} {k : K}
    (h : stored k = stored' k ∨ ∃ w ∈ queue, k ∈ w.keys) :
    applyAll queue stored k = applyAll queue stored' k := by
  induction queue generalizing stored stored' with
  | nil =>
    rcases h with h | ⟨w, hw, -⟩
    · exact h
    · exact absurd hw List.not_mem_nil
  | cons w rest ih =>
    refine ih ?_
    by_cases hk : k ∈ w.keys
    · exact .inl ((Write.apply_of_mem hk).trans (Write.apply_of_mem hk).symm)
    · rcases h with h | ⟨w', hw', hk'⟩
      · exact .inl ((Write.apply_of_notMem hk).trans (h.trans (Write.apply_of_notMem hk).symm))
      · rcases List.mem_cons.mp hw' with rfl | hw'
        · exact absurd hk' hk
        · exact .inr ⟨w', hw', hk'⟩

theorem applyAll_of_notMem {k : K} (h : ∀ w ∈ queue, k ∉ w.keys) :
    applyAll queue stored k = stored k := by
  induction queue generalizing stored with
  | nil => rfl
  | cons w rest ih =>
    exact (ih fun w' hw' => h w' (List.mem_cons_of_mem _ hw')).trans
      (Write.apply_of_notMem (h w List.mem_cons_self))

theorem applyAll_append (queue queue' : List (Write K V)) (stored : K → V) :
    applyAll (queue ++ queue') stored = applyAll queue' (applyAll queue stored) :=
  List.foldl_append

/-! ## Steps -/

theorem Tracks.loaded (stored : K → V) (ok : Prop) : Tracks stored stored ∅ [] ok where
  idle _ _ _ := rfl
  queued h := absurd rfl h
  last w h := by cases h
  settled _ _ := rfl

theorem Tracks.change (h : Tracks stored memory changed queue ok) (hmono : changed ⊆ changed')
    (hmemory : ∀ k ∉ changed', memory' k = memory k) {ok' : Prop} :
    Tracks stored memory' changed' (queue ++ [⟨changed', memory'⟩]) ok' where
  idle hnil := by simp at hnil
  queued _ := by
    rw [applyAll_append]
    funext k
    by_cases hk : k ∈ changed'
    · exact Write.apply_of_mem hk
    · have happly : applyAll [⟨changed', memory'⟩] (applyAll queue stored) k =
          applyAll queue stored k := Write.apply_of_notMem hk
      rw [happly, hmemory k hk]
      by_cases hqueue : queue = []
      · subst hqueue
        exact h.idle rfl k fun hk' => hk (hmono hk')
      · rw [h.queued hqueue]
  last w hw := by
    rw [List.getLast?_concat] at hw
    obtain rfl := Option.some.inj hw
    exact subset_rfl
  settled hnil := by simp at hnil

/-- A write succeeds: all changed keys are forgotten. -/
theorem Tracks.wrote (h : Tracks stored memory changed (w :: queue) ok) {ok' : Prop} :
    Tracks (w.apply stored) memory ∅ queue ok' where
  idle hnil k _ := by
    subst hnil
    exact congrFun (h.queued (List.cons_ne_nil _ _)) k
  queued _ := h.queued (List.cons_ne_nil _ _)
  last _ _ := Set.empty_subset _
  settled _ _ := rfl

/-- A write fails, and each of its keys is still known to be changed or comes
with a later write. -/
theorem Tracks.failed (h : Tracks stored memory changed (w :: queue) ok)
    (hkept : ∀ k ∈ w.keys, k ∈ changed ∨ ∃ w' ∈ queue, k ∈ w'.keys) :
    Tracks stored memory changed queue False where
  idle hnil k hk := by
    subst hnil
    have hw : k ∉ w.keys := by
      intro hmem
      rcases hkept k hmem with hk' | ⟨w', hw', -⟩
      · exact hk hk'
      · exact absurd hw' List.not_mem_nil
    rw [← congrFun (h.queued (List.cons_ne_nil _ _)) k]
    exact (Write.apply_of_notMem hw).symm
  queued hne := by
    funext k
    rw [← congrFun (h.queued (List.cons_ne_nil _ _)) k]
    refine applyAll_congr ?_
    by_cases hk : k ∈ w.keys
    · refine .inr ?_
      rcases hkept k hk with hk' | hlater
      · obtain ⟨last, hlast⟩ : ∃ last, queue.getLast? = some last :=
          ⟨_, List.getLast?_eq_some_getLast hne⟩
        have hcons : (w :: queue).getLast? = some last := by
          rw [List.getLast?_cons, hlast]
          rfl
        exact ⟨last, List.mem_of_getLast? hlast, h.last last hcons hk'⟩
      · exact hlater
    · exact .inl (Write.apply_of_notMem hk).symm
  last last hlast := by
    refine h.last last ?_
    rw [List.getLast?_cons, Option.mem_def.mp hlast]
    rfl
  settled _ := False.elim

/-! ## What is known between the steps -/

/-- A key that is neither changed nor queued is up to date. -/
theorem Tracks.untouched (h : Tracks stored memory changed queue ok) {k : K} (hk : k ∉ changed)
    (hqueue : ∀ w ∈ queue, k ∉ w.keys) : stored k = memory k := by
  by_cases hnil : queue = []
  · exact h.idle hnil k hk
  · rw [← congrFun (h.queued hnil) k, applyAll_of_notMem hqueue]

/-- With nothing queued and no write lost, everything is up to date. -/
theorem Tracks.stored_eq (h : Tracks stored memory changed [] ok) (hok : ok) :
    stored = memory := by
  funext k
  refine h.idle rfl k ?_
  rw [h.settled rfl hok]
  exact Set.notMem_empty k

end WriteBehind
