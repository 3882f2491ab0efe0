import Mathlib.Data.List.Forall2

/-!
# Lines replaced in blocks

A text is a list of lines, and blocks of lines are replaced, in order and
apart from each other. When no line of one text is longer than that of the
other, the two texts with the same blocks are equal exactly when the lines
outside the blocks are (`weave_eq_iff`).
-/

namespace TextBlocks

variable {α β : Type*}

/-- The lines from `first` on and before `last` become `text`. -/
structure Block (α : Type*) where
  first : Nat
  last : Nat
  text : List α

def weave (lines : List (List α)) : Nat → List (Block α) → List α
  | i, [] => (lines.drop i).flatten
  | i, b :: bs => ((lines.take b.first).drop i).flatten ++ (b.text ++ weave lines b.last bs)

/-- In order and apart from each other, from a position on. -/
def Ordered : Nat → List (Block α) → Prop
  | _, [] => True
  | i, b :: bs => i ≤ b.first ∧ b.first ≤ b.last ∧ Ordered b.last bs

def Outside (blocks : List (Block α)) (k : Nat) : Prop :=
  ∀ b ∈ blocks, ¬ (b.first ≤ k ∧ k < b.last)

/-! ## Lines -/

theorem mem_splitOn [BEq α] [LawfulBEq α] {a : α} (text : List α) :
    ∀ part ∈ text.splitOn a, a ∉ part ∧ part ⊆ text := by
  induction text with
  | nil =>
    intro part hpart
    obtain rfl := List.mem_singleton.mp hpart
    exact ⟨List.not_mem_nil, List.Subset.refl _⟩
  | cons u rest ih =>
    rw [List.splitOn_cons_eq_if_modifyHead]
    split
    · intro part hpart
      obtain rfl | hpart := List.mem_cons.mp hpart
      · exact ⟨List.not_mem_nil, List.nil_subset _⟩
      · exact ⟨(ih part hpart).1, List.subset_cons_of_subset _ (ih part hpart).2⟩
    · rename_i hu
      obtain ⟨first, parts, hparts⟩ := List.exists_cons_of_ne_nil (List.splitOn_ne_nil a rest)
      rw [hparts] at ih ⊢
      intro part hpart
      obtain rfl | hpart := List.mem_cons.mp hpart
      · obtain ⟨hnot, hsubset⟩ := ih first List.mem_cons_self
        rw [List.mem_cons, not_or]
        exact ⟨⟨fun heq => hu (beq_iff_eq.mpr heq.symm), hnot⟩, List.cons_subset_cons u hsubset⟩
      · obtain ⟨hnot, hsubset⟩ := ih part (List.mem_cons_of_mem first hpart)
        exact ⟨hnot, List.subset_cons_of_subset _ hsubset⟩

/-! ## Pieces -/

def pieces (lines : List (List α)) : Nat → List (Block α) → List (List α)
  | i, [] => lines.drop i
  | i, b :: bs => (lines.take b.first).drop i ++ (b.text :: pieces lines b.last bs)

theorem flatten_pieces (lines : List (List α)) (i : Nat) (blocks : List (Block α)) :
    (pieces lines i blocks).flatten = weave lines i blocks := by
  induction blocks generalizing i with
  | nil => rfl
  | cons b bs ih =>
    rw [pieces, weave, List.flatten_append, List.flatten_cons, ih]

/-- A change of every unit. -/
theorem weave_flatMap (f : α → List β) (lines : List (List α)) (i : Nat)
    (blocks : List (Block α)) :
    (weave lines i blocks).flatMap f =
      weave (lines.map (·.flatMap f)) i
        (blocks.map fun b => ⟨b.first, b.last, b.text.flatMap f⟩) := by
  have hflatten : ∀ ls : List (List α), ls.flatten.flatMap f = (ls.map (·.flatMap f)).flatten := by
    intro ls
    induction ls with
    | nil => rfl
    | cons l ls ih => rw [List.flatten_cons, List.flatMap_append, ih, List.map_cons,
        List.flatten_cons]
  induction blocks generalizing i with
  | nil => rw [weave, List.map_nil, weave, hflatten, List.map_drop]
  | cons b bs ih =>
    rw [weave, List.map_cons, weave, List.flatMap_append, List.flatMap_append, ih, hflatten,
      List.map_drop, List.map_take]

/-! ## Equality -/

theorem flatten_length_le {as bs : List (List α)}
    (h : List.Forall₂ (fun a b => a.length ≤ b.length) as bs) :
    as.flatten.length ≤ bs.flatten.length := by
  induction h with
  | nil => exact Nat.le_refl _
  | cons hle _ ih =>
    rw [List.flatten_cons, List.flatten_cons, List.length_append, List.length_append]
    exact Nat.add_le_add hle ih

theorem flatten_eq_iff {as bs : List (List α)}
    (h : List.Forall₂ (fun a b => a.length ≤ b.length) as bs) :
    as.flatten = bs.flatten ↔ as = bs := by
  refine ⟨fun heq => ?_, fun heq => heq ▸ rfl⟩
  induction h with
  | nil => rfl
  | @cons a b as bs hle hrest ih =>
    rw [List.flatten_cons, List.flatten_cons] at heq
    have hlength := congrArg List.length heq
    have hrestLength := flatten_length_le hrest
    rw [List.length_append, List.length_append] at hlength
    obtain ⟨rfl, hflatten⟩ := List.append_inj heq (by omega)
    rw [ih hflatten]

section Equality

variable {lines lines' : List (List α)}

/-- No line is longer than the other's. -/
def NoLonger (lines lines' : List (List α)) : Prop :=
  List.Forall₂ (fun a b => a.length ≤ b.length) lines lines'

theorem NoLonger.pieces (h : NoLonger lines lines') (i : Nat) (blocks : List (Block α)) :
    List.Forall₂ (fun a b => a.length ≤ b.length) (pieces lines i blocks)
      (pieces lines' i blocks) := by
  induction blocks generalizing i with
  | nil => exact List.forall₂_drop i h
  | cons b bs ih =>
    exact List.rel_append (List.forall₂_drop i (List.forall₂_take b.first h))
      (.cons (Nat.le_refl _) (ih b.last))

theorem slice_eq_iff {i j : Nat} :
    (lines.take j).drop i = (lines'.take j).drop i ↔
      ∀ k, i ≤ k → k < j → lines[k]? = lines'[k]? := by
  constructor
  · intro heq k hik hkj
    have hget := congrArg (·[k - i]?) heq
    simp only [List.getElem?_drop] at hget
    rwa [List.getElem?_take_of_lt (by omega), List.getElem?_take_of_lt (by omega),
      Nat.add_sub_cancel' hik] at hget
  · intro hall
    refine List.ext_getElem? fun m => ?_
    rw [List.getElem?_drop, List.getElem?_drop]
    by_cases hm : i + m < j
    · rw [List.getElem?_take_of_lt hm, List.getElem?_take_of_lt hm]
      exact hall _ (Nat.le_add_right i m) hm
    · rw [List.getElem?_take, List.getElem?_take, if_neg hm, if_neg hm]

variable {blocks : List (Block α)}

theorem Ordered.le_first {i : Nat} (h : Ordered i blocks) :
    ∀ b ∈ blocks, i ≤ b.first := by
  induction blocks generalizing i with
  | nil => exact fun _ hb => nomatch hb
  | cons b bs ih =>
    obtain ⟨hfirst, hlast, hrest⟩ := h
    rintro b' (_ | ⟨_, hb'⟩)
    · exact hfirst
    · exact Nat.le_trans (Nat.le_trans hfirst hlast) (ih hrest b' hb')

theorem pieces_eq_iff (hlength : lines.length = lines'.length) {i : Nat} (h : Ordered i blocks) :
    pieces lines i blocks = pieces lines' i blocks ↔
      ∀ k, i ≤ k → Outside blocks k → lines[k]? = lines'[k]? := by
  induction blocks generalizing i with
  | nil =>
    rw [pieces, pieces]
    constructor
    · intro heq k hik _
      have hget := congrArg (·[k - i]?) heq
      simp only [List.getElem?_drop] at hget
      rwa [Nat.add_sub_cancel' hik] at hget
    · intro hall
      refine List.ext_getElem? fun m => ?_
      rw [List.getElem?_drop, List.getElem?_drop]
      exact hall _ (Nat.le_add_right i m) fun b hb => nomatch hb
  | cons b bs ih =>
    obtain ⟨hfirst, hlast, hrest⟩ := h
    have hslice : ((lines.take b.first).drop i).length =
        ((lines'.take b.first).drop i).length := by
      simp only [List.length_drop, List.length_take, hlength]
    have hsplit : pieces lines i (b :: bs) = pieces lines' i (b :: bs) ↔
        (lines.take b.first).drop i = (lines'.take b.first).drop i ∧
          pieces lines b.last bs = pieces lines' b.last bs := by
      rw [pieces, pieces]
      refine ⟨fun heq => ?_, fun ⟨hbefore, hafter⟩ => by rw [hbefore, hafter]⟩
      obtain ⟨hbefore, hafter⟩ := List.append_inj heq hslice
      exact ⟨hbefore, (List.cons.inj hafter).2⟩
    rw [hsplit, ih hrest, slice_eq_iff]
    constructor
    · rintro ⟨hbefore, hafter⟩ k hik houtside
      by_cases hk : k < b.first
      · exact hbefore k hik hk
      · have hnot := houtside b List.mem_cons_self
        exact hafter k (by omega) fun b' hb' => houtside b' (List.mem_cons_of_mem b hb')
    · intro hall
      refine ⟨fun k hik hk => hall k hik ?_, fun k hk houtside => hall k (by omega) ?_⟩
      · rintro b' (_ | ⟨_, hb'⟩)
        · omega
        · have hle := hrest.le_first b' hb'
          omega
      · rintro b' (_ | ⟨_, hb'⟩)
        · omega
        · exact houtside b' hb'

theorem weave_eq_iff (h : NoLonger lines lines') {i : Nat} (hordered : Ordered i blocks) :
    weave lines i blocks = weave lines' i blocks ↔
      ∀ k, i ≤ k → Outside blocks k → lines[k]? = lines'[k]? := by
  rw [← flatten_pieces, ← flatten_pieces, flatten_eq_iff (h.pieces i blocks),
    pieces_eq_iff h.length_eq hordered]

end Equality

end TextBlocks
