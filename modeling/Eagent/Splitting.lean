import Mathlib.Data.List.Basic

/-!
# Splitting a text that arrives in pieces

A text is split at its separators, the leftmost first, into the parts that a
separator ends and a rest. Where a separator never begins later than one it
overlaps, a text may be split piece by piece: the rest is kept and split
again with the next piece (`split_append`).
-/

namespace Splitting

variable {α : Type*}

/-- A separator at the start of a text, and what follows it. More text does
not change a separator that is there; a text that only more text makes begin
with a separator has none within it. -/
structure Separator (α : Type*) where
  strip : List α → Option (List α)
  shorter : ∀ {text rest}, strip text = some rest → rest.length < text.length
  append : ∀ {text rest} (more : List α), strip text = some rest →
    strip (text ++ more) = some (rest ++ more)
  within : ∀ {text more rest : List α}, strip text = none → strip (text ++ more) = some rest →
    ∀ {t}, t <:+ text → strip t = none

def split (sep : Separator α) (text : List α) : List (List α) × List α :=
  match text with
  | [] => ([], [])
  | c :: cs =>
      match _h : sep.strip (c :: cs) with
      | some rest => ([] :: (split sep rest).1, (split sep rest).2)
      | none =>
          match split sep cs with
          | ([], rest) => ([], c :: rest)
          | (part :: parts, rest) => ((c :: part) :: parts, rest)
termination_by text.length
decreasing_by
  all_goals first
    | exact sep.shorter ‹_›
    | exact Nat.lt_succ_self _

variable (sep : Separator α)

theorem split_nil : split sep [] = ([], []) := by rw [split]

variable {c : α}

theorem split_strip {cs rest : List α} (h : sep.strip (c :: cs) = some rest) :
    split sep (c :: cs) = ([] :: (split sep rest).1, (split sep rest).2) := by
  rw [split]
  split
  · rename_i rest' h'
    obtain rfl := Option.some.inj (h.symm.trans h')
    rfl
  · rename_i h'
    cases h.symm.trans h'

theorem split_cons {cs : List α} (h : sep.strip (c :: cs) = none) :
    split sep (c :: cs) = match split sep cs with
      | ([], rest) => ([], c :: rest)
      | (part :: parts, rest) => ((c :: part) :: parts, rest) := by
  rw [split]
  split
  · rename_i rest h'
    cases h.symm.trans h'
  · rfl

theorem split_cons_rest {cs : List α} (h : sep.strip (c :: cs) = none)
    (hparts : (split sep cs).1 = []) : split sep (c :: cs) = ([], c :: (split sep cs).2) := by
  rw [split_cons sep h]
  rcases hcs : split sep cs with ⟨parts, rest⟩
  rw [hcs] at hparts
  cases hparts
  rfl

theorem split_cons_part {cs part : List α} {parts : List (List α)} (h : sep.strip (c :: cs) = none)
    (hparts : (split sep cs).1 = part :: parts) :
    split sep (c :: cs) = ((c :: part) :: parts, (split sep cs).2) := by
  rw [split_cons sep h]
  rcases hcs : split sep cs with ⟨parts', rest⟩
  rw [hcs] at hparts
  cases hparts
  rfl

theorem split_whole {text : List α} (h : ∀ {t}, t <:+ text → sep.strip t = none) :
    split sep text = ([], text) := by
  induction text with
  | nil => exact split_nil sep
  | cons c cs ih =>
    rw [split_cons sep (h List.suffix_rfl), ih fun ht => h (ht.trans (List.suffix_cons c cs))]

/-- Without a part the rest is the text. -/
theorem split_snd {text : List α} (h : (split sep text).1 = []) : (split sep text).2 = text := by
  induction text with
  | nil => rw [split_nil]
  | cons c cs ih =>
    cases hstrip : sep.strip (c :: cs) with
    | some rest =>
      rw [split_strip sep hstrip] at h
      cases h
    | none =>
      cases hparts : (split sep cs).1 with
      | nil => rw [split_cons_rest sep hstrip hparts, ih hparts]
      | cons part parts =>
        rw [split_cons_part sep hstrip hparts] at h
        cases h

theorem split_append (text more : List α) :
    split sep (text ++ more) =
      ((split sep text).1 ++ (split sep ((split sep text).2 ++ more)).1,
        (split sep ((split sep text).2 ++ more)).2) := by
  induction hn : text.length using Nat.strongRecOn generalizing text with
  | _ n ih =>
    subst hn
    cases text with
    | nil => rw [split_nil]; rfl
    | cons c cs =>
      cases hstrip : sep.strip (c :: cs) with
      | some rest =>
        have hwhole := split_strip sep (sep.append more hstrip)
        rw [ih _ (sep.shorter hstrip) rest rfl] at hwhole
        rw [split_strip sep hstrip]
        exact hwhole
      | none =>
        cases hmore : sep.strip (c :: cs ++ more) with
        | some rest =>
          -- the text is the beginning of a separator
          have hself : split sep (c :: cs) = ([], c :: cs) :=
            split_whole sep fun ht => sep.within hstrip hmore ht
          rw [hself]
          rfl
        | none =>
          have hcs := ih _ (Nat.lt_succ_self cs.length) cs rfl
          have hwhole : split sep (c :: (cs ++ more)) = _ := split_cons sep hmore
          rw [hcs] at hwhole
          cases hparts : (split sep cs).1 with
          | nil =>
            rw [split_cons_rest sep hstrip hparts, split_snd sep hparts]
            rfl
          | cons part parts =>
            rw [hparts] at hwhole
            rw [split_cons_part sep hstrip hparts]
            exact hwhole

/-! ## One element as separator -/

def single [DecidableEq α] (a : α) : Separator α where
  strip
    | [] => none
    | c :: cs => if c = a then some cs else none
  shorter {text rest} h := by
    cases text with
    | nil => cases h
    | cons c cs =>
        dsimp only at h
        split at h
        · obtain rfl := Option.some.inj h
          exact Nat.lt_succ_self _
        · cases h
  append {text rest} more h := by
    cases text with
    | nil => cases h
    | cons c cs =>
        dsimp only [List.cons_append] at h ⊢
        split at h
        · rename_i hc
          obtain rfl := Option.some.inj h
          exact if_pos hc
        · cases h
  within {text more rest} h h' t ht := by
    cases text with
    | nil =>
        obtain rfl := List.suffix_nil.mp ht
        rfl
    | cons c cs =>
        dsimp only [List.cons_append] at h h'
        split at h
        · cases h
        · rename_i hne
          rw [if_neg hne] at h'
          cases h'

variable [DecidableEq α] (a : α)

theorem strip_single (cs : List α) : (single a).strip (a :: cs) = some cs := if_pos rfl

theorem strip_single_of_ne (h : c ≠ a) (cs : List α) : (single a).strip (c :: cs) = none :=
  if_neg h

theorem split_single_of_notMem {text : List α} (h : a ∉ text) :
    split (single a) text = ([], text) := by
  refine split_whole (single a) fun {t} ht => ?_
  cases t with
  | nil => rfl
  | cons c cs =>
    refine strip_single_of_ne a (fun hc => h ?_) cs
    exact ht.subset (hc ▸ List.mem_cons_self)

theorem split_single_append {part : List α} (h : a ∉ part) (rest : List α) :
    split (single a) (part ++ a :: rest) =
      (part :: (split (single a) rest).1, (split (single a) rest).2) := by
  induction part with
  | nil => exact split_strip (single a) (strip_single a rest)
  | cons c part ih =>
    have hc : c ≠ a := fun hc => h (hc ▸ List.mem_cons_self)
    have hrest := ih fun hmem => h (List.mem_cons_of_mem c hmem)
    rw [List.cons_append, split_cons_part (single a) (strip_single_of_ne a hc _)
      (congrArg Prod.fst hrest), hrest]

/-- The rest has no separator. -/
theorem notMem_split_single (text : List α) : a ∉ (split (single a) text).2 := by
  induction text with
  | nil =>
    rw [split_nil]
    exact List.not_mem_nil
  | cons c cs ih =>
    by_cases hc : c = a
    · subst hc
      rw [split_strip (single c) (strip_single c cs)]
      exact ih
    · have hstrip := strip_single_of_ne a hc cs
      cases hparts : (split (single a) cs).1 with
      | nil =>
        rw [split_cons_rest (single a) hstrip hparts, List.mem_cons]
        exact not_or.mpr ⟨fun h => hc h.symm, ih⟩
      | cons part parts =>
        rw [split_cons_part (single a) hstrip hparts]
        exact ih

end Splitting
