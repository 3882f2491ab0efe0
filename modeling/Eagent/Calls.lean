import Mathlib.Data.List.Count
import Mathlib.Data.List.Forall2

/-!
# Calls under way

A list of calls, each waiting at some point. When one of them goes on, it is
replaced by what it goes on to, or removed: `replaceAt`. What the calls hold
together is the `flatMap` of what each of them holds.
-/

namespace Eagent

/-- The list with the element at `index` gone on to `next`, or gone. -/
def replaceAt {α : Type} (l : List α) (index : Nat) (next : Option α) : List α :=
  l.take index ++ next.toList ++ l.drop (index + 1)

section Replace

variable {α β : Type} {l : List α} {index : Nat} {a b : α} {next : Option α}

theorem take_cons_drop (h : l[index]? = some a) :
    l.take index ++ a :: l.drop (index + 1) = l := by
  obtain ⟨hi, rfl⟩ := List.getElem?_eq_some_iff.mp h
  rw [← List.drop_eq_getElem_cons, List.take_append_drop]

theorem mem_replaceAt : b ∈ replaceAt l index next ↔ b ∈ replaceAt l index none ∨ next = some b := by
  cases next with
  | none => simp [replaceAt]
  | some a =>
    simp only [replaceAt, Option.toList, List.mem_append, List.mem_singleton, List.append_nil,
      Option.some.injEq]
    tauto

theorem mem_of_mem_replaceAt (h : b ∈ replaceAt l index none) : b ∈ l := by
  rcases List.mem_append.mp h with h | h
  · exact List.mem_of_mem_take ((List.append_nil _).subst h)
  · exact List.mem_of_mem_drop h

theorem count_flatMap_replaceAt [BEq β] (f : α → List β) (h : l[index]? = some a)
    (next : Option α) (b : β) :
    ((replaceAt l index next).flatMap f).count b + (f a).count b =
      (l.flatMap f).count b + (next.toList.flatMap f).count b := by
  have := congrArg (fun l => (l.flatMap f).count b) (take_cons_drop h)
  simp only [List.flatMap_append, List.flatMap_cons, List.count_append] at this
  simp only [replaceAt, List.flatMap_append, List.count_append]
  omega

theorem length_flatMap_replaceAt (f : α → List β) (h : l[index]? = some a) (next : Option α) :
    ((replaceAt l index next).flatMap f).length + (f a).length =
      (l.flatMap f).length + (next.toList.flatMap f).length := by
  have := congrArg (fun l => (l.flatMap f).length) (take_cons_drop h)
  simp only [List.flatMap_append, List.flatMap_cons, List.length_append] at this
  simp only [replaceAt, List.flatMap_append, List.length_append]
  omega

end Replace

section Related

variable {α β : Type} {R : α → β → Prop} {l : List α} {l' : List β}

theorem forall₂_getElem? (h : List.Forall₂ R l l') {index : Nat} {a : α} {b : β}
    (ha : l[index]? = some a) (hb : l'[index]? = some b) : R a b := by
  obtain ⟨hi, rfl⟩ := List.getElem?_eq_some_iff.mp ha
  obtain ⟨hi', rfl⟩ := List.getElem?_eq_some_iff.mp hb
  exact h.get hi hi'

/-- Two calls at the same place go on. -/
theorem forall₂_replaceAt (h : List.Forall₂ R l l') (index : Nat) {next : Option α}
    {next' : Option β} (hnext : List.Forall₂ R next.toList next'.toList) :
    List.Forall₂ R (replaceAt l index next) (replaceAt l' index next') :=
  List.rel_append (List.rel_append (List.forall₂_take index h) hnext)
    (List.forall₂_drop (index + 1) h)

end Related

end Eagent
