import Mathlib.Data.List.Nodup
import Mathlib.Data.List.Perm.Basic

/-!
# Logs of spans

A span starts below a parent, may report progress, and ends. A log is
the events of many spans in the order they were emitted. `Tracks log live`
says that `live` are the spans open at the end of a log in which every
span starts once, below an open span, and ends at most once; there is one
rule for each event that keeps it.

`Orderly` adds the order of the ends: no span outlives its parent. Its
rules are equivalences, so a log that has once broken the order never
recovers it.
-/

namespace SpanLog

/-- A span and the span it belongs to. -/
structure Span (ι : Type) where
  id : ι
  parent : Option ι

inductive Event (ι : Type) where
  | start (span : Span ι)
  | update (id : ι)
  | stop (id : ι)

variable {ι : Type}

def Event.started? : Event ι → Option (Span ι)
  | .start span => some span
  | _ => none

def Event.stopped? : Event ι → Option ι
  | .stop id => some id
  | _ => none

def started (log : List (Event ι)) : List (Span ι) :=
  log.filterMap Event.started?

def ended (log : List (Event ι)) : List ι :=
  log.filterMap Event.stopped?

def IsOpen (log : List (Event ι)) (id : ι) : Prop :=
  id ∈ (started log).map Span.id ∧ id ∉ ended log

def StartsUnderOpen (log : List (Event ι)) : Prop :=
  ∀ before span after, log = before ++ .start span :: after →
    ∀ p, span.parent = some p → IsOpen before p

/-- Every span started has exactly one end, and it comes before the end of
its parent. -/
def EndsNested [DecidableEq ι] (log : List (Event ι)) : Prop :=
  ∀ span ∈ started log, (ended log).count span.id = 1 ∧
    ∀ p, span.parent = some p → [span.id, p].Sublist (ended log)

def Orderly (log : List (Event ι)) : Prop :=
  ∀ span ∈ started log, ∀ p, span.parent = some p → p ∈ ended log →
    [span.id, p].Sublist (ended log)

/-- The spans open at the end of a log. -/
structure Tracks (log : List (Event ι)) (live : List (Span ι)) : Prop where
  under : StartsUnderOpen log
  startedNodup : ((started log).map Span.id).Nodup
  endedNodup : (ended log).Nodup
  endedStarted : ∀ id ∈ ended log, id ∈ (started log).map Span.id
  liveNodup : (live.map Span.id).Nodup
  mem_live : ∀ span, span ∈ live ↔ span ∈ started log ∧ span.id ∉ ended log

variable {log : List (Event ι)} {live live' l₁ l₂ : List (Span ι)} {span : Span ι} {id : ι}

/-! ## Extending a log -/

@[simp] theorem started_start : started (log ++ [.start span]) = started log ++ [span] := by
  rw [started, started, List.filterMap_append]
  rfl

@[simp] theorem started_update : started (log ++ [.update id]) = started log := by
  rw [started, started, List.filterMap_append]
  exact List.append_nil _

@[simp] theorem started_stop : started (log ++ [.stop id]) = started log := by
  rw [started, started, List.filterMap_append]
  exact List.append_nil _

@[simp] theorem ended_start : ended (log ++ [.start span]) = ended log := by
  rw [ended, ended, List.filterMap_append]
  exact List.append_nil _

@[simp] theorem ended_update : ended (log ++ [.update id]) = ended log := by
  rw [ended, ended, List.filterMap_append]
  exact List.append_nil _

@[simp] theorem ended_stop : ended (log ++ [.stop id]) = ended log ++ [id] := by
  rw [ended, ended, List.filterMap_append]
  rfl

theorem startsUnderOpen_append {event : Event ι} (h : StartsUnderOpen log)
    (hevent : ∀ span, event = .start span → ∀ p, span.parent = some p → IsOpen log p) :
    StartsUnderOpen (log ++ [event]) := by
  intro before span after heq p hp
  rcases List.eq_nil_or_concat after with rfl | ⟨rest, last, rfl⟩
  · obtain ⟨rfl, hlast⟩ := List.append_inj' heq rfl
    exact hevent span (List.head_eq_of_cons_eq hlast) p hp
  · have hsplit : log ++ [event] = (before ++ .start span :: rest) ++ [last] := by
      rw [heq, List.concat_eq_append, List.append_assoc, List.cons_append]
    exact h before span rest (List.append_inj' hsplit rfl).1 p hp

theorem split_of_mem_started (h : span ∈ started log) :
    ∃ before after, log = before ++ .start span :: after := by
  obtain ⟨event, hmem, hevent⟩ := List.mem_filterMap.mp h
  obtain ⟨before, after, rfl⟩ := List.append_of_mem hmem
  cases event with
  | start other =>
    obtain rfl : other = span := Option.some.inj hevent
    exact ⟨before, after, rfl⟩
  | update other => cases hevent
  | stop other => cases hevent

theorem parent_started (h : StartsUnderOpen log) (hspan : span ∈ started log)
    {p : ι} (hp : span.parent = some p) : p ∈ (started log).map Span.id := by
  obtain ⟨before, after, rfl⟩ := split_of_mem_started hspan
  rw [started, List.filterMap_append, List.map_append]
  exact List.mem_append_left _ (h before span after rfl p hp).1

/-! ## The open spans -/

theorem tracks_nil : Tracks ([] : List (Event ι)) [] where
  under := by
    intro before span after heq
    exact absurd heq.symm (List.append_ne_nil_of_right_ne_nil _ (List.cons_ne_nil _ _))
  startedNodup := List.nodup_nil
  endedNodup := List.nodup_nil
  endedStarted := by
    intro id hid
    cases hid
  liveNodup := List.nodup_nil
  mem_live := by
    intro span
    constructor
    · intro h; cases h
    · intro h; cases h.1

section

variable (h : Tracks log live)
include h

theorem Tracks.perm (hperm : live.Perm live') : Tracks log live' where
  under := h.under
  startedNodup := h.startedNodup
  endedNodup := h.endedNodup
  endedStarted := h.endedStarted
  liveNodup := (hperm.map Span.id).nodup_iff.mp h.liveNodup
  mem_live := fun span => hperm.mem_iff.symm.trans (h.mem_live span)

theorem Tracks.isOpen (hspan : span ∈ live) : IsOpen log span.id :=
  ⟨List.mem_map_of_mem ((h.mem_live span).mp hspan).1, ((h.mem_live span).mp hspan).2⟩

theorem Tracks.parent_ne_self (hspan : span ∈ started log) :
    span.parent ≠ some span.id := by
  intro hp
  obtain ⟨before, after, rfl⟩ := split_of_mem_started hspan
  have hnodup := h.startedNodup
  rw [started, List.filterMap_append, List.map_append] at hnodup
  exact (List.nodup_append.mp hnodup).2.2 _ (h.under before span after rfl _ hp).1 _
    List.mem_cons_self rfl

theorem Tracks.start (hfresh : span.id ∉ (started log).map Span.id)
    (hparent : ∀ p, span.parent = some p → p ∈ live.map Span.id) :
    Tracks (log ++ [.start span]) (span :: live) where
  under := by
    refine startsUnderOpen_append h.under ?_
    rintro _ ⟨⟩ p hp
    obtain ⟨parent, hmem, rfl⟩ := List.mem_map.mp (hparent p hp)
    exact h.isOpen hmem
  startedNodup := by
    rw [started_start, List.map_append]
    refine List.nodup_append.mpr ⟨h.startedNodup, List.nodup_singleton _, ?_⟩
    rintro id hid _ hother rfl
    rw [List.map_singleton, List.mem_singleton] at hother
    exact hfresh (hother ▸ hid)
  endedNodup := by
    rw [ended_start]
    exact h.endedNodup
  endedStarted := by
    intro id hid
    rw [ended_start] at hid
    rw [started_start, List.map_append]
    exact List.mem_append_left _ (h.endedStarted id hid)
  liveNodup := by
    rw [List.map_cons, List.nodup_cons]
    refine ⟨?_, h.liveNodup⟩
    intro hmem
    obtain ⟨other, hother, heq⟩ := List.mem_map.mp hmem
    exact hfresh (heq ▸ List.mem_map_of_mem ((h.mem_live other).mp hother).1)
  mem_live := by
    intro other
    rw [started_start, ended_start, List.mem_cons, List.mem_append, List.mem_singleton,
      h.mem_live other]
    constructor
    · rintro (rfl | ⟨hs, he⟩)
      · exact ⟨Or.inr rfl, fun hmem => hfresh (h.endedStarted _ hmem)⟩
      · exact ⟨Or.inl hs, he⟩
    · rintro ⟨hs | rfl, he⟩
      · exact Or.inr ⟨hs, he⟩
      · exact Or.inl rfl

theorem Tracks.update : Tracks (log ++ [.update id]) live where
  under := startsUnderOpen_append h.under (by rintro _ ⟨⟩)
  startedNodup := by rw [started_update]; exact h.startedNodup
  endedNodup := by rw [ended_update]; exact h.endedNodup
  endedStarted := by rw [started_update, ended_update]; exact h.endedStarted
  liveNodup := h.liveNodup
  mem_live := by rw [started_update, ended_update]; exact h.mem_live

end

theorem Tracks.stop (h : Tracks log (span :: live)) : Tracks (log ++ [.stop span.id]) live where
  under := startsUnderOpen_append h.under (by rintro _ ⟨⟩)
  startedNodup := by rw [started_stop]; exact h.startedNodup
  endedNodup := by
    rw [ended_stop]
    refine List.nodup_append.mpr ⟨h.endedNodup, List.nodup_singleton _, ?_⟩
    rintro id hid _ hother rfl
    rw [List.mem_singleton] at hother
    exact (h.isOpen List.mem_cons_self).2 (hother ▸ hid)
  endedStarted := by
    intro id hid
    rw [ended_stop, List.mem_append, List.mem_singleton] at hid
    rw [started_stop]
    rcases hid with hid | rfl
    · exact h.endedStarted id hid
    · exact (h.isOpen List.mem_cons_self).1
  liveNodup := (List.nodup_cons.mp h.liveNodup).2
  mem_live := by
    intro other
    have hother := h.mem_live other
    have hnodup := (List.nodup_cons.mp h.liveNodup).1
    rw [started_stop, ended_stop, List.mem_append, List.mem_singleton, not_or, ← and_assoc,
      ← hother, List.mem_cons]
    constructor
    · intro hmem
      exact ⟨Or.inr hmem, fun heq => hnodup (heq ▸ List.mem_map_of_mem hmem)⟩
    · rintro ⟨rfl | hmem, hne⟩
      · exact absurd rfl hne
      · exact hmem

/-! ## The order of the ends -/

theorem orderly_nil : Orderly ([] : List (Event ι)) := by
  intro span hspan
  cases hspan

theorem orderly_update : Orderly (log ++ [.update id]) ↔ Orderly log := by
  rw [Orderly, started_update, ended_update, Orderly]

theorem orderly_start (h : Tracks log live)
    (hparent : ∀ p, span.parent = some p → p ∈ live.map Span.id) :
    Orderly (log ++ [.start span]) ↔ Orderly log := by
  rw [Orderly, started_start, ended_start, Orderly]
  constructor
  · intro hall other hother
    exact hall other (List.mem_append_left _ hother)
  · intro hall other hother p hp hended
    rcases List.mem_append.mp hother with hother | hother
    · exact hall other hother p hp hended
    · obtain rfl := List.mem_singleton.mp hother
      obtain ⟨parent, hmem, rfl⟩ := List.mem_map.mp (hparent p hp)
      exact absurd hended (h.isOpen hmem).2

theorem sublist_concat_of_ne {a b c : ι} {xs : List ι} (hne : b ≠ c)
    (h : [a, b].Sublist (xs ++ [c])) : [a, b].Sublist xs := by
  obtain ⟨l₁, l₂, heq, h₁, h₂⟩ := List.sublist_append_iff.mp h
  rcases List.eq_nil_or_concat l₂ with rfl | ⟨rest, last, rfl⟩
  · rw [List.append_nil] at heq
    exact heq ▸ h₁
  · rw [List.concat_eq_append] at heq h₂
    have hlast : last ∈ [c] := h₂.subset (List.mem_append_right _ List.mem_cons_self)
    have hsplit : [a] ++ [b] = (l₁ ++ rest) ++ [last] := by
      rw [List.append_assoc]
      exact heq
    have hb := (List.append_inj' hsplit rfl).2
    rw [List.mem_singleton] at hlast
    exact absurd ((List.head_eq_of_cons_eq hb).trans hlast) hne

theorem orderly_stop (h : Tracks log (span :: live)) :
    Orderly (log ++ [.stop span.id]) ↔
      Orderly log ∧ ∀ child ∈ live, child.parent ≠ some span.id := by
  have hopen := h.isOpen List.mem_cons_self
  have hnodup := (List.nodup_cons.mp h.liveNodup).1
  rw [Orderly, started_stop, ended_stop, Orderly]
  constructor
  · intro hall
    refine ⟨?_, ?_⟩
    · intro other hother p hp hended
      have hne : p ≠ span.id := fun heq => hopen.2 (heq ▸ hended)
      exact sublist_concat_of_ne hne (hall other hother p hp (List.mem_append_left _ hended))
    · intro child hchild hp
      have hlive := (h.mem_live child).mp (List.mem_cons_of_mem _ hchild)
      have hsub := hall child hlive.1 span.id hp
        (List.mem_append_right _ List.mem_cons_self)
      rcases List.mem_append.mp (hsub.subset List.mem_cons_self) with hmem | hmem
      · exact hlive.2 hmem
      · exact hnodup (List.mem_singleton.mp hmem ▸ List.mem_map_of_mem hchild)
  · rintro ⟨hall, hchildren⟩ other hother p hp hended
    rcases List.mem_append.mp hended with hended | hended
    · exact (hall other hother p hp hended).trans (List.sublist_append_left _ _)
    · obtain rfl := List.mem_singleton.mp hended
      by_cases hclosed : other.id ∈ ended log
      · exact (List.singleton_sublist.mpr hclosed).append (List.Sublist.refl [span.id])
      · -- an open child of the span that ends
        have hlive := (h.mem_live other).mpr ⟨hother, hclosed⟩
        rcases List.mem_cons.mp hlive with rfl | hlive
        · exact absurd hp (h.parent_ne_self hother)
        · exact absurd hp (hchildren other hlive)

/-- With no span open, the order is all there is to ask. -/
theorem endsNested_iff [DecidableEq ι] (h : Tracks log []) : EndsNested log ↔ Orderly log := by
  have hended : ∀ other ∈ started log, other.id ∈ ended log := by
    intro other hother
    by_contra hnot
    cases (h.mem_live other).mpr ⟨hother, hnot⟩
  constructor
  · intro hall other hother p hp _
    exact (hall other hother).2 p hp
  · intro hall other hother
    refine ⟨List.count_eq_one_of_mem h.endedNodup (hended other hother), ?_⟩
    intro p hp
    obtain ⟨parent, hmem, rfl⟩ := List.mem_map.mp (parent_started h.under hother hp)
    exact hall other hother _ hp (hended parent hmem)

end SpanLog
