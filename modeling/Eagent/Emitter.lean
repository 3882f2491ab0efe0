import Eagent.Machine

/-!
# Listeners of an emitter

An emitter calls its listeners by their index in an array that the calls may
change. `Emitter.Delivers`: an event is delivered to the listeners registered
when it arrived, once each, one event after the other. That is so as long as
no listener goes, throws or emits while one of them is still to be called
(`Emitter.delivers`).
-/

namespace Eagent

/-- A delivery under way: the number of its event, and the index of the next
call. -/
structure Delivery where
  event : Nat
  index : Nat

/-- The call of a listener, at an index. -/
structure ListenerCall (L : Type) where
  event : Nat
  index : Nat
  listener : L

/-- `arrived`: the events, each with the listeners registered then. Inner
deliveries come first. -/
structure Emitter (L E : Type) where
  listeners : List L := []
  arrived : List (E × List L) := []
  delivering : List Delivery := []
  calls : List (ListenerCall L) := []

inductive EmitterAct (L E : Type) where
  | subscribe (listener : L)
  | unsubscribe (listener : L)
  | emit (event : E)
  /-- the next listener is called -/
  | call
  /-- no listener is left -/
  | return
  /-- the listener called last throws, and the delivery ends -/
  | throw

namespace Emitter

variable {L E : Type}

def emitted (s : Emitter L E) (event : E) : Emitter L E :=
  { s with
    arrived := s.arrived ++ [(event, s.listeners)]
    delivering := ⟨s.arrived.length, 0⟩ :: s.delivering }

def step [DecidableEq L] (s : Emitter L E) : EmitterAct L E → Option (Emitter L E)
  | .subscribe listener => some { s with listeners := s.listeners ++ [listener] }
  | .unsubscribe listener => some { s with listeners := s.listeners.erase listener }
  | .emit event => some (s.emitted event)
  | .call =>
      match s.delivering with
      | [] => none
      | d :: outer =>
          (s.listeners[d.index]?).map fun listener =>
            { s with
              delivering := { d with index := d.index + 1 } :: outer
              calls := s.calls ++ [⟨d.event, d.index, listener⟩] }
  | .return =>
      match s.delivering with
      | [] => none
      | d :: outer => if s.listeners.length ≤ d.index then some { s with delivering := outer } else none
  | .throw =>
      match s.delivering with
      | [] => none
      | d :: outer => if 0 < d.index then some { s with delivering := outer } else none

/-! ## What is to be delivered -/

variable (s : Emitter L E)

/-- The listeners when an event arrived. -/
def registered (n : Nat) : List L := (s.arrived[n]?).elim [] Prod.snd

def Due (c : ListenerCall L) : Prop := c.index < (s.registered c.event).length

instance : DecidablePred s.Due := fun _ => inferInstanceAs (Decidable (_ < _))

def due : List (ListenerCall L) := s.calls.filter s.Due

def dueOf (n : Nat) : List L := (s.due.filter (·.event = n)).map (·.listener)

/-- Every event whose delivery is over has come to every listener registered
when it arrived, once each, and the events come in order. -/
structure Delivers : Prop where
  all : ∀ n < s.arrived.length, (∀ d ∈ s.delivering, d.event ≠ n) → s.dueOf n = s.registered n
  order : (s.due.map (·.event)).Pairwise (· ≤ ·)

/-- Every listener registered at its arrival has been called. -/
def Served (d : Delivery) : Prop := (s.registered d.event).length ≤ d.index

/-- No listener goes, throws or emits while one that was there when an event
arrived is to be called for it. -/
def Undisturbed : EmitterAct L E → Prop
  | .unsubscribe listener => ∀ d ∈ s.delivering, s.Served d ∨ listener ∉ s.registered d.event
  | .emit _ => ∀ d ∈ s.delivering, s.Served d
  | .throw => ∀ d ∈ s.delivering.head?, s.Served d
  | _ => True

/-- The invariant. -/
structure Inv : Prop where
  delivers : s.Delivers
  called : ∀ c ∈ s.calls, c.event < s.arrived.length
  under : ∀ d ∈ s.delivering, d.event < s.arrived.length
  distinct : (s.delivering.map Delivery.event).Nodup
  /-- what a delivery has delivered -/
  progress : ∀ d ∈ s.delivering, s.dueOf d.event = (s.registered d.event).take d.index
  /-- only the last event is still to be delivered, by the inner delivery -/
  outer : ∀ d ∈ s.delivering.tail, s.Served d
  last : ∀ d ∈ s.delivering, s.Served d ∨
    d.event + 1 = s.arrived.length ∧ s.registered d.event <+: s.listeners

/-! ## Steps -/

section Steps

variable {s} {d : Delivery} {outer : List Delivery}

theorem inv_start : Inv ({} : Emitter L E) where
  delivers := ⟨fun n hn => absurd hn (Nat.not_lt_zero n), List.Pairwise.nil⟩
  called _ hc := absurd hc List.not_mem_nil
  under _ hd := absurd hd List.not_mem_nil
  distinct := List.nodup_nil
  progress _ hd := absurd hd List.not_mem_nil
  outer _ hd := absurd hd List.not_mem_nil
  last _ hd := absurd hd List.not_mem_nil

theorem Inv.subscribe (h : s.Inv) (listener : L) :
    Inv { s with listeners := s.listeners ++ [listener] } := by
  refine ⟨⟨h.delivers.all, h.delivers.order⟩, h.called, h.under, h.distinct, h.progress, h.outer,
    fun d hd => ?_⟩
  rcases h.last d hd with hserved | ⟨hlast, hprefix⟩
  · exact .inl hserved
  · exact .inr ⟨hlast, hprefix.trans (List.prefix_append _ _)⟩

theorem Inv.unsubscribe [DecidableEq L] (h : s.Inv) {listener : L}
    (hok : s.Undisturbed (.unsubscribe listener)) :
    Inv { s with listeners := s.listeners.erase listener } := by
  refine ⟨⟨h.delivers.all, h.delivers.order⟩, h.called, h.under, h.distinct, h.progress, h.outer,
    fun d hd => ?_⟩
  rcases h.last d hd with hserved | ⟨hlast, more, hmore⟩
  · exact .inl hserved
  · refine (hok d hd).imp id fun hnotMem => ⟨hlast, ?_⟩
    dsimp only
    rw [← hmore, List.erase_append_right _ hnotMem]
    exact List.prefix_append _ _

/-- A delivery ends when every listener has been called. -/
theorem Inv.pop (h : s.Inv) (hd : s.delivering = d :: outer) (hserved : s.Served d) :
    Inv { s with delivering := outer } := by
  have hmem : ∀ d' ∈ outer, d' ∈ s.delivering := by
    intro d' hd'
    rw [hd]
    exact List.mem_cons_of_mem d hd'
  have hdistinct := h.distinct
  rw [hd, List.map_cons, List.nodup_cons] at hdistinct
  refine ⟨⟨fun n hn hnone => ?_, h.delivers.order⟩, h.called, fun d' hd' => h.under d' (hmem d' hd'),
    hdistinct.2, fun d' hd' => h.progress d' (hmem d' hd'), fun d' hd' => ?_,
    fun d' hd' => h.last d' (hmem d' hd')⟩
  · by_cases hn' : d.event = n
    · subst hn'
      have hprogress := h.progress d (hd ▸ List.mem_cons_self)
      rwa [List.take_of_length_le hserved] at hprogress
    · refine h.delivers.all n hn fun d' hd' => ?_
      rw [hd] at hd'
      rcases List.mem_cons.mp hd' with rfl | hd'
      · exact hn'
      · exact hnone d' hd'
  · refine h.outer d' ?_
    rw [hd]
    exact List.mem_of_mem_tail hd'

theorem registered_emit {event : E} {delivering : List Delivery} {n : Nat}
    (hn : n < s.arrived.length) :
    registered { s with arrived := s.arrived ++ [(event, s.listeners)], delivering } n =
      s.registered n := by
  rw [registered, List.getElem?_append_left hn]
  rfl

theorem due_emit (h : ∀ c ∈ s.calls, c.event < s.arrived.length) (event : E)
    (delivering : List Delivery) :
    due { s with arrived := s.arrived ++ [(event, s.listeners)], delivering } = s.due := by
  refine List.filter_congr fun c hc => decide_eq_decide.mpr ?_
  unfold Due
  rw [registered_emit (h c hc)]

theorem Inv.emit (h : s.Inv) {event : E} (hok : s.Undisturbed (.emit event)) :
    (s.emitted event).Inv := by
  have hdue : (s.emitted event).due = s.due :=
    due_emit h.called event (⟨s.arrived.length, 0⟩ :: s.delivering)
  have hserved : ∀ d ∈ s.delivering, (s.emitted event).Served d := by
    intro d hd
    unfold Served
    rw [emitted, registered_emit (h.under d hd)]
    exact hok d hd
  have hlt : ∀ {n}, n < (s.arrived ++ [(event, s.listeners)]).length →
      n ≠ s.arrived.length → n < s.arrived.length := by
    intro n hn hne
    rw [List.length_append, List.length_singleton] at hn
    omega
  constructor
  case delivers =>
    constructor
    case all =>
      intro n hn hnone
      have hn' := hlt hn (Ne.symm (hnone _ List.mem_cons_self))
      rw [dueOf, hdue, emitted, registered_emit hn']
      exact h.delivers.all n hn' fun d hd => hnone d (List.mem_cons_of_mem _ hd)
    case order =>
      rw [hdue]
      exact h.delivers.order
  case called =>
    intro c hc
    rw [emitted, List.length_append]
    exact Nat.lt_add_right _ (h.called c hc)
  case under =>
    intro d hd
    rw [emitted, List.length_append, List.length_singleton]
    rcases List.mem_cons.mp hd with rfl | hd
    · exact Nat.lt_succ_self _
    · exact Nat.lt_succ_of_lt (h.under d hd)
  case distinct =>
    rw [emitted, List.map_cons, List.nodup_cons]
    refine ⟨fun hmem => ?_, h.distinct⟩
    obtain ⟨d, hd, heq⟩ := List.mem_map.mp hmem
    exact absurd (h.under d hd) (by rw [heq]; exact Nat.lt_irrefl _)
  case progress =>
    intro d hd
    rw [dueOf, hdue]
    rcases List.mem_cons.mp hd with rfl | hd
    · rw [List.take_zero, List.map_eq_nil_iff, List.filter_eq_nil_iff]
      intro c hc
      have := h.called c (List.mem_of_mem_filter hc)
      rw [decide_eq_true_iff]
      exact Nat.ne_of_lt this
    · rw [emitted, registered_emit (h.under d hd)]
      exact h.progress d hd
  case outer => exact hserved
  case last =>
    intro d hd
    rcases List.mem_cons.mp hd with rfl | hd
    · refine .inr ⟨by rw [emitted, List.length_append, List.length_singleton], ?_⟩
      rw [emitted, registered, List.getElem?_concat_length]
      exact List.prefix_rfl
    · exact .inl (hserved d hd)

theorem due_call (c : ListenerCall L) (delivering : List Delivery) :
    due { s with calls := s.calls ++ [c], delivering } =
      s.due ++ if s.Due c then [c] else [] := by
  rw [due, List.filter_append]
  congr 1
  by_cases hc : s.Due c
  · rw [if_pos hc]
    exact List.filter_cons_of_pos (decide_eq_true hc)
  · rw [if_neg hc]
    exact List.filter_cons_of_neg fun h => hc (of_decide_eq_true h)

theorem Inv.call (h : s.Inv) {listener : L} (hd : s.delivering = d :: outer)
    (hlistener : s.listeners[d.index]? = some listener) :
    Inv { s with
      delivering := { d with index := d.index + 1 } :: outer
      calls := s.calls ++ [⟨d.event, d.index, listener⟩] } := by
  have hdue := s.due_call ⟨d.event, d.index, listener⟩ ({ d with index := d.index + 1 } :: outer)
  have hd' : d ∈ s.delivering := hd ▸ List.mem_cons_self
  have houter : ∀ d' ∈ outer, d' ∈ s.delivering := by
    intro d' hmem
    rw [hd]
    exact List.mem_cons_of_mem d hmem
  have hne : ∀ d' ∈ outer, d'.event ≠ d.event := by
    have hdistinct := h.distinct
    rw [hd, List.map_cons, List.nodup_cons] at hdistinct
    exact fun d' hmem heq => hdistinct.1 (heq ▸ List.mem_map_of_mem hmem)
  have hother : ∀ n, n ≠ d.event → dueOf { s with
      delivering := { d with index := d.index + 1 } :: outer
      calls := s.calls ++ [⟨d.event, d.index, listener⟩] } n = s.dueOf n := by
    intro n hn
    unfold dueOf
    rw [hdue]
    split
    · rw [List.filter_append, List.filter_cons_of_neg, List.filter_nil, List.append_nil]
      rw [decide_eq_true_iff]
      exact Ne.symm hn
    · rw [List.append_nil]
  constructor
  case delivers =>
    constructor
    case all =>
      intro n hn hnone
      have hn' : d.event ≠ n := hnone { d with index := d.index + 1 } List.mem_cons_self
      rw [hother n hn'.symm]
      refine h.delivers.all n hn fun d' hmem => ?_
      rw [hd] at hmem
      rcases List.mem_cons.mp hmem with heq | hmem
      · rw [heq]
        exact hn'
      · exact hnone d' (List.mem_cons_of_mem _ hmem)
    case order =>
      rw [hdue]
      split
      · rename_i hc
        obtain ⟨hlast, -⟩ := (h.last d hd').resolve_left (Nat.not_le_of_lt hc)
        rw [List.map_append, List.pairwise_append]
        refine ⟨h.delivers.order, List.pairwise_singleton _ _, fun n hn n' hn' => ?_⟩
        obtain rfl := List.mem_singleton.mp hn'
        obtain ⟨c, hcalls, rfl⟩ := List.mem_map.mp hn
        have hlt := h.called c (List.mem_of_mem_filter hcalls)
        dsimp only
        omega
      · rw [List.append_nil]
        exact h.delivers.order
  case called =>
    intro c hc
    rcases List.mem_append.mp hc with hc | hc
    · exact h.called c hc
    · obtain rfl := List.mem_singleton.mp hc
      exact h.under d hd'
  case under =>
    intro d₁ hd₁
    rcases List.mem_cons.mp hd₁ with rfl | hd₁
    · exact h.under d hd'
    · exact h.under d₁ (houter d₁ hd₁)
  case distinct =>
    have hdistinct := h.distinct
    rwa [hd] at hdistinct
  case progress =>
    intro d₁ hd₁
    rcases List.mem_cons.mp hd₁ with rfl | hd₁
    · have hprogress := h.progress d hd'
      unfold dueOf at hprogress ⊢
      rw [hdue]
      dsimp only
      split
      · rename_i hc
        obtain ⟨-, more, hmore⟩ := (h.last d hd').resolve_left (Nat.not_le_of_lt hc)
        have hget : (s.registered d.event)[d.index]? = some listener := by
          rw [← hlistener, ← hmore, List.getElem?_append_left hc]
        rw [List.filter_append, List.map_append, hprogress,
          List.filter_cons_of_pos (by exact decide_eq_true rfl), List.take_add_one]
        change _ = List.take d.index (s.registered d.event) ++
          ((s.registered d.event)[d.index]?).toList
        rw [hget]
        rfl
      · rename_i hc
        rw [List.append_nil, hprogress, List.take_of_length_le (Nat.not_lt.mp hc)]
        exact (List.take_of_length_le (Nat.le_succ_of_le (Nat.not_lt.mp hc))).symm
    · rw [hother _ (hne d₁ hd₁)]
      exact h.progress d₁ (houter d₁ hd₁)
  case outer =>
    intro d₁ hd₁
    refine h.outer d₁ ?_
    rwa [hd]
  case last =>
    intro d₁ hd₁
    rcases List.mem_cons.mp hd₁ with rfl | hd₁
    · refine (h.last d hd').imp (fun hserved => ?_) id
      exact Nat.le_succ_of_le hserved
    · exact h.last d₁ (houter d₁ hd₁)

theorem Inv.step [DecidableEq L] {s' : Emitter L E} {act : EmitterAct L E} (h : s.Inv)
    (hok : s.Undisturbed act) (hstep : s.step act = some s') : s'.Inv := by
  cases act with
  | subscribe listener =>
    cases hstep
    exact h.subscribe listener
  | unsubscribe listener =>
    cases hstep
    exact h.unsubscribe hok
  | emit event =>
    cases hstep
    exact h.emit hok
  | call =>
    simp only [Emitter.step] at hstep
    split at hstep
    · cases hstep
    · rename_i d outer hd
      obtain ⟨listener, hlistener, rfl⟩ := Option.map_eq_some_iff.mp hstep
      exact h.call hd hlistener
  | «return» =>
    simp only [Emitter.step] at hstep
    split at hstep
    · cases hstep
    · rename_i d outer hd
      obtain ⟨hdone, hs'⟩ := Option.ite_none_right_eq_some.mp hstep
      obtain rfl := Option.some.inj hs'
      refine h.pop hd ?_
      rcases h.last d (hd ▸ List.mem_cons_self) with hserved | ⟨-, hprefix⟩
      · exact hserved
      · exact Nat.le_trans hprefix.length_le hdone
  | throw =>
    simp only [Emitter.step] at hstep
    split at hstep
    · cases hstep
    · rename_i d outer hd
      obtain ⟨-, hs'⟩ := Option.ite_none_right_eq_some.mp hstep
      obtain rfl := Option.some.inj hs'
      refine h.pop hd (hok d ?_)
      rw [hd]
      rfl

end Steps

/-- In every run without such steps, every event comes to every listener. -/
theorem delivers [DecidableEq L] {s : Emitter L E}
    (h : Machine.Reaches Emitter.step Undisturbed {} s) : s.Delivers :=
  (h.invariant inv_start fun _ _ _ hinv hok hstep => hinv.step hok hstep).delivers

end Emitter

end Eagent
