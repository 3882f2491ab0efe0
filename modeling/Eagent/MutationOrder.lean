import Mathlib.Algebra.GroupWithZero.Nat
import Mathlib.Algebra.Order.BigOperators.Group.List
import Mathlib.Algebra.Order.Group.Nat
import Mathlib.Data.Nat.Find
import Eagent.FileMutationQueue

/-!
# Mutations of one file are serialised

The calls that got one key form a chain: each waits for the one before it
(`Ordered`). The key of a call is the file its path leads to, or the path
itself when there was no file. Calls for different files therefore never get
one key, but calls for one file can get two: what is serialised is what was
given one key.
-/

namespace Eagent

namespace MutationQueues

variable {F : FileSystem}

/-! ## Phases -/

def pathOf (s : MutationQueues F) (n : Nat) : Option F.Path :=
  (s.calls[n]?).map fun c => F.resolve c.filePath

def placeOf (s : MutationQueues F) (n : Nat) : Option (F.Path × Option Nat) :=
  (s.phaseOf n).bind (·.place)

def openKeyOf (s : MutationQueues F) (n : Nat) : Option F.Path := (s.phaseOf n).bind (·.openKey)

def Holds (s : MutationQueues F) (n : Nat) (key : F.Path) : Prop :=
  ∃ currentQueue, s.placeOf n = some (key, currentQueue)

def Over (s : MutationQueues F) (n : Nat) : Prop := (s.phaseOf n).any (·.isOver) = true

def Running (s : MutationQueues F) (n : Nat) : Prop :=
  ∃ key currentQueue, s.phaseOf n = some (.running key currentQueue)

/-- One call goes from one phase to another. -/
structure Moves (s s' : MutationQueues F) (n : Nat) (ph ph' : MutationPhase F.Path) : Prop where
  before : s.phaseOf n = some ph
  after : ∀ m, s'.phaseOf m = if m = n then some ph' else s.phaseOf m
  files : s'.files = s.files
  path : ∀ m, s'.pathOf m = s.pathOf m
  length : s'.calls.length = s.calls.length

variable {s s' : MutationQueues F} {n : Nat} {ph ph' : MutationPhase F.Path}

theorem fileOf_eq (s : MutationQueues F) (n : Nat) :
    s.fileOf n = (s.pathOf n).map (F.file s.files) := by
  rw [fileOf, pathOf, Option.map_map]
  rfl

theorem Moves.fileOf (h : Moves s s' n ph ph') (m : Nat) : s'.fileOf m = s.fileOf m := by
  rw [fileOf_eq, fileOf_eq, h.path, h.files]

theorem Moves.self (h : Moves s s' n ph ph') : s'.phaseOf n = some ph' := by
  rw [h.after, if_pos rfl]

variable {m : Nat}

theorem Moves.other (h : Moves s s' n ph ph') (hm : m ≠ n) :
    s'.phaseOf m = s.phaseOf m := by
  rw [h.after, if_neg hm]

theorem moves_setPhase (h : s.phaseOf n = some ph) (ph' : MutationPhase F.Path) :
    Moves s (s.setPhase n ph') n ph ph' := by
  obtain ⟨c, hc, -⟩ := Option.map_eq_some_iff.mp h
  refine ⟨h, fun m => ?_, rfl, fun m => ?_, List.length_modify _ _ _⟩
  · by_cases hm : m = n
    · subst hm
      simp [phaseOf, setPhase, hc]
    · simp [phaseOf, setPhase, Ne.symm hm, hm]
  · by_cases hm : m = n
    · subst hm
      simp [pathOf, setPhase, hc]
    · simp [pathOf, setPhase, Ne.symm hm]

/-! ## What a step does -/

theorem step_realpath (h : s.step (.realpath n) = some s') :
    (∀ m < n, ∃ ph, s.phaseOf m = some ph ∧ ph.isRegistered = true) ∧
      s'.fileMutationQueues = s.fileMutationQueues ∧ s'.started = s.started ∧
      ((∃ c key, s.calls[n]? = some c ∧ getMutationQueueKey F s.files c.filePath = .ok key ∧
          Moves s s' n .queued (.keyed key)) ∨
        Moves s s' n .queued .rejected) := by
  rw [step] at h
  split at h
  · rename_i filePath hcall
    have hphase : s.phaseOf n = some .queued := by simp [phaseOf, hcall]
    split at h
    · rename_i hall
      have hregistered : ∀ m < n, ∃ ph, s.phaseOf m = some ph ∧ ph.isRegistered = true := by
        intro m hm
        obtain ⟨hlength, -⟩ := List.getElem?_eq_some_iff.mp hcall
        obtain ⟨c, hc⟩ : ∃ c, s.calls[m]? = some c :=
          ⟨_, List.getElem?_eq_getElem (Nat.lt_trans hm hlength)⟩
        have hmem : c ∈ s.calls.take n := by
          refine List.mem_of_getElem? (i := m) ?_
          rw [List.getElem?_take_of_lt hm, hc]
        exact ⟨c.phase, by rw [phaseOf, hc]; rfl, List.all_eq_true.mp hall c hmem⟩
      split at h
      · rename_i key hkey
        obtain rfl := Option.some.inj h
        exact ⟨hregistered, rfl, rfl, .inl ⟨_, key, hcall, hkey, moves_setPhase hphase _⟩⟩
      · obtain rfl := Option.some.inj h
        exact ⟨hregistered, rfl, rfl, .inr (moves_setPhase hphase _)⟩
    · cases h
  · cases h

theorem step_register (h : s.step (.register n) = some s') :
    ∃ key, Moves s s' n (.keyed key) (.waiting key (s.fileMutationQueues.get key)) ∧
      s'.fileMutationQueues = s.fileMutationQueues.set key n ∧ s'.started = s.started := by
  rw [step] at h
  split at h
  · rename_i key hphase
    obtain rfl := Option.some.inj h
    obtain ⟨hbefore, hafter, hfiles, hpath, hlength⟩ :=
      moves_setPhase hphase (.waiting key (s.fileMutationQueues.get key))
    exact ⟨key, ⟨hbefore, hafter, hfiles, hpath, hlength⟩, rfl, rfl⟩
  · cases h

theorem step_start (h : s.step (.start n) = some s') :
    ∃ key currentQueue, s.hasResolved currentQueue = true ∧
      Moves s s' n (.waiting key currentQueue) (.running key currentQueue) ∧
      s'.fileMutationQueues = s.fileMutationQueues ∧ s'.started = s.started ++ [n] := by
  rw [step] at h
  split at h
  · rename_i key currentQueue hphase
    split at h
    · rename_i hresolved
      obtain rfl := Option.some.inj h
      obtain ⟨hbefore, hafter, hfiles, hpath, hlength⟩ := moves_setPhase hphase (.running key currentQueue)
      exact ⟨key, currentQueue, hresolved, ⟨hbefore, hafter, hfiles, hpath, hlength⟩, rfl, rfl⟩
    · cases h
  · cases h

theorem step_finish {threw : Bool} (h : s.step (.finish n threw) = some s') :
    ∃ key currentQueue,
      Moves s s' n (.running key currentQueue) (.settled key currentQueue threw false) ∧
      s'.fileMutationQueues =
        (if s.fileMutationQueues.get key = some n then s.fileMutationQueues.delete key
        else s.fileMutationQueues) ∧ s'.started = s.started := by
  rw [step] at h
  split at h
  · rename_i key currentQueue hphase
    obtain rfl := Option.some.inj h
    obtain ⟨hbefore, hafter, hfiles, hpath, hlength⟩ :=
      moves_setPhase hphase (.settled key currentQueue threw false)
    exact ⟨key, currentQueue, ⟨hbefore, hafter, hfiles, hpath, hlength⟩, rfl, rfl⟩
  · cases h

theorem step_chain (h : s.step (.chain n) = some s') :
    ∃ key currentQueue threw, s.hasResolved currentQueue = true ∧
      Moves s s' n (.settled key currentQueue threw false)
        (.settled key currentQueue threw true) ∧
      s'.fileMutationQueues = s.fileMutationQueues ∧ s'.started = s.started := by
  rw [step] at h
  split at h
  · rename_i key currentQueue threw hphase
    split at h
    · rename_i hresolved
      obtain rfl := Option.some.inj h
      exact ⟨key, currentQueue, threw, hresolved, moves_setPhase hphase _, rfl, rfl⟩
    · cases h
  · cases h

/-! ## The chain of a key -/

/-- The calls are registered in their order. The map has the last call that
was given a key until its callback has settled, and that call waits for the
last one before it; so a callback only runs when all before it have settled,
and it runs once. -/
structure Ordered (s : MutationQueues F) : Prop where
  fifo : ∀ {m n ph}, m < n → s.phaseOf n = some ph → ph ≠ .queued →
    ∃ ph', s.phaseOf m = some ph' ∧ ph'.isRegistered = true
  last : ∀ {key n}, s.fileMutationQueues.get key = some n →
    s.Holds n key ∧ ¬ s.Over n ∧ ∀ m, s.Holds m key → m ≤ n
  free : ∀ {key}, s.fileMutationQueues.get key = none → ∀ m, s.Holds m key → s.Over m
  link : ∀ {n key currentQueue}, s.placeOf n = some (key, currentQueue) →
    (∀ m, currentQueue = some m → m < n ∧ s.Holds m key) ∧
      ∀ m < n, s.Holds m key → s.Over m ∨ ∃ l, currentQueue = some l ∧ m ≤ l
  ran : ∀ {n ph key currentQueue}, s.phaseOf n = some ph → ph.hasRun = true →
    ph.place = some (key, currentQueue) →
    s.hasResolved currentQueue = true ∧ ∀ m < n, s.Holds m key → s.Over m
  once : ∀ n, s.started.count n = if (s.phaseOf n).any (·.hasRun) then 1 else 0

theorem ordered_start (files : F.State) : (start files).Ordered where
  fifo := fun _ h => (nomatch h)
  last := fun h => (nomatch h)
  free := fun _ _ h => (nomatch h.choose_spec)
  link := fun h => (nomatch h)
  ran := fun h => (nomatch h)
  once := fun _ => rfl

theorem Over.of_phase (h : s.phaseOf n = some ph) (hover : ph.isOver = true) : s.Over n := by
  rw [Over, h]
  exact hover

variable {key : F.Path} {currentQueue : Option Nat}

theorem Holds.of_phase (h : s.phaseOf n = some ph) (hplace : ph.place = some (key, currentQueue)) :
    s.Holds n key :=
  ⟨currentQueue, by rw [placeOf, h]; exact hplace⟩

section

variable (h : Moves s s' n ph ph')
include h

theorem Moves.holds :
    s'.Holds m key ↔ if m = n then ∃ cq, ph'.place = some (key, cq) else s.Holds m key := by
  unfold Holds placeOf
  by_cases hm : m = n
  · rw [hm, h.self, if_pos rfl]
    rfl
  · rw [h.other hm, if_neg hm]

theorem Moves.holds_same (hplace : ph'.place = ph.place) :
    s'.Holds m key ↔ s.Holds m key := by
  rw [h.holds]
  by_cases hm : m = n
  · rw [if_pos hm, hm, hplace, Holds, placeOf, h.before]
    rfl
  · rw [if_neg hm]

theorem Moves.over :
    s'.Over m ↔ if m = n then ph'.isOver = true else s.Over m := by
  unfold Over
  by_cases hm : m = n
  · rw [hm, h.self, if_pos rfl]
    rfl
  · rw [h.other hm, if_neg hm]

theorem Moves.over_of_over (hkeep : ph.isOver = true → ph'.isOver = true) (hm : s.Over m) :
    s'.Over m := by
  rw [h.over]
  split
  · rename_i heq
    rw [heq, Over, h.before] at hm
    exact hkeep hm
  · exact hm

theorem Moves.hasResolved (hkeep : ph.isChained = true → ph'.isChained = true)
    (hresolved : s.hasResolved currentQueue = true) : s'.hasResolved currentQueue = true := by
  cases currentQueue with
  | none => rfl
  | some m =>
    rw [MutationQueues.hasResolved] at hresolved ⊢
    rw [h.after]
    split
    · rename_i heq
      rw [heq, h.before] at hresolved
      exact hkeep hresolved
    · exact hresolved

end

theorem Ordered.fifo_moves (h : s.Ordered) (hmoves : Moves s s' n ph ph')
    (hlater : ph = .queued → ∀ m < n, ∃ ph, s.phaseOf m = some ph ∧ ph.isRegistered = true)
    (hkeep : ph.isRegistered = true → ph'.isRegistered = true) {m k : Nat}
    {ph₁ : MutationPhase F.Path} (hlt : m < k) (hk : s'.phaseOf k = some ph₁)
    (hne : ph₁ ≠ .queued) : ∃ ph', s'.phaseOf m = some ph' ∧ ph'.isRegistered = true := by
  have hbefore : ∃ ph, s.phaseOf m = some ph ∧ ph.isRegistered = true := by
    by_cases hkn : k = n
    · subst hkn
      by_cases hqueued : ph = .queued
      · exact hlater hqueued m hlt
      · exact h.fifo hlt hmoves.before hqueued
    · rw [hmoves.other hkn] at hk
      exact h.fifo hlt hk hne
  obtain ⟨ph₂, hph₂, hregistered⟩ := hbefore
  by_cases hmn : m = n
  · subst hmn
    obtain rfl := Option.some.inj (hmoves.before.symm.trans hph₂)
    exact ⟨ph', hmoves.self, hkeep hregistered⟩
  · exact ⟨ph₂, (hmoves.other hmn).trans hph₂, hregistered⟩

theorem placeOf_iff :
    s.placeOf n = some (key, currentQueue) ↔
      ∃ ph, s.phaseOf n = some ph ∧ ph.place = some (key, currentQueue) :=
  Option.bind_eq_some_iff

theorem Moves.placeOf (h : Moves s s' n ph ph') (hplace : ph'.place = ph.place) (m : Nat) :
    s'.placeOf m = s.placeOf m := by
  unfold MutationQueues.placeOf
  by_cases hm : m = n
  · rw [hm, h.self, h.before]
    exact hplace
  · rw [h.other hm]

section

variable (h : s.Ordered)
include h

theorem Ordered.same_place (hmoves : Moves s s' n ph ph') (hplace : ph'.place = ph.place)
    (hlater : ph = .queued → ∀ m < n, ∃ ph, s.phaseOf m = some ph ∧ ph.isRegistered = true)
    (hregistered : ph.isRegistered = true → ph'.isRegistered = true)
    (hover : ph.isOver = true → ph'.isOver = true)
    (hchained : ph.isChained = true → ph'.isChained = true)
    (hlast : ∀ {key m}, s'.fileMutationQueues.get key = some m → s.fileMutationQueues.get key = some m ∧ (m = n → ph'.isOver = false))
    (hfree : ∀ {key}, s'.fileMutationQueues.get key = none → ∀ m, s.Holds m key → s'.Over m)
    (hran : ∀ {key currentQueue}, ph'.hasRun = true → ph.place = some (key, currentQueue) → s.hasResolved currentQueue = true ∧ ∀ m < n, s.Holds m key → s.Over m)
    (honce : ∀ m, s'.started.count m = if (s'.phaseOf m).any (·.hasRun) then 1 else 0) :
    s'.Ordered where
  fifo := h.fifo_moves hmoves hlater hregistered
  last := by
    intro key m hm
    obtain ⟨hget, hopen⟩ := hlast hm
    obtain ⟨hholds, hnot, hmax⟩ := h.last hget
    refine ⟨(hmoves.holds_same hplace).mpr hholds, fun hm' => ?_,
      fun k hk => hmax k ((hmoves.holds_same hplace).mp hk)⟩
    rw [hmoves.over] at hm'
    split at hm'
    · rename_i heq
      rw [hopen heq] at hm'
      cases hm'
    · exact hnot hm'
  free := fun hget m hm => hfree hget m ((hmoves.holds_same hplace).mp hm)
  link := by
    intro k key currentQueue hk
    rw [hmoves.placeOf hplace] at hk
    obtain ⟨hwaits, hbefore⟩ := h.link hk
    refine ⟨fun m hm => ?_, fun m hm hholds => ?_⟩
    · obtain ⟨hlt, hholds⟩ := hwaits m hm
      exact ⟨hlt, (hmoves.holds_same hplace).mpr hholds⟩
    · exact (hbefore m hm ((hmoves.holds_same hplace).mp hholds)).imp_left
        (hmoves.over_of_over hover)
  ran := by
    intro k ph₁ key currentQueue hk hrun hp
    have hold : s.hasResolved currentQueue = true ∧ ∀ m < k, s.Holds m key → s.Over m := by
      by_cases hkn : k = n
      · subst hkn
        obtain rfl := Option.some.inj (hmoves.self.symm.trans hk)
        exact hran hrun (hplace ▸ hp)
      · rw [hmoves.other hkn] at hk
        exact h.ran hk hrun hp
    refine ⟨hmoves.hasResolved hchained hold.1, fun m hm hholds => ?_⟩
    exact hmoves.over_of_over hover (hold.2 m hm ((hmoves.holds_same hplace).mp hholds))
  once := honce

theorem Ordered.once_same (hmoves : Moves s s' n ph ph') (hrun : ph'.hasRun = ph.hasRun)
    (hstarted : s'.started = s.started) (m : Nat) :
    s'.started.count m = if (s'.phaseOf m).any (·.hasRun) then 1 else 0 := by
  rw [hstarted, h.once, hmoves.after]
  by_cases hm : m = n
  · rw [if_pos hm, hm, hmoves.before]
    simp [hrun]
  · rw [if_neg hm]

theorem Ordered.realpath (hstep : s.step (.realpath n) = some s') :
    s'.Ordered := by
  obtain ⟨hbefore, hmap, hstarted, hmoves⟩ := step_realpath hstep
  have hcase : ∃ ph', Moves s s' n .queued ph' ∧ ph'.place = none ∧ ph'.hasRun = false := by
    obtain ⟨-, key, -, -, hkeyed⟩ | hrejected := hmoves
    · exact ⟨_, hkeyed, rfl, rfl⟩
    · exact ⟨_, hrejected, rfl, rfl⟩
  obtain ⟨ph', hmove, hplace, hrun⟩ := hcase
  refine h.same_place hmove hplace (fun _ => hbefore) (fun hr => nomatch hr)
    (fun hr => nomatch hr) (fun hr => nomatch hr) (fun {key m} hm => ?_) (fun {key} hget m hm => ?_)
    (fun hr => ?_) (h.once_same hmove hrun hstarted)
  · rw [hmap] at hm
    refine ⟨hm, fun heq => ?_⟩
    obtain ⟨⟨cq, hcq⟩, -⟩ := h.last hm
    rw [heq, MutationQueues.placeOf, hmove.before] at hcq
    cases hcq
  · rw [hmap] at hget
    exact hmove.over_of_over (fun hr => nomatch hr) (h.free hget m hm)
  · rw [hrun] at hr
    cases hr

/-- The call that is to be started next waits for no one. -/
theorem Ordered.before_start (hplace : s.placeOf n = some (key, currentQueue))
    (hresolved : s.hasResolved currentQueue = true) : ∀ m < n, s.Holds m key → s.Over m := by
  intro m hm hholds
  obtain ⟨hwaits, hbefore⟩ := h.link hplace
  obtain hover | ⟨l, rfl, hle⟩ := hbefore m hm hholds
  · exact hover
  · -- the one before it has settled, and so have all before that one
    rw [MutationQueues.hasResolved] at hresolved
    obtain ⟨ph, hph, hchained⟩ := (Option.any_eq_true _ _).mp hresolved
    obtain ⟨-, lq, hlq⟩ := hwaits l rfl
    have hlplace : ph.place = some (key, lq) := by
      rw [MutationQueues.placeOf, hph] at hlq
      exact hlq
    cases ph with
    | settled k q threw chained =>
      obtain rfl | hlt := Nat.eq_or_lt_of_le hle
      · exact .of_phase hph rfl
      · exact (h.ran hph rfl hlplace).2 m hlt hholds
    | _ => cases hchained

theorem Ordered.start (hstep : s.step (.start n) = some s') : s'.Ordered := by
  obtain ⟨key, currentQueue, hresolved, hmoves, hmap, hstarted⟩ := step_start hstep
  have hplace : s.placeOf n = some (key, currentQueue) := placeOf_iff.mpr ⟨_, hmoves.before, rfl⟩
  refine h.same_place hmoves rfl (fun hq => nomatch hq) (fun _ => rfl) (fun hr => nomatch hr)
    (fun hr => nomatch hr) (fun {k m} hm => ⟨hmap ▸ hm, fun _ => rfl⟩) (fun {k} hget m hm => ?_)
    (fun {k q} _ hp => ?_) (fun m => ?_)
  · rw [hmap] at hget
    exact hmoves.over_of_over (fun hr => nomatch hr) (h.free hget m hm)
  · cases hp
    exact ⟨hresolved, h.before_start hplace hresolved⟩
  · rw [hstarted, List.count_append, h.once, hmoves.after]
    by_cases hm : m = n
    · rw [if_pos hm, hm, hmoves.before]
      simp [MutationPhase.hasRun]
    · rw [if_neg hm]
      simp [Ne.symm hm]

theorem Ordered.finish {threw : Bool} (hstep : s.step (.finish n threw) = some s') :
    s'.Ordered := by
  obtain ⟨key, currentQueue, hmoves, hmap, hstarted⟩ := step_finish hstep
  have hran := h.ran hmoves.before rfl rfl
  have hself : s'.Over n := .of_phase hmoves.self rfl
  have hplace : s.placeOf n = some (key, currentQueue) := placeOf_iff.mpr ⟨_, hmoves.before, rfl⟩
  refine h.same_place hmoves rfl (fun hq => nomatch hq) (fun _ => rfl) (fun hr => nomatch hr)
    (fun hr => nomatch hr) (fun {k m} hm => ?_) (fun {k} hget m hm => ?_)
    (fun {k q} _ hp => ?_) (h.once_same hmoves rfl hstarted)
  · have hold : s.fileMutationQueues.get k = some m ∧ m ≠ n := by
      rw [hmap] at hm
      split at hm
      · rename_i hown
        rw [OrdMap.get_delete] at hm
        split at hm
        · cases hm
        · rename_i hk
          refine ⟨hm, fun heq => ?_⟩
          obtain ⟨⟨q, hq⟩, -⟩ := h.last hm
          rw [heq, hplace] at hq
          cases hq
          exact hk rfl
      · rename_i hother
        refine ⟨hm, fun heq => ?_⟩
        obtain ⟨⟨q, hq⟩, -⟩ := h.last hm
        rw [heq, hplace] at hq
        cases hq
        exact hother (heq ▸ hm)
    exact ⟨hold.1, fun heq => absurd heq hold.2⟩
  · rw [hmap] at hget
    by_cases hmn : m = n
    · rw [hmn]
      exact hself
    · refine hmoves.over_of_over (fun hr => nomatch hr) ?_
      split at hget
      · rename_i hown
        rw [OrdMap.get_delete] at hget
        split at hget
        · -- the last call with this key: all others came before it
          rename_i hk
          subst hk
          have hle := (h.last hown).2.2 m hm
          exact hran.2 m (by omega) hm
        · exact h.free hget m hm
      · exact h.free hget m hm
  · cases hp
    exact hran

theorem Ordered.chain (hstep : s.step (.chain n) = some s') : s'.Ordered := by
  obtain ⟨key, currentQueue, threw, -, hmoves, hmap, hstarted⟩ := step_chain hstep
  refine h.same_place hmoves rfl (fun hq => nomatch hq) (fun _ => rfl) (fun _ => rfl)
    (fun hr => nomatch hr) (fun {k m} hm => ?_) (fun {k} hget m hm => ?_) (fun {k q} _ hp => ?_)
    (h.once_same hmoves rfl hstarted)
  · rw [hmap] at hm
    refine ⟨hm, fun heq => absurd (Over.of_phase (hmoves.before) rfl) (heq ▸ (h.last hm).2.1)⟩
  · rw [hmap] at hget
    exact hmoves.over_of_over (fun _ => rfl) (h.free hget m hm)
  · cases hp
    exact h.ran hmoves.before rfl rfl

theorem Ordered.register (hstep : s.step (.register n) = some s') :
    s'.Ordered := by
  obtain ⟨key, hmoves, hmap, hstarted⟩ := step_register hstep
  -- calls after this one are still queued
  have hholdsLt : ∀ {m k}, s.Holds m k → m < n := by
    intro m k hm
    obtain ⟨q, hq⟩ := hm
    obtain ⟨ph, hph, hplace⟩ := placeOf_iff.mp hq
    by_contra hle
    obtain heq | hlt := Nat.eq_or_lt_of_le (Nat.not_lt.mp hle)
    · rw [heq] at hmoves
      obtain rfl := Option.some.inj (hmoves.before.symm.trans hph)
      cases hplace
    · have hne : ph ≠ .queued := fun hqueued => by rw [hqueued] at hplace; cases hplace
      obtain ⟨ph', hph', hregistered⟩ := h.fifo hlt hph hne
      obtain rfl := Option.some.inj (hmoves.before.symm.trans hph')
      cases hregistered
  have hholds : ∀ {m k}, s'.Holds m k ↔ (m = n ∧ k = key) ∨ s.Holds m k := by
    intro m k
    rw [hmoves.holds]
    split
    · rename_i heq
      constructor
      · rintro ⟨q, hq⟩
        cases hq
        exact .inl ⟨heq, rfl⟩
      · rintro (⟨-, rfl⟩ | hm)
        · exact ⟨_, rfl⟩
        · exact absurd (hholdsLt hm) (by omega)
    · rename_i hne
      exact ⟨.inr, fun hor => hor.resolve_left fun hand => hne hand.1⟩
  have hover : ∀ {m}, s'.Over m ↔ s.Over m := by
    intro m
    rw [hmoves.over]
    split
    · rename_i heq
      rw [heq, Over, hmoves.before]
      exact ⟨fun hr => (by cases hr), fun hr => (by cases hr)⟩
    · exact Iff.rfl
  have hresolve : ∀ {q}, s.hasResolved q = true → s'.hasResolved q = true :=
    hmoves.hasResolved fun hr => by cases hr
  refine ⟨fun hlt hk hne => h.fifo_moves hmoves (fun hq => by cases hq) (fun _ => rfl) hlt hk hne,
    fun {k m} hm => ?_, fun {k} hget m hm => ?_, fun {k k' q} hk => ?_,
    fun {k ph k' q} hk hrun hp => ?_, h.once_same hmoves rfl hstarted⟩
  · rw [hmap, OrdMap.get_set] at hm
    split at hm
    · rename_i hkey
      obtain rfl := Option.some.inj hm
      refine ⟨hholds.mpr (.inl ⟨rfl, hkey⟩), fun hr => ?_, fun m hm => ?_⟩
      · rw [hmoves.over, if_pos rfl] at hr
        cases hr
      · obtain ⟨rfl, -⟩ | hold := hholds.mp hm
        · exact Nat.le_refl _
        · exact Nat.le_of_lt (hholdsLt hold)
    · rename_i hkey
      obtain ⟨hold, hnot, hmax⟩ := h.last hm
      refine ⟨hholds.mpr (.inr hold), fun hr => hnot (hover.mp hr), fun m' hm' => ?_⟩
      obtain ⟨-, hk⟩ | hold' := hholds.mp hm'
      · exact absurd hk hkey
      · exact hmax m' hold'
  · rw [hmap, OrdMap.get_set] at hget
    split at hget
    · cases hget
    · rename_i hkey
      obtain ⟨-, hk⟩ | hold := hholds.mp hm
      · exact absurd hk hkey
      · exact hover.mpr (h.free hget m hold)
  · by_cases hkn : k = n
    · subst hkn
      have hplace : k' = key ∧ q = s.fileMutationQueues.get key := by
        rw [MutationQueues.placeOf, hmoves.self] at hk
        cases hk
        exact ⟨rfl, rfl⟩
      obtain ⟨rfl, rfl⟩ := hplace
      refine ⟨fun m hm => ?_, fun m hm hm' => ?_⟩
      · obtain ⟨hold, -⟩ := h.last hm
        exact ⟨hholdsLt hold, hholds.mpr (.inr hold)⟩
      · have hold := (hholds.mp hm').resolve_left fun hand => by omega
        cases hget : s.fileMutationQueues.get k' with
        | none => exact .inl (hover.mpr (h.free hget m hold))
        | some l => exact .inr ⟨l, rfl, (h.last hget).2.2 m hold⟩
    · have hk' : s.placeOf k = some (k', q) := by
        rw [MutationQueues.placeOf, hmoves.other hkn] at hk
        exact hk
      have hkn' := hholdsLt ⟨q, hk'⟩
      obtain ⟨hwaits, hbefore⟩ := h.link hk'
      refine ⟨fun m hm => ?_, fun m hm hm' => ?_⟩
      · obtain ⟨hlt, hold⟩ := hwaits m hm
        exact ⟨hlt, hholds.mpr (.inr hold)⟩
      · have hold := (hholds.mp hm').resolve_left fun hand => by omega
        exact (hbefore m hm hold).imp_left hover.mpr
  · by_cases hkn : k = n
    · subst hkn
      obtain rfl := Option.some.inj (hmoves.self.symm.trans hk)
      cases hrun
    · rw [hmoves.other hkn] at hk
      obtain ⟨hresolved, hbefore⟩ := h.ran hk hrun hp
      have hkn' := hholdsLt (.of_phase hk hp)
      refine ⟨hresolve hresolved, fun m hm hm' => ?_⟩
      have hold := (hholds.mp hm').resolve_left fun hand => by omega
      exact hover.mpr (hbefore m hm hold)

end

theorem phaseOf_call (s : MutationQueues F) (filePath : String) (m : Nat) :
    ({ s with calls := s.calls ++ [⟨filePath, .queued⟩] } : MutationQueues F).phaseOf m =
      if m = s.calls.length then some .queued else s.phaseOf m := by
  unfold phaseOf
  rw [List.getElem?_append]
  split
  · rw [if_neg (by omega)]
  · split
    · rename_i heq
      simp [heq]
    · rename_i hle hne
      rw [List.getElem?_eq_none (by simp; omega), List.getElem?_eq_none (by omega)]

theorem phaseOf_length (s : MutationQueues F) : s.phaseOf s.calls.length = none := by
  rw [phaseOf, List.getElem?_eq_none (Nat.le_refl _)]
  rfl

theorem Ordered.call (h : s.Ordered) (filePath : String)
    (hcalls : s' = { s with calls := s.calls ++ [⟨filePath, .queued⟩] }) : s'.Ordered := by
  have hphase : ∀ m, s'.phaseOf m = if m = s.calls.length then some .queued else s.phaseOf m :=
    fun m => hcalls ▸ phaseOf_call s filePath m
  have hnone := s.phaseOf_length
  have hmap : s'.fileMutationQueues = s.fileMutationQueues := by rw [hcalls]
  have hplace : ∀ m, s'.placeOf m = s.placeOf m := by
    intro m
    unfold placeOf
    rw [hphase]
    split
    · rename_i heq
      rw [heq, hnone]
      rfl
    · rfl
  have hany : ∀ (f : MutationPhase F.Path → Bool), f .queued = false → ∀ m,
      (s'.phaseOf m).any f = (s.phaseOf m).any f := by
    intro f hf m
    rw [hphase]
    split
    · rename_i heq
      rw [heq, hnone]
      exact hf
    · rfl
  have hholds : ∀ {m k}, s'.Holds m k ↔ s.Holds m k := by
    intro m k
    rw [Holds, Holds, hplace]
  have hover : ∀ {m}, s'.Over m ↔ s.Over m := by
    intro m
    rw [Over, Over, hany _ rfl]
  have hresolved : ∀ q, s'.hasResolved q = s.hasResolved q := by
    intro q
    cases q with
    | none => rfl
    | some m => exact hany _ rfl m
  refine ⟨fun {m k ph} hlt hk hne => ?_, fun hm => ?_, fun hget m hm => ?_, fun {k k' q} hk => ?_,
    fun {k ph k' q} hk hrun hp => ?_, fun m => ?_⟩
  · rw [hphase] at hk
    split at hk
    · exact absurd (Option.some.inj hk).symm hne
    · obtain ⟨ph', hph', hregistered⟩ := h.fifo hlt hk hne
      refine ⟨ph', ?_, hregistered⟩
      rw [hphase, if_neg, hph']
      intro heq
      rw [heq, hnone] at hph'
      cases hph'
  · rw [hmap] at hm
    obtain ⟨hold, hnot, hmax⟩ := h.last hm
    exact ⟨hholds.mpr hold, fun hr => hnot (hover.mp hr), fun m hm => hmax m (hholds.mp hm)⟩
  · rw [hmap] at hget
    exact hover.mpr (h.free hget m (hholds.mp hm))
  · rw [hplace] at hk
    obtain ⟨hwaits, hbefore⟩ := h.link hk
    exact ⟨fun m hm => ⟨(hwaits m hm).1, hholds.mpr (hwaits m hm).2⟩,
      fun m hm hold => (hbefore m hm (hholds.mp hold)).imp_left hover.mpr⟩
  · rw [hphase] at hk
    split at hk
    · obtain rfl := Option.some.inj hk
      cases hrun
    · obtain ⟨hres, hbefore⟩ := h.ran hk hrun hp
      exact ⟨(hresolved q).trans hres,
        fun m hm hold => hover.mpr (hbefore m hm (hholds.mp hold))⟩
  · rw [hany _ rfl, ← h.once, hcalls]

variable {a : MutationAction F}

theorem Ordered.step (h : s.Ordered) (hstep : s.step a = some s') :
    s'.Ordered := by
  cases a with
  | call filePath => exact h.call filePath (Option.some.inj hstep).symm
  | changeFiles files =>
    obtain rfl := Option.some.inj hstep
    exact ⟨h.fifo, h.last, h.free, h.link, h.ran, h.once⟩
  | realpath n => exact h.realpath hstep
  | register n => exact h.register hstep
  | start n => exact h.start hstep
  | finish n threw => exact h.finish hstep
  | chain n => exact h.chain hstep

/-! ## Keys and files -/

/-- What the condition asks of a step: a change of the files leaves what the
paths of calls with a key lead to, and `realpath` gives a call the key that
calls for the same file have, as long as those are not over. -/
def KeysAgree (s : MutationQueues F) : MutationAction F → Prop
  | .changeFiles files => ∀ c ∈ s.calls, c.phase.openKey ≠ none →
      F.file files (F.resolve c.filePath) = F.file s.files (F.resolve c.filePath)
  | .realpath n => ∀ c ∈ s.calls[n]?, ∀ d ∈ s.calls, ∀ key ∈ d.phase.openKey,
      F.file s.files (F.resolve d.filePath) = F.file s.files (F.resolve c.filePath) →
      ∀ key' ∈ (getMutationQueueKey F s.files c.filePath).toOption, key = key'
  | _ => True

instance (s : MutationQueues F) : ∀ a, Decidable (s.KeysAgree a)
  | .changeFiles _ => inferInstanceAs (Decidable (∀ c ∈ s.calls, _))
  | .realpath _ => inferInstanceAs (Decidable (∀ c ∈ s.calls[_]?, _))
  | .call _ | .register _ | .start _ | .finish .. | .chain _ => inferInstanceAs (Decidable True)

def LinksStay (s : MutationQueues F) : MutationAction F → Prop
  | .changeFiles files => ∀ c ∈ s.calls, c.phase.openKey ≠ none →
      F.file files (F.resolve c.filePath) = F.file s.files (F.resolve c.filePath)
  | _ => True

def Keyed (s : MutationQueues F) : Prop :=
  ∀ n key, s.openKeyOf n = some key → s.fileOf n = some key ∨ s.pathOf n = some key

def OneKey (s : MutationQueues F) : Prop :=
  ∀ m n key key', s.openKeyOf m = some key → s.openKeyOf n = some key' →
    s.fileOf m = s.fileOf n → key = key'

theorem openKeyOf_iff :
    s.openKeyOf n = some key ↔ ∃ ph, s.phaseOf n = some ph ∧ ph.openKey = some key :=
  Option.bind_eq_some_iff

theorem openKeyOf_call :
    s.openKeyOf n = some key ↔ ∃ c, s.calls[n]? = some c ∧ c.phase.openKey = some key := by
  rw [openKeyOf, phaseOf, Option.bind_map, Option.bind_eq_some_iff]
  rfl

theorem Moves.openKeyOf (h : Moves s s' n ph ph')
    (hkey : ∀ key, ph'.openKey = some key → ph.openKey = some key)
    (hm : s'.openKeyOf m = some key) : s.openKeyOf m = some key := by
  obtain ⟨ph₁, hph, hopen⟩ := openKeyOf_iff.mp hm
  by_cases hmn : m = n
  · subst hmn
    obtain rfl := Option.some.inj (h.self.symm.trans hph)
    exact openKeyOf_iff.mpr ⟨_, h.before, hkey _ hopen⟩
  · rw [h.other hmn] at hph
    exact openKeyOf_iff.mpr ⟨_, hph, hopen⟩

/-- A key is given by an answer of `realpath`, and kept until the call is
over. -/
theorem step_openKey (hstep : s.step a = some s') (hm : s'.openKeyOf m = some key) :
    s'.pathOf m = s.pathOf m ∧
      (s.openKeyOf m = some key ∨
        ∃ c, a = .realpath m ∧ s.calls[m]? = some c ∧
          getMutationQueueKey F s.files c.filePath = .ok key) := by
  cases a with
  | call filePath =>
    obtain rfl := Option.some.inj hstep
    obtain ⟨ph, hph, hopen⟩ := openKeyOf_iff.mp hm
    rw [phaseOf_call] at hph
    split at hph
    · obtain rfl := Option.some.inj hph
      cases hopen
    · refine ⟨?_, .inl (openKeyOf_iff.mpr ⟨ph, hph, hopen⟩)⟩
      obtain ⟨c, hc, -⟩ := Option.map_eq_some_iff.mp hph
      have hlt := (List.getElem?_eq_some_iff.mp hc).1
      rw [pathOf, pathOf, List.getElem?_append_left hlt]
  | changeFiles files =>
    obtain rfl := Option.some.inj hstep
    exact ⟨rfl, .inl hm⟩
  | realpath n =>
    obtain ⟨-, -, -, ⟨c, key', hc, hkey, hmoves⟩ | hmoves⟩ := step_realpath hstep
    · refine ⟨hmoves.path m, ?_⟩
      by_cases hmn : m = n
      · subst hmn
        rw [MutationQueues.openKeyOf, hmoves.self] at hm
        cases hm
        exact .inr ⟨c, rfl, hc, hkey⟩
      · rw [MutationQueues.openKeyOf, hmoves.other hmn] at hm
        exact .inl hm
    · exact ⟨hmoves.path m, .inl (hmoves.openKeyOf (fun _ hk => nomatch hk) hm)⟩
  | register n =>
    obtain ⟨key', hmoves, -⟩ := step_register hstep
    exact ⟨hmoves.path m, .inl (hmoves.openKeyOf (fun _ hk => hk) hm)⟩
  | start n =>
    obtain ⟨key', q, -, hmoves, -⟩ := step_start hstep
    exact ⟨hmoves.path m, .inl (hmoves.openKeyOf (fun _ hk => hk) hm)⟩
  | finish n threw =>
    obtain ⟨key', q, hmoves, -⟩ := step_finish hstep
    exact ⟨hmoves.path m, .inl (hmoves.openKeyOf (fun _ hk => nomatch hk) hm)⟩
  | chain n =>
    obtain ⟨key', q, threw, -, hmoves, -⟩ := step_chain hstep
    exact ⟨hmoves.path m, .inl (hmoves.openKeyOf (fun _ hk => nomatch hk) hm)⟩

theorem LinksStay.fileOf (hok : s.LinksStay a) (hstep : s.step a = some s')
    (hpath : s'.pathOf m = s.pathOf m)
    (hm : (∃ key, s.openKeyOf m = some key) ∨ ∃ n, a = .realpath n) :
    s'.fileOf m = s.fileOf m := by
  have hfiles : (∃ files, a = .changeFiles files) ∨ s'.files = s.files := by
    cases a with
    | call filePath =>
      obtain rfl := Option.some.inj hstep
      exact .inr rfl
    | changeFiles files => exact .inl ⟨files, rfl⟩
    | realpath n =>
      obtain ⟨-, -, -, ⟨c, key', -, -, hmoves⟩ | hmoves⟩ := step_realpath hstep
      · exact .inr hmoves.files
      · exact .inr hmoves.files
    | register n => exact .inr (step_register hstep).choose_spec.1.files
    | start n =>
      obtain ⟨key', q, -, hmoves, -⟩ := step_start hstep
      exact .inr hmoves.files
    | finish n threw =>
      obtain ⟨key', q, hmoves, -⟩ := step_finish hstep
      exact .inr hmoves.files
    | chain n =>
      obtain ⟨key', q, threw, -, hmoves, -⟩ := step_chain hstep
      exact .inr hmoves.files
  obtain ⟨files, rfl⟩ | hfiles := hfiles
  · obtain ⟨key, hopen⟩ | ⟨n, hn⟩ := hm
    · obtain rfl := Option.some.inj hstep
      rw [fileOf_eq, fileOf_eq, hpath]
      obtain ⟨c, hc, hkey⟩ := openKeyOf_call.mp hopen
      have hfile := hok c (List.mem_of_getElem? hc) (by rw [hkey]; exact Option.some_ne_none key)
      rw [pathOf, hc]
      exact congrArg some hfile
    · cases hn
  · rw [fileOf_eq, fileOf_eq, hpath, hfiles]

theorem getMutationQueueKey_cases {files : F.State} {filePath : String}
    (h : getMutationQueueKey F files filePath = .ok key) :
    F.file files (F.resolve filePath) = key ∨ F.resolve filePath = key := by
  rw [getMutationQueueKey] at h
  split at h
  · rename_i path hpath
    cases h
    exact .inl (F.file_of_realpath hpath)
  · split at h
    · cases h
      exact .inr rfl
    · cases h

theorem Keyed.step (h : s.Keyed) (hok : s.LinksStay a) (hstep : s.step a = some s') : s'.Keyed := by
  intro m key hm
  obtain ⟨hpath, hold | ⟨c, ha, hc, hkey⟩⟩ := step_openKey hstep hm
  · rw [hok.fileOf hstep hpath (.inl ⟨key, hold⟩), hpath]
    exact h m key hold
  · rw [hok.fileOf hstep hpath (.inr ⟨m, ha⟩), hpath, fileOf_eq, pathOf, hc]
    exact (getMutationQueueKey_cases hkey).imp (congrArg some) (congrArg some)

theorem KeysAgree.linksStay (h : s.KeysAgree a) : s.LinksStay a := by
  cases a with
  | changeFiles files => exact h
  | _ => trivial

theorem OneKey.step (h : s.OneKey) (hok : s.KeysAgree a) (hstep : s.step a = some s') :
    s'.OneKey := by
  intro m n key key' hm hn hfile
  have hlinks := hok.linksStay
  obtain ⟨hpathm, holdm⟩ := step_openKey hstep hm
  obtain ⟨hpathn, holdn⟩ := step_openKey hstep hn
  have hfilem : s'.fileOf m = s.fileOf m :=
    hlinks.fileOf hstep hpathm (holdm.imp (fun hopen => ⟨key, hopen⟩) fun hc =>
      ⟨m, hc.choose_spec.1⟩)
  have hfilen : s'.fileOf n = s.fileOf n :=
    hlinks.fileOf hstep hpathn (holdn.imp (fun hopen => ⟨key', hopen⟩) fun hc =>
      ⟨n, hc.choose_spec.1⟩)
  rw [hfilem, hfilen] at hfile
  obtain hm' | ⟨c, ha, hc, hkey⟩ := holdm
  · obtain hn' | ⟨d, rfl, hd, hkey'⟩ := holdn
    · exact h m n key key' hm' hn' hfile
    · obtain ⟨c, hc, hopen⟩ := openKeyOf_call.mp hm'
      rw [MutationQueues.fileOf, MutationQueues.fileOf, hc, hd] at hfile
      exact hok d hd c (List.mem_of_getElem? hc) key hopen (Option.some.inj hfile) key'
        (by rw [hkey']; rfl)
  · subst ha
    obtain hn' | ⟨d, hd', hd, hkey'⟩ := holdn
    · obtain ⟨d, hd, hopen⟩ := openKeyOf_call.mp hn'
      rw [MutationQueues.fileOf, MutationQueues.fileOf, hc, hd] at hfile
      exact (hok c hc d (List.mem_of_getElem? hd) key' hopen (Option.some.inj hfile).symm key
        (by rw [hkey]; rfl)).symm
    · cases hd'
      obtain rfl := Option.some.inj (hc.symm.trans hd)
      exact Except.ok.inj (hkey.symm.trans hkey')

theorem Keyed.sameFile (h : s.Keyed) {m n : Nat} (hm : s.openKeyOf m = some key)
    (hn : s.openKeyOf n = some key) :
    s.fileOf m = s.fileOf n := by
  have hfile : ∀ {k}, s.openKeyOf k = some key → s.fileOf k = some (F.file s.files key) := by
    intro k hk
    obtain ⟨ph, hph, -⟩ := openKeyOf_iff.mp hk
    obtain ⟨c, hc, -⟩ := Option.map_eq_some_iff.mp hph
    obtain hfile | hpath := h k key hk
    · have hkey : F.file s.files (F.resolve c.filePath) = key := by
        rw [MutationQueues.fileOf, hc] at hfile
        exact Option.some.inj hfile
      rw [hfile, ← hkey, F.file_file]
    · rw [fileOf_eq, hpath]
      rfl
  rw [hfile hm, hfile hn]

/-! ## Progress -/

/-- A step of the queues alone: no callback settles, and nothing comes from
outside. -/
def IsQuiet : MutationAction F → Prop
  | .realpath _ | .register _ | .start _ | .chain _ => True
  | _ => False

def IsInternal : MutationAction F → Prop
  | .call _ | .changeFiles _ => False
  | _ => True

theorem IsQuiet.linksStay (h : IsQuiet a) (s : MutationQueues F) :
    s.LinksStay a := by
  cases a <;> trivial

theorem IsQuiet.isInternal (h : IsQuiet a) : IsInternal a := by
  cases a <;> trivial

theorem step_moves (ha : IsInternal a) (hstep : s.step a = some s') :
    ∃ n ph ph', Moves s s' n ph ph' ∧ ph'.stepsLeft < ph.stepsLeft ∧
      (ph.isOver = true → ph'.isOver = true) := by
  cases a with
  | call filePath => exact ha.elim
  | changeFiles files => exact ha.elim
  | realpath n =>
    obtain ⟨-, -, -, ⟨c, key', -, -, hmoves⟩ | hmoves⟩ := step_realpath hstep
    · exact ⟨n, _, _, hmoves, Nat.lt_succ_self _, fun hr => nomatch hr⟩
    · exact ⟨n, _, _, hmoves, Nat.succ_pos _, fun hr => nomatch hr⟩
  | register n =>
    obtain ⟨key', hmoves, -⟩ := step_register hstep
    exact ⟨n, _, _, hmoves, Nat.lt_succ_self _, fun hr => nomatch hr⟩
  | start n =>
    obtain ⟨key', q, -, hmoves, -⟩ := step_start hstep
    exact ⟨n, _, _, hmoves, Nat.lt_succ_self _, fun hr => nomatch hr⟩
  | finish n threw =>
    obtain ⟨key', q, hmoves, -⟩ := step_finish hstep
    exact ⟨n, _, _, hmoves, Nat.lt_succ_self _, fun hr => nomatch hr⟩
  | chain n =>
    obtain ⟨key', q, threw, -, hmoves, -⟩ := step_chain hstep
    exact ⟨n, _, _, hmoves, Nat.lt_succ_self _, fun _ => rfl⟩

def stepsLeft (s : MutationQueues F) : Nat :=
  ((List.range s.calls.length).map fun n => ((s.phaseOf n).map (·.stepsLeft)).getD 0).sum

theorem Moves.stepsLeft (h : Moves s s' n ph ph') (hless : ph'.stepsLeft < ph.stepsLeft) :
    s'.stepsLeft < s.stepsLeft := by
  have hlt : n < s.calls.length := by
    obtain ⟨c, hc, -⟩ := Option.map_eq_some_iff.mp h.before
    exact (List.getElem?_eq_some_iff.mp hc).1
  unfold MutationQueues.stepsLeft
  rw [h.length]
  refine List.sum_lt_sum _ _ (fun m _ => ?_) ⟨n, List.mem_range.mpr hlt, ?_⟩
  · by_cases hm : m = n
    · rw [hm, h.self, h.before]
      exact Nat.le_of_lt hless
    · rw [h.other hm]
  · rw [h.self, h.before]
    exact hless

theorem enabled_realpath (hqueued : s.phaseOf n = some .queued)
    (hbefore : ∀ m < n, ∃ ph, s.phaseOf m = some ph ∧ ph.isRegistered = true) :
    ∃ s', s.step (.realpath n) = some s' := by
  obtain ⟨⟨filePath, phase⟩, hc, hphase⟩ := Option.map_eq_some_iff.mp hqueued
  obtain rfl : phase = .queued := hphase
  have hall : (s.calls.take n).all (·.phase.isRegistered) = true := by
    rw [List.all_eq_true]
    intro c hmem
    obtain ⟨m, hm⟩ := List.mem_iff_getElem?.mp hmem
    have hlt : m < n := by
      have hlength := (List.getElem?_eq_some_iff.mp hm).1
      rw [List.length_take] at hlength
      omega
    rw [List.getElem?_take_of_lt hlt] at hm
    obtain ⟨ph, hph, hregistered⟩ := hbefore m hlt
    rw [phaseOf, hm] at hph
    obtain rfl := Option.some.inj hph
    exact hregistered
  rw [step, hc]
  dsimp only
  rw [if_pos hall]
  split
  · exact ⟨_, rfl⟩
  · exact ⟨_, rfl⟩

/-- A call that no call before it keeps from its file can go on, or one that
is to be registered before it. -/
theorem Ordered.advance (h : s.Ordered) (hkeyed : s.Keyed) (hn : s.phaseOf n = some ph)
    (hover : ph.isOver = false) (hrunning : ¬ s.Running n)
    (hfree : ∀ m < n, s.fileOf m = s.fileOf n → s.Over m) :
    ∃ a s', IsQuiet a ∧ s.step a = some s' := by
  cases ph with
  | queued =>
    have hex : ∃ m ph, s.phaseOf m = some ph ∧ ph.isRegistered = false := ⟨n, _, hn, rfl⟩
    classical
    obtain ⟨ph', hph', hregistered⟩ := Nat.find_spec hex
    have hbefore : ∀ m < Nat.find hex, ∃ ph, s.phaseOf m = some ph ∧ ph.isRegistered = true := by
      intro m hm
      have hnot := Nat.find_min hex hm
      have hlt : m < s.calls.length := by
        obtain ⟨c, hc, -⟩ := Option.map_eq_some_iff.mp hph'
        exact Nat.lt_trans hm (List.getElem?_eq_some_iff.mp hc).1
      refine ⟨_, by rw [phaseOf, List.getElem?_eq_getElem hlt]; rfl, ?_⟩
      by_contra hfalse
      refine hnot ⟨_, by rw [phaseOf, List.getElem?_eq_getElem hlt]; rfl, ?_⟩
      simpa using hfalse
    cases ph' with
    | queued =>
      obtain ⟨s', hs'⟩ := enabled_realpath hph' hbefore
      exact ⟨.realpath (Nat.find hex), s', trivial, hs'⟩
    | keyed key => exact ⟨.register (Nat.find hex), _, trivial, by rw [MutationQueues.step, hph']⟩
    | _ => cases hregistered
  | keyed key => exact ⟨.register n, _, trivial, by rw [MutationQueues.step, hn]⟩
  | waiting key currentQueue =>
    by_cases hresolved : s.hasResolved currentQueue = true
    · exact ⟨.start n, _, trivial, by rw [MutationQueues.step, hn]; exact if_pos hresolved⟩
    · -- it waits for a call for the same file, which has settled
      cases currentQueue with
      | none => exact absurd rfl hresolved
      | some m =>
        obtain ⟨hwaits, -⟩ := h.link (placeOf_iff.mpr ⟨_, hn, rfl⟩)
        obtain ⟨hlt, q, hq⟩ := hwaits m rfl
        obtain ⟨ph', hph', hplace⟩ := placeOf_iff.mp hq
        have hsame : s.openKeyOf m = some key → s.Over m := fun hopen =>
          hfree m hlt (hkeyed.sameFile hopen (openKeyOf_iff.mpr ⟨_, hn, rfl⟩))
        cases ph' with
        | waiting k' q' =>
          cases hplace
          have hm := hsame (openKeyOf_iff.mpr ⟨_, hph', rfl⟩)
          rw [Over, hph'] at hm
          cases hm
        | running k' q' =>
          cases hplace
          have hm := hsame (openKeyOf_iff.mpr ⟨_, hph', rfl⟩)
          rw [Over, hph'] at hm
          cases hm
        | settled k' q' threw chained =>
          cases chained with
          | true =>
            refine absurd ?_ hresolved
            rw [hasResolved, hph']
            rfl
          | false =>
            obtain ⟨hchain, -⟩ := h.ran hph' rfl rfl
            exact ⟨.chain m, _, trivial, by rw [MutationQueues.step, hph']; exact if_pos hchain⟩
        | _ => cases hplace
  | running key currentQueue => exact absurd ⟨key, currentQueue, hn⟩ hrunning
  | rejected => cases hover
  | settled key currentQueue threw chained => cases hover

theorem Ordered.over_of_stuck (h : s.Ordered) (hkeyed : s.Keyed)
    (hstuck : ∀ a, IsInternal a → s.step a = none) (hlt : n < s.calls.length) : s.Over n := by
  induction n using Nat.strongRecOn with
  | ind n ih =>
    obtain ⟨ph, hph⟩ : ∃ ph, s.phaseOf n = some ph :=
      ⟨_, by rw [phaseOf, List.getElem?_eq_getElem hlt]; rfl⟩
    by_contra hnot
    have hover : ph.isOver = false := by
      by_contra htrue
      exact hnot (.of_phase hph (by simpa using htrue))
    by_cases hrunning : s.Running n
    · obtain ⟨key, q, hq⟩ := hrunning
      have hnone := hstuck (.finish n false) trivial
      rw [MutationQueues.step, hq] at hnone
      cases hnone
    · obtain ⟨a, s', hquiet, hstep⟩ := h.advance hkeyed hph hover hrunning
        fun m hm _ => ih m hm (Nat.lt_trans hm hlt)
      have hnone := hstuck a hquiet.isInternal
      rw [hnone] at hstep
      cases hstep

/-! ## What is serialised -/

def steps (s : MutationQueues F) (actions : List (MutationAction F)) :
    Option (MutationQueues F) := actions.foldlM step s

/-- No two callbacks for one file run at once, and when one runs those of
the calls before it for the file are over. A callback is called once, when
its call has got so far, and not when its path could not be resolved. A call
waits for no callback for another file. Whatever runs ends, and then all
calls are over and the map is empty. -/
structure Serialised (s : MutationQueues F) : Prop where
  alone : ∀ m n, m ≠ n → s.Running m → s.Running n → s.fileOf m ≠ s.fileOf n
  inOrder : ∀ m n, m < n → s.Running n → s.fileOf m = s.fileOf n → s.Over m
  once : ∀ n ph, s.phaseOf n = some ph → s.started.count n = if ph.hasRun then 1 else 0
  unblocked : ∀ n ph, s.phaseOf n = some ph → ph.isOver = false →
    (∀ m < n, s.fileOf m = s.fileOf n → s.Over m) →
    ∃ actions s', (∀ a ∈ actions, IsQuiet a) ∧ s.steps actions = some s' ∧
      (s'.Running n ∨ s'.phaseOf n = some .rejected)
  ends : ∀ actions s', (∀ a ∈ actions, IsInternal a) → s.steps actions = some s' →
    actions.length ≤ s.stepsLeft
  settles : (∀ a, IsInternal a → s.step a = none) → ∀ n < s.calls.length, s.Over n
  empty : (∀ n < s.calls.length, s.Over n) → s.fileMutationQueues.entries = []

theorem length_le_stepsLeft (actions : List (MutationAction F)) :
    ∀ {s s' : MutationQueues F}, (∀ a ∈ actions, IsInternal a) → s.steps actions = some s' →
      actions.length ≤ s.stepsLeft := by
  induction actions with
  | nil => exact fun _ _ => Nat.zero_le _
  | cons a actions ih =>
    intro s s' hall hrun
    obtain ⟨mid, hstep, hrest⟩ := Option.bind_eq_some_iff.mp hrun
    obtain ⟨n, ph, ph', hmoves, hless, -⟩ := step_moves (hall a List.mem_cons_self) hstep
    have hmid := hmoves.stepsLeft hless
    have hlength := ih (fun b hb => hall b (List.mem_cons_of_mem a hb)) hrest
    rw [List.length_cons]
    omega

/-- Over is not reached without a callback that settles. -/
theorem step_quiet_over (ha : IsQuiet a) (hstep : s.step a = some s') (hm : s'.Over m) :
    s.Over m ∨ s'.phaseOf m = some .rejected := by
  cases a with
  | call filePath => exact ha.elim
  | changeFiles files => exact ha.elim
  | finish n threw => exact ha.elim
  | realpath n =>
    obtain ⟨-, -, -, ⟨c, key', -, -, hmoves⟩ | hmoves⟩ := step_realpath hstep
    · rw [hmoves.over] at hm
      split at hm
      · cases hm
      · exact .inl hm
    · rw [hmoves.over] at hm
      split at hm
      · rename_i heq
        exact .inr (heq ▸ hmoves.self)
      · exact .inl hm
  | register n =>
    obtain ⟨key', hmoves, -⟩ := step_register hstep
    rw [hmoves.over] at hm
    split at hm
    · cases hm
    · exact .inl hm
  | start n =>
    obtain ⟨key', q, -, hmoves, -⟩ := step_start hstep
    rw [hmoves.over] at hm
    split at hm
    · cases hm
    · exact .inl hm
  | chain n =>
    obtain ⟨key', q, threw, -, hmoves, -⟩ := step_chain hstep
    rw [hmoves.over] at hm
    split at hm
    · rename_i heq
      exact .inl (heq ▸ .of_phase hmoves.before rfl)
    · exact .inl hm

theorem Ordered.unblocked (hordered : s.Ordered) (hkeyed : s.Keyed)
    (hn : s.phaseOf n = some ph) (hover : ph.isOver = false)
    (hfree : ∀ m < n, s.fileOf m = s.fileOf n → s.Over m) :
    ∃ actions s', (∀ a ∈ actions, IsQuiet a) ∧ s.steps actions = some s' ∧
      (s'.Running n ∨ s'.phaseOf n = some .rejected) := by
  -- along the steps that are left
  induction hleft : s.stepsLeft using Nat.strongRecOn generalizing s ph with
  | ind left ih =>
    by_cases hrunning : s.Running n
    · exact ⟨[], s, fun a ha => (nomatch ha), rfl, .inl hrunning⟩
    · obtain ⟨a, mid, hquiet, hstep⟩ := hordered.advance hkeyed hn hover hrunning hfree
      obtain ⟨k, ph₁, ph₂, hmoves, hless, hkeep⟩ := step_moves hquiet.isInternal hstep
      have hfree' : ∀ m < n, mid.fileOf m = mid.fileOf n → mid.Over m := by
        intro m hm hfile
        rw [hmoves.fileOf, hmoves.fileOf] at hfile
        exact hmoves.over_of_over hkeep (hfree m hm hfile)
      obtain ⟨ph', hph'⟩ : ∃ ph', mid.phaseOf n = some ph' := by
        by_cases hkn : n = k
        · exact ⟨ph₂, hkn ▸ hmoves.self⟩
        · exact ⟨ph, (hmoves.other hkn).trans hn⟩
      cases hover' : ph'.isOver with
      | true =>
        have hquietOver := step_quiet_over hquiet hstep (.of_phase hph' hover')
        refine ⟨[a], mid, by simpa using hquiet, by simp [steps, hstep], .inr ?_⟩
        refine hquietOver.resolve_left fun hold => ?_
        rw [Over, hn] at hold
        exact absurd (hover.symm.trans hold) (by decide)
      | false =>
        have hmid := hmoves.stepsLeft hless
        obtain ⟨actions, s', hall, hrun, hend⟩ := ih _ (hleft ▸ hmid) (hordered.step hstep)
          (hkeyed.step (hquiet.linksStay s) hstep) hph' hover' hfree' rfl
        refine ⟨a :: actions, s', ?_, ?_, hend⟩
        · rintro b (_ | ⟨_, hb⟩)
          · exact hquiet
          · exact hall b hb
        · rw [steps, List.foldlM_cons, hstep]
          exact hrun

theorem Ordered.serialised (hordered : s.Ordered) (hkeyed : s.Keyed) (hone : s.OneKey) :
    s.Serialised where
  alone := by
    have hlt : ∀ m n, m < n → s.Running m → s.Running n → s.fileOf m ≠ s.fileOf n := by
      rintro m n hlt ⟨key, q, hm⟩ ⟨key', q', hn⟩ hfile
      obtain rfl := hone m n key key' (openKeyOf_iff.mpr ⟨_, hm, rfl⟩)
        (openKeyOf_iff.mpr ⟨_, hn, rfl⟩) hfile
      have hover := (hordered.ran hn rfl rfl).2 m hlt (.of_phase hm rfl)
      rw [Over, hm] at hover
      cases hover
    intro m n hne hm hn
    obtain hmn | hnm := Nat.lt_or_gt_of_ne hne
    · exact hlt m n hmn hm hn
    · exact (hlt n m hnm hn hm).symm
  inOrder := by
    rintro m n hlt ⟨key', q', hn⟩ hfile
    obtain ⟨ph, hph, hregistered⟩ := hordered.fifo hlt hn (fun h => nomatch h)
    cases ph with
    | queued => cases hregistered
    | keyed key => cases hregistered
    | rejected => exact .of_phase hph rfl
    | settled key q threw chained => exact .of_phase hph rfl
    | waiting key q =>
      obtain rfl := hone m n key key' (openKeyOf_iff.mpr ⟨_, hph, rfl⟩)
        (openKeyOf_iff.mpr ⟨_, hn, rfl⟩) hfile
      exact (hordered.ran hn rfl rfl).2 m hlt (.of_phase hph rfl)
    | running key q =>
      obtain rfl := hone m n key key' (openKeyOf_iff.mpr ⟨_, hph, rfl⟩)
        (openKeyOf_iff.mpr ⟨_, hn, rfl⟩) hfile
      exact (hordered.ran hn rfl rfl).2 m hlt (.of_phase hph rfl)
  once := by
    intro n ph hph
    rw [hordered.once, hph]
    rfl
  unblocked := fun n ph hn hover hfree => hordered.unblocked hkeyed hn hover hfree
  ends := fun actions s' hall hrun => length_le_stepsLeft actions hall hrun
  settles := fun hstuck n hlt => hordered.over_of_stuck hkeyed hstuck hlt
  empty := by
    intro hall
    cases hentries : s.fileMutationQueues.entries with
    | nil => rfl
    | cons e rest =>
      have hget : s.fileMutationQueues.get e.1 = some e.2 := by
        rw [OrdMap.get, hentries]
        exact if_pos rfl
      obtain ⟨⟨q, hq⟩, hnot, -⟩ := hordered.last hget
      obtain ⟨ph, hph, -⟩ := placeOf_iff.mp hq
      obtain ⟨c, hc, -⟩ := Option.map_eq_some_iff.mp hph
      exact absurd (hall _ (List.getElem?_eq_some_iff.mp hc).1) hnot

/-- Mutations are serialised as long as calls for one file get one key. -/
theorem mutations_serialised {files : F.State}
    (h : Machine.Reaches step KeysAgree (start files) s) : s.Serialised := by
  have hinv : s.Ordered ∧ s.Keyed ∧ s.OneKey := by
    refine h.invariant (I := fun s => s.Ordered ∧ s.Keyed ∧ s.OneKey) ⟨ordered_start files, ?_, ?_⟩ fun s a s' hs hok hstep =>
      ⟨hs.1.step hstep, hs.2.1.step hok.linksStay hstep, hs.2.2.step hok hstep⟩
    · exact fun n key hn => (nomatch hn)
    · exact fun m n key key' hm => (nomatch hm)
  exact hinv.1.serialised hinv.2.1 hinv.2.2

/-! ## A link -/

inductive LinkedPath where
  | target
  | alias
deriving DecidableEq

/-- A file that may exist, and a link to it. -/
def linkedFiles : FileSystem where
  State := Bool
  Path := LinkedPath
  decEq := inferInstance
  resolve := fun filePath => if filePath = "alias.txt" then .alias else .target
  realpath := fun found _ => if found then .ok .target else .error .ENOENT
  file := fun _ _ => .target
  file_of_realpath := by
    intro found p r h
    cases found with
    | true => exact Except.ok.inj h
    | false => cases h
  file_file := fun _ _ => rfl

def linkedCalls : List (MutationAction linkedFiles) :=
  [.call "target.txt", .call "alias.txt", .realpath 0, .register 0, .start 0, .realpath 1,
    .register 1]

/-- When the file exists the second call waits. -/
theorem mutations_serialised_link :
    ∃ s : MutationQueues linkedFiles, s.Running 0 ∧
      s.phaseOf 1 = some (.waiting .target (some 0)) ∧ s.Serialised := by
  refine ⟨(Machine.run step KeysAgree (start (F := linkedFiles) true) linkedCalls).get
    (by decide +kernel), ⟨.target, none, ?_⟩, ?_, mutations_serialised
      (Machine.reaches_of_run (Option.some_get _).symm)⟩
  all_goals decide +kernel

/-- When it does not exist yet both callbacks run. -/
theorem mutations_not_serialised :
    ∃ s, Machine.Reaches step (fun _ _ => True) (start (F := linkedFiles) false) s ∧
      s.Running 0 ∧ s.Running 1 ∧ s.fileOf 0 = some .target ∧ s.fileOf 1 = some .target := by
  refine ⟨(Machine.run step (fun _ _ => True) (start (F := linkedFiles) false)
    (linkedCalls ++ [.start 1])).get (by decide +kernel),
    Machine.reaches_of_run (Option.some_get _).symm, ⟨.target, none, ?_⟩, ⟨.alias, none, ?_⟩,
    ?_, ?_⟩
  all_goals decide +kernel

end MutationQueues

end Eagent
