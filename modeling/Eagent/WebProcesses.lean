import Eagent.WebSessions

/-!
# One agent process for a web session

`Inv`: a session has a live process, a start to come, or neither. A process
whose exit nobody waits for, a start that comes after its session is gone and
a start that was not counted break it; `Spaced` are the steps without them
(`WebSessions.one_process`).
-/

namespace Eagent

namespace WebSessions

variable (s : WebSessions)

/-- The invariant. -/
structure Inv : Prop where
  one : ∀ {i j : Nat} {p q : WebProcess}, s.Live i p → s.Live j q → p.session = q.session → i = j
  room : s.liveProcesses.length + s.starts.length ≤ s.maxProcesses
  epoch : ∀ {i : Nat} {p : WebProcess}, s.Live i p → p.epoch = s.shutdownsDone
  /-- a live process is of a session, or a deletion waits for it -/
  kept : ∀ {i : Nat} {p : WebProcess}, s.Live i p →
    p.session ∈ s.sessions ∨ (p.session, i) ∈ s.deletions
  /-- a start to come is of a session without a live process -/
  coming : ∀ start ∈ s.starts, start.1 ∈ s.sessions ∧ start.2 = s.shutdownsDone ∧
    ∀ {i : Nat} {p : WebProcess}, s.Live i p → p.session ≠ start.1
  flagged : ∀ id ∈ s.starts.map Prod.fst ++ s.settles, s.starting id = true
  once : (s.starts.map Prod.fst ++ s.settles).Nodup
  known : ∀ id, id ∈ s.sessions ∨ id ∈ s.deletions.map Prod.fst ∨ id ∈ s.deleted →
    (s.entries id).isSome
  apart : s.sessions.Nodup ∧ (s.deletions.map Prod.fst).Nodup
  gone : ∀ id ∈ s.sessions, id ∉ s.deletions.map Prod.fst ∧ id ∉ s.deleted
  ended : ∀ id ∈ s.deletions.map Prod.fst, id ∉ s.deleted
  /-- every shutdown waits for all live processes -/
  waits : ∀ waits ∈ s.shutdowns, s.starts = [] ∧
    ∀ {i : Nat} {p : WebProcess}, s.Live i p → i ∈ waits

section Steps

variable {s}

theorem inv_initialized (idleTimeoutMs maxProcesses : Nat) (persisted : OrdMap String Nat) :
    (initialized idleTimeoutMs maxProcesses persisted).Inv where
  one h := by cases h.1
  room := Nat.zero_le _
  epoch h := by cases h.1
  kept h := by cases h.1
  coming _ h := absurd h List.not_mem_nil
  flagged _ h := absurd h List.not_mem_nil
  once := List.nodup_nil
  known := by
    rintro id (h | h | h)
    · rw [initialized, Option.isSome_map]
      exact OrdMap.has_iff.mpr h
    · exact absurd h List.not_mem_nil
    · exact absurd h List.not_mem_nil
  apart := ⟨persisted.nodup, List.nodup_nil⟩
  gone _ _ := ⟨List.not_mem_nil, List.not_mem_nil⟩
  ended _ h := absurd h List.not_mem_nil
  waits _ h := absurd h List.not_mem_nil

theorem Inv.oneProcess (h : s.Inv) : s.OneProcess where
  one := h.one
  atMost := Nat.le_of_add_right_le h.room
  deleted hlive hdeleted := by
    rcases h.kept hlive with hsession | hdeletion
    · exact (h.gone _ hsession).2 hdeleted
    · exact h.ended _ (List.mem_map_of_mem (f := Prod.fst) hdeletion) hdeleted
  shutdown := h.epoch

theorem Inv.withEntries (h : s.Inv) (entries : String → Option WebEntry)
    (hentries : ∀ id, (entries id).map (·.startingProcess) =
      (s.entries id).map (·.startingProcess)) : Inv { s with entries } := by
  have hsome : ∀ id, (entries id).isSome = (s.entries id).isSome := by
    intro id
    have hid := congrArg Option.isSome (hentries id)
    rwa [Option.isSome_map, Option.isSome_map] at hid
  have hstarting : ∀ id, starting { s with entries } id = s.starting id := by
    intro id
    have hid := congrArg (Option.any fun flag => flag) (hentries id)
    rwa [Option.any_map, Option.any_map] at hid
  refine ⟨h.one, h.room, h.epoch, h.kept, h.coming, fun id hid => ?_, h.once, fun id hid => ?_,
    h.apart, h.gone, h.ended, h.waits⟩
  · rw [hstarting]
    exact h.flagged id hid
  · dsimp only
    rw [hsome]
    exact h.known id hid

variable {f : WebEntry → WebEntry}

theorem map_update (id : String) {β : Type} {g : WebEntry → β} (hf : ∀ entry, g (f entry) = g entry)
    (id' : String) :
    ((s.update id f).entries id').map g = (s.entries id').map g := by
  unfold update
  dsimp only
  by_cases hid : id' = id
  · subst hid
    rw [Function.update_self, Option.map_map]
    exact congrArg (fun g => Option.map g (s.entries id')) (funext hf)
  · rw [Function.update_of_ne hid]

theorem Inv.update (h : s.Inv) (id : String)
    (hf : ∀ entry, (f entry).startingProcess = entry.startingProcess) : (s.update id f).Inv :=
  h.withEntries _ (map_update id hf)

theorem starting_update_true (id : String) (h : (s.entries id).isSome) (id' : String) :
    (s.update id ({ · with startingProcess := true })).starting id' =
      (decide (id' = id) || s.starting id') := by
  unfold starting WebSessions.update
  dsimp only
  by_cases hid : id' = id
  · subst hid
    obtain ⟨entry, hentry⟩ := Option.isSome_iff_exists.mp h
    rw [Function.update_self, hentry]
    simp
  · rw [Function.update_of_ne hid, decide_eq_false hid, Bool.false_or]

theorem starting_update_false {id id' : String} (hid : id' ≠ id) :
    (s.update id ({ · with startingProcess := false })).starting id' = s.starting id' := by
  unfold starting WebSessions.update
  dsimp only
  rw [Function.update_of_ne hid]

theorem isSome_update (id : String) (f : WebEntry → WebEntry) (id' : String) :
    ((s.update id f).entries id').isSome = (s.entries id').isSome := by
  unfold WebSessions.update
  dsimp only
  by_cases hid : id' = id
  · subst hid
    rw [Function.update_self, Option.isSome_map]
  · rw [Function.update_of_ne hid]

variable {id : String}

theorem Inv.ask (h : s.Inv) (hsession : id ∈ s.sessions) (hstarting : s.starting id = false)
    (hfree : ∀ i p, s.Live i p → p.session ≠ id)
    (hroom : s.liveProcesses.length + s.starts.length < s.maxProcesses)
    (hshutdowns : s.shutdowns = []) :
    Inv { s.update id ({ · with startingProcess := true }) with
      starts := s.starts ++ [(id, s.shutdownsDone)] } := by
  have hknown := h.known id (.inl hsession)
  have hnew : id ∉ s.starts.map Prod.fst ++ s.settles := by
    intro hmem
    rw [h.flagged id hmem] at hstarting
    cases hstarting
  have hperm : ((s.starts ++ [(id, s.shutdownsDone)]).map Prod.fst ++ s.settles).Perm
      (id :: (s.starts.map Prod.fst ++ s.settles)) := by
    rw [List.map_append, List.append_assoc]
    exact List.perm_middle
  refine ⟨h.one, ?_, h.epoch, h.kept, fun start hstart => ?_, fun id' hid' => ?_, ?_,
    fun id' hid' => ?_, h.apart, h.gone, h.ended, fun waits hwaits => ?_⟩
  · dsimp only
    rw [List.length_append, List.length_singleton]
    exact hroom
  · rcases List.mem_append.mp hstart with hstart | hstart
    · exact h.coming start hstart
    · obtain rfl := List.mem_singleton.mp hstart
      exact ⟨hsession, rfl, fun hlive => hfree _ _ hlive⟩
  · have hflag := starting_update_true id hknown id'
    refine hflag.trans ?_
    rcases List.mem_cons.mp (hperm.mem_iff.mp hid') with rfl | hmem
    · rw [decide_eq_true rfl, Bool.true_or]
    · rw [h.flagged id' hmem, Bool.or_true]
  · exact hperm.nodup_iff.mpr (List.nodup_cons.mpr ⟨hnew, h.once⟩)
  · exact (isSome_update id _ id').trans (h.known id' hid')
  · have hnone : waits ∈ s.shutdowns := hwaits
    rw [hshutdowns] at hnone
    exact absurd hnone List.not_mem_nil

theorem live_spawn {entries : String → Option WebEntry} {epoch : Nat} {rest : List (String × Nat)}
    {settles : List String} {i : Nat} {p : WebProcess} :
    Live { s with
      entries
      processes := s.processes ++ [⟨id, false, epoch⟩]
      starts := rest
      settles } i p ↔
      s.Live i p ∨ i = s.processes.length ∧ p = ⟨id, false, epoch⟩ := by
  unfold Live
  dsimp only
  rcases Nat.lt_trichotomy i s.processes.length with hlt | rfl | hgt
  · rw [List.getElem?_append_left hlt]
    exact ⟨.inl, fun h => h.resolve_right fun hnew => absurd hnew.1 (Nat.ne_of_lt hlt)⟩
  · rw [List.getElem?_concat_length, List.getElem?_eq_none (Nat.le_refl _)]
    constructor
    · rintro ⟨hp, -⟩
      exact .inr ⟨rfl, (Option.some.inj hp).symm⟩
    · rintro (⟨hp, -⟩ | ⟨-, rfl⟩)
      · cases hp
      · exact ⟨rfl, rfl⟩
  · rw [List.getElem?_eq_none (by rw [List.length_append, List.length_singleton]; exact hgt),
      List.getElem?_eq_none (Nat.le_of_lt hgt)]
    constructor
    · rintro ⟨hp, -⟩
      cases hp
    · rintro (⟨hp, -⟩ | ⟨rfl, -⟩)
      · cases hp
      · exact absurd hgt (Nat.lt_irrefl _)

theorem Inv.startProcess (h : s.Inv) {epoch : Nat} {rest : List (String × Nat)}
    (hstarts : s.starts = (id, epoch) :: rest) (spawns : Bool) :
    (s.startProcess id epoch rest spawns).Inv := by
  obtain ⟨hsession, hepoch, hfree⟩ := h.coming (id, epoch) (hstarts ▸ List.mem_cons_self)
  have hrest : ∀ start ∈ rest, start ∈ s.starts := fun start hstart =>
    hstarts ▸ List.mem_cons_of_mem _ hstart
  have hperm : (rest.map Prod.fst ++ (s.settles ++ [id])).Perm
      (s.starts.map Prod.fst ++ s.settles) := by
    rw [hstarts, ← List.append_assoc]
    exact List.perm_append_singleton _ _
  have hdistinct : ∀ start ∈ rest, start.1 ≠ id := by
    intro start hstart heq
    have honce := (List.nodup_append.mp h.once).1
    rw [hstarts, List.map_cons, List.nodup_cons] at honce
    exact honce.1 (List.mem_map.mpr ⟨start, hstart, heq⟩)
  have hshutdowns : ∀ waits, waits ∉ s.shutdowns := by
    intro waits hwaits
    have hnone := (h.waits waits hwaits).1
    rw [hstarts] at hnone
    cases hnone
  have hroom := h.room
  rw [hstarts, List.length_cons] at hroom
  cases spawns with
  | false =>
    refine ⟨h.one, ?_, h.epoch, h.kept, fun start hstart => h.coming start (hrest start hstart),
      fun id' hid' => h.flagged id' (hperm.mem_iff.mp hid'), hperm.nodup_iff.mpr h.once, h.known,
      h.apart, h.gone, h.ended, fun waits hwaits => absurd hwaits (hshutdowns waits)⟩
    exact Nat.le_trans (Nat.add_le_add_left (Nat.le_succ _) _) hroom
  | true =>
    have hflags := (h.update id (f := ({ · with process := some s.processes.length }))
      fun _ => rfl)
    refine ⟨fun {i j p q} hp hq hsame => ?_, ?_, fun hp => ?_, fun hp => ?_,
      fun start hstart => ?_, fun id' hid' => ?_, hperm.nodup_iff.mpr h.once, hflags.known,
      h.apart, h.gone, h.ended, fun waits hwaits => absurd hwaits (hshutdowns waits)⟩
    · rcases live_spawn.mp hp with hp | ⟨rfl, rfl⟩ <;>
        rcases live_spawn.mp hq with hq | ⟨rfl, rfl⟩
      · exact h.one hp hq hsame
      · exact absurd hsame (hfree hp)
      · exact absurd hsame.symm (hfree hq)
      · rfl
    · have hlive : liveProcesses (s.startProcess id epoch rest true) =
          s.liveProcesses ++ [⟨id, false, epoch⟩] := List.filter_append _ _
      rw [hlive, List.length_append, List.length_singleton, Nat.add_assoc, Nat.add_comm 1]
      exact hroom
    · rcases live_spawn.mp hp with hp | ⟨rfl, rfl⟩
      · exact h.epoch hp
      · exact hepoch
    · rcases live_spawn.mp hp with hp | ⟨rfl, rfl⟩
      · exact h.kept hp
      · exact .inl hsession
    · obtain ⟨hsession', hepoch', hfree'⟩ := h.coming start (hrest start hstart)
      refine ⟨hsession', hepoch', fun hp => ?_⟩
      rcases live_spawn.mp hp with hp | ⟨rfl, rfl⟩
      · exact hfree' hp
      · exact (hdistinct start hstart).symm
    · exact hflags.flagged id' (hperm.mem_iff.mp hid')

theorem Inv.startSettles (h : s.Inv) (hid : id ∈ s.settles) :
    Inv { s.update id ({ · with startingProcess := false }) with
      settles := s.settles.erase id } := by
  have hnodup := h.once
  have hsub : (s.starts.map Prod.fst ++ s.settles.erase id).Sublist
      (s.starts.map Prod.fst ++ s.settles) := (List.Sublist.refl _).append List.erase_sublist
  refine ⟨h.one, h.room, h.epoch, h.kept, h.coming, fun id' hid' => ?_, hnodup.sublist hsub,
    fun id' hid' => ?_, h.apart, h.gone, h.ended, h.waits⟩
  · have hother : id' ≠ id := by
      rintro rfl
      rcases List.mem_append.mp hid' with hid' | hid'
      · exact (List.nodup_append.mp hnodup).2.2 id' hid' id' hid rfl
      · exact (List.nodup_append.mp hnodup).2.1.not_mem_erase hid'
    exact (starting_update_false hother).trans (h.flagged id' (hsub.mem hid'))
  · exact (isSome_update id _ id').trans (h.known id' hid')

theorem live_exit {process i : Nat} {p : WebProcess}
    (h : Live { s with processes := s.processes.modify process ({ · with exited := true }) } i p) :
    s.Live i p ∧ i ≠ process := by
  obtain ⟨hp, hexited⟩ := h
  dsimp only at hp
  rw [List.getElem?_modify] at hp
  by_cases hi : process = i
  · simp only [hi, if_true, Option.map_eq_map] at hp
    obtain ⟨q, -, rfl⟩ := Option.map_eq_some_iff.mp hp
    cases hexited
  · simp only [hi, if_false, Option.map_eq_map, Option.map_id'] at hp
    exact ⟨⟨hp, hexited⟩, Ne.symm hi⟩

theorem length_live_modify (processes : List WebProcess) (process : Nat) :
    ((processes.modify process ({ · with exited := true })).filter (!·.exited)).length ≤
      (processes.filter (!·.exited)).length := by
  induction processes generalizing process with
  | nil => simp
  | cons p processes ih =>
    cases process with
    | zero =>
      rw [List.modify_zero_cons, List.filter_cons_of_neg (by simp)]
      exact ((List.sublist_cons_self p processes).filter _).length_le
    | succ process =>
      rw [List.modify_succ_cons, List.filter_cons, List.filter_cons]
      split
      · exact Nat.succ_le_succ (ih process)
      · exact ih process

section

variable (h : s.Inv)
include h

theorem Inv.exit (process : Nat) :
    Inv { s with processes := s.processes.modify process ({ · with exited := true }) } := by
  refine ⟨fun hp hq => h.one (live_exit hp).1 (live_exit hq).1, ?_,
    fun hp => h.epoch (live_exit hp).1, fun hp => h.kept (live_exit hp).1, fun start hstart => ?_,
    h.flagged, h.once, h.known, h.apart, h.gone, h.ended, fun waits hwaits => ?_⟩
  · exact Nat.le_trans (Nat.add_le_add_right (length_live_modify _ _) _) h.room
  · obtain ⟨hsession, hepoch, hfree⟩ := h.coming start hstart
    exact ⟨hsession, hepoch, fun hp => hfree (live_exit hp).1⟩
  · obtain ⟨hstarts, hlive⟩ := h.waits waits hwaits
    exact ⟨hstarts, fun hp => hlive (live_exit hp).1⟩

theorem Inv.createSession (hid : (s.entries id).isSome = false) (now : Nat) :
    Inv { s with
      entries := Function.update s.entries id (some { lastActivityAt := now })
      sessions := s.sessions ++ [id] } := by
  have hnew : ∀ id', id' ∈ s.sessions ∨ id' ∈ s.deletions.map Prod.fst ∨ id' ∈ s.deleted →
      id' ≠ id := by
    rintro id' hid' rfl
    rw [h.known id' hid'] at hid
    cases hid
  have hmem : ∀ {id'}, id' ∈ s.sessions ++ [id] ↔ id' ∈ s.sessions ∨ id' = id := by
    intro id'
    rw [List.mem_append, List.mem_singleton]
  refine ⟨h.one, h.room, h.epoch, fun hp => ?_, fun start hstart => ?_, fun id' hid' => ?_, h.once,
    fun id' hid' => ?_, ⟨?_, h.apart.2⟩, fun id' hid' => ?_, h.ended, h.waits⟩
  · exact (h.kept hp).imp (fun hsession => hmem.mpr (.inl hsession)) fun hdeletion => hdeletion
  · obtain ⟨hsession, hrest⟩ := h.coming start hstart
    exact ⟨hmem.mpr (.inl hsession), hrest⟩
  · have hflag := h.flagged id' hid'
    have hother : id' ≠ id := by
      rintro rfl
      unfold starting at hflag
      rw [Option.not_isSome_iff_eq_none.mp (Bool.eq_false_iff.mp hid)] at hflag
      cases hflag
    unfold starting at hflag ⊢
    dsimp only
    rwa [Function.update_of_ne hother]
  · dsimp only
    by_cases hsame : id' = id
    · subst hsame
      rw [Function.update_self]
      rfl
    · rw [Function.update_of_ne hsame]
      refine h.known id' (hid'.imp (fun hsession => ?_) fun hother => hother)
      exact (hmem.mp hsession).resolve_right hsame
  · rw [List.nodup_append]
    refine ⟨h.apart.1, List.nodup_singleton id, fun id' hid' id'' hid'' => ?_⟩
    rw [List.mem_singleton.mp hid'']
    exact hnew id' (.inl hid')
  · rcases hmem.mp hid' with hid' | rfl
    · exact h.gone id' hid'
    · exact ⟨fun hdeletion => hnew id' (.inr (.inl hdeletion)) rfl,
        fun hdeleted => hnew id' (.inr (.inr hdeleted)) rfl⟩

theorem Inv.coming_erase (hid : id ∉ s.starts.map Prod.fst) {start : String × Nat}
    (hstart : start ∈ s.starts) : start.1 ∈ s.sessions.erase id := by
  have hother : start.1 ≠ id := fun heq => hid (heq ▸ List.mem_map_of_mem (f := Prod.fst) hstart)
  exact (List.mem_erase_of_ne hother).mpr (h.coming start hstart).1

theorem Inv.deleteNow (hsession : id ∈ s.sessions) (hstarts : id ∉ s.starts.map Prod.fst)
    (hnone : ∀ i p, s.Live i p → p.session ≠ id) :
    Inv { s with sessions := s.sessions.erase id, deleted := s.deleted ++ [id] } := by
  have hmem : ∀ {id'}, id' ∈ s.deleted ++ [id] ↔ id' ∈ s.deleted ∨ id' = id := by
    intro id'
    rw [List.mem_append, List.mem_singleton]
  refine ⟨h.one, h.room, h.epoch, fun {i p} hp => ?_, fun start hstart => ?_, h.flagged, h.once,
    fun id' hid' => ?_, ⟨h.apart.1.erase id, h.apart.2⟩, fun id' hid' => ?_, fun id' hid' => ?_,
    h.waits⟩
  · exact (h.kept hp).imp (List.mem_erase_of_ne (hnone i p hp)).mpr fun hdeletion => hdeletion
  · exact ⟨h.coming_erase hstarts hstart, (h.coming start hstart).2⟩
  · rcases hid' with hid' | hid' | hid'
    · exact h.known id' (.inl (List.mem_of_mem_erase hid'))
    · exact h.known id' (.inr (.inl hid'))
    · rcases hmem.mp hid' with hid' | rfl
      · exact h.known id' (.inr (.inr hid'))
      · exact h.known id' (.inl hsession)
  · obtain ⟨hne, hid'⟩ := h.apart.1.mem_erase_iff.mp hid'
    refine ⟨(h.gone id' hid').1, fun hdeleted => ?_⟩
    exact (hmem.mp hdeleted).elim (h.gone id' hid').2 hne
  · intro hdeleted
    rcases hmem.mp hdeleted with hdeleted | rfl
    · exact h.ended id' hid' hdeleted
    · exact (h.gone id' hsession).1 hid'

theorem Inv.deleteLater {process : Nat} (hsession : id ∈ s.sessions)
    (hstarts : id ∉ s.starts.map Prod.fst)
    (hprocess : ∀ i p, s.Live i p → p.session = id → i = process) :
    Inv { s with sessions := s.sessions.erase id, deletions := s.deletions ++ [(id, process)] } := by
  have hids : (s.deletions ++ [(id, process)]).map Prod.fst = s.deletions.map Prod.fst ++ [id] :=
    List.map_append
  have hmem : ∀ {id'}, id' ∈ (s.deletions ++ [(id, process)]).map Prod.fst ↔
      id' ∈ s.deletions.map Prod.fst ∨ id' = id := by
    intro id'
    rw [hids, List.mem_append, List.mem_singleton]
  refine ⟨h.one, h.room, h.epoch, fun {i p} hp => ?_, fun start hstart => ?_, h.flagged, h.once,
    fun id' hid' => ?_, ⟨h.apart.1.erase id, ?_⟩, fun id' hid' => ?_, fun id' hid' => ?_, h.waits⟩
  · by_cases hsame : p.session = id
    · refine .inr (List.mem_append_right _ ?_)
      rw [hsame, hprocess i p hp hsame]
      exact List.mem_singleton_self _
    · exact (h.kept hp).imp (List.mem_erase_of_ne hsame).mpr (List.mem_append_left _)
  · exact ⟨h.coming_erase hstarts hstart, (h.coming start hstart).2⟩
  · rcases hid' with hid' | hid' | hid'
    · exact h.known id' (.inl (List.mem_of_mem_erase hid'))
    · rcases hmem.mp hid' with hid' | rfl
      · exact h.known id' (.inr (.inl hid'))
      · exact h.known id' (.inl hsession)
    · exact h.known id' (.inr (.inr hid'))
  · rw [hids, List.nodup_append]
    refine ⟨h.apart.2, List.nodup_singleton id, fun id' hid' id'' hid'' heq => ?_⟩
    rw [heq, List.mem_singleton.mp hid''] at hid'
    exact (h.gone id hsession).1 hid'
  · obtain ⟨hne, hid'⟩ := h.apart.1.mem_erase_iff.mp hid'
    refine ⟨fun hdeletion => ?_, (h.gone id' hid').2⟩
    exact (hmem.mp hdeletion).elim (h.gone id' hid').1 hne
  · rcases hmem.mp hid' with hid' | rfl
    · exact h.ended id' hid'
    · exact (h.gone id' hsession).2

theorem Inv.deleteReturns {deletion : String × Nat} (hmem : deletion ∈ s.deletions)
    (hexited : ∀ p, ¬ s.Live deletion.2 p) :
    Inv { s with
      deletions := s.deletions.erase deletion
      deleted := s.deleted ++ [deletion.1] } := by
  have hsub : ((s.deletions.erase deletion).map Prod.fst).Sublist (s.deletions.map Prod.fst) :=
    List.erase_sublist.map Prod.fst
  have hdeletions : s.deletions.Nodup := h.apart.2.of_map
  have hdeleted : ∀ {id}, id ∈ s.deleted ++ [deletion.1] ↔ id ∈ s.deleted ∨ id = deletion.1 := by
    intro id
    rw [List.mem_append, List.mem_singleton]
  have hid : deletion.1 ∈ s.deletions.map Prod.fst := List.mem_map_of_mem hmem
  refine ⟨h.one, h.room, h.epoch, fun {i p} hp => ?_, h.coming, h.flagged, h.once,
    fun id hid' => ?_, ⟨h.apart.1, h.apart.2.sublist hsub⟩, fun id hsession => ?_,
    fun id hid' => ?_, h.waits⟩
  · refine (h.kept hp).imp (fun hsession => hsession) fun hkept => ?_
    refine (List.mem_erase_of_ne ?_).mpr hkept
    rintro rfl
    exact hexited p hp
  · rcases hid' with hid' | hid' | hid'
    · exact h.known id (.inl hid')
    · exact h.known id (.inr (.inl (hsub.mem hid')))
    · rcases hdeleted.mp hid' with hid' | rfl
      · exact h.known id (.inr (.inr hid'))
      · exact h.known _ (.inr (.inl hid))
  · refine ⟨fun hdeletion => (h.gone id hsession).1 (hsub.mem hdeletion), fun hin => ?_⟩
    rcases hdeleted.mp hin with hin | rfl
    · exact (h.gone id hsession).2 hin
    · exact (h.gone _ hsession).1 hid
  · intro hin
    rcases hdeleted.mp hin with hin | rfl
    · exact h.ended id (hsub.mem hid') hin
    · obtain ⟨other, hother, hsame⟩ := List.mem_map.mp hid'
      have heq := List.inj_on_of_nodup_map h.apart.2 (List.mem_of_mem_erase hother) hmem hsame
      rw [heq] at hother
      exact hdeletions.not_mem_erase hother

theorem Inv.shutdown (hstarts : s.starts = []) {waits : List Nat}
    (hwaits : ∀ i p, s.Live i p → i ∈ waits) :
    Inv { s with idleTimer := false, shutdowns := s.shutdowns ++ [waits] } := by
  refine ⟨h.one, h.room, h.epoch, h.kept, h.coming, h.flagged, h.once, h.known, h.apart, h.gone,
    h.ended, fun waits' hwaits' => ?_⟩
  rcases List.mem_append.mp hwaits' with hwaits' | hwaits'
  · exact h.waits waits' hwaits'
  · rw [List.mem_singleton.mp hwaits']
    exact ⟨hstarts, fun hp => hwaits _ _ hp⟩

theorem Inv.shutdownReturns {index : Nat} {waits : List Nat}
    (hwaits : s.shutdowns[index]? = some waits) (hexited : ∀ i ∈ waits, ∀ p, ¬ s.Live i p) :
    (s.shutdownReturns index).Inv := by
  obtain ⟨hstarts, hall⟩ := h.waits waits (List.mem_of_getElem? hwaits)
  have hnone : ∀ {i : Nat} {p : WebProcess}, ¬ s.Live i p := fun hp => hexited _ (hall hp) _ hp
  have hentries := h.withEntries (s.shutdownReturns index).entries fun id => by
    unfold WebSessions.shutdownReturns
    dsimp only
    rw [Option.map_map]
    refine congrArg (fun g => Option.map g (s.entries id)) (funext fun entry => ?_)
    dsimp only [Function.comp_apply]
    split <;> rfl
  refine ⟨fun hp => absurd hp hnone, h.room, fun hp => absurd hp hnone,
    fun hp => absurd hp hnone, fun start hstart => ?_, hentries.flagged, h.once, hentries.known,
    h.apart, h.gone, h.ended, fun waits' hwaits' => ⟨hstarts, fun hp => absurd hp hnone⟩⟩
  have hstart' : start ∈ s.starts := hstart
  rw [hstarts] at hstart'
  exact absurd hstart' List.not_mem_nil

theorem Inv.reapIdle (now : Nat) : (s.reapIdle now).Inv := by
  refine h.withEntries _ fun id => ?_
  rw [Option.map_map]
  refine congrArg (fun g => Option.map g (s.entries id)) (funext fun entry => ?_)
  dsimp only [Function.comp_apply]
  split <;> rfl

end

theorem not_live_of_not_isRunning {process : Nat} (h : s.isRunning process = false)
    (p : WebProcess) : ¬ s.Live process p := by
  rintro ⟨hp, hexited⟩
  rw [isRunning, hp, Option.any_some, hexited] at h
  cases h

/-- A change of the times leaves what runs and starts. -/
theorem running_update (id : String) (hf : ∀ entry, (f entry).process = entry.process)
    (id' : String) :
    (s.update id f).running id' = s.running id' := by
  unfold running WebSessions.update
  dsimp only
  by_cases hid : id' = id
  · subst hid
    rw [Function.update_self]
    cases s.entries id' with
    | none => rfl
    | some entry => exact congrArg (Option.any s.isRunning) (hf entry)
  · rw [Function.update_of_ne hid]
    rfl

theorem starting_update (id : String)
    (hf : ∀ entry, (f entry).startingProcess = entry.startingProcess) (id' : String) :
    (s.update id f).starting id' = s.starting id' := by
  have hflags := congrArg (Option.any fun flag => flag) (map_update (s := s) id hf id')
  rwa [Option.any_map, Option.any_map] at hflags

theorem Inv.getProcess (h : s.Inv) {now : Nat} (hok : s.Spaced (.getProcess id now)) :
    (s.getProcess id now).Inv := by
  unfold WebSessions.getProcess
  split
  · rename_i hsession
    have hnow := h.update id (f := ({ · with lastActivityAt := now })) fun _ => rfl
    have hrunning := running_update (s := s) id (f := ({ · with lastActivityAt := now }))
      fun _ => rfl
    have hstarting := starting_update (s := s) id (f := ({ · with lastActivityAt := now }))
      fun _ => rfl
    have hactive : (s.update id ({ · with lastActivityAt := now })).activeProcesses =
        s.activeProcesses := congrArg (fun running => (s.sessions.filter running).length)
      (funext hrunning)
    dsimp only
    rw [hactive, hrunning, hstarting]
    split
    · exact hnow
    · rename_i hfree
      rw [Bool.or_eq_true, not_or, Bool.not_eq_true, Bool.not_eq_true] at hfree
      split
      · exact hnow
      · rename_i hroom
        obtain ⟨hnone, hcount, hshutdowns⟩ :=
          hok ⟨hsession, hfree.1, hfree.2, Nat.lt_of_not_le hroom⟩
        exact hnow.ask hsession ((hstarting id).trans hfree.2) hnone hcount hshutdowns
  · exact h

theorem Inv.deleteSession (h : s.Inv) (hok : s.Spaced (.deleteSession id)) :
    (s.deleteSession id).Inv := by
  unfold WebSessions.deleteSession
  split
  · rename_i hsession
    obtain ⟨hstarts, hprocess⟩ := hok hsession
    split
    · rename_i process hentry
      refine h.deleteLater hsession hstarts fun i p hp hsame => ?_
      have hi := hprocess i p hp hsame
      rw [hentry] at hi
      exact (Option.some.inj hi).symm
    · rename_i hentry
      refine h.deleteNow hsession hstarts fun i p hp hsame => ?_
      have hi := hprocess i p hp hsame
      rw [hentry] at hi
      cases hi
  · exact h

/-- Every such step keeps the invariant. -/
theorem Inv.step {s' : WebSessions} {act : WebAct} (h : s.Inv) (hok : s.Spaced act)
    (hstep : s.step act = some s') : s'.Inv := by
  cases act with
  | createSession id now =>
    obtain ⟨hid, hs'⟩ := Option.ite_none_left_eq_some.mp hstep
    obtain rfl := Option.some.inj hs'
    exact h.createSession (Bool.not_eq_true _ |>.mp hid) now
  | getProcess id now =>
    obtain rfl := Option.some.inj hstep
    exact h.getProcess hok
  | startRuns spawns =>
    simp only [WebSessions.step] at hstep
    split at hstep
    · cases hstep
    · rename_i id epoch rest hstarts
      obtain rfl := Option.some.inj hstep
      exact h.startProcess hstarts spawns
  | startSettles id =>
    obtain ⟨hid, hs'⟩ := Option.ite_none_right_eq_some.mp hstep
    obtain rfl := Option.some.inj hs'
    exact h.startSettles hid
  | event process now =>
    obtain ⟨p, -, rfl⟩ := Option.map_eq_some_iff.mp hstep
    exact h.update p.session fun _ => rfl
  | exit process =>
    obtain ⟨-, hs'⟩ := Option.ite_none_right_eq_some.mp hstep
    obtain rfl := Option.some.inj hs'
    exact h.exit process
  | reap now =>
    obtain ⟨-, hs'⟩ := Option.ite_none_right_eq_some.mp hstep
    obtain rfl := Option.some.inj hs'
    exact h.reapIdle now
  | deleteSession id =>
    obtain rfl := Option.some.inj hstep
    exact h.deleteSession hok
  | deleteReturns id =>
    simp only [WebSessions.step] at hstep
    split at hstep
    · rename_i deletion hfind
      obtain ⟨hexited, hs'⟩ := Option.ite_none_left_eq_some.mp hstep
      obtain rfl := Option.some.inj hs'
      obtain rfl : deletion.1 = id := by simpa using List.find?_some hfind
      exact h.deleteReturns (List.mem_of_find?_eq_some hfind)
        (not_live_of_not_isRunning (Bool.not_eq_true _ |>.mp hexited))
    · cases hstep
  | shutdown =>
    obtain rfl := Option.some.inj hstep
    refine h.shutdown hok.1 fun i p hp => ?_
    obtain ⟨id, hsession, hentry⟩ := hok.2 i p hp
    exact List.mem_filterMap.mpr ⟨id, hsession, hentry⟩
  | shutdownReturns index =>
    simp only [WebSessions.step] at hstep
    split at hstep
    · rename_i waits hwaits
      obtain ⟨hexited, hs'⟩ := Option.ite_none_left_eq_some.mp hstep
      obtain rfl := Option.some.inj hs'
      rw [Bool.not_eq_true, List.any_eq_false] at hexited
      refine h.shutdownReturns hwaits fun i hi => not_live_of_not_isRunning ?_
      exact Bool.not_eq_true _ |>.mp (hexited i hi)
    · cases hstep

end Steps

/-- A session has one live process, there are at most `maxProcesses`, and none
outlives its session or a shutdown, in every run of such steps. -/
theorem one_process {idleTimeoutMs maxProcesses : Nat} {persisted : OrdMap String Nat}
    {s : WebSessions}
    (h : Machine.Reaches step Spaced (initialized idleTimeoutMs maxProcesses persisted) s) :
    s.OneProcess :=
  (h.invariant (inv_initialized idleTimeoutMs maxProcesses persisted)
    fun _ _ _ hinv hok hstep => hinv.step hok hstep).oneProcess

/-! ## Runs -/

/-- A session with a process, its deletion and the end of it. -/
theorem one_process_deleted : ∃ s : WebSessions,
    Machine.Reaches step Spaced (initialized 60 1 OrdMap.empty) s ∧ s.deleted = ["a"] ∧
      s.processes.length = 1 ∧ s.OneProcess := by
  have hcreated : Machine.Reaches step Spaced (initialized 60 1 OrdMap.empty) _ :=
    Machine.Reaches.refl.tail (a := .createSession "a" 0) trivial rfl
  have hasked := hcreated.tail (a := .getProcess "a" 1)
    (by exact fun _ => ⟨fun _ _ hp => (by cases hp.1), by decide, rfl⟩) rfl
  have hstarted := (hasked.tail (a := .startRuns true) (by exact trivial) rfl).tail
    (a := .startSettles "a") (by exact trivial) rfl
  have hdeleted := hstarted.tail (a := .deleteSession "a") (by
    refine fun _ => ⟨by decide, ?_⟩
    rintro i p ⟨hp, -⟩ -
    match i with
    | 0 => rfl
    | _ + 1 => cases hp) rfl
  have hreturned := (hdeleted.tail (a := .exit 0) (by exact trivial) rfl).tail
    (a := .deleteReturns "a") (by exact trivial) rfl
  exact ⟨_, hreturned, rfl, rfl, one_process hreturned⟩

/-- A session whose process was idle gets a second one while the first exits,
two starts at once exceed the maximum, and a start outlives its session. -/
theorem processes_overlap :
    (∃ s i j p q, Machine.Reaches step (fun _ _ => True) (initialized 60 10 OrdMap.empty) s ∧
      s.Live i p ∧ s.Live j q ∧ p.session = q.session ∧ i ≠ j) ∧
    (∃ s, Machine.Reaches step (fun _ _ => True) (initialized 60 1 OrdMap.empty) s ∧
      s.maxProcesses < s.liveProcesses.length) ∧
    ∃ s i p, Machine.Reaches step (fun _ _ => True) (initialized 60 10 OrdMap.empty) s ∧
      s.Live i p ∧ p.session ∈ s.deleted := by
  refine ⟨?_, ?_, ?_⟩
  · have hreaped : Machine.Reaches step (fun _ _ => True) (initialized 60 10 OrdMap.empty) _ :=
      ((((Machine.Reaches.refl.tail (a := .createSession "a" 0) trivial rfl).tail
        (a := .getProcess "a" 1) trivial rfl).tail (a := .startRuns true) trivial rfl).tail
        (a := .startSettles "a") trivial rfl).tail (a := .reap 62) trivial rfl
    have hagain := (hreaped.tail (a := .getProcess "a" 63) trivial rfl).tail
      (a := .startRuns true) trivial rfl
    exact ⟨_, 0, 1, _, _, hagain, ⟨rfl, rfl⟩, ⟨rfl, rfl⟩, rfl, Nat.zero_ne_one⟩
  · have hasked : Machine.Reaches step (fun _ _ => True) (initialized 60 1 OrdMap.empty) _ :=
      (((Machine.Reaches.refl.tail (a := .createSession "a" 0) trivial rfl).tail
        (a := .createSession "b" 0) trivial rfl).tail (a := .getProcess "a" 1) trivial rfl).tail
        (a := .getProcess "b" 1) trivial rfl
    have hstarted := (hasked.tail (a := .startRuns true) trivial rfl).tail
      (a := .startRuns true) trivial rfl
    exact ⟨_, hstarted, by decide⟩
  · have hasked : Machine.Reaches step (fun _ _ => True) (initialized 60 10 OrdMap.empty) _ :=
      (Machine.Reaches.refl.tail (a := .createSession "a" 0) trivial rfl).tail
        (a := .getProcess "a" 1) trivial rfl
    have hdeleted := (hasked.tail (a := .deleteSession "a") trivial rfl).tail
      (a := .startRuns true) trivial rfl
    exact ⟨_, 0, _, hdeleted, ⟨rfl, rfl⟩, by decide⟩

end WebSessions

end Eagent
