import Eagent.JsonlStorage
import Eagent.Machine

/-!
# Appends on one branch

An append takes the leaf as its parent, and only after the file is written
it becomes the leaf itself. Appends that do not overlap between these two
points follow each other on the branch (`OnBranch`), whatever else of them
overlaps; two that do are siblings.
-/

namespace Eagent

namespace JsonlStorage

/-! ## Paths -/

section Paths

variable {s s' : JsonlStorage}

theorem pathLoop_mono (hget : ∀ id e, s.byId.get id = some e → s'.byId.get id = some e) :
    ∀ {n : Nat} {current : SessionTreeEntry} {acc path : List SessionTreeEntry},
      s.pathLoop n current acc = some (.ok path) → s'.pathLoop n current acc = some (.ok path)
  | 0, _, _, _, h => by cases h
  | n + 1, current, acc, path, h => by
    unfold pathLoop at h ⊢
    split at h
    · exact h
    · rename_i parentId hparent
      split at h
      · cases h
      · rename_i parent hentry
        rw [hget parentId parent hentry]
        exact pathLoop_mono hget h

/-- What is already collected stays at the end. -/
theorem pathLoop_append (tail : List SessionTreeEntry) :
    ∀ {n : Nat} {current : SessionTreeEntry} {acc path : List SessionTreeEntry},
      s.pathLoop n current acc = some (.ok path) →
        s.pathLoop n current (acc ++ tail) = some (.ok (path ++ tail))
  | 0, _, _, _, h => by cases h
  | n + 1, current, acc, path, h => by
    unfold pathLoop at h ⊢
    split at h
    · obtain rfl := Except.ok.inj (Option.some.inj h)
      rfl
    · split at h
      · cases h
      · exact pathLoop_append tail h

/-- The entries of a path are entries of the storage. -/
theorem mem_pathLoop :
    ∀ {n : Nat} {current : SessionTreeEntry} {acc path : List SessionTreeEntry},
      s.pathLoop n current acc = some (.ok path) →
        ∀ x ∈ path, x ∈ acc ∨ x = current ∨ ∃ id, s.byId.get id = some x
  | 0, _, _, _, h => by cases h
  | n + 1, current, acc, path, h => by
    unfold pathLoop at h
    split at h
    · obtain rfl := Except.ok.inj (Option.some.inj h)
      intro x hx
      rcases List.mem_cons.mp hx with rfl | hx
      · exact .inr (.inl rfl)
      · exact .inl hx
    · rename_i parentId hparent
      split at h
      · cases h
      · rename_i parent hentry
        intro x hx
        rcases mem_pathLoop h x hx with hacc | rfl | hmem
        · rcases List.mem_cons.mp hacc with rfl | hacc
          · exact .inr (.inl rfl)
          · exact .inl hacc
        · exact .inr (.inr ⟨parentId, hentry⟩)
        · exact .inr (.inr hmem)

variable {path : List SessionTreeEntry} {leafId : Option String}

theorem PathToRoot.mem (h : s.PathToRoot leafId path) :
    ∀ x ∈ path, ∃ id, s.byId.get id = some x := by
  obtain ⟨fuel, h⟩ := h
  unfold getPathToRoot at h
  split at h
  · obtain rfl := Except.ok.inj (Option.some.inj h)
    exact fun x hx => by cases hx
  · rename_i id
    split at h
    · cases h
    · rename_i current hentry
      intro x hx
      rcases mem_pathLoop h x hx with hacc | rfl | hmem
      · cases hacc
      · exact ⟨id, hentry⟩
      · exact hmem

theorem PathToRoot.has_leaf {id : String} (h : s.PathToRoot (some id) path) :
    ∃ e, s.byId.get id = some e := by
  obtain ⟨fuel, h⟩ := h
  simp only [getPathToRoot] at h
  split at h
  · cases h
  · rename_i current hentry
    exact ⟨current, hentry⟩

theorem PathToRoot.mono (hget : ∀ id e, s.byId.get id = some e → s'.byId.get id = some e)
    (h : s.PathToRoot leafId path) :
    s'.PathToRoot leafId path := by
  obtain ⟨fuel, h⟩ := h
  refine ⟨fuel, ?_⟩
  unfold getPathToRoot at h ⊢
  split at h
  · exact h
  · rename_i id
    split at h
    · cases h
    · rename_i current hentry
      simp only [hget id current hentry]
      exact pathLoop_mono hget h

theorem pathLoop_unique :
    ∀ {n m : Nat} {current : SessionTreeEntry} {acc : List SessionTreeEntry}
      {r r' : Except SessionError (List SessionTreeEntry)},
      s.pathLoop n current acc = some r → s.pathLoop m current acc = some r' → r = r'
  | 0, _, _, _, _, _, h, _ => by cases h
  | n + 1, 0, _, _, _, _, _, h' => by cases h'
  | n + 1, m + 1, current, acc, r, r', h, h' => by
    unfold pathLoop at h h'
    cases hparent : current.parentId.filter fun id => id ≠ "" with
    | none =>
      rw [hparent] at h h'
      exact Option.some.inj (h.symm.trans h')
    | some parentId =>
      rw [hparent] at h h'
      dsimp only at h h'
      cases hentry : s.byId.get parentId with
      | none =>
        rw [hentry] at h h'
        exact Option.some.inj (h.symm.trans h')
      | some parent =>
        rw [hentry] at h h'
        exact pathLoop_unique h h'

theorem PathToRoot.unique {fuel : Nat} {path path' : List SessionTreeEntry}
    (h : s.PathToRoot leafId path) (h' : s.getPathToRoot fuel leafId = some (.ok path')) :
    path = path' := by
  obtain ⟨n, h⟩ := h
  unfold getPathToRoot at h h'
  split at h
  · obtain rfl := Except.ok.inj (Option.some.inj h)
    exact Except.ok.inj (Option.some.inj h')
  · split at h
    · cases h
    · rename_i current hentry
      simp only [hentry] at h'
      exact Except.ok.inj (pathLoop_unique h h')

theorem PathToRoot.remember {e : SessionTreeEntry} (h : s.PathToRoot s.currentLeafId path)
    (hfresh : s.byId.has e.id = false) (hparent : e.parentId = s.currentLeafId)
    (hleaf : s.currentLeafId ≠ some "") :
    (s.remember e).PathToRoot (some e.id) (path ++ [e]) := by
  have hself : (s.remember e).byId.get e.id = some e := OrdMap.get_set_self ..
  have hget : ∀ id x, s.byId.get id = some x → (s.remember e).byId.get id = some x := by
    intro id x hx
    have hne : id ≠ e.id := by
      rintro rfl
      rw [OrdMap.has, hx] at hfresh
      cases hfresh
    exact (OrdMap.get_set_ne _ hne _).trans hx
  cases hid : s.currentLeafId with
  | none =>
    rw [hid] at h hparent
    obtain ⟨fuel, h⟩ := h
    obtain rfl := Except.ok.inj (Option.some.inj h)
    refine ⟨1, ?_⟩
    simp only [getPathToRoot, hself, pathLoop, hparent, Option.filter_none]
    rfl
  | some id =>
    rw [hid] at h hparent hleaf
    obtain ⟨current, hcurrent⟩ := h.has_leaf
    obtain ⟨fuel, h⟩ := h
    simp only [getPathToRoot, hcurrent] at h
    have hloop := pathLoop_append [e] (pathLoop_mono hget h)
    have hne : id ≠ "" := fun heq => hleaf (congrArg some heq)
    refine ⟨fuel + 1, ?_⟩
    simp only [getPathToRoot, hself, pathLoop, hparent, Option.filter_some, ne_eq, hne,
      not_false_eq_true, decide_true, if_true, hget id current hcurrent]
    exact hloop

end Paths

/-! ## What a file holds -/

section Loaded

variable {filePath : String} {file : List SessionTreeEntry}

/-- `remember` in the loaded storage is one more line. -/
theorem loaded_snoc (filePath : String) (file : List SessionTreeEntry) (e : SessionTreeEntry) :
    loaded filePath (file ++ [e]) = { (loaded filePath file).remember e with file := file ++ [e] } := by
  unfold loaded
  rw [List.foldl_append]
  rfl

theorem loaded_eta (filePath : String) (file : List SessionTreeEntry) :
    { loaded filePath file with file := file } = loaded filePath file := rfl

/-- The map has the entries of the file under their ids. -/
theorem get_loaded (filePath : String) (file : List SessionTreeEntry) (id : String)
    (e : SessionTreeEntry) (h : (loaded filePath file).byId.get id = some e) :
    e.id = id ∧ e ∈ file := by
  induction file using List.reverseRecOn with
  | nil => cases h
  | append_singleton file x ih =>
    rw [loaded_snoc] at h
    have hset : ((loaded filePath file).byId.set x.id x).get id = some e := h
    rw [OrdMap.get_set] at hset
    split at hset
    · rename_i hid
      obtain rfl := Option.some.inj hset
      exact ⟨hid.symm, by simp⟩
    · obtain ⟨hid, hmem⟩ := ih hset
      exact ⟨hid, List.mem_append_left _ hmem⟩

theorem open_of_valid (h : ∀ e ∈ file, e.id ≠ "" ∧ e.timestamp ≠ "") :
    «open» filePath file = .ok (loaded filePath file) := by
  have hparse : ∀ (l : List (SessionTreeEntry × Nat)), (∀ p ∈ l, p.1.id ≠ "" ∧ p.1.timestamp ≠ "") →
      (l.mapM fun p => parseEntryLine filePath p.1 (p.2 + 2)) = .ok (l.map Prod.fst) := by
    intro l hl
    induction l with
    | nil => rfl
    | cons p rest ih =>
      obtain ⟨hid, htimestamp⟩ := hl p (List.mem_cons_self ..)
      rw [List.mapM_cons, ih fun q hq => hl q (List.mem_cons_of_mem _ hq)]
      simp only [parseEntryLine, if_neg hid, if_neg htimestamp]
      rfl
  have hzip : ∀ p ∈ file.zipIdx, p.1.id ≠ "" ∧ p.1.timestamp ≠ "" := by
    intro p hp
    exact h p.1 (List.mem_of_getElem? (List.mem_zipIdx_iff_getElem?.mp hp))
  rw [«open», hparse _ hzip]
  show Except.ok _ = _
  rw [List.zipIdx_map_fst]

end Loaded

theorem generateEntryId_ne (s : JsonlStorage) (env : SessionEnv) : s.generateEntryId env ≠ "" := by
  have hne : ∀ id : String, id.length ≠ 0 → id ≠ "" := by
    rintro id hlength rfl
    exact hlength rfl
  unfold generateEntryId
  cases hfind : ((List.range 100).map fun i => lastEight (env.uuidv7 i)).find?
      (fun id => !s.byId.has id) with
  | none => exact hne _ (by rw [Option.getD_none, env.uuidv7_length]; decide)
  | some id =>
    obtain ⟨i, -, rfl⟩ := List.mem_map.mp (List.mem_of_find?_eq_some hfind)
    refine hne _ ?_
    have hlength := env.uuidv7_length i
    rw [← String.length_toList] at hlength
    rw [Option.getD_some, lastEight, String.length_ofList, List.length_drop, hlength]
    decide

end JsonlStorage

/-! ## Calls under way -/

open JsonlStorage

/-- The call has asked for its parent, and the leaf has not moved to its
entry yet. -/
def AppendPhase.between : AppendPhase → Bool
  | .reading .. | .writing _ | .written _ => true
  | _ => false

def AppendPhase.isSettled : AppendPhase → Bool
  | .settled _ => true
  | _ => false

/-- The entry follows the leaf. -/
structure SessionTreeEntry.Follows (s : JsonlStorage) (e : SessionTreeEntry) : Prop where
  id : e.id ≠ ""
  timestamp : e.timestamp ≠ ""
  fresh : s.byId.has e.id = false
  parent : e.parentId = s.currentLeafId
  leaf : leafIdAfterEntry e = some e.id

def AppendPhase.Good (s : JsonlStorage) (done : List SessionTreeEntry) : AppendPhase → Prop
  | .checking .. => True
  | .drawing id => id ≠ ""
  | .reading id leafId => id ≠ "" ∧ s.byId.has id = false ∧ leafId = .ok s.currentLeafId
  | .writing e | .written e => e.Follows s
  | .settled (.ok e) => e ∈ done
  | .settled (.error _) => True

theorem AppendPhase.Good.appendLine {s : JsonlStorage} {done : List SessionTreeEntry}
    {phase : AppendPhase} (h : phase.Good s done) (e : SessionTreeEntry) :
    phase.Good (s.appendLine e) done := by
  cases phase with
  | writing x => exact ⟨h.id, h.timestamp, h.fresh, h.parent, h.leaf⟩
  | written x => exact ⟨h.id, h.timestamp, h.fresh, h.parent, h.leaf⟩
  | settled result => cases result <;> exact h
  | _ => exact h

/-- At most one call is between its parent and the leaf. -/
def Alone (appends : List Append) : Prop :=
  ∀ (i j : Nat) (a b : Append), appends[i]? = some a → appends[j]? = some b →
    a.phase.between = true → b.phase.between = true → i = j

theorem getElem?_set_cases {α : Type} {l : List α} {i index : Nat} {b c : α}
    (hc : (l.set index b)[i]? = some c) : (i = index ∧ c = b) ∨ (i ≠ index ∧ l[i]? = some c) := by
  by_cases hi : i = index
  · subst hi
    have hlt := (List.getElem?_eq_some_iff.mp hc).1
    rw [List.length_set] at hlt
    rw [List.getElem?_set_self hlt] at hc
    exact .inl ⟨rfl, (Option.some.inj hc).symm⟩
  · rw [List.getElem?_set_ne (Ne.symm hi)] at hc
    exact .inr ⟨hi, hc⟩

theorem Alone.set {appends : List Append} {index : Nat} {a b : Append} (h : Alone appends)
    (ha : appends[index]? = some a) (hb : b.phase.between = true → a.phase.between = true ∨
      ∀ c ∈ appends, c.phase.between = false) : Alone (appends.set index b) := by
  have hother : ∀ (i : Nat) (c : Append), i ≠ index → appends[i]? = some c → b.phase.between = true →
      c.phase.between = true → False := by
    intro i c hi hc hbetween hcbetween
    rcases hb hbetween with habetween | hnone
    · exact hi (h i index c a hc ha hcbetween habetween)
    · cases (hnone c (List.mem_of_getElem? hc)).symm.trans hcbetween
  intro i j c d hc hd hcbetween hdbetween
  rcases getElem?_set_cases hc with ⟨hi, hcb⟩ | ⟨hi, hc'⟩
  · rcases getElem?_set_cases hd with ⟨hj, -⟩ | ⟨hj, hd'⟩
    · exact hi.trans hj.symm
    · exact (hother j d hj hd' (hcb ▸ hcbetween) hdbetween).elim
  · rcases getElem?_set_cases hd with ⟨-, hdb⟩ | ⟨hj, hd'⟩
    · exact (hother i c hi hc' (hdb ▸ hdbetween) hcbetween).elim
    · exact h i j c d hc' hd' hcbetween hdbetween

theorem Alone.others {appends : List Append} {index : Nat} {a b : Append} (h : Alone appends)
    (ha : appends[index]? = some a) (hbetween : a.phase.between = true) :
    ∀ c ∈ appends.set index b, c = b ∨ (c ∈ appends ∧ c.phase.between = false) := by
  intro c hc
  obtain ⟨i, hi⟩ := List.getElem?_of_mem hc
  rcases getElem?_set_cases hi with ⟨-, rfl⟩ | ⟨hne, hi⟩
  · exact .inl rfl
  · refine .inr ⟨List.mem_of_getElem? hi, ?_⟩
    by_contra hnot
    exact hne (h i index c a hi ha (by simpa using hnot) hbetween)

namespace SessionState

/-- A call asks for its parent only while no other call is between, and its
id has not been taken since it was drawn. -/
def Serial (s : SessionState) : SessionAction → Prop
  | .resume _ index =>
      match s.appends[index]?.map Append.phase with
      | some (.drawing id) =>
          s.storage.byId.has id = false ∧ ∀ b ∈ s.appends, b.phase.between = false
      | _ => True
  | _ => True

/-- The branch has grown by `done`, in memory and in the file, which may
have one line more. -/
structure OnBranch (filePath : String) (file path done extra : List SessionTreeEntry)
    (s : SessionState) : Prop where
  storage : s.storage = { loaded filePath (file ++ done) with file := file ++ done ++ extra }
  unsaved : ∀ a ∈ s.appends, ∀ e, a.phase = .written e → extra = [e]
  saved : (∀ a ∈ s.appends, ∀ e, a.phase ≠ .written e) → extra = []
  branch : s.storage.PathToRoot s.storage.currentLeafId (path ++ done)
  once : ∀ e ∈ done, (path ++ done).filter (fun x => x.id = e.id) = [e]
  valid : ∀ e ∈ file ++ done, e.id ≠ "" ∧ e.timestamp ≠ ""
  good : ∀ a ∈ s.appends, a.phase.Good s.storage done
  alone : Alone s.appends

section Step

variable {filePath : String} {file path done extra : List SessionTreeEntry} {s : SessionState}

variable {e : SessionTreeEntry}

section

variable (h : OnBranch filePath file path done extra s)
include h

theorem OnBranch.has_iff {id : String} (hget : s.storage.byId.get id = some e) :
    e.id = id ∧ e ∈ file ++ done := by
  rw [h.storage] at hget
  exact get_loaded filePath (file ++ done) id e hget

theorem OnBranch.leaf_ne :
    s.storage.currentLeafId ≠ some "" := by
  intro hleaf
  have hbranch := h.branch
  rw [hleaf] at hbranch
  obtain ⟨e, he⟩ := hbranch.has_leaf
  obtain ⟨hid, hmem⟩ := h.has_iff he
  exact (h.valid e hmem).1 hid

theorem OnBranch.getLeafId :
    s.storage.getLeafId = .ok s.storage.currentLeafId := by
  unfold JsonlStorage.getLeafId
  cases hleaf : s.storage.currentLeafId with
  | none => rfl
  | some id =>
    have hbranch := h.branch
    rw [hleaf] at hbranch
    obtain ⟨e, he⟩ := hbranch.has_leaf
    have hhas : s.storage.byId.has id = true := by rw [OrdMap.has, he]; rfl
    simp only [hhas, if_true]

/-- A call goes on without the file. -/
theorem OnBranch.setPhase {index : Nat} {a : Append} {phase : AppendPhase}
    (ha : s.appends[index]? = some a)
    (hb : phase.between = true → a.phase.between = true ∨ ∀ c ∈ s.appends, c.phase.between = false)
    (hold : ∀ e, a.phase ≠ .written e) (hnew : ∀ e, phase ≠ .written e)
    (hgood : phase.Good s.storage done) :
    OnBranch filePath file path done extra (s.setPhase index a phase) := by
  refine ⟨h.storage, ?_, ?_, h.branch, h.once, h.valid, ?_, h.alone.set ha hb⟩
  · intro b hmem e he
    rcases List.mem_or_eq_of_mem_set hmem with hmem | rfl
    · exact h.unsaved b hmem e he
    · exact absurd he (hnew e)
  · intro hnone
    refine h.saved fun b hmem e he => ?_
    obtain ⟨i, hi⟩ := List.getElem?_of_mem hmem
    by_cases heq : i = index
    · subst heq
      obtain rfl := Option.some.inj (hi.symm.trans ha)
      exact hold e he
    · refine hnone b (List.mem_of_getElem? (i := i) ?_) e he
      rw [SessionState.setPhase, List.getElem?_set_ne (Ne.symm heq)]
      exact hi
  · intro b hmem
    rcases List.mem_or_eq_of_mem_set hmem with hmem | rfl
    · exact h.good b hmem
    · exact hgood

theorem OnBranch.write {index : Nat} {a : Append} (ha : s.appends[index]? = some a)
    (hphase : a.phase = .writing e) :
    OnBranch filePath file path done [e]
      (SessionState.setPhase { s with storage := s.storage.appendLine e } index a
        (.written e)) := by
  have hothers := h.alone.others (b := { a with phase := .written e }) ha (by rw [hphase]; rfl)
  have hnone : extra = [] := by
    refine h.saved fun b hb e' he' => ?_
    obtain ⟨i, hi⟩ := List.getElem?_of_mem hb
    have heq := h.alone i index b a hi ha (by rw [he']; rfl) (by rw [hphase]; rfl)
    subst heq
    obtain rfl := Option.some.inj (hi.symm.trans ha)
    cases hphase.symm.trans he'
  have hget : ∀ id x, s.storage.byId.get id = some x →
      (s.storage.appendLine e).byId.get id = some x := fun _ _ hx => hx
  have hbranch := h.branch.mono hget
  refine ⟨?_, ?_, ?_, hbranch, h.once, h.valid, ?_, ?_⟩
  · show s.storage.appendLine e = _
    rw [h.storage, hnone, List.append_nil]
    rfl
  · intro b hb e' he'
    rcases hothers b hb with rfl | ⟨-, hfalse⟩
    · obtain rfl := AppendPhase.written.inj he'
      rfl
    · rw [he'] at hfalse
      cases hfalse
  · intro hnot
    have hlt := (List.getElem?_eq_some_iff.mp ha).1
    refine absurd rfl (hnot { a with phase := .written e } ?_ e)
    exact List.mem_of_getElem? (List.getElem?_set_self hlt)
  · intro b hb
    have hgood := h.good a (List.mem_of_getElem? ha)
    rw [hphase] at hgood
    rcases hothers b hb with rfl | ⟨hmem, -⟩
    · have hwritten : (AppendPhase.written e).Good s.storage done := hgood
      exact hwritten.appendLine e
    · exact (h.good b hmem).appendLine e
  · exact h.alone.set ha fun _ => .inl (by rw [hphase]; rfl)

/-- The call that is between becomes the leaf. -/
theorem OnBranch.remember {index : Nat} {a : Append} (ha : s.appends[index]? = some a)
    (hphase : a.phase = .written e) :
    OnBranch filePath file path (done ++ [e]) []
      (SessionState.setPhase { s with storage := s.storage.remember e } index a
        (.settled (.ok e))) := by
  have hothers := h.alone.others (b := { a with phase := .settled (.ok e) }) ha
    (by rw [hphase]; rfl)
  have hfollows : e.Follows s.storage := by
    have hgood := h.good a (List.mem_of_getElem? ha)
    rwa [hphase] at hgood
  have hleaf : (s.storage.remember e).currentLeafId = some e.id := hfollows.leaf
  have hbranch := h.branch.remember hfollows.fresh hfollows.parent h.leaf_ne
  -- the ids on the branch are taken, that of `e` is new
  have hne : ∀ x ∈ path ++ done, x.id ≠ e.id := by
    intro x hx heq
    obtain ⟨id, hget⟩ := h.branch.mem x hx
    have hfresh := hfollows.fresh
    rw [← heq, (h.has_iff hget).1, OrdMap.has, hget] at hfresh
    cases hfresh
  refine ⟨?_, ?_, fun _ => rfl, ?_, ?_, ?_, ?_, ?_⟩
  · show s.storage.remember e = _
    rw [← List.append_assoc, loaded_snoc, h.storage,
      h.unsaved a (List.mem_of_getElem? ha) e hphase, List.append_nil]
    rfl
  · intro b hb e' he'
    rcases hothers b hb with rfl | ⟨-, hfalse⟩
    · cases he'
    · rw [he'] at hfalse
      cases hfalse
  · show (s.storage.remember e).PathToRoot (s.storage.remember e).currentLeafId _
    rw [hleaf, ← List.append_assoc]
    exact hbranch
  · intro x hx
    rw [← List.append_assoc, List.filter_append]
    rcases List.mem_append.mp hx with hx | hx
    · have hxe := hne x (List.mem_append_right _ hx)
      rw [h.once x hx, List.filter_cons_of_neg (by simpa using Ne.symm hxe)]
      rfl
    · obtain rfl := List.mem_singleton.mp hx
      have hnone : (path ++ done).filter (fun y => y.id = x.id) = [] := by
        refine List.filter_eq_nil_iff.mpr fun y hy => ?_
        simpa using hne y hy
      rw [hnone, List.filter_cons_of_pos (by simp)]
      rfl
  · intro x hx
    rw [← List.append_assoc] at hx
    rcases List.mem_append.mp hx with hx | hx
    · exact h.valid x hx
    · obtain rfl := List.mem_singleton.mp hx
      exact ⟨hfollows.id, hfollows.timestamp⟩
  · intro b hb
    rcases hothers b hb with rfl | ⟨hmem, hfalse⟩
    · exact List.mem_append_right _ (List.mem_singleton_self e)
    · have hb' := h.good b hmem
      cases hb'phase : b.phase with
      | checking targetId found => trivial
      | drawing id => rwa [hb'phase] at hb'
      | settled result =>
        rw [hb'phase] at hb'
        cases result with
        | error e' => trivial
        | ok e' => exact List.mem_append_left _ hb'
      | _ =>
        rw [hb'phase] at hfalse
        cases hfalse
  · exact h.alone.set ha fun hbetween => by cases hbetween

theorem OnBranch.append (env : SessionEnv) (call : AppendCall) :
    OnBranch filePath file path done extra
      { s with appends := s.appends ++ [⟨call, call.start s.storage env⟩] } := by
  have hstart : (∃ targetId found, call.start s.storage env = .checking targetId found) ∨
      ∃ id, call.start s.storage env = .drawing id ∧ id ≠ "" := by
    cases call with
    | label targetId l => exact .inl ⟨_, _, rfl⟩
    | _ => exact .inr ⟨_, rfl, s.storage.generateEntryId_ne env⟩
  have hbetween : (call.start s.storage env).between = false := by
    rcases hstart with ⟨_, _, h⟩ | ⟨_, h, -⟩ <;> rw [h] <;> rfl
  have hmem : ∀ {P : Append → Prop}, (∀ a ∈ s.appends, P a) →
      P ⟨call, call.start s.storage env⟩ →
      ∀ a ∈ s.appends ++ [⟨call, call.start s.storage env⟩], P a := by
    intro P hold hnew a ha
    rcases List.mem_append.mp ha with ha | ha
    · exact hold a ha
    · rw [List.mem_singleton.mp ha]
      exact hnew
  refine ⟨h.storage, hmem h.unsaved ?_, ?_, h.branch, h.once, h.valid, hmem h.good ?_, ?_⟩
  · intro e he
    change call.start s.storage env = _ at he
    rw [he] at hbetween
    cases hbetween
  · exact fun hnone => h.saved fun a ha => hnone a (List.mem_append_left _ ha)
  · rcases hstart with ⟨_, _, h⟩ | ⟨_, h, hid⟩
    · show AppendPhase.Good _ _ (call.start s.storage env)
      rw [h]
      trivial
    · show AppendPhase.Good _ _ (call.start s.storage env)
      rw [h]
      exact hid
  · have hold : ∀ (i : Nat) (a : Append), (s.appends ++ [⟨call, call.start s.storage env⟩])[i]? =
        some a → a.phase.between = true → s.appends[i]? = some a := by
      intro i a ha habetween
      by_cases hi : i < s.appends.length
      · rwa [List.getElem?_append_left hi] at ha
      · rw [List.getElem?_append_right (by omega)] at ha
        rw [List.mem_singleton.mp (List.mem_of_getElem? ha)] at habetween
        cases hbetween.symm.trans habetween
    intro i j a b ha hb habetween hbbetween
    exact h.alone i j a b (hold i a ha habetween) (hold j b hb hbbetween) habetween hbbetween

theorem OnBranch.step {action : SessionAction} {s' : SessionState} (hok : s.Serial action)
    (hstep : s.step action = some s') :
    ∃ done' extra', OnBranch filePath file path done' extra' s' := by
  cases action with
  | append env call =>
    obtain rfl := Option.some.inj hstep
    exact ⟨done, extra, h.append env call⟩
  | resume env index =>
    simp only [SessionState.step] at hstep
    split at hstep
    · cases hstep
    · rename_i a ha
      have hgood := h.good a (List.mem_of_getElem? ha)
      unfold Append.resume at hstep
      cases hphase : a.phase with
      | checking targetId found =>
        rw [hphase] at hstep
        cases found with
        | false =>
          obtain rfl := Option.some.inj hstep
          exact ⟨done, extra, h.setPhase ha (fun h => by cases h)
            (fun _ he => by cases hphase.symm.trans he) (fun _ he => by cases he) trivial⟩
        | true =>
          obtain rfl := Option.some.inj hstep
          exact ⟨done, extra, h.setPhase ha (fun h => by cases h)
            (fun _ he => by cases hphase.symm.trans he) (fun _ he => by cases he)
            (s.storage.generateEntryId_ne env)⟩
      | drawing id =>
        rw [hphase] at hstep hgood
        obtain rfl := Option.some.inj hstep
        simp only [Serial, ha, Option.map_some, hphase] at hok
        obtain ⟨hfresh, hnone⟩ := hok
        exact ⟨done, extra, h.setPhase ha (fun _ => .inr hnone)
          (fun _ he => by cases hphase.symm.trans he) (fun _ he => by cases he)
          ⟨hgood, hfresh, h.getLeafId⟩⟩
      | reading id leafId =>
        rw [hphase] at hstep hgood
        obtain ⟨hid, hfresh, rfl⟩ := hgood
        obtain rfl := Option.some.inj hstep
        refine ⟨done, extra, h.setPhase ha (fun _ => .inl (by rw [hphase]; rfl))
          (fun _ he => by cases hphase.symm.trans he) (fun _ he => by cases he) ⟨hid, env.now_ne, hfresh, rfl, ?_⟩⟩
        cases a.call <;> rfl
      | writing e =>
        rw [hphase] at hstep
        cases hstep
      | written e =>
        rw [hphase] at hstep
        obtain rfl := Option.some.inj hstep
        exact ⟨done ++ [e], [], h.remember ha hphase⟩
      | settled result =>
        rw [hphase] at hstep
        cases hstep
  | write index =>
    simp only [SessionState.step] at hstep
    split at hstep
    · cases hstep
    · rename_i a ha
      split at hstep
      · rename_i e hphase
        obtain rfl := Option.some.inj hstep
        exact ⟨done, [e], h.write ha hphase⟩
      · cases hstep

end

end Step

/-! ## Every run -/

/-- A session whose file was just opened, and whose branch can be read. -/
structure Opens (filePath : String) (file path : List SessionTreeEntry) (s : SessionState) :
    Prop where
  opened : «open» filePath file = .ok s.storage
  appends : s.appends = []
  branch : s.storage.PathToRoot s.storage.currentLeafId path

theorem valid_of_open {filePath : String} {file : List SessionTreeEntry} {storage : JsonlStorage}
    (h : «open» filePath file = .ok storage) :
    storage = loaded filePath file ∧ ∀ e ∈ file, e.id ≠ "" ∧ e.timestamp ≠ "" := by
  have hparse : ∀ (l : List (SessionTreeEntry × Nat)) (es : List SessionTreeEntry),
      (l.mapM fun p => JsonlStorage.parseEntryLine filePath p.1 (p.2 + 2)) = .ok es →
        es = l.map Prod.fst ∧ ∀ p ∈ l, p.1.id ≠ "" ∧ p.1.timestamp ≠ "" := by
    intro l
    induction l with
    | nil =>
      intro es hes
      obtain rfl := Except.ok.inj hes
      exact ⟨rfl, fun p hp => by cases hp⟩
    | cons p rest ih =>
      intro es hes
      rw [List.mapM_cons] at hes
      unfold JsonlStorage.parseEntryLine at hes
      dsimp only at hes
      split at hes
      · cases hes
      · rename_i hid
        split at hes
        · cases hes
        · rename_i htimestamp
          cases hrest : (rest.mapM fun p => JsonlStorage.parseEntryLine filePath p.1 (p.2 + 2)) with
          | error e =>
            unfold JsonlStorage.parseEntryLine at hrest
            dsimp only at hrest
            rw [hrest] at hes
            cases hes
          | ok es' =>
            obtain ⟨rfl, hvalid⟩ := ih es' hrest
            unfold JsonlStorage.parseEntryLine at hrest
            dsimp only at hrest
            rw [hrest] at hes
            obtain rfl := Except.ok.inj hes
            exact ⟨rfl, List.forall_mem_cons.mpr ⟨⟨hid, htimestamp⟩, hvalid⟩⟩
  unfold «open» at h
  cases hlines : (file.zipIdx.mapM fun p => JsonlStorage.parseEntryLine filePath p.1 (p.2 + 2)) with
  | error e =>
    rw [hlines] at h
    cases h
  | ok es =>
    obtain ⟨rfl, hvalid⟩ := hparse _ es hlines
    rw [hlines] at h
    obtain rfl := Except.ok.inj h
    rw [List.zipIdx_map_fst]
    refine ⟨rfl, fun e he => ?_⟩
    obtain ⟨i, hi⟩ := List.getElem?_of_mem he
    exact hvalid (e, i) (List.mem_zipIdx_iff_getElem?.mpr hi)

theorem Opens.onBranch {filePath : String} {file path : List SessionTreeEntry} {s : SessionState}
    (h : s.Opens filePath file path) : OnBranch filePath file path [] [] s := by
  obtain ⟨hstorage, hvalid⟩ := valid_of_open h.opened
  have hnone : ∀ a, a ∉ s.appends := by
    rw [h.appends]
    exact fun a => List.not_mem_nil
  refine ⟨?_, fun a ha => absurd ha (hnone a), fun _ => rfl, ?_, fun e he => ?_, ?_,
    fun a ha => absurd ha (hnone a), fun i j a b ha => ?_⟩
  · simp only [List.append_nil]
    exact hstorage.trans (loaded_eta filePath file).symm
  · rw [List.append_nil]
    exact h.branch
  · cases he
  · rwa [List.append_nil]
  · exact absurd (List.mem_of_getElem? ha) (hnone a)

/-- Appends that do not overlap between reading their parent and moving the
leaf end on one branch, and the file opens to the same session. -/
theorem appends_on_branch {filePath : String} {file path : List SessionTreeEntry}
    {s s' : SessionState} (hopens : s.Opens filePath file path)
    (hrun : Machine.Reaches step Serial s s')
    (hsettled : ∀ a ∈ s'.appends, a.phase.isSettled = true) :
    (∃ branch, s'.storage.PathToRoot s'.storage.currentLeafId branch ∧ path <+: branch ∧
      ∀ a ∈ s'.appends, ∀ e, a.phase = .settled (.ok e) →
        branch.filter (fun x => x.id = e.id) = [e]) ∧
    «open» filePath s'.storage.file = .ok s'.storage := by
  obtain ⟨done, extra, h⟩ := hrun.invariant
    (I := fun s => ∃ done extra, OnBranch filePath file path done extra s)
    ⟨[], [], hopens.onBranch⟩ fun s a s' ⟨_, _, hs⟩ hok hstep => hs.step hok hstep
  have hextra : extra = [] := by
    refine h.saved fun a ha e he => ?_
    have hresult := hsettled a ha
    rw [he] at hresult
    cases hresult
  refine ⟨⟨path ++ done, h.branch, List.prefix_append _ _, ?_⟩, ?_⟩
  · intro a ha e he
    have hgood := h.good a ha
    rw [he] at hgood
    exact h.once e hgood
  · have hstorage := h.storage
    rw [hextra, List.append_nil] at hstorage
    rw [hstorage]
    exact open_of_valid h.valid

/-! ## Two runs -/

instance (s : SessionState) (a : SessionAction) : Decidable (s.Serial a) := by
  unfold SessionState.Serial
  split
  · split <;> infer_instance
  · infer_instance

def created : SessionState := ⟨.create "session.jsonl", []⟩

theorem created_opens : created.Opens "session.jsonl" [] [] := ⟨rfl, rfl, 0, rfl⟩

def envWith (uuid : String) (h : uuid.length = 36) : SessionEnv where
  now := "2026-01-01T00:00:00.000Z"
  uuidv7 := fun _ => uuid
  now_ne := by decide
  uuidv7_length := fun _ => h

def envA : SessionEnv := envWith "019b7000-0000-7000-8000-00000000000a" (by decide)

def envB : SessionEnv := envWith "019b7000-0000-7000-8000-00000000000b" (by decide)

def twoCalls : List SessionAction :=
  [.append envA (.thinkingLevelChange "high"), .append envB (.modelChange "p" "m")]

/-- The second one reads its parent when the first one has settled. -/
def serialActions : List SessionAction :=
  twoCalls ++ [.resume envA 0, .resume envA 0, .write 0, .resume envA 0, .resume envB 1,
    .resume envB 1, .write 1, .resume envB 1]

/-- Both read their parent, then both are written, then both continue, in
either order. -/
def overlappingActions (first second : Nat) : List SessionAction :=
  twoCalls ++ [.resume envA 0, .resume envB 1, .resume envA 0, .resume envB 1, .write 0, .write 1,
    .resume envA first, .resume envB second]

def entryA : SessionTreeEntry :=
  ⟨"0000000a", none, "2026-01-01T00:00:00.000Z", .entry (.thinkingLevelChange "high")⟩

def entryB : SessionTreeEntry :=
  ⟨"0000000b", none, "2026-01-01T00:00:00.000Z", .entry (.modelChange "p" "m")⟩

theorem settled_of_phases {s : SessionState} (results : List (Except SessionError SessionTreeEntry))
    (h : s.appends.map (·.phase) = results.map .settled) :
    ∀ a ∈ s.appends, a.phase.isSettled = true := by
  intro a ha
  have hmem : a.phase ∈ s.appends.map (·.phase) := List.mem_map_of_mem ha
  rw [h] at hmem
  obtain ⟨result, -, hresult⟩ := List.mem_map.mp hmem
  rw [← hresult]
  rfl

theorem appends_on_branch_serial : ∃ s' : SessionState,
    s'.appends.map (·.phase) =
        [.settled (.ok entryA), .settled (.ok { entryB with parentId := some entryA.id })] ∧
      ∃ branch, s'.storage.PathToRoot s'.storage.currentLeafId branch ∧
        branch.filter (fun x => x.id = entryA.id) = [entryA] := by
  have hrun : (Machine.run step Serial created serialActions).any (fun s =>
      decide (s.appends.map (·.phase) = [.settled (.ok entryA),
        .settled (.ok { entryB with parentId := some entryA.id })])) = true := by
    decide +kernel
  obtain ⟨s', hs', hphases⟩ := (Option.any_eq_true ..).mp hrun
  have hphases := of_decide_eq_true hphases
  have hsettled := settled_of_phases
    [.ok entryA, .ok { entryB with parentId := some entryA.id }] hphases
  obtain ⟨⟨branch, hbranch, -, honce⟩, -⟩ :=
    appends_on_branch created_opens (Machine.reaches_of_run hs') hsettled
  have hmem : AppendPhase.settled (.ok entryA) ∈ s'.appends.map (·.phase) := by
    rw [hphases]
    exact List.mem_cons_self ..
  obtain ⟨a, ha, hphase⟩ := List.mem_map.mp hmem
  exact ⟨s', hphases, branch, hbranch, honce a ha entryA hphase⟩

/-- Two overlapping calls: the first entry is not on the branch; and when
they continue in the other order, the file opens to another leaf. -/
theorem overlapping_appends_part :
    (∃ s' : SessionState, Machine.Reaches step (fun _ _ => True) created s' ∧
      s'.appends.map (·.phase) = [.settled (.ok entryA), .settled (.ok entryB)] ∧
      ∀ branch, s'.storage.PathToRoot s'.storage.currentLeafId branch → entryA ∉ branch) ∧
    ∃ (s' : SessionState) (storage : JsonlStorage), Machine.Reaches step (fun _ _ => True) created s' ∧
      s'.appends.map (·.phase) = [.settled (.ok entryA), .settled (.ok entryB)] ∧
      «open» "session.jsonl" s'.storage.file = .ok storage ∧
      storage.currentLeafId ≠ s'.storage.currentLeafId := by
  constructor
  · have hrun : (Machine.run step (fun _ _ => True) created (overlappingActions 0 1)).any (fun s =>
        decide (s.appends.map (·.phase) = [.settled (.ok entryA), .settled (.ok entryB)] ∧
          s.storage.getPathToRoot 1 s.storage.currentLeafId = some (.ok [entryB]))) = true := by
      decide +kernel
    obtain ⟨s', hs', hfacts⟩ := (Option.any_eq_true ..).mp hrun
    obtain ⟨hphases, hpath⟩ := of_decide_eq_true hfacts
    refine ⟨s', Machine.reaches_of_run hs', hphases, fun branch hbranch => ?_⟩
    rw [hbranch.unique hpath]
    decide
  · have hrun : (Machine.run step (fun _ _ => True) created (overlappingActions 1 0)).any (fun s =>
        decide (s.appends.map (·.phase) = [.settled (.ok entryA), .settled (.ok entryB)] ∧
          s.storage.file = [entryA, entryB] ∧
          s.storage.currentLeafId = some entryA.id)) = true := by
      decide +kernel
    obtain ⟨s', hs', hfacts⟩ := (Option.any_eq_true ..).mp hrun
    obtain ⟨hphases, hfile, hleaf⟩ := of_decide_eq_true hfacts
    refine ⟨s', loaded "session.jsonl" [entryA, entryB], Machine.reaches_of_run hs', hphases, ?_, ?_⟩
    · rw [hfile]
      rfl
    · rw [hleaf]
      decide

end SessionState

end Eagent
