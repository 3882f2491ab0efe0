import Eagent.HarnessSession
import Eagent.SessionAppends

/-!
# Forking a session

The file of a session is a tree written parents first (`TreeFile`), so the
path to an entry is a part of the file, itself such a tree, and replaying it
gives a session in which every entry of the path has the path it had. The
leaf after the replay is where the last entry leaves it: at itself, unless
it is a leaf entry.
-/

namespace Eagent

namespace JsonlStorage

open HarnessSession

/-! ## Files -/

/-- Entries under new ids, each after its parent. -/
inductive TreeFile : List SessionTreeEntry → Prop
  | nil : TreeFile []
  | snoc {file : List SessionTreeEntry} {e : SessionTreeEntry} (h : TreeFile file) (id : e.id ≠ "")
      (timestamp : e.timestamp ≠ "") (fresh : ∀ x ∈ file, x.id ≠ e.id)
      (parent : ∀ p ∈ e.parentId, ∃ x ∈ file, x.id = p) : TreeFile (file ++ [e])

namespace TreeFile

variable {file path : List SessionTreeEntry} {e : SessionTreeEntry}

section

variable (h : TreeFile file)
include h

theorem valid : ∀ e ∈ file, e.id ≠ "" ∧ e.timestamp ≠ "" := by
  induction h with
  | nil => exact fun e he => nomatch he
  | snoc _ id timestamp _ _ ih =>
    intro x hx
    rcases List.mem_append.mp hx with hx | hx
    · exact ih x hx
    · obtain rfl := List.mem_singleton.mp hx
      exact ⟨id, timestamp⟩

theorem parents : ∀ e ∈ file, ∀ p ∈ e.parentId, ∃ x ∈ file, x.id = p := by
  induction h with
  | nil => exact fun e he => nomatch he
  | @snoc file last _ _ _ _ parent ih =>
    intro e he p hp
    have hfound : ∃ x ∈ file, x.id = p := by
      rcases List.mem_append.mp he with he | he
      · exact ih e he p hp
      · obtain rfl := List.mem_singleton.mp he
        exact parent p hp
    obtain ⟨x, hx, hid⟩ := hfound
    exact ⟨x, List.mem_append_left _ hx, hid⟩

theorem ids : (file.map SessionTreeEntry.id).Nodup := by
  induction h with
  | nil => exact List.nodup_nil
  | snoc _ _ _ fresh _ ih =>
    rw [List.map_append, List.map_singleton, List.nodup_append]
    refine ⟨ih, List.nodup_singleton _, ?_⟩
    intro a ha b hb hab
    obtain ⟨x, hx, rfl⟩ := List.mem_map.mp ha
    exact fresh x hx (hab.trans (List.mem_singleton.mp hb))

/-- An entry is found under its id. -/
theorem get (filePath : String) (he : e ∈ file) :
    (loaded filePath file).byId.get e.id = some e := by
  induction h with
  | nil => cases he
  | @snoc file last _ _ _ fresh _ ih =>
    have hget : (loaded filePath (file ++ [last])).byId =
        (loaded filePath file).byId.set last.id last := by
      rw [loaded_snoc]
      rfl
    rw [hget]
    rcases List.mem_append.mp he with he | he
    · rw [OrdMap.get_set_ne _ (fresh e he), ih he]
    · obtain rfl := List.mem_singleton.mp he
      exact OrdMap.get_set_self ..

theorem has (filePath : String) (id : String) :
    (loaded filePath file).byId.has id = true ↔ ∃ x ∈ file, x.id = id := by
  constructor
  · intro hhas
    obtain ⟨x, hx⟩ := Option.isSome_iff_exists.mp hhas
    obtain ⟨hid, hmem⟩ := get_loaded filePath file id x hx
    exact ⟨x, hmem, hid⟩
  · rintro ⟨x, hx, rfl⟩
    rw [OrdMap.has, h.get filePath hx]
    rfl

end

end TreeFile

/-! ## Branches -/

/-- `path` leads from the root of the file to an entry. -/
inductive Branch (file : List SessionTreeEntry) : SessionTreeEntry → List SessionTreeEntry → Prop
  | root {e : SessionTreeEntry} (he : e ∈ file) (h : e.parentId = none) : Branch file e [e]
  | child {e parent : SessionTreeEntry} {path : List SessionTreeEntry} (h : Branch file parent path)
      (he : e ∈ file) (hparent : e.parentId = some parent.id) : Branch file e (path ++ [e])

namespace Branch

variable {file file' path : List SessionTreeEntry} {e : SessionTreeEntry}

section

variable (h : Branch file e path)
include h

theorem mem : e ∈ file := by
  cases h with
  | root he _ => exact he
  | child _ he _ => exact he

theorem last : path.getLast? = some e := by
  cases h with
  | root _ _ => rfl
  | child _ _ _ => exact List.getLast?_concat ..

theorem mem_path : e ∈ path := List.mem_of_getLast? h.last

theorem sub : ∀ x ∈ path, x ∈ file := by
  induction h with
  | root he _ =>
    intro x hx
    obtain rfl := List.mem_singleton.mp hx
    exact he
  | child _ he _ ih =>
    intro x hx
    rcases List.mem_append.mp hx with hx | hx
    · exact ih x hx
    · obtain rfl := List.mem_singleton.mp hx
      exact he

theorem mono (hsub : ∀ x ∈ file, x ∈ file') : Branch file' e path := by
  induction h with
  | root he hroot => exact .root (hsub _ he) hroot
  | child _ he hparent ih => exact ih.child (hsub _ he) hparent

theorem restrict : Branch path e path := by
  induction h with
  | root _ hroot => exact .root (List.mem_singleton_self _) hroot
  | child _ _ hparent ih =>
    exact (ih.mono fun x hx => List.mem_append_left _ hx).child
      (List.mem_append_right _ (List.mem_singleton_self _)) hparent

/-- The entries of a path have its beginnings for their paths. -/
theorem upTo :
    ∀ x ∈ path, ∃ before, before <+: path ∧ Branch file x before := by
  induction h with
  | root he hroot =>
    intro x hx
    obtain rfl := List.mem_singleton.mp hx
    exact ⟨_, List.prefix_refl _, .root he hroot⟩
  | child h he hparent ih =>
    intro x hx
    rcases List.mem_append.mp hx with hx | hx
    · obtain ⟨before, hprefix, hbefore⟩ := ih x hx
      exact ⟨before, hprefix.trans (List.prefix_append _ _), hbefore⟩
    · obtain rfl := List.mem_singleton.mp hx
      exact ⟨_, List.prefix_refl _, h.child he hparent⟩

theorem pathLoop (hfile : TreeFile file) (filePath : String) {n : Nat} (hn : path.length ≤ n)
    (acc : List SessionTreeEntry) :
    (loaded filePath file).pathLoop n e acc = some (.ok (path ++ acc)) := by
  induction h generalizing n acc with
  | root he hroot =>
    obtain ⟨n, rfl⟩ : ∃ k, n = k + 1 := Nat.exists_eq_succ_of_ne_zero fun h0 => by simp [h0] at hn
    simp only [JsonlStorage.pathLoop, hroot, Option.filter_none]
    rfl
  | @child e parent path h he hparent ih =>
    rw [List.length_append, List.length_singleton] at hn
    obtain ⟨n, rfl⟩ : ∃ k, n = k + 1 := Nat.exists_eq_succ_of_ne_zero fun h0 => by omega
    have hid : parent.id ≠ "" := (hfile.valid parent h.mem).1
    have hloop := ih (Nat.le_of_succ_le_succ hn) (e :: acc)
    simp only [JsonlStorage.pathLoop, hparent, Option.filter_some, ne_eq, hid, not_false_eq_true,
      decide_true, if_true, hfile.get filePath h.mem, hloop]
    rw [List.append_assoc, List.singleton_append]

theorem getPathToRoot (hfile : TreeFile file) (filePath : String) {fuel : Nat}
    (hfuel : path.length ≤ fuel) :
    (loaded filePath file).getPathToRoot fuel (some e.id) = some (.ok path) := by
  simp only [JsonlStorage.getPathToRoot, hfile.get filePath h.mem,
    h.pathLoop hfile filePath hfuel []]
  rw [List.append_nil]

end

end Branch

namespace TreeFile

variable {file path : List SessionTreeEntry} {e : SessionTreeEntry}

theorem branch (h : TreeFile file) : ∀ e ∈ file, ∃ path, Branch file e path ∧ path.Sublist file := by
  induction h with
  | nil => exact fun e he => nomatch he
  | @snoc file last _ _ _ _ parent ih =>
    have hsub : ∀ x ∈ file, x ∈ file ++ [last] := fun x hx => List.mem_append_left _ hx
    intro e he
    rcases List.mem_append.mp he with hold | hnew
    · obtain ⟨path, hpath, hsublist⟩ := ih e hold
      exact ⟨path, hpath.mono hsub, hsublist.trans (List.sublist_append_left _ _)⟩
    · obtain rfl := List.mem_singleton.mp hnew
      cases hparent : e.parentId with
      | none => exact ⟨[e], .root he hparent, List.sublist_append_right _ _⟩
      | some p =>
        obtain ⟨x, hx, rfl⟩ := parent p hparent
        obtain ⟨path, hpath, hsublist⟩ := ih x hx
        exact ⟨path ++ [e], (hpath.mono hsub).child he hparent,
          hsublist.append (List.Sublist.refl _)⟩

theorem of_branch (hfile : TreeFile file) (h : Branch file e path) (hsub : path.Sublist file) :
    TreeFile path := by
  have hnodup := hfile.ids.sublist (hsub.map SessionTreeEntry.id)
  induction h with
  | root he hroot =>
    obtain ⟨hid, htimestamp⟩ := hfile.valid _ he
    refine TreeFile.nil.snoc hid htimestamp (fun x hx => nomatch hx) ?_
    rw [hroot]
    exact fun p hp => nomatch hp
  | @child e parent path h he hparent ih =>
    obtain ⟨hid, htimestamp⟩ := hfile.valid _ he
    rw [List.map_append, List.map_singleton, List.nodup_append] at hnodup
    have htree := ih ((List.sublist_append_left _ _).trans hsub) hnodup.1
    refine htree.snoc hid htimestamp (fun x hx heq => ?_) fun p hp => ?_
    · exact hnodup.2.2 x.id (List.mem_map_of_mem hx) e.id (List.mem_singleton_self _) heq
    · obtain rfl : parent.id = p := Option.some.inj (hparent.symm.trans hp)
      exact ⟨parent, h.mem_path, rfl⟩

end TreeFile

/-! ## Calls -/

theorem entries_loaded (filePath : String) (file : List SessionTreeEntry) :
    (loaded filePath file).entries = file := by
  induction file using List.reverseRecOn with
  | nil => rfl
  | append_singleton file e ih =>
    rw [loaded_snoc]
    exact congrArg (· ++ [e]) ih

theorem foldl_appendEntry (filePath : String) (entries : List SessionTreeEntry) :
    entries.foldl appendEntry (create filePath) = loaded filePath entries := by
  induction entries using List.reverseRecOn with
  | nil => rfl
  | append_singleton entries e ih =>
    rw [List.foldl_append, ih, loaded_snoc]
    rfl

theorem generateEntryId_fresh {s : JsonlStorage} {env : SessionEnv}
    (h : s.byId.has (env.uuidv7 100) = false) : s.byId.has (s.generateEntryId env) = false := by
  unfold generateEntryId
  cases hfind : ((List.range 100).map fun i => lastEight (env.uuidv7 i)).find?
      (fun id => !s.byId.has id) with
  | none => exact h
  | some id => simpa using List.find?_some hfind

/-- One of the calls of `Session` that write. -/
inductive SessionOp where
  | append (env : SessionEnv) (call : AppendCall)
  | moveTo (env later : SessionEnv) (entryId : Option String) (summary : Option BranchSummary)

def call (s : JsonlStorage) : SessionOp → Except SessionError JsonlStorage
  | .append env call => s.append env call
  | .moveTo env later entryId summary => s.moveTo env later entryId summary

def callStep (s : JsonlStorage) (op : SessionOp) : Option JsonlStorage :=
  some ((s.call op).toOption.getD s)

/-- The long ids are new. -/
def DrawsNew (s : JsonlStorage) : SessionOp → Prop
  | .append env _ => s.byId.has (env.uuidv7 100) = false
  | .moveTo env later entryId _ => s.byId.has (env.uuidv7 100) = false ∧
      ∀ moved, s.setLeafId env entryId = .ok moved → moved.byId.has (later.uuidv7 100) = false

/-- The session is what its file holds, a tree with the leaf in it. -/
structure Rooted (s : JsonlStorage) : Prop where
  tree : TreeFile s.file
  storage : s = loaded s.filePath s.file
  leaf : ∀ id ∈ s.currentLeafId, ∃ x ∈ s.file, x.id = id

namespace Rooted

variable {s t : JsonlStorage}

theorem has (h : s.Rooted) (id : String) : s.byId.has id = true ↔ ∃ x ∈ s.file, x.id = id := by
  rw [h.storage]
  exact h.tree.has s.filePath id

theorem getLeafId (h : s.Rooted) : s.getLeafId = .ok s.currentLeafId := by
  unfold JsonlStorage.getLeafId
  cases hleaf : s.currentLeafId with
  | none => rfl
  | some id =>
    simp only [(h.has id).mpr (h.leaf id hleaf), if_true]

theorem appendEntry (h : s.Rooted) {e : SessionTreeEntry} (hid : e.id ≠ "")
    (htimestamp : e.timestamp ≠ "") (hfresh : s.byId.has e.id = false)
    (hparent : ∀ p ∈ e.parentId, ∃ x ∈ s.file, x.id = p)
    (hleaf : ∀ id ∈ leafIdAfterEntry e, ∃ x ∈ s.file ++ [e], x.id = id) :
    (s.appendEntry e).Rooted where
  tree := by
    refine h.tree.snoc hid htimestamp (fun x hx heq => ?_) hparent
    rw [(h.has e.id).mpr ⟨x, hx, heq⟩] at hfresh
    cases hfresh
  storage := by
    have hfile : (s.appendEntry e).file = s.file ++ [e] := rfl
    have hpath : (s.appendEntry e).filePath = s.filePath := rfl
    rw [hfile, hpath, loaded_snoc, ← h.storage]
    rfl
  leaf := hleaf

variable {env : SessionEnv}

theorem setLeafId (h : s.Rooted) {leafId : Option String}
    (hfresh : s.byId.has (env.uuidv7 100) = false) (hset : s.setLeafId env leafId = .ok t) :
    t.Rooted ∧ t.currentLeafId = leafId := by
  unfold JsonlStorage.setLeafId at hset
  split at hset
  · cases hset
  · rename_i hfilter
    obtain rfl := Except.ok.inj hset
    refine ⟨h.appendEntry (s.generateEntryId_ne env) env.now_ne (generateEntryId_fresh hfresh)
      h.leaf fun id hid => ?_, rfl⟩
    rw [Option.filter_eq_none_iff] at hfilter
    have hhas : s.byId.has id = true := by simpa using hfilter id hid
    obtain ⟨x, hx, hxid⟩ := (h.has id).mp hhas
    exact ⟨x, List.mem_append_left _ hx, hxid⟩

theorem appendNew (h : s.Rooted) {body : TreeEntryBody}
    (hfresh : s.byId.has (env.uuidv7 100) = false) (hbody : ∀ target, body ≠ .leaf target) :
    (s.appendEntry ⟨s.generateEntryId env, s.currentLeafId, env.now, body⟩).Rooted := by
  refine h.appendEntry (s.generateEntryId_ne env) env.now_ne (generateEntryId_fresh hfresh) h.leaf ?_
  intro id hid
  refine ⟨_, List.mem_append_right _ (List.mem_singleton_self _), ?_⟩
  cases body with
  | leaf target => exact absurd rfl (hbody target)
  | entry _ => exact Option.some.inj hid
  | activeToolsChange _ => exact Option.some.inj hid

theorem append (h : s.Rooted) {c : AppendCall} (hfresh : s.byId.has (env.uuidv7 100) = false)
    (happend : s.append env c = .ok t) :
    t.Rooted := by
  have hbody : ∀ target, c.body ≠ .leaf target := by
    cases c <;> exact fun _ hbody => nomatch hbody
  unfold JsonlStorage.append at happend
  cases hcheck : s.checkCall c with
  | error e =>
    rw [hcheck] at happend
    cases happend
  | ok u =>
    rw [hcheck, h.getLeafId] at happend
    obtain rfl := Except.ok.inj happend
    exact h.appendNew hfresh hbody

theorem moveTo (h : s.Rooted) {env later : SessionEnv} {entryId : Option String}
    {summary : Option BranchSummary} (hfresh : s.byId.has (env.uuidv7 100) = false)
    (hlater : ∀ moved, s.setLeafId env entryId = .ok moved →
      moved.byId.has (later.uuidv7 100) = false)
    (hmove : s.moveTo env later entryId summary = .ok t) : t.Rooted := by
  unfold JsonlStorage.moveTo at hmove
  cases hset : s.setLeafId env entryId with
  | error e =>
    rw [hset] at hmove
    cases hmove
  | ok moved =>
    rw [hset] at hmove
    obtain ⟨hmoved, hleaf⟩ := h.setLeafId hfresh hset
    cases summary with
    | none =>
      obtain rfl := Except.ok.inj hmove
      exact hmoved
    | some b =>
      obtain rfl := Except.ok.inj hmove
      have hbody : ∀ target, TreeEntryBody.entry (.branchSummary (entryId.getD "root") b.summary
          b.details b.fromHook) ≠ .leaf target := fun _ hbody => nomatch hbody
      have hrooted := hmoved.appendNew (hlater moved hset) hbody
      rw [hleaf] at hrooted
      exact hrooted

theorem callStep (h : s.Rooted) {op : SessionOp} (hnew : s.DrawsNew op)
    (hstep : s.callStep op = some t) : t.Rooted := by
  obtain rfl := Option.some.inj hstep
  cases hcall : s.call op with
  | error e => exact h
  | ok t =>
    cases op with
    | append env c => exact h.append hnew hcall
    | moveTo env later entryId summary => exact h.moveTo hnew.1 hnew.2 hcall

theorem of_reaches {filePath : String}
    (h : Machine.Reaches JsonlStorage.callStep DrawsNew (create filePath) s) : s.Rooted :=
  h.invariant ⟨.nil, rfl, fun _ h => nomatch h⟩ fun _ _ _ hs hok hstep => hs.callStep hok hstep

end Rooted

/-! ## The fork -/

/-- Every parent is present, and the leaf. -/
structure Sound (s : JsonlStorage) : Prop where
  parents : ∀ e ∈ s.entries, ∀ p ∈ e.parentId, s.byId.has p = true
  leaf : ∀ id ∈ s.currentLeafId, s.byId.has id = true

def forkLeaf (s : JsonlStorage) (options : ForkOptions) : Except SessionError (Option String) :=
  match options.entryId.filter truthy with
  | none => .ok s.currentLeafId
  | some id => s.effectiveLeafId id (options.position.getD .before)

/-- `t` is the conversation of `s` at `leafId`, and without an `entryId` all
of the session. -/
structure ForkOf (s : JsonlStorage) (build : ContextBuildOptions) (fuel : Nat)
    (options : ForkOptions) (leafId : Option String) (t : JsonlStorage) : Prop where
  sound : t.Sound
  context : ∃ context, t.buildContext build fuel = some (.ok context) ∧
    s.contextAt build fuel leafId = some (.ok context)
  whole : options.entryId.filter truthy = none →
    t.entries = s.entries ∧ t.labelsById = s.labelsById ∧ t.currentLeafId = s.currentLeafId

/-- A leaf entry that is forked at points to the root or to an entry of its
own branch, where the context is the same. -/
def LeafAgrees (s : JsonlStorage) (build : ContextBuildOptions) (fuel : Nat)
    (options : ForkOptions) (leafId : Option String) : Prop :=
  options.entryId.filter truthy ≠ none → ∀ id ∈ leafId, ∀ e, s.byId.get id = some e →
    ∀ target, e.body = .leaf target →
      (∀ x ∈ target, ∃ path, s.PathToRoot leafId path ∧ x ∈ path.map SessionTreeEntry.id) ∧
      s.contextAt build fuel target = s.contextAt build fuel leafId

namespace TreeFile

variable {file : List SessionTreeEntry}

theorem sound (h : TreeFile file) {filePath : String}
    (hleaf : ∀ id ∈ (loaded filePath file).currentLeafId, ∃ x ∈ file, x.id = id) :
    (loaded filePath file).Sound where
  parents e he p hp := by
    rw [entries_loaded] at he
    exact (h.has filePath p).mpr (h.parents e he p hp)
  leaf id hid := (h.has filePath id).mpr (hleaf id hid)

end TreeFile

namespace Branch

variable {file path : List SessionTreeEntry} {e : SessionTreeEntry}

variable {fuel : Nat}

section

variable (h : Branch file e path)
include h

theorem contextAt (hfile : TreeFile file) (filePath : String) (build : ContextBuildOptions)
    (hfuel : path.length ≤ fuel) :
    (loaded filePath file).contextAt build fuel (some e.id) =
      some (.ok (HarnessSession.buildSessionContext build path)) := by
  rw [JsonlStorage.contextAt, h.getPathToRoot hfile filePath hfuel]
  rfl

theorem contextAt_replay (hfile : TreeFile file) (hpath : TreeFile path)
    (filePath forkPath : String) (build : ContextBuildOptions) (hfuel : path.length ≤ fuel)
    {x : SessionTreeEntry} (hx : x ∈ path) :
    ∃ context, (loaded forkPath path).contextAt build fuel (some x.id) = some (.ok context) ∧
      (loaded filePath file).contextAt build fuel (some x.id) = some (.ok context) := by
  obtain ⟨before, hprefix, hbefore⟩ := h.upTo x hx
  obtain ⟨before', hprefix', hbefore'⟩ := h.restrict.upTo x hx
  have hlength : before.length ≤ fuel := Nat.le_trans hprefix.length_le hfuel
  have hlength' : before'.length ≤ fuel := Nat.le_trans hprefix'.length_le hfuel
  have hlarge := (hbefore'.mono h.sub).pathLoop hfile filePath hlength' []
  rw [hbefore.pathLoop hfile filePath hlength []] at hlarge
  have hsame : before = before' := by simpa using hlarge
  subst hsame
  exact ⟨_, hbefore'.contextAt hpath forkPath build hlength,
    hbefore.contextAt hfile filePath build hlength⟩

theorem replay_leaf (forkPath : String) :
    (loaded forkPath path).currentLeafId = leafIdAfterEntry e := by
  obtain ⟨before, rfl⟩ := List.getLast?_eq_some_iff.mp h.last
  rw [loaded_snoc]
  rfl

/-- When the replayed path has the leaf, the fork's context is the one the
leaf has in the file. -/
theorem replay_context (hfile : TreeFile file) (hpath : TreeFile path) (filePath forkPath : String)
    (build : ContextBuildOptions) (hfuel : path.length ≤ fuel)
    (hleaf : ∀ x ∈ leafIdAfterEntry e, x ∈ path.map SessionTreeEntry.id) :
    ∃ context, (loaded forkPath path).buildContext build fuel = some (.ok context) ∧
      (loaded filePath file).contextAt build fuel (leafIdAfterEntry e) = some (.ok context) := by
  unfold buildContext getLeafId
  rw [h.replay_leaf]
  cases hafter : leafIdAfterEntry e with
  | none => exact ⟨_, rfl, rfl⟩
  | some id =>
    obtain ⟨x, hx, rfl⟩ := List.mem_map.mp (hleaf id hafter)
    simp only [(hpath.has forkPath x.id).mpr ⟨x, hx, rfl⟩, if_true]
    exact h.contextAt_replay hfile hpath filePath forkPath build hfuel hx

/-- Exactly when a path replays to the same conversation. -/
theorem forkOf_iff (hfile : TreeFile file) (hpath : TreeFile path) (filePath forkPath : String)
    (build : ContextBuildOptions) (hfuel : path.length ≤ fuel) {options : ForkOptions}
    (hoptions : options.entryId.filter truthy ≠ none) :
    (loaded filePath file).ForkOf build fuel options (some e.id) (loaded forkPath path) ↔
      (∀ x ∈ leafIdAfterEntry e, x ∈ path.map SessionTreeEntry.id) ∧
      (loaded filePath file).contextAt build fuel (leafIdAfterEntry e) =
        (loaded filePath file).contextAt build fuel (some e.id) := by
  constructor
  · intro hfork
    have hleaf : ∀ x ∈ leafIdAfterEntry e, x ∈ path.map SessionTreeEntry.id := by
      intro x hx
      rw [← h.replay_leaf forkPath] at hx
      obtain ⟨y, hy, rfl⟩ := (hpath.has forkPath x).mp (hfork.sound.leaf x hx)
      exact List.mem_map_of_mem hy
    refine ⟨hleaf, ?_⟩
    obtain ⟨context, hfork, hfrom⟩ := hfork.context
    obtain ⟨context', hreplay, hat⟩ :=
      h.replay_context hfile hpath filePath forkPath build hfuel hleaf
    rw [hat, hfrom, ← hreplay, hfork]
  · rintro ⟨hleaf, hsame⟩
    refine ⟨hpath.sound fun id hid => ?_, ?_, fun hnone => absurd hnone hoptions⟩
    · rw [h.replay_leaf] at hid
      obtain ⟨x, hx, hxid⟩ := List.mem_map.mp (hleaf id hid)
      exact ⟨x, hx, hxid⟩
    · rw [← hsame]
      exact h.replay_context hfile hpath filePath forkPath build hfuel hleaf

end

end Branch

namespace Rooted

variable {s : JsonlStorage}

variable {options : ForkOptions} {leafId : Option String}

/-- A valid target gives the root or an entry. -/
theorem forkLeaf_mem (h : s.Rooted) (htarget : s.forkLeaf options = .ok leafId) :
    ∀ id ∈ leafId, ∃ x ∈ s.file, x.id = id := by
  unfold forkLeaf at htarget
  split at htarget
  · obtain rfl := Except.ok.inj htarget
    exact h.leaf
  · unfold effectiveLeafId at htarget
    split at htarget
    · cases htarget
    · rename_i target hget
      rw [h.storage] at hget
      obtain ⟨-, hmem⟩ := get_loaded _ _ _ _ hget
      split at htarget
      · obtain rfl := Except.ok.inj htarget
        intro id hid
        obtain rfl := Option.some.inj hid
        exact ⟨target, hmem, rfl⟩
      · split at htarget
        · obtain rfl := Except.ok.inj htarget
          exact h.tree.parents target hmem
        · cases htarget

variable {fuel : Nat}

/-- The context at the root or at an entry, in the session or in a copy. -/
theorem contextAt (h : s.Rooted) (forkPath : String) (build : ContextBuildOptions)
    (hfuel : s.file.length ≤ fuel) (hleaf : ∀ id ∈ leafId, ∃ x ∈ s.file, x.id = id) :
    ∃ context, (loaded forkPath s.file).contextAt build fuel leafId = some (.ok context) ∧
      s.contextAt build fuel leafId = some (.ok context) := by
  rw [h.storage]
  cases leafId with
  | none => exact ⟨_, rfl, rfl⟩
  | some id =>
    obtain ⟨e, he, rfl⟩ := hleaf id rfl
    obtain ⟨path, hpath, hsub⟩ := h.tree.branch e he
    have hlength : path.length ≤ fuel := Nat.le_trans hsub.length_le hfuel
    exact ⟨_, hpath.contextAt h.tree forkPath build hlength,
      hpath.contextAt h.tree s.filePath build hlength⟩

theorem loaded_filePath (filePath forkPath : String) (file : List SessionTreeEntry) :
    loaded forkPath file = { loaded filePath file with filePath := forkPath } := by
  induction file using List.reverseRecOn with
  | nil => rfl
  | append_singleton file e ih =>
    rw [loaded_snoc, loaded_snoc, ih]
    rfl

/-- Without an `entryId` all of the session is replayed. -/
theorem fork_whole (h : s.Rooted) (hoptions : options.entryId.filter truthy = none)
    (forkPath : String) (build : ContextBuildOptions) (hfuel : s.file.length ≤ fuel) :
    fork s.filePath s.file fuel forkPath options = some (.ok (loaded forkPath s.file)) ∧
      s.ForkOf build fuel options s.currentLeafId (loaded forkPath s.file) := by
  have hcopy : loaded forkPath s.file = { s with filePath := forkPath } := by
    rw [loaded_filePath s.filePath, ← h.storage]
  constructor
  · rw [fork, open_of_valid h.tree.valid]
    dsimp only
    rw [getEntriesToFork, hoptions]
    simp only [Option.map_some, Except.map, foldl_appendEntry, entries_loaded]
  · have hleaf := congrArg JsonlStorage.currentLeafId hcopy
    have hfound : ∀ id ∈ (loaded forkPath s.file).currentLeafId, ∃ x ∈ s.file, x.id = id := by
      rw [hleaf]
      exact h.leaf
    have hrooted : (loaded forkPath s.file).Rooted := by
      rw [hcopy]
      exact ⟨h.tree, hcopy.symm, h.leaf⟩
    refine ⟨h.tree.sound hfound, ?_, fun _ => ?_⟩
    · rw [buildContext, hrooted.getLeafId, hleaf]
      exact h.contextAt forkPath build hfuel h.leaf
    · rw [hcopy]
      exact ⟨rfl, rfl, rfl⟩

theorem leafAgrees_iff (h : s.Rooted) (build : ContextBuildOptions)
    (hoptions : options.entryId.filter truthy ≠ none) {e : SessionTreeEntry} (he : e ∈ s.file)
    {path : List SessionTreeEntry} (hpath : s.getPathToRoot fuel (some e.id) = some (.ok path)) :
    s.LeafAgrees build fuel options (some e.id) ↔
      (∀ x ∈ leafIdAfterEntry e, x ∈ path.map SessionTreeEntry.id) ∧
      s.contextAt build fuel (leafIdAfterEntry e) = s.contextAt build fuel (some e.id) := by
  have hget : s.byId.get e.id = some e := by
    rw [h.storage]
    exact h.tree.get s.filePath he
  have hself : e ∈ path := by
    obtain ⟨path', hbranch, hsub⟩ := h.tree.branch e he
    have hpath' := hbranch.getPathToRoot h.tree s.filePath hsub.length_le
    rw [← h.storage] at hpath'
    rw [← PathToRoot.unique ⟨_, hpath'⟩ hpath]
    exact hbranch.mem_path
  constructor
  · intro hagrees
    cases hbody : e.body with
    | leaf target =>
      have hafter : leafIdAfterEntry e = target := by
        rw [leafIdAfterEntry, hbody]
      rw [hafter]
      obtain ⟨hon, hsame⟩ := hagrees hoptions e.id rfl e hget target hbody
      refine ⟨fun x hx => ?_, hsame⟩
      obtain ⟨path', hpath', hmem⟩ := hon x hx
      rwa [hpath'.unique hpath] at hmem
    | entry _ | activeToolsChange _ =>
      have hafter : leafIdAfterEntry e = some e.id := by
        rw [leafIdAfterEntry, hbody]
      rw [hafter]
      refine ⟨fun x hx => ?_, rfl⟩
      obtain rfl := Option.some.inj hx
      exact List.mem_map_of_mem hself
  · rintro ⟨hon, hsame⟩ - id hid e' he' target hbody
    obtain rfl := Option.some.inj hid
    obtain rfl := Option.some.inj (hget.symm.trans he')
    have hafter : leafIdAfterEntry e = target := by
      rw [leafIdAfterEntry, hbody]
    rw [hafter] at hon hsame
    exact ⟨fun x hx => ⟨path, ⟨fuel, hpath⟩, hon x hx⟩, hsame⟩

theorem fork_path (h : s.Rooted) (hoptions : options.entryId.filter truthy ≠ none)
    (htarget : s.forkLeaf options = .ok leafId) (forkPath : String) {path : List SessionTreeEntry}
    (hpath : s.getPathToRoot fuel leafId = some (.ok path)) :
    fork s.filePath s.file fuel forkPath options = some (.ok (loaded forkPath path)) := by
  rw [fork, open_of_valid h.tree.valid]
  dsimp only
  rw [← h.storage]
  unfold forkLeaf at htarget
  unfold getEntriesToFork
  cases hid : options.entryId.filter truthy with
  | none => exact absurd hid hoptions
  | some id =>
    rw [hid] at htarget
    simp only [htarget, hpath, Option.map_some, Except.map, foldl_appendEntry]

end Rooted

/-- A fork at a valid target is the conversation at the target exactly when
no leaf entry at the end of its path leads elsewhere. -/
theorem fork_preserves {filePath : String} {s : JsonlStorage}
    (h : Machine.Reaches callStep DrawsNew (create filePath) s) {options : ForkOptions}
    {leafId : Option String} (htarget : s.forkLeaf options = .ok leafId) (forkPath : String)
    (build : ContextBuildOptions) {fuel : Nat} (hfuel : s.file.length ≤ fuel) :
    ∃ t, fork s.filePath s.file fuel forkPath options = some (.ok t) ∧
      (s.ForkOf build fuel options leafId t ↔ s.LeafAgrees build fuel options leafId) := by
  have hrooted := Rooted.of_reaches h
  by_cases hoptions : options.entryId.filter truthy = none
  · obtain ⟨hfork, hwhole⟩ := hrooted.fork_whole hoptions forkPath build hfuel
    have hleaf : leafId = s.currentLeafId := by
      rw [forkLeaf, hoptions] at htarget
      exact (Except.ok.inj htarget).symm
    subst hleaf
    exact ⟨_, hfork, fun _ hne => absurd hoptions hne, fun _ => hwhole⟩
  · cases leafId with
    | none =>
        refine ⟨_, hrooted.fork_path hoptions htarget forkPath rfl, ?_⟩
        have hsound : (loaded forkPath []).Sound := TreeFile.nil.sound fun _ hid => nomatch hid
        exact ⟨fun _ _ _ hid => (nomatch hid),
          fun _ => ⟨hsound, ⟨_, rfl, rfl⟩, fun hnone => absurd hnone hoptions⟩⟩
    | some id =>
        obtain ⟨e, he, rfl⟩ := hrooted.forkLeaf_mem htarget id rfl
        obtain ⟨path, hpath, hsub⟩ := hrooted.tree.branch e he
        have hlength : path.length ≤ fuel := Nat.le_trans hsub.length_le hfuel
        have hget := hpath.getPathToRoot hrooted.tree s.filePath hlength
        rw [← hrooted.storage] at hget
        refine ⟨_, hrooted.fork_path hoptions htarget forkPath hget, ?_⟩
        have hiff := hpath.forkOf_iff hrooted.tree (hrooted.tree.of_branch hpath hsub) s.filePath
          forkPath build hlength hoptions
        rw [← hrooted.storage] at hiff
        rw [hiff, hrooted.leafAgrees_iff build hoptions he hget]

instance (s : JsonlStorage) : DecidablePred s.DrawsNew
  | .append _ _ => inferInstanceAs (Decidable (_ = false))
  | .moveTo env _ entryId _ =>
      match h : s.setLeafId env entryId with
      | .error _ => decidable_of_iff (s.byId.has (env.uuidv7 100) = false)
          ⟨fun hfresh => ⟨hfresh, fun _ hmoved => by rw [h] at hmoved; cases hmoved⟩, And.left⟩
      | .ok moved' => decidable_of_iff (_ ∧ moved'.byId.has _ = false)
          ⟨fun hfresh => ⟨hfresh.1, fun _ hmoved => by
            rw [h] at hmoved
            obtain rfl := Except.ok.inj hmoved
            exact hfresh.2⟩, fun hfresh => ⟨hfresh.1, hfresh.2 moved' h⟩⟩

def envC : SessionEnv :=
  SessionState.envWith "019b7000-0000-7000-8000-00000000000c" (by decide)

def envD : SessionEnv :=
  SessionState.envWith "019b7000-0000-7000-8000-00000000000d" (by decide)

/-- Two messages, then a move to the first and one to the leaf entry that
the first move has written. -/
def backAndForth : List SessionOp :=
  [.append SessionState.envA (.message (.user ⟨some (.string "one"), 0⟩)),
    .append SessionState.envB (.message (.user ⟨some (.string "two"), 0⟩)),
    .moveTo envC envC (some "0000000a") none, .moveTo envD envD (some "0000000c") none]

def forkAt (id : String) : ForkOptions := ⟨some id, some .at⟩

theorem fork_preserves_messages : ∃ s t,
    Machine.Reaches callStep DrawsNew (create "session.jsonl") s ∧ s.entries.length = 4 ∧
      fork "session.jsonl" s.file 4 "fork.jsonl" (forkAt "0000000b") = some (.ok t) ∧
      s.ForkOf .default 4 (forkAt "0000000b") (some "0000000b") t := by
  have hrun : (Machine.run callStep DrawsNew (create "session.jsonl") backAndForth).any (fun s =>
      decide (s.filePath = "session.jsonl" ∧ s.entries.length = 4 ∧ s.file.length = 4 ∧
        s.forkLeaf (forkAt "0000000b") = .ok (some "0000000b") ∧
        (s.byId.get "0000000b").map (fun e => e.body) =
          some (.entry (.message (.user ⟨some (.string "two"), 0⟩))))) = true := by
    decide +kernel
  obtain ⟨s, hs, hfacts⟩ := (Option.any_eq_true ..).mp hrun
  obtain ⟨hpath, hentries, hfile, hleaf, hbody⟩ := of_decide_eq_true hfacts
  have hreaches := Machine.reaches_of_run hs
  obtain ⟨t, hfork, hiff⟩ := fork_preserves hreaches hleaf "fork.jsonl" .default (Nat.le_of_eq hfile)
  rw [hpath] at hfork
  refine ⟨s, t, hreaches, hentries, hfork, hiff.mpr fun _ id hid e he target htarget => ?_⟩
  obtain rfl := Option.some.inj hid
  rw [he, Option.map_some, htarget] at hbody
  cases hbody

/-- A fork at a leaf entry that points back loses the message after it. -/
theorem fork_at_leaf_entry : ∃ s t,
    Machine.Reaches callStep DrawsNew (create "session.jsonl") s ∧
      s.forkLeaf (forkAt "0000000c") = .ok (some "0000000c") ∧
      fork "session.jsonl" s.file 4 "fork.jsonl" (forkAt "0000000c") = some (.ok t) ∧
      (s.contextAt .default 4 (some "0000000c")).map (·.map (·.messages)) =
        some (.ok [.user ⟨some (.string "one"), 0⟩, .user ⟨some (.string "two"), 0⟩]) ∧
      (t.buildContext .default 4).map (·.map (·.messages)) = some (.ok [.user ⟨some (.string "one"), 0⟩]) := by
  have hrun : (Machine.run callStep DrawsNew (create "session.jsonl") backAndForth).any (fun s =>
      ((fork "session.jsonl" s.file 4 "fork.jsonl" (forkAt "0000000c")).bind Except.toOption).any
        fun t => decide (s.forkLeaf (forkAt "0000000c") = .ok (some "0000000c") ∧
          (s.contextAt .default 4 (some "0000000c")).map (·.map (·.messages)) =
            some (.ok [.user ⟨some (.string "one"), 0⟩, .user ⟨some (.string "two"), 0⟩]) ∧
          (t.buildContext .default 4).map (·.map (·.messages)) =
            some (.ok [.user ⟨some (.string "one"), 0⟩]))) = true := by
    decide +kernel
  obtain ⟨s, hs, hrest⟩ := (Option.any_eq_true ..).mp hrun
  obtain ⟨t, ht, hfacts⟩ := (Option.any_eq_true ..).mp hrest
  obtain ⟨hleaf, hsource, hfork⟩ := of_decide_eq_true hfacts
  refine ⟨s, t, Machine.reaches_of_run hs, hleaf, ?_, hsource, hfork⟩
  obtain ⟨r, hr, hok⟩ := Option.bind_eq_some_iff.mp ht
  cases r with
  | error e => cases hok
  | ok t' =>
      obtain rfl := Option.some.inj hok
      exact hr

end JsonlStorage

end Eagent
