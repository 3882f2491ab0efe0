import Mathlib.Data.List.DropRight
import Eagent.HarnessCompaction
import Eagent.SessionAppends

/-!
# What a branch summary covers

`collectEntriesForBranchSummary` and `prepareBranchEntries`. The path to an
entry is determined by the entry, so two paths that meet are the same up to
where they part (`Ancestry.meet`), and what is collected is what lies after
it. The budget walk takes messages from the newest entry on.
-/

namespace Eagent

/-! ## The path of an entry -/

namespace JsonlStorage

variable {s : JsonlStorage}

/-- `path` leads from a root to an entry, by the map of entries. -/
inductive Ancestry (s : JsonlStorage) : SessionTreeEntry → List SessionTreeEntry → Prop
  | root {e : SessionTreeEntry} (h : (e.parentId.filter fun id => id ≠ "") = none) :
      Ancestry s e [e]
  | child {e parent : SessionTreeEntry} {parentId : String} {path : List SessionTreeEntry}
      (hparent : (e.parentId.filter fun id => id ≠ "") = some parentId)
      (hget : s.byId.get parentId = some parent) (h : Ancestry s parent path) :
      Ancestry s e (path ++ [e])

namespace Ancestry

variable {e e' : SessionTreeEntry} {path path' : List SessionTreeEntry}

theorem unique (h : Ancestry s e path) (h' : Ancestry s e path') : path = path' := by
  induction h generalizing path' with
  | root hroot =>
    cases h' with
    | root _ => rfl
    | child hparent _ _ => cases hroot.symm.trans hparent
  | child hparent hget _ ih =>
    cases h' with
    | root hroot => cases hroot.symm.trans hparent
    | child hparent' hget' h' =>
      obtain rfl := Option.some.inj (hparent.symm.trans hparent')
      obtain rfl := Option.some.inj (hget.symm.trans hget')
      rw [ih h']

variable {x : SessionTreeEntry}

theorem upTo (h : Ancestry s e path) {before after : List SessionTreeEntry}
    (hpath : path = before ++ x :: after) : Ancestry s x (before ++ [x]) := by
  induction h generalizing after with
  | @root e hroot =>
    cases before with
    | nil =>
      obtain rfl := List.head_eq_of_cons_eq hpath
      exact .root hroot
    | cons y before => simp at hpath
  | @child e parent parentId path hparent hget h ih =>
    rcases List.eq_nil_or_concat' after with rfl | ⟨after, y, rfl⟩
    · obtain ⟨rfl, hlast⟩ := List.append_inj' hpath rfl
      obtain rfl := List.head_eq_of_cons_eq hlast
      exact .child hparent hget h
    · rw [← List.cons_append, ← List.append_assoc] at hpath
      exact ih (List.append_inj' hpath rfl).1

theorem meet (h : Ancestry s e path) (h' : Ancestry s e' path')
    {before after before' after' : List SessionTreeEntry} (hpath : path = before ++ x :: after)
    (hpath' : path' = before' ++ x :: after') : before = before' :=
  List.append_cancel_right ((h.upTo hpath).unique (h'.upTo hpath'))

theorem notMem_after (h : Ancestry s e path) {before after : List SessionTreeEntry}
    (hpath : path = before ++ x :: after) :
    ∀ y ∈ before ++ [x], y ∉ after := by
  intro y hy hafter
  obtain ⟨a, b, hab⟩ := List.append_of_mem hafter
  obtain ⟨c, d, hcd⟩ := List.append_of_mem hy
  have hlater : path = (before ++ x :: a) ++ y :: b := by rw [hpath, hab]; simp
  have hearlier : path = c ++ y :: (d ++ after) := by
    rw [hpath, ← List.singleton_append, ← List.append_assoc, hcd]
    simp
  have hlength := congrArg List.length (h.meet h hearlier hlater)
  have hsplit := congrArg List.length hcd
  simp only [List.length_append, List.length_cons, List.length_nil] at hlength hsplit
  omega

theorem pathLoop (h : Ancestry s e path) {n : Nat} (hn : path.length ≤ n)
    (acc : List SessionTreeEntry) : s.pathLoop n e acc = some (.ok (path ++ acc)) := by
  induction h generalizing n acc with
  | root hroot =>
    obtain ⟨n, rfl⟩ := Nat.exists_eq_add_of_le' hn
    rw [List.length_singleton, JsonlStorage.pathLoop, hroot]
    rfl
  | @child e parent parentId path hparent hget _ ih =>
    rw [List.length_append, List.length_singleton] at hn
    obtain ⟨n, rfl⟩ := Nat.exists_eq_add_of_le' (Nat.le_of_add_left_le hn)
    rw [JsonlStorage.pathLoop, hparent]
    dsimp only
    rw [hget]
    dsimp only
    rw [ih (by omega), List.append_assoc, List.singleton_append]

end Ancestry

variable {e : SessionTreeEntry}

theorem ancestry_of_pathLoop {n : Nat} {acc r : List SessionTreeEntry}
    (h : s.pathLoop n e acc = some (.ok r)) : ∃ path, r = path ++ acc ∧ Ancestry s e path := by
  induction n generalizing e acc with
  | zero => cases h
  | succ n ih =>
    rw [JsonlStorage.pathLoop] at h
    split at h
    · rename_i hroot
      obtain rfl := Except.ok.inj (Option.some.inj h)
      exact ⟨[e], rfl, .root hroot⟩
    · rename_i parentId hparent
      split at h
      · cases h
      · rename_i parent hget
        obtain ⟨path, rfl, hpath⟩ := ih h
        exact ⟨path ++ [e], by rw [List.append_assoc, List.singleton_append],
          .child hparent hget hpath⟩

variable {path : List SessionTreeEntry}

theorem PathToRoot.ancestry {id : String} (h : s.PathToRoot (some id) path) :
    ∃ e, s.byId.get id = some e ∧ Ancestry s e path := by
  obtain ⟨fuel, h⟩ := h
  rw [JsonlStorage.getPathToRoot] at h
  split at h
  · cases h
  · rename_i e hget
    obtain ⟨path', hpath, hancestry⟩ := ancestry_of_pathLoop h
    rw [List.append_nil] at hpath
    exact ⟨e, hget, hpath ▸ hancestry⟩

theorem Ancestry.getPathToRoot {id : String} (h : Ancestry s e path) (hget : s.byId.get id = some e)
    {fuel : Nat} (hfuel : path.length ≤ fuel) :
    s.getPathToRoot fuel (some id) = some (.ok path) := by
  rw [JsonlStorage.getPathToRoot, hget]
  dsimp only
  rw [h.pathLoop hfuel, List.append_nil]

/-- Every entry is stored under its own id, which is not empty. -/
def Keyed (s : JsonlStorage) : Prop := ∀ id e, s.byId.get id = some e → e.id = id ∧ e.id ≠ ""

theorem keyed_loaded (filePath : String) {file : List SessionTreeEntry}
    (hids : ∀ e ∈ file, e.id ≠ "") : Keyed (loaded filePath file) := by
  intro id e hget
  obtain ⟨hid, hmem⟩ := get_loaded filePath file id e hget
  exact ⟨hid, hids e hmem⟩

theorem Ancestry.get (hs : Keyed s) (h : Ancestry s e path) (hget : s.byId.get e.id = some e) :
    ∀ x ∈ path, s.byId.get x.id = some x := by
  induction h with
  | root _ =>
    intro x hx
    obtain rfl := List.mem_singleton.mp hx
    exact hget
  | @child e parent parentId path _ hparent _ ih =>
    intro x hx
    rcases List.mem_append.mp hx with hx | hx
    · have hid : parent.id = parentId := (hs _ _ hparent).1
      exact ih (hid ▸ hparent) x hx
    · obtain rfl := List.mem_singleton.mp hx
      exact hget

end JsonlStorage

/-! ## The code -/

namespace BranchSummarization

open JsonlStorage

structure CollectEntriesResult where
  entries : List SessionTreeEntry
  commonAncestorId : Option String
deriving DecidableEq

/-- The loop from the old leaf up; what it has pushed is already reversed. -/
def collectLoop (s : JsonlStorage) (commonAncestorId : Option String) :
    Nat → Option String → List SessionTreeEntry →
      Option (Except SessionError (List SessionTreeEntry))
  | 0, _, _ => none
  | n + 1, current, entries =>
      match current.filter fun id => id ≠ "" with
      | none => some (.ok entries)
      | some id =>
          if some id = commonAncestorId then some (.ok entries)
          else match s.byId.get id with
            | none => some (.error (.entryNotFound .invalidSession id))
            | some entry => collectLoop s commonAncestorId n entry.parentId (entry :: entries)

/-- `collectEntriesForBranchSummary`; no result when the fuel does not last. -/
def collectEntriesForBranchSummary (s : JsonlStorage) (fuel : Nat) (oldLeafId : Option String)
    (targetId : String) : Option (Except SessionError CollectEntriesResult) :=
  match oldLeafId.filter fun id => id ≠ "" with
  | none => some (.ok ⟨[], none⟩)
  | some oldLeafId =>
      match s.getPathToRoot fuel (some oldLeafId), s.getPathToRoot fuel (some targetId) with
      | some (.ok oldBranch), some (.ok targetPath) =>
          let oldPath := oldBranch.map SessionTreeEntry.id
          let commonAncestorId :=
            (targetPath.reverse.find? fun e => e.id ∈ oldPath).map SessionTreeEntry.id
          (collectLoop s commonAncestorId fuel (some oldLeafId) []).map fun r =>
            r.map fun entries => ⟨entries, commonAncestorId⟩
      | some (.error e), _ => some (.error e)
      | _, some (.error e) => some (.error e)
      | _, _ => none

def getMessageFromEntry (entry : SessionTreeEntry) : Option AgentMessage :=
  match entry.body with
  | .entry (.message (.toolResult _)) => none
  | _ => HarnessCompaction.getMessageFromEntry entry

structure BranchPreparation where
  messages : List AgentMessage
  fileOps : FileOperations
  totalTokens : Nat
deriving DecidableEq

def addDetails (fileOps : FileOperations) (entry : SessionTreeEntry) : FileOperations :=
  match entry.body with
  | .entry (.branchSummary _ _ (some details) fromHook) =>
      if fromHook = some true then fileOps
      else
        { fileOps with
          read := (details.stringItems "readFiles").foldl addPath fileOps.read
          edited := (details.stringItems "modifiedFiles").foldl addPath fileOps.edited }
  | _ => fileOps

/-- `entry.type === "compaction" || entry.type === "branch_summary"` -/
def isSummary (entry : SessionTreeEntry) : Bool :=
  match entry.body with
  | .entry (.compaction ..) => true
  | .entry (.branchSummary ..) => true
  | _ => false

def BranchPreparation.unshift (p : BranchPreparation) (message : AgentMessage) :
    BranchPreparation :=
  { p with
    messages := message :: p.messages
    totalTokens := p.totalTokens + estimateTokens message }

/-- The loop over the entries, the newest one first. -/
def budgetLoop (tokenBudget : Int) (p : BranchPreparation) :
    List SessionTreeEntry → BranchPreparation
  | [] => p
  | entry :: older =>
      match getMessageFromEntry entry with
      | none => budgetLoop tokenBudget p older
      | some message =>
          let p := { p with fileOps := extractFileOpsFromMessage p.fileOps message }
          if tokenBudget > 0 ∧ (p.totalTokens + estimateTokens message : Int) > tokenBudget then
            if isSummary entry ∧ (p.totalTokens * 10 : Int) < tokenBudget * 9 then
              p.unshift message
            else p
          else budgetLoop tokenBudget (p.unshift message) older

def prepareBranchEntries (entries : List SessionTreeEntry) (tokenBudget : Int) :
    BranchPreparation :=
  budgetLoop tokenBudget ⟨[], entries.foldl addDetails createFileOps, 0⟩ entries.reverse

/-! ## What is covered -/

/-- The entries that are left behind, and where the paths part. -/
structure Abandoned (oldPath targetPath : List SessionTreeEntry) (r : CollectEntriesResult) :
    Prop where
  entries : r.entries = oldPath.filter fun e => e ∉ targetPath
  none : r.commonAncestorId = none ↔ ∀ e ∈ oldPath, e ∉ targetPath
  /-- every entry on both paths is on the path of the common ancestor -/
  deepest : ∀ id, r.commonAncestorId = some id → ∃ before e, e.id = id ∧
    before ++ [e] <+: oldPath ∧ before ++ [e] <+: targetPath ∧
    ∀ x ∈ oldPath, x ∈ targetPath → x ∈ before ++ [e]

def messagesOf (entries : List SessionTreeEntry) : List AgentMessage :=
  entries.filterMap getMessageFromEntry

def tokensOf (messages : List AgentMessage) : Nat := (messages.map estimateTokens).sum

/-- The messages of a suffix that is within the budget and, it may be, the
one summary before it that is too long. -/
structure CoversSuffix (entries : List SessionTreeEntry) (tokenBudget : Int)
    (p : BranchPreparation) (before suffix : List SessionTreeEntry) : Prop where
  split : entries = before ++ suffix
  within : (tokensOf (messagesOf suffix) : Int) ≤ tokenBudget
  totalTokens : p.totalTokens = tokensOf p.messages
  messages : p.messages = messagesOf suffix ∨
    ∃ older entry message, before = older ++ [entry] ∧ isSummary entry = true ∧
      getMessageFromEntry entry = some message ∧
      (tokensOf (messagesOf suffix) + estimateTokens message : Int) > tokenBudget ∧
      p.messages = message :: messagesOf suffix
  /-- the suffix is as long as it can be -/
  stops : before = [] ∨ ∃ older entry message, before = older ++ [entry] ∧
    getMessageFromEntry entry = some message ∧
    (tokensOf (messagesOf suffix) + estimateTokens message : Int) > tokenBudget

/-! ## The entries left behind -/

variable {s : JsonlStorage} {oldPath targetPath : List SessionTreeEntry}

theorem collectLoop_turn (hs : Keyed s) {e : SessionTreeEntry} (hget : s.byId.get e.id = some e)
    (commonAncestorId : Option String) (n : Nat) (acc : List SessionTreeEntry) :
    collectLoop s commonAncestorId (n + 1) (some e.id) acc =
      if some e.id = commonAncestorId then some (.ok acc)
      else collectLoop s commonAncestorId n e.parentId (e :: acc) := by
  have hid : ((some e.id).filter fun id => id ≠ "") = some e.id :=
    Option.filter_eq_some_iff.mpr ⟨rfl, decide_eq_true (hs _ _ hget).2⟩
  rw [collectLoop, hid]
  dsimp only
  rw [hget]

theorem collectLoop_of (hs : Keyed s) (commonAncestorId : Option String) {e : SessionTreeEntry}
    {path : List SessionTreeEntry} (h : Ancestry s e path) (hget : s.byId.get e.id = some e)
    {n : Nat} (hn : path.length < n) (acc : List SessionTreeEntry) :
    collectLoop s commonAncestorId n (some e.id) acc =
      some (.ok (path.rtakeWhile (fun x => some x.id ≠ commonAncestorId) ++ acc)) := by
  induction h generalizing n acc with
  | @root e hroot =>
    obtain ⟨n, rfl⟩ := Nat.exists_eq_add_of_le' hn
    rw [List.length_singleton, collectLoop_turn hs hget, ← List.nil_append [e],
      List.rtakeWhile_concat]
    by_cases hcommon : some e.id = commonAncestorId
    · rw [if_pos hcommon, if_neg (by simp [hcommon])]
      rfl
    · rw [if_neg hcommon, if_pos (by simp [hcommon]), collectLoop, hroot]
      rfl
  | @child e parent parentId path hparent hget' h ih =>
    rw [List.length_append, List.length_singleton] at hn
    obtain ⟨n, rfl⟩ := Nat.exists_eq_add_of_lt (Nat.lt_of_succ_lt hn)
    rw [collectLoop_turn hs hget, List.rtakeWhile_concat]
    by_cases hcommon : some e.id = commonAncestorId
    · rw [if_pos hcommon, if_neg (by simp [hcommon])]
      rfl
    · obtain rfl : parent.id = parentId := (hs _ _ hget').1
      rw [if_neg hcommon, if_pos (by simp [hcommon]), (Option.filter_eq_some_iff.mp hparent).1,
        ih hget' (by omega), List.append_assoc, List.singleton_append]

theorem abandoned_of_meet {e x : SessionTreeEntry} (hold : Ancestry s e oldPath)
    (hids : ∀ x ∈ oldPath, ∀ y ∈ oldPath, x.id = y.id → x = y)
    {before left after : List SessionTreeEntry} (hleft : oldPath = before ++ x :: left)
    (hafter : targetPath = before ++ x :: after) (hlast : ∀ y ∈ after, y ∉ oldPath) :
    Abandoned oldPath targetPath
      ⟨oldPath.rtakeWhile fun y => some y.id ≠ some x.id, some x.id⟩ := by
  have hxold : x ∈ oldPath := by rw [hleft]; simp
  have hparts : ∀ y ∈ left, y ∉ targetPath := by
    intro y hy hmem
    have hyold : y ∈ oldPath := by rw [hleft]; simp [hy]
    rw [hafter, ← List.singleton_append, ← List.append_assoc] at hmem
    rcases List.mem_append.mp hmem with hbefore | hyafter
    · exact hold.notMem_after hleft y hbefore hy
    · exact hlast y hyafter hyold
  have hkept : (oldPath.filter fun y => y ∉ targetPath) = left := by
    rw [hleft, List.filter_append, List.filter_cons_of_neg (by simp [hafter]),
      List.filter_eq_nil_iff.mpr (by intro y hy; simp [hafter, hy]), List.nil_append,
      List.filter_eq_self.mpr (fun y hy => decide_eq_true (hparts y hy))]
  have hwalked : (oldPath.rtakeWhile fun y => some y.id ≠ some x.id) = left := by
    have hne : ∀ y ∈ left.reverse, decide (some y.id ≠ some x.id) = true := by
      intro y hy
      refine decide_eq_true fun hid => ?_
      have hmem := List.mem_reverse.mp hy
      have hyold : y ∈ oldPath := by rw [hleft]; simp [hmem]
      obtain rfl := hids y hyold x hxold (Option.some.inj hid)
      exact hold.notMem_after hleft y (by simp) hmem
    rw [hleft, List.rtakeWhile, List.reverse_append, List.reverse_cons, List.append_assoc,
      List.takeWhile_append_of_pos hne, List.singleton_append,
      List.takeWhile_cons_of_neg (by simp), List.append_nil, List.reverse_reverse]
  refine ⟨hwalked.trans hkept.symm, ?_, ?_⟩
  · refine ⟨(fun h => nomatch h), fun h => ?_⟩
    exact absurd (by rw [hafter]; simp) (h x hxold)
  · intro id hid
    refine ⟨before, x, Option.some.inj hid, ⟨left, by rw [hleft]; simp⟩,
      ⟨after, by rw [hafter]; simp⟩, ?_⟩
    intro y hyold hytarget
    rw [hafter, ← List.singleton_append, ← List.append_assoc] at hytarget
    rcases List.mem_append.mp hytarget with hbefore | hyafter
    · exact hbefore
    · exact absurd hyold (hlast y hyafter)

theorem abandoned_of_disjoint (h : ∀ e ∈ oldPath, e ∉ targetPath) :
    Abandoned oldPath targetPath ⟨oldPath.rtakeWhile fun y => some y.id ≠ none, none⟩ := by
  refine ⟨?_, ⟨fun _ => h, fun _ => rfl⟩, fun _ hid => nomatch hid⟩
  rw [List.rtakeWhile_eq_self_iff.mpr (fun y _ => decide_eq_true (fun hid => nomatch hid)),
    List.filter_eq_self.mpr (fun y hy => decide_eq_true (h y hy))]

/-- The walk down the target path finds where the paths part. -/
theorem abandoned_of {e e' : SessionTreeEntry} (hold : Ancestry s e oldPath)
    (htarget : Ancestry s e' targetPath) (holdIds : ∀ x ∈ oldPath, s.byId.get x.id = some x)
    (htargetIds : ∀ x ∈ targetPath, s.byId.get x.id = some x) {ancestor : Option SessionTreeEntry}
    (hfind : (targetPath.reverse.find? fun e => e.id ∈ oldPath.map SessionTreeEntry.id) =
      ancestor) :
    Abandoned oldPath targetPath
      ⟨oldPath.rtakeWhile fun x => some x.id ≠ ancestor.map SessionTreeEntry.id,
        ancestor.map SessionTreeEntry.id⟩ := by
  have hshared : ∀ y ∈ targetPath, y.id ∈ oldPath.map SessionTreeEntry.id ↔ y ∈ oldPath := by
    intro y hy
    refine ⟨fun hid => ?_, List.mem_map_of_mem⟩
    obtain ⟨x, hx, hid⟩ := List.mem_map.mp hid
    obtain rfl : x = y := by
      have hx' := holdIds x hx
      rw [hid, htargetIds y hy] at hx'
      exact (Option.some.inj hx').symm
    exact hx
  rcases ancestor with _ | x
  · refine abandoned_of_disjoint fun y hyold hytarget => ?_
    have hnone := List.find?_eq_none.mp hfind y (List.mem_reverse.mpr hytarget)
    exact hnone (decide_eq_true ((hshared y hytarget).mpr hyold))
  · obtain ⟨hid, after, before, hreverse, hafter⟩ := List.find?_eq_some_iff_append.mp hfind
    have htargetPath : targetPath = before.reverse ++ x :: after.reverse := by
      rw [← List.reverse_reverse targetPath, hreverse]
      simp
    have hxold : x ∈ oldPath :=
      (hshared x (by rw [htargetPath]; simp)).mp (of_decide_eq_true hid)
    obtain ⟨before', left, hleft⟩ := List.append_of_mem hxold
    obtain rfl := hold.meet htarget hleft htargetPath
    refine abandoned_of_meet hold ?_ hleft htargetPath ?_
    · intro y hy z hz hyz
      have hy' := holdIds y hy
      rw [hyz, holdIds z hz] at hy'
      exact (Option.some.inj hy').symm
    · intro y hy hyold
      have hno := hafter y (List.mem_reverse.mp hy)
      have hytarget : y ∈ targetPath := by rw [htargetPath]; simp [List.mem_reverse.mp hy]
      rw [decide_eq_true ((hshared y hytarget).mpr hyold)] at hno
      cases hno

/-- A stored entry is the one its path ends in. -/
theorem collectEntriesForBranchSummary_of (hs : Keyed s) {oldLeafId targetId : String}
    (hold : s.PathToRoot (some oldLeafId) oldPath)
    (htarget : s.PathToRoot (some targetId) targetPath) {fuel : Nat}
    (hfuel : oldPath.length + targetPath.length < fuel) :
    ∃ r, collectEntriesForBranchSummary s fuel (some oldLeafId) targetId = some (.ok r) ∧
      Abandoned oldPath targetPath r := by
  obtain ⟨e, hget, hancestry⟩ := hold.ancestry
  obtain ⟨e', hget', hancestry'⟩ := htarget.ancestry
  obtain ⟨rfl, hne⟩ := hs _ _ hget
  obtain ⟨rfl, hne'⟩ := hs _ _ hget'
  have hid : ((some e.id).filter fun id => id ≠ "") = some e.id :=
    Option.filter_eq_some_iff.mpr ⟨rfl, decide_eq_true hne⟩
  refine ⟨_, ?_, abandoned_of hancestry hancestry' (hancestry.get hs hget)
    (hancestry'.get hs hget') rfl⟩
  rw [collectEntriesForBranchSummary, hid]
  dsimp only
  rw [hancestry.getPathToRoot hget (by omega), hancestry'.getPathToRoot hget' (by omega)]
  dsimp only
  rw [collectLoop_of hs _ hancestry hget (by omega) [], List.append_nil]
  rfl

/-! ## The messages in the budget -/

@[simp] theorem tokensOf_cons (message : AgentMessage) (messages : List AgentMessage) :
    tokensOf (message :: messages) = estimateTokens message + tokensOf messages := rfl

@[simp] theorem messagesOf_nil : messagesOf [] = [] := rfl

theorem messagesOf_cons_none {entry : SessionTreeEntry} (h : getMessageFromEntry entry = none)
    (entries : List SessionTreeEntry) : messagesOf (entry :: entries) = messagesOf entries :=
  List.filterMap_cons_none h

theorem messagesOf_cons_some {entry : SessionTreeEntry} {message : AgentMessage}
    (h : getMessageFromEntry entry = some message) (entries : List SessionTreeEntry) :
    messagesOf (entry :: entries) = message :: messagesOf entries :=
  List.filterMap_cons_some h

/-- The entries the loop still has to visit are `older`. -/
theorem budgetLoop_covers {tokenBudget : Int} (hbudget : 0 < tokenBudget)
    (older done : List SessionTreeEntry) (p : BranchPreparation)
    (hmessages : p.messages = messagesOf done) (htotal : p.totalTokens = tokensOf p.messages)
    (hwithin : (tokensOf (messagesOf done) : Int) ≤ tokenBudget) :
    ∃ before suffix, CoversSuffix (older ++ done) tokenBudget
      (budgetLoop tokenBudget p older.reverse) before suffix := by
  induction older using List.reverseRecOn generalizing done p with
  | nil => exact ⟨[], done, rfl, hwithin, htotal, .inl hmessages, .inl rfl⟩
  | append_singleton older entry ih =>
    rw [List.reverse_append, List.reverse_singleton, List.singleton_append, budgetLoop,
      List.append_assoc, List.singleton_append]
    split
    · rename_i hnone
      refine ih (entry :: done) p ?_ htotal ?_
      · rw [messagesOf_cons_none hnone, hmessages]
      · rwa [messagesOf_cons_none hnone]
    · rename_i message hsome
      dsimp only
      have hsum : p.totalTokens = tokensOf (messagesOf done) := hmessages ▸ htotal
      rw [hsum]
      split
      · -- the message is too long: the loop ends here
        rename_i hover
        have hstops : older ++ [entry] = [] ∨ ∃ older' entry' message',
            older ++ [entry] = older' ++ [entry'] ∧
            getMessageFromEntry entry' = some message' ∧
            (tokensOf (messagesOf done) + estimateTokens message' : Int) > tokenBudget :=
          .inr ⟨older, entry, message, rfl, hsome, hover.2⟩
        refine ⟨older ++ [entry], done, ?_⟩
        split
        · rename_i hsummary
          refine ⟨by simp, hwithin, ?_, .inr ⟨older, entry, message, rfl, hsummary.1, hsome,
            hover.2, ?_⟩, hstops⟩
          · simp only [BranchPreparation.unshift, tokensOf_cons]
            omega
          · simp only [BranchPreparation.unshift, hmessages]
        · exact ⟨by simp, hwithin, congrArg tokensOf hmessages.symm, .inl hmessages, hstops⟩
      · rename_i hfits
        refine ih (entry :: done) _ ?_ ?_ ?_
        · simp only [BranchPreparation.unshift, hmessages, messagesOf_cons_some hsome]
        · simp only [BranchPreparation.unshift, tokensOf_cons]
          omega
        · rw [messagesOf_cons_some hsome, tokensOf_cons]
          omega

theorem prepareBranchEntries_covers (entries : List SessionTreeEntry) {tokenBudget : Int}
    (hbudget : 0 < tokenBudget) :
    ∃ before suffix, CoversSuffix entries tokenBudget
      (prepareBranchEntries entries tokenBudget) before suffix := by
  have h := budgetLoop_covers hbudget entries [] ⟨[], entries.foldl addDetails createFileOps, 0⟩
    rfl rfl (Int.le_of_lt hbudget)
  rwa [List.append_nil] at h

/-! ## The whole -/

/-- In the storage of any file, whose lines `parseEntryLine` has let through. -/
theorem summary_covers_abandoned (filePath : String) {file : List SessionTreeEntry}
    (hids : ∀ e ∈ file, e.id ≠ "") {oldLeafId : Option String} {targetId : String}
    {oldPath targetPath : List SessionTreeEntry}
    (hold : (JsonlStorage.loaded filePath file).PathToRoot oldLeafId oldPath)
    (htarget : (JsonlStorage.loaded filePath file).PathToRoot (some targetId) targetPath)
    {fuel : Nat} (hfuel : oldPath.length + targetPath.length < fuel) :
    ∃ r, collectEntriesForBranchSummary (JsonlStorage.loaded filePath file) fuel oldLeafId
          targetId = some (.ok r) ∧
      Abandoned oldPath targetPath r ∧
      ∀ tokenBudget, 0 < tokenBudget → ∃ before suffix,
        CoversSuffix r.entries tokenBudget (prepareBranchEntries r.entries tokenBudget)
          before suffix := by
  rcases oldLeafId with _ | oldLeafId
  · obtain ⟨n, hold⟩ := hold
    obtain rfl : [] = oldPath := Except.ok.inj (Option.some.inj hold)
    refine ⟨⟨[], none⟩, rfl, ⟨rfl, ⟨(fun _ _ h => nomatch h), fun _ => rfl⟩, fun _ h => nomatch h⟩,
      fun _ hbudget => prepareBranchEntries_covers [] hbudget⟩
  · obtain ⟨r, hr, habandoned⟩ :=
      collectEntriesForBranchSummary_of (keyed_loaded filePath hids) hold htarget hfuel
    exact ⟨r, hr, habandoned, fun _ hbudget => prepareBranchEntries_covers r.entries hbudget⟩

def forkedFile : List SessionTreeEntry :=
  [⟨"1", none, "t", .entry (.message (.user ⟨some (.string "start"), 0⟩))⟩,
    ⟨"2", some "1", "t", .entry (.thinkingLevelChange "high")⟩,
    ⟨"3", some "2", "t", .entry (.message (.user ⟨some (.string "left"), 0⟩))⟩,
    ⟨"4", some "2", "t", .entry (.message (.user ⟨some (.string "right"), 0⟩))⟩]

theorem summary_covers_abandoned_forked :
    ∃ r, collectEntriesForBranchSummary (JsonlStorage.loaded "s.jsonl" forkedFile) 7 (some "3")
          "4" = some (.ok r) ∧
      Abandoned (forkedFile.take 3) (forkedFile.eraseIdx 2) r ∧
      ∀ tokenBudget, 0 < tokenBudget → ∃ before suffix,
        CoversSuffix r.entries tokenBudget (prepareBranchEntries r.entries tokenBudget)
          before suffix :=
  summary_covers_abandoned "s.jsonl" (by decide) ⟨3, by decide +kernel⟩ ⟨3, by decide +kernel⟩
    (by decide)

end BranchSummarization

end Eagent
