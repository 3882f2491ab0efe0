import Eagent.SessionContext

/-!
# Where compaction cuts

Token estimates and `findCutPoint`: walk back from the newest entry until
the recent-token budget is reached, take the first valid cut point at or
after that entry, then move back over metadata that does not reach the
context.

The two specification lemmas say what the callers rely on: the cut lies
in the range (`findCutPoint_range`), and which valid cut point it
belongs to (`findCutPoint_chosen`).
-/

namespace Eagent

structure CompactionSettings where
  enabled : Bool
  reserveTokens : Int
  keepRecentTokens : Int
deriving Repr, DecidableEq

/-! ## Token estimates -/

def ESTIMATED_IMAGE_CHARS : Nat := 4800

def estimateTextAndImageContentChars : MessageContent → Nat
  | .string s => utf16Length s.toList
  | .blocks bs =>
      (bs.map fun block =>
        match block with
        | .text text => utf16Length text.toList
        | .image _ _ => ESTIMATED_IMAGE_CHARS).sum

def assistantBlockChars : AssistantBlock → Nat
  | .text text => utf16Length text.toList
  | .thinking thinking => utf16Length thinking.toList
  | .toolCall call => utf16Length call.name.toList + utf16Length call.arguments.stringify

/-- `Math.ceil(chars / 4)`. -/
def charsToTokens (chars : Nat) : Nat := (chars + 3) / 4

def estimateTokens : AgentMessage → Nat
  | .user m =>
      charsToTokens ((m.content.map estimateTextAndImageContentChars).getD 0)
  | .assistant m => charsToTokens (m.blocks.map assistantBlockChars).sum
  | .custom m => charsToTokens (estimateTextAndImageContentChars m.content)
  | .toolResult m =>
      charsToTokens (estimateTextAndImageContentChars (.blocks (m.content.getD [])))
  | .bashExecution m =>
      charsToTokens (utf16Length m.command.toList + utf16Length m.output.toList)
  | .branchSummary m => charsToTokens (utf16Length m.summary.toList)
  | .compactionSummary m => charsToTokens (utf16Length m.summary.toList)

def entryTokens (entry : SessionEntry) : Nat :=
  ((sessionEntryToContextMessages entry).map estimateTokens).sum

/-! ## Message classes -/

def isCutPointMessage : AgentMessage → Bool
  | .toolResult _ => false
  | _ => true

def isTurnStartMessage : AgentMessage → Bool
  | .assistant _ => false
  | .toolResult _ => false
  | _ => true

def isTurnStartEntry (entry : SessionEntry) : Bool :=
  !entry.isCompaction && (sessionEntryToContextMessages entry).any isTurnStartMessage

/-- The test `findValidCutPoints` makes of one entry. -/
def isValidCutPoint (entry : SessionEntry) : Bool :=
  !entry.isCompaction && (sessionEntryToContextMessages entry).any isCutPointMessage

/-! ## The search -/

def findValidCutPoints (entries : List SessionEntry) (startIndex endIndex : Nat) : List Nat :=
  (List.range' startIndex (endIndex - startIndex)).filter fun i =>
    entries[i]?.any isValidCutPoint

/-- The loop of `findTurnStartIndex`; `none` is the source's `-1`. -/
def findTurnStartIndex (entries : List SessionEntry) (startIndex : Nat) : Nat → Option Nat
  | 0 =>
      if startIndex = 0 && entries[0]?.any isTurnStartEntry then some 0 else none
  | i + 1 =>
      if i + 1 < startIndex then none
      else if entries[i + 1]?.any isTurnStartEntry then some (i + 1)
      else findTurnStartIndex entries startIndex i

/-- `turnStartIndex` is `none` where the source has `-1`. -/
structure CutPointResult where
  firstKeptEntryIndex : Nat
  turnStartIndex : Option Nat
  isSplitTurn : Bool
deriving Repr, DecidableEq

/-- The backward walk: `n` entries are still ahead of it, `acc` tokens
behind. Returns the cut index. -/
def budgetCut (entries : List SessionEntry) (startIndex : Nat) (keepRecentTokens : Int)
    (cutPoints : List Nat) (cutIndex : Nat) : Nat → Nat → Nat
  | 0, _ => cutIndex
  | i + 1, acc =>
      if i < startIndex then cutIndex
      else
        let messageTokens := (entries[i]?.map entryTokens).getD 0
        if messageTokens = 0 then
          budgetCut entries startIndex keepRecentTokens cutPoints cutIndex i acc
        else if keepRecentTokens ≤ (acc + messageTokens : Nat) then
          (cutPoints.find? (fun c => i ≤ c)).getD cutIndex
        else
          budgetCut entries startIndex keepRecentTokens cutPoints cutIndex i (acc + messageTokens)

/-- An entry the backward metadata scan passes over. -/
def isSilentMetadata (entry : SessionEntry) : Bool :=
  !entry.isCompaction && (sessionEntryToContextMessages entry).isEmpty

/-- The scan that moves the cut back over adjacent metadata. -/
def includeMetadata (entries : List SessionEntry) (startIndex : Nat) : Nat → Nat
  | 0 => 0
  | c + 1 =>
      if startIndex < c + 1 && entries[c]?.any isSilentMetadata then
        includeMetadata entries startIndex c
      else c + 1

def findCutPoint (entries : List SessionEntry) (startIndex endIndex : Nat)
    (keepRecentTokens : Int) : CutPointResult :=
  match findValidCutPoints entries startIndex endIndex with
  | [] => { firstKeptEntryIndex := startIndex, turnStartIndex := none, isSplitTurn := false }
  | first :: rest =>
      let cutPoints := first :: rest
      let cutIndex := includeMetadata entries startIndex
        (budgetCut entries startIndex keepRecentTokens cutPoints first endIndex 0)
      let startsTurn := entries[cutIndex]?.any isTurnStartEntry
      let turnStartIndex :=
        if startsTurn then none else findTurnStartIndex entries startIndex cutIndex
      { firstKeptEntryIndex := cutIndex
        turnStartIndex
        isSplitTurn := !startsTurn && turnStartIndex.isSome }

/-! ## Valid cut points -/

variable {entries : List SessionEntry}

theorem mem_findValidCutPoints {s n i : Nat} :
    i ∈ findValidCutPoints entries s n ↔
      s ≤ i ∧ i < n ∧ ∃ e, entries[i]? = some e ∧ isValidCutPoint e = true := by
  simp only [findValidCutPoints, List.mem_filter, List.mem_range'_1, Option.any_eq_true]
  constructor
  · rintro ⟨⟨h1, h2⟩, h3⟩
    exact ⟨h1, by omega, h3⟩
  · rintro ⟨h1, h2, h3⟩
    exact ⟨⟨h1, by omega⟩, h3⟩

theorem findValidCutPoints_sorted (entries : List SessionEntry) (s n : Nat) :
    (findValidCutPoints entries s n).Pairwise (· < ·) :=
  (List.pairwise_lt_range' (s := s) (n := n - s)).filter _

/-! ## The budget walk -/

/-- Tokens from entry `i` to entry `n`. -/
def tokensBetween (entries : List SessionEntry) (i n : Nat) : Nat :=
  (((entries.take n).drop i).map entryTokens).sum

/-- Entry `i` is where the walk back from `n` reaches the budget: it has
tokens, with it the budget is met, and no later entry with tokens meets it. -/
structure ReachesBudget (entries : List SessionEntry) (n : Nat) (keepRecentTokens : Int)
    (i : Nat) : Prop where
  lt : i < n
  tokens : (entries[i]?.map entryTokens).getD 0 ≠ 0
  reached : keepRecentTokens ≤ tokensBetween entries i n
  later : ∀ j, i < j → j < n → (entries[j]?.map entryTokens).getD 0 ≠ 0 →
    ¬ keepRecentTokens ≤ tokensBetween entries j n

theorem tokensBetween_self (entries : List SessionEntry) (n : Nat) :
    tokensBetween entries n n = 0 := by
  simp [tokensBetween, List.drop_take_self]

theorem tokensBetween_succ (entries : List SessionEntry) {i n : Nat} (h : i < n) :
    tokensBetween entries i n =
      (entries[i]?.map entryTokens).getD 0 + tokensBetween entries (i + 1) n := by
  unfold tokensBetween
  by_cases hi : i < entries.length
  · have hlen : i < (entries.take n).length := by
      rw [List.length_take]; omega
    rw [List.drop_eq_getElem_cons hlen]
    simp [List.getElem?_eq_getElem hi]
  · have hnone : entries[i]? = none := List.getElem?_eq_none (by omega)
    have hd : ∀ k, i ≤ k → (entries.take n).drop k = [] := fun k hk =>
      List.drop_eq_nil_of_le (by rw [List.length_take]; omega)
    simp [hnone, hd i (Nat.le_refl _), hd (i + 1) (by omega)]

/-- What the walk returns: the first cut point at or after the entry that
reaches the budget, and its default where there is none. -/
theorem budgetCut_spec {s : Nat} {keep : Int} {cutPoints : List Nat} {d n : Nat} :
    ∀ {m acc : Nat}, m ≤ n → acc = tokensBetween entries m n →
      (∀ j, m ≤ j → j < n → (entries[j]?.map entryTokens).getD 0 ≠ 0 →
        ¬ keep ≤ tokensBetween entries j n) →
      (∃ i, s ≤ i ∧ ReachesBudget entries n keep i ∧
        budgetCut entries s keep cutPoints d m acc
          = (cutPoints.find? (fun c => i ≤ c)).getD d) ∨
      ((∀ i, s ≤ i → ¬ ReachesBudget entries n keep i) ∧
        budgetCut entries s keep cutPoints d m acc = d)
  | 0, acc, _, _, hlater => by
    refine Or.inr ⟨fun i _ hi => ?_, rfl⟩
    exact hlater i (Nat.zero_le _) hi.lt hi.tokens hi.reached
  | i + 1, acc, hm, hacc, hlater => by
    have hsucc := tokensBetween_succ entries (i := i) (n := n) (by omega)
    rw [budgetCut]
    by_cases hs : i < s
    · rw [if_pos hs]
      refine Or.inr ⟨fun j hj hr => ?_, rfl⟩
      exact hlater j (by omega) hr.lt hr.tokens hr.reached
    rw [if_neg hs]
    dsimp only
    by_cases h0 : (entries[i]?.map entryTokens).getD 0 = 0
    · rw [if_pos h0]
      refine budgetCut_spec (by omega) (by omega) fun j hj hjn htok => ?_
      by_cases hji : j = i
      · subst hji; exact absurd h0 htok
      · exact hlater j (by omega) hjn htok
    rw [if_neg h0]
    have htotal : acc + (entries[i]?.map entryTokens).getD 0 = tokensBetween entries i n := by
      omega
    rw [htotal]
    by_cases hk : keep ≤ (tokensBetween entries i n : Nat)
    · rw [if_pos hk]
      exact Or.inl ⟨i, by omega, ⟨by omega, h0, hk, fun j hj => hlater j (by omega)⟩, rfl⟩
    · rw [if_neg hk]
      refine budgetCut_spec (by omega) rfl fun j hj hjn htok => ?_
      by_cases hji : j = i
      · subst hji; exact hk
      · exact hlater j (by omega) hjn htok

/-! ## The metadata scan -/

theorem includeMetadata_le (entries : List SessionEntry) (s : Nat) :
    ∀ c, includeMetadata entries s c ≤ c
  | 0 => Nat.le_refl _
  | c + 1 => by
    rw [includeMetadata]
    split
    · exact Nat.le_succ_of_le (includeMetadata_le entries s c)
    · exact Nat.le_refl _

theorem le_includeMetadata {s : Nat} :
    ∀ {c}, s ≤ c → s ≤ includeMetadata entries s c
  | 0, h => h
  | c + 1, h => by
    rw [includeMetadata]
    split
    · rename_i hc
      simp only [Bool.and_eq_true, decide_eq_true_eq] at hc
      exact le_includeMetadata (by omega)
    · exact h

theorem includeMetadata_silent {s : Nat} :
    ∀ {c i : Nat}, includeMetadata entries s c ≤ i → i < c →
      ∃ e, entries[i]? = some e ∧ isSilentMetadata e = true
  | 0, _, _, h => absurd h (Nat.not_lt_zero _)
  | c + 1, i, h, hi => by
    rw [includeMetadata] at h
    split at h
    · rename_i hc
      simp only [Bool.and_eq_true, decide_eq_true_eq, Option.any_eq_true] at hc
      by_cases hic : i = c
      · subst hic; exact hc.2
      · exact includeMetadata_silent h (by omega)
    · omega

/-! ## Turn starts -/

theorem findTurnStartIndex_some {s : Nat} :
    ∀ {i t : Nat}, findTurnStartIndex entries s i = some t →
      s ≤ t ∧ t ≤ i ∧ ∃ e, entries[t]? = some e ∧ isTurnStartEntry e = true
  | 0, t, h => by
    rw [findTurnStartIndex] at h
    split at h
    · rename_i hc
      simp only [Bool.and_eq_true, decide_eq_true_eq, Option.any_eq_true] at hc
      obtain rfl := Option.some.inj h
      exact ⟨by omega, Nat.le_refl _, hc.2⟩
    · cases h
  | i + 1, t, h => by
    rw [findTurnStartIndex] at h
    split at h
    · cases h
    · rename_i hs
      split at h
      · rename_i hc
        simp only [Option.any_eq_true] at hc
        obtain rfl := Option.some.inj h
        exact ⟨by omega, Nat.le_refl _, hc⟩
      · obtain ⟨h1, h2, h3⟩ := findTurnStartIndex_some h
        exact ⟨h1, by omega, h3⟩

/-! ## The specification of `findCutPoint` -/

/-- The valid cut point `findCutPoint` settles on, before the metadata
scan: the first one at or after the entry that reaches the budget, else
the first one of the range. -/
def ChosenCutPoint (entries : List SessionEntry) (s n : Nat) (keep : Int) (c : Nat) : Prop :=
  let cutPoints := findValidCutPoints entries s n
  (∃ i, s ≤ i ∧ ReachesBudget entries n keep i ∧ cutPoints.find? (fun c => i ≤ c) = some c) ∨
    (cutPoints.head? = some c ∧
      ∀ i, s ≤ i → ReachesBudget entries n keep i → cutPoints.find? (fun c => i ≤ c) = none)

theorem ReachesBudget.unique {n : Nat} {keep : Int} {i j : Nat}
    (hi : ReachesBudget entries n keep i) (hj : ReachesBudget entries n keep j) : i = j := by
  rcases Nat.lt_trichotomy i j with h | h | h
  · exact absurd hj.reached (hi.later j h hj.lt hj.tokens)
  · exact h
  · exact absurd hi.reached (hj.later i h hi.lt hi.tokens)

theorem ChosenCutPoint.mem {s n : Nat} {keep : Int} {c : Nat}
    (h : ChosenCutPoint entries s n keep c) : c ∈ findValidCutPoints entries s n := by
  rcases h with ⟨i, -, -, hfind⟩ | ⟨hhead, -⟩
  · exact List.mem_of_find?_eq_some hfind
  · exact List.mem_of_head? hhead

/-- Without valid cut points the cut is the start of the range; otherwise
it is a chosen valid cut point, moved back over silent metadata. -/
theorem findCutPoint_chosen (entries : List SessionEntry) (s n : Nat) (keep : Int) :
    (findValidCutPoints entries s n = [] ∧
      findCutPoint entries s n keep =
        { firstKeptEntryIndex := s, turnStartIndex := none, isSplitTurn := false }) ∨
    ∃ c, ChosenCutPoint entries s n keep c ∧
      (findCutPoint entries s n keep).firstKeptEntryIndex = includeMetadata entries s c := by
  unfold findCutPoint ChosenCutPoint
  split
  · rename_i h
    exact Or.inl ⟨h, rfl⟩
  · rename_i first rest h
    refine Or.inr ⟨_, ?_, rfl⟩
    rw [h]
    dsimp only
    rcases budgetCut_spec (s := s) (d := first) (n := n) (m := n)
        (Nat.le_refl _) (tokensBetween_self entries n).symm
        (fun j hj hjn => absurd hjn (by omega)) with ⟨i, hs, hr, hcut⟩ | ⟨hnone, hcut⟩
    · rw [hcut]
      cases hf : (first :: rest).find? (fun c => decide (i ≤ c)) with
      | some c => exact Or.inl ⟨i, hs, hr, by rw [hf]; rfl⟩
      | none =>
        refine Or.inr ⟨rfl, fun j hj hrj => ?_⟩
        rw [hrj.unique hr]
        exact hf
    · rw [hcut]
      exact Or.inr ⟨rfl, fun i hi hr => absurd hr (hnone i hi)⟩

theorem findCutPoint_range (entries : List SessionEntry) (s n : Nat) (keep : Int) :
    s ≤ (findCutPoint entries s n keep).firstKeptEntryIndex ∧
      ((findCutPoint entries s n keep).isSplitTurn = true →
        ∃ t, (findCutPoint entries s n keep).turnStartIndex = some t ∧ s ≤ t ∧
          t ≤ (findCutPoint entries s n keep).firstKeptEntryIndex) := by
  constructor
  · rcases findCutPoint_chosen entries s n keep with ⟨-, h⟩ | ⟨c, hc, hcut⟩
    · exact Nat.le_of_eq (congrArg CutPointResult.firstKeptEntryIndex h).symm
    · rw [hcut]
      exact le_includeMetadata (mem_findValidCutPoints.mp hc.mem).1
  · unfold findCutPoint
    split
    · intro h; cases h
    · intro h
      simp only [Bool.and_eq_true, Bool.not_eq_true', Option.isSome_iff_exists] at h
      obtain ⟨hstart, t, ht⟩ := h
      rw [if_neg (by simp [hstart])] at ht
      obtain ⟨h1, h2, -⟩ := findTurnStartIndex_some ht
      refine ⟨t, ?_, h1, h2⟩
      dsimp only
      rw [if_neg (by simp [hstart]), ht]

end Eagent
