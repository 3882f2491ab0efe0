import Eagent.CompactionContext

/-!
# Where a cut is placed

`findCutPoint` against the entry from which the budget is reached and
against the turns of its range. Both comparisons go through the valid cut
point it settles on (`ChosenCutPoint`) and the first visible entry of what
is kept.
-/

namespace Eagent

variable {entries : List SessionEntry} {s n : Nat} {keep : Int}

/-! ## Visible entries -/

/-- Entry `i` contributes a message to the context. -/
def VisibleAt (entries : List SessionEntry) (i : Nat) : Prop :=
  ∃ e, entries[i]? = some e ∧ sessionEntryToContextMessages e ≠ []

/-- Entry `i` starts a turn. -/
def TurnStartAt (entries : List SessionEntry) (i : Nat) : Prop :=
  ∃ e, entries[i]? = some e ∧ isTurnStartEntry e = true

variable {i : Nat}

theorem any_turnStart :
    entries[i]?.any isTurnStartEntry = true ↔ TurnStartAt entries i := by
  rw [Option.any_eq_true, TurnStartAt]

theorem any_turnStart_false :
    entries[i]?.any isTurnStartEntry = false ↔ ¬ TurnStartAt entries i := by
  rw [← any_turnStart, Bool.not_eq_true]

theorem ne_nil_of_any {α : Type*} {p : α → Bool} {as : List α} (h : as.any p = true) : as ≠ [] := by
  rintro rfl
  cases h

theorem TurnStartAt.visible (h : TurnStartAt entries i) : VisibleAt entries i := by
  obtain ⟨e, he, hstart⟩ := h
  rw [isTurnStartEntry, Bool.and_eq_true] at hstart
  exact ⟨e, he, ne_nil_of_any hstart.2⟩

variable {c : Nat}

theorem visible_of_mem_findValidCutPoints (h : c ∈ findValidCutPoints entries s n) :
    VisibleAt entries c := by
  obtain ⟨-, -, e, he, hvalid⟩ := mem_findValidCutPoints.mp h
  rw [isValidCutPoint, Bool.and_eq_true] at hvalid
  exact ⟨e, he, ne_nil_of_any hvalid.2⟩

/-- A compaction is visible, so what the metadata scan passes is not. -/
theorem silent_iff {e : SessionEntry} :
    isSilentMetadata e = true ↔ sessionEntryToContextMessages e = [] := by
  rw [isSilentMetadata, Bool.and_eq_true, List.isEmpty_iff, Bool.not_eq_true']
  refine ⟨And.right, fun h => ⟨?_, h⟩⟩
  by_contra hcompaction
  obtain ⟨m, hm⟩ := compaction_projects (Bool.not_eq_false _ ▸ hcompaction)
  rw [hm] at h
  cases h

theorem includeMetadata_invisible {c i : Nat} (h : includeMetadata entries s c ≤ i) (hi : i < c) :
    ¬ VisibleAt entries i := by
  obtain ⟨e, he, hsilent⟩ := includeMetadata_silent h hi
  rintro ⟨e', he', hvisible⟩
  obtain rfl := Option.some.inj (he.symm.trans he')
  exact hvisible (silent_iff.mp hsilent)

/-- The metadata scan leaves its start behind when the entry before it is
metadata of the range. -/
theorem includeMetadata_lt_iff :
    includeMetadata entries s c < c ↔
      s < c ∧ ∃ e, entries[c - 1]? = some e ∧ sessionEntryToContextMessages e = [] := by
  cases c with
  | zero => simp
  | succ c =>
    rw [includeMetadata, Nat.add_sub_cancel]
    split
    · rename_i hc
      simp only [Bool.and_eq_true, decide_eq_true_eq, Option.any_eq_true] at hc
      obtain ⟨hlt, e, he, hsilent⟩ := hc
      exact iff_of_true (Nat.lt_succ_of_le (includeMetadata_le entries s c))
        ⟨hlt, e, he, silent_iff.mp hsilent⟩
    · rename_i hc
      refine iff_of_false (Nat.lt_irrefl _) ?_
      rintro ⟨hlt, e, he, hnil⟩
      refine hc ?_
      simp only [Bool.and_eq_true, decide_eq_true_eq, Option.any_eq_true]
      exact ⟨hlt, e, he, silent_iff.mpr hnil⟩

/-! ## Near the budget -/

/-- `i` is the last index of the range from which the entries reach the
budget. -/
structure LastReaching (entries : List SessionEntry) (s n : Nat) (keep : Int) (i : Nat) :
    Prop where
  le : s ≤ i
  lt : i < n
  reached : keep ≤ tokensBetween entries i n
  later : ∀ j, i < j → j < n → ¬ keep ≤ tokensBetween entries j n

/-- The first valid cut point at or after entry `i`, or else the last one
before it. -/
def nearestCutPoint (entries : List SessionEntry) (s n i : Nat) : Option Nat :=
  let cutPoints := findValidCutPoints entries s n
  (cutPoints.find? fun c => i ≤ c).or (cutPoints.reverse.find? fun c => c < i)

/-- `f` is `c` moved back, within the range, over entries that contribute no
message. -/
structure MovedBack (entries : List SessionEntry) (s c f : Nat) : Prop where
  ge : s ≤ f
  le : f ≤ c
  invisible : ∀ i, f ≤ i → i < c → ¬ VisibleAt entries i

/-- The cut is made at the valid cut point nearest to where the budget is
reached; and when that is at or after the second valid cut point, something
is left to summarize. -/
def CutsNearBudget (entries : List SessionEntry) (s n : Nat) (keep : Int) : Prop :=
  let cutPoint := findCutPoint entries s n keep
  ∀ i, LastReaching entries s n keep i →
    (∀ c, nearestCutPoint entries s n i = some c →
      MovedBack entries s c cutPoint.firstKeptEntryIndex) ∧
    (∀ first second rest, findValidCutPoints entries s n = first :: second :: rest →
      second ≤ i → historyMessages entries s cutPoint ++ turnPrefix entries cutPoint ≠ [])

theorem LastReaching.reachesBudget (hkeep : 0 < keep) (h : LastReaching entries s n keep i) :
    ReachesBudget entries n keep i := by
  refine ⟨h.lt, fun htokens => ?_, h.reached, fun j hj hjn _ => h.later j hj hjn⟩
  have hsucc := tokensBetween_succ entries h.lt
  have hreached := h.reached
  rw [htokens, Nat.zero_add] at hsucc
  rw [hsucc] at hreached
  rcases Nat.lt_or_ge (i + 1) n with hlt | hge
  · exact h.later (i + 1) (Nat.lt_succ_self i) hlt hreached
  · obtain rfl : i + 1 = n := Nat.le_antisymm h.lt hge
    rw [tokensBetween_self] at hreached
    exact absurd hreached (by omega)

theorem movedBack_includeMetadata (h : c ∈ findValidCutPoints entries s n) :
    MovedBack entries s c (includeMetadata entries s c) :=
  ⟨le_includeMetadata (mem_findValidCutPoints.mp h).1, includeMetadata_le entries s c,
    fun _ hi hc => includeMetadata_invisible hi hc⟩

theorem messagesBetween_ne_nil {c f : Nat} (h : c ∈ findValidCutPoints entries s n) (hf : c < f) :
    messagesBetween entries s f ≠ [] := by
  obtain ⟨hs, -, e, he, hvalid⟩ := mem_findValidCutPoints.mp h
  rw [isValidCutPoint, Bool.and_eq_true, Bool.not_eq_true'] at hvalid
  have hmem : e ∈ slice entries s f := by
    refine List.mem_of_getElem? (i := c - s) ?_
    rw [slice, List.getElem?_drop, Nat.add_sub_cancel' hs, List.getElem?_take_of_lt hf, he]
  obtain ⟨m, rest, hm⟩ := List.exists_cons_of_ne_nil (ne_nil_of_any hvalid.2)
  have hget : getMessageFromEntryForCompaction e = some m := by
    rw [getMessageFromEntryForCompaction, hvalid.1, hm]
    rfl
  exact List.ne_nil_of_mem (List.mem_filterMap.mpr ⟨e, hmem, hget⟩)

theorem ChosenCutPoint.unique {c c' : Nat} (h : ChosenCutPoint entries s n keep c)
    (h' : ChosenCutPoint entries s n keep c') : c = c' := by
  rcases h with ⟨i, hs, hi, hfind⟩ | ⟨hhead, hnone⟩
  · rcases h' with ⟨j, -, hj, hfind'⟩ | ⟨-, hnone'⟩
    · obtain rfl := hi.unique hj
      exact Option.some.inj (hfind.symm.trans hfind')
    · exact absurd ((hnone' i hs hi).symm.trans hfind) nofun
  · rcases h' with ⟨j, hs, hj, hfind'⟩ | ⟨hhead', -⟩
    · exact absurd ((hnone j hs hj).symm.trans hfind') nofun
    · exact Option.some.inj (hhead.symm.trans hhead')

/-- Where the budget is reached, the first cut point at or after it is
chosen. -/
theorem ChosenCutPoint.of_find {i c : Nat} (hkeep : 0 < keep)
    (hi : LastReaching entries s n keep i)
    (h : (findValidCutPoints entries s n).find? (fun c => i ≤ c) = some c) :
    ChosenCutPoint entries s n keep c :=
  Or.inl ⟨i, hi.le, hi.reachesBudget hkeep, h⟩

theorem ChosenCutPoint.firstKept (h : ChosenCutPoint entries s n keep c) :
    (findCutPoint entries s n keep).firstKeptEntryIndex = includeMetadata entries s c := by
  rcases findCutPoint_chosen entries s n keep with ⟨hnil, -⟩ | ⟨c', hc', hcut⟩
  · exact absurd h.mem (hnil ▸ List.not_mem_nil)
  · rw [hcut, hc'.unique h]

theorem exists_find?_cutPoint (h : ∃ c ∈ findValidCutPoints entries s n, i ≤ c) :
    ∃ c, (findValidCutPoints entries s n).find? (fun c => i ≤ c) = some c := by
  rw [← Option.isSome_iff_exists, List.find?_isSome]
  simpa using h

theorem mem_of_nearestCutPoint {i c : Nat} (h : nearestCutPoint entries s n i = some c) :
    c ∈ findValidCutPoints entries s n := by
  rcases Option.or_eq_some_iff.mp h with hfind | ⟨-, hfind⟩
  · exact List.mem_of_find?_eq_some hfind
  · exact List.mem_reverse.mp (List.mem_of_find?_eq_some hfind)

/-- When every cut point lies before `i`, the nearest one is the last. -/
theorem nearestCutPoint_of_before (h : ∀ c ∈ findValidCutPoints entries s n, c < i) :
    nearestCutPoint entries s n i = (findValidCutPoints entries s n).getLast? := by
  have hnone : (findValidCutPoints entries s n).find? (fun c => i ≤ c) = none :=
    List.find?_eq_none.mpr fun c hc => by simpa using h c hc
  rw [nearestCutPoint, hnone, Option.none_or, List.getLast?_eq_head?_reverse]
  cases hrev : (findValidCutPoints entries s n).reverse with
  | nil => rfl
  | cons c rest =>
    have hc : c ∈ findValidCutPoints entries s n :=
      List.mem_reverse.mp (hrev ▸ List.mem_cons_self)
    exact List.find?_cons_of_pos (by simpa using h c hc)

/-- Without a cut point at or after the entry that reaches the budget, the
cut is the first of the range, however far back that is. -/
theorem findCutPoint_near_budget_iff (hkeep : 0 < keep) :
    CutsNearBudget entries s n keep ↔
      ∀ i, LastReaching entries s n keep i →
        (∃ c ∈ findValidCutPoints entries s n, i ≤ c) ∨
          (findValidCutPoints entries s n).length ≤ 1 := by
  constructor
  · intro h i hi
    by_contra hfar
    rw [not_or, not_exists, Nat.not_le] at hfar
    obtain ⟨hnone, hmany⟩ := hfar
    obtain ⟨first, second, rest, hcuts⟩ : ∃ first second rest,
        findValidCutPoints entries s n = first :: second :: rest := by
      match hcuts : findValidCutPoints entries s n with
      | [] | [_] => rw [hcuts] at hmany; exact absurd hmany (by simp)
      | first :: second :: rest => exact ⟨first, second, rest, rfl⟩
    have hbefore : ∀ c ∈ findValidCutPoints entries s n, c < i := fun c hc =>
      Nat.lt_of_not_le fun hic => hnone c ⟨hc, hic⟩
    have hchosen : ChosenCutPoint entries s n keep first :=
      Or.inr ⟨by rw [hcuts]; rfl, fun j _ hj => by
        rw [hj.unique (hi.reachesBudget hkeep)]
        exact List.find?_eq_none.mpr fun c hc => by simpa using hbefore c hc⟩
    have hlast : (findValidCutPoints entries s n).getLast? =
        some ((second :: rest).getLast (List.cons_ne_nil _ _)) := by
      rw [hcuts, List.getLast?_cons_cons, List.getLast?_eq_some_getLast]
    have hmoved := (h i hi).1 _ ((nearestCutPoint_of_before hbefore).trans hlast)
    rw [hchosen.firstKept] at hmoved
    -- moved back from the last cut point, the cut does not reach the first
    refine hmoved.invisible first (includeMetadata_le entries s first) ?_
      (visible_of_mem_findValidCutPoints hchosen.mem)
    have hsorted := findValidCutPoints_sorted entries s n
    rw [hcuts] at hsorted
    exact List.rel_of_pairwise_cons hsorted (List.getLast_mem _)
  · intro h i hi
    refine ⟨fun c hc => ?_, fun first second rest hcuts hsecond => ?_⟩
    · have hchosen : ChosenCutPoint entries s n keep c := by
        rcases h i hi with hexists | hone
        · obtain ⟨c', hfind⟩ := exists_find?_cutPoint hexists
          rw [nearestCutPoint, hfind, Option.some_or] at hc
          obtain rfl := Option.some.inj hc
          exact .of_find hkeep hi hfind
        · have hmem := mem_of_nearestCutPoint hc
          rcases findCutPoint_chosen entries s n keep with ⟨hnil, -⟩ | ⟨c', hc', -⟩
          · exact absurd hmem (hnil ▸ List.not_mem_nil)
          · have hmem' := hc'.mem
            obtain ⟨a, ha⟩ := List.length_eq_one_iff.mp
              (Nat.le_antisymm hone (List.length_pos_of_mem hmem))
            rw [ha, List.mem_singleton] at hmem hmem'
            rwa [hmem, ← hmem']
      rw [hchosen.firstKept]
      exact movedBack_includeMetadata hchosen.mem
    · rcases h i hi with hexists | hone
      · obtain ⟨c, hfind⟩ := exists_find?_cutPoint hexists
        have hic := (find?_cutPoint_le hfind).1
        have hchosen : ChosenCutPoint entries s n keep c := .of_find hkeep hi hfind
        have hsorted := findValidCutPoints_sorted entries s n
        rw [hcuts] at hsorted
        have hfirst : first < second := List.rel_of_pairwise_cons hsorted List.mem_cons_self
        have hmem : first ∈ findValidCutPoints entries s n := by
          rw [hcuts]
          exact List.mem_cons_self
        rw [historyMessages_turnPrefix, hchosen.firstKept]
        refine messagesBetween_ne_nil hmem (Nat.lt_of_not_le fun hle => ?_)
        exact includeMetadata_invisible hle (by omega) (visible_of_mem_findValidCutPoints hmem)
      · rw [hcuts] at hone
        exact absurd hone (by simp)

private def dawn : String := "1970-01-01T00:00:00.000Z"

private def sayEntry (id : String) (parentId : Option String) : SessionEntry :=
  ⟨id, parentId, dawn, .message (.user ⟨some (.string "text"), 0⟩)⟩

private def replyWith (id : String) (parentId : Option String) (blocks : List AssistantBlock) :
    SessionEntry :=
  ⟨id, parentId, dawn, .message (.assistant
    { content := some blocks, provider := "p", model := "m", usage := none
      stopReason := .stop, timestamp := 0 })⟩

private def resultEntry (id : String) (parentId : Option String) (toolCallId : String) :
    SessionEntry :=
  ⟨id, parentId, dawn, .message (.toolResult
    { toolCallId, toolName := "bash", content := some [.text "text"], details := none
      isError := false, timestamp := 0 })⟩

/-- One token to keep, reached in the reply: the cut keeps the reply alone. -/
theorem near_budget_reply :
    CutsNearBudget [sayEntry "u" none, replyWith "a" (some "u") [.text "text"]] 0 2 1 := by
  refine (findCutPoint_near_budget_iff (by decide)).mpr fun i hi => Or.inl ⟨1, by decide, ?_⟩
  exact Nat.lt_succ_iff.mp hi.lt

def toolTail : List SessionEntry :=
  [ sayEntry "u" none, replyWith "a" (some "u") [.toolCall ⟨"t", "bash", .obj []⟩],
    resultEntry "r" (some "a") "t" ]

/-- The result alone reaches the budget. Both valid cut points lie before it,
and the cut is made at the first: nothing is left to summarize. -/
theorem toolTail_not_near_budget :
    ¬ CutsNearBudget toolTail 0 3 1 ∧ prepareCompaction toolTail ⟨true, 0, 1⟩ = none := by
  refine ⟨fun h => ?_, by decide⟩
  have hlast : LastReaching toolTail 0 3 1 2 :=
    ⟨by decide, by decide, by decide, fun j hj hjn => by omega⟩
  have hmoved := (h 2 hlast).1 1 (by decide)
  have hcut : (findCutPoint toolTail 0 3 1).firstKeptEntryIndex = 0 := by decide
  rw [hcut] at hmoved
  exact hmoved.invisible 0 (Nat.le_refl 0) Nat.zero_lt_one ⟨_, rfl, nofun⟩

/-! ## Split turns -/

/-- `v` is the first entry from `f` on that contributes a message. -/
structure FirstVisible (entries : List SessionEntry) (f v : Nat) : Prop where
  le : f ≤ v
  visible : VisibleAt entries v
  least : ∀ i, f ≤ i → i < v → ¬ VisibleAt entries i

/-- `t` is the last turn start of the range before entry `v`. -/
structure LastTurnStart (entries : List SessionEntry) (s v t : Nat) : Prop where
  le : s ≤ t
  lt : t < v
  start : TurnStartAt entries t
  later : ∀ i, t < i → i < v → ¬ TurnStartAt entries i

/-- The cut is a split turn when what is kept does not begin with a turn
start and a turn start of the range lies before it; the turn then starts at
the last one. -/
def SplitTurnRecognised (entries : List SessionEntry) (s n : Nat) (keep : Int) : Prop :=
  let cutPoint := findCutPoint entries s n keep
  (cutPoint.isSplitTurn = true ↔
    ∃ v, FirstVisible entries cutPoint.firstKeptEntryIndex v ∧ ¬ TurnStartAt entries v ∧
      ∃ t, s ≤ t ∧ t < v ∧ TurnStartAt entries t) ∧
  (cutPoint.isSplitTurn = true →
    ∀ v, FirstVisible entries cutPoint.firstKeptEntryIndex v →
      ∃ t, cutPoint.turnStartIndex = some t ∧ LastTurnStart entries s v t)

theorem FirstVisible.unique {f v v' : Nat} (h : FirstVisible entries f v)
    (h' : FirstVisible entries f v') : v = v' := by
  rcases Nat.lt_trichotomy v v' with hlt | heq | hlt
  · exact absurd h.visible (h'.least v h.le hlt)
  · exact heq
  · exact absurd h'.visible (h.least v' h'.le hlt)

theorem firstVisible_includeMetadata (h : c ∈ findValidCutPoints entries s n) :
    FirstVisible entries (includeMetadata entries s c) c :=
  ⟨includeMetadata_le entries s c, visible_of_mem_findValidCutPoints h,
    fun _ hi hc => includeMetadata_invisible hi hc⟩

theorem findTurnStartIndex_eq_some {i t : Nat} (h : findTurnStartIndex entries s i = some t) :
    LastTurnStart entries s (i + 1) t := by
  induction i with
  | zero =>
    rw [findTurnStartIndex] at h
    split at h
    · rename_i hc
      obtain rfl := Option.some.inj h
      rw [Bool.and_eq_true, any_turnStart, decide_eq_true_eq] at hc
      exact ⟨Nat.le_of_eq hc.1, Nat.lt_succ_self 0, hc.2, fun i hi hlt => by omega⟩
    · cases h
  | succ i ih =>
    rw [findTurnStartIndex] at h
    split at h
    · cases h
    · split at h
      · rename_i hs hstart
        obtain rfl := Option.some.inj h
        exact ⟨Nat.le_of_not_lt hs, Nat.lt_succ_self _, any_turnStart.mp hstart,
          fun j hj hlt => by omega⟩
      · rename_i hstart
        obtain ⟨hle, hlt, ht, hlater⟩ := ih h
        refine ⟨hle, Nat.lt_succ_of_lt hlt, ht, fun j hj hji => ?_⟩
        rcases Nat.lt_succ_iff_lt_or_eq.mp hji with hji | rfl
        · exact hlater j hj hji
        · exact fun hj => hstart (any_turnStart.mpr hj)

theorem findTurnStartIndex_isSome {i t : Nat} (hs : s ≤ t) (hi : t ≤ i)
    (h : TurnStartAt entries t) : ∃ t', findTurnStartIndex entries s i = some t' := by
  induction i with
  | zero =>
    obtain rfl := Nat.le_zero.mp hi
    obtain rfl := Nat.le_zero.mp hs
    refine ⟨0, ?_⟩
    rw [findTurnStartIndex, any_turnStart.mpr h]
    rfl
  | succ i ih =>
    rw [findTurnStartIndex, if_neg (by omega)]
    by_cases hstart : entries[i + 1]?.any isTurnStartEntry = true
    · exact ⟨i + 1, if_pos hstart⟩
    · have hne : t ≠ i + 1 := fun heq => hstart (heq ▸ any_turnStart.mpr h)
      rw [if_neg hstart]
      exact ih (by omega)

theorem findCutPoint_turn (h : findValidCutPoints entries s n ≠ []) (keep : Int) :
    let cutPoint := findCutPoint entries s n keep
    let startsTurn := entries[cutPoint.firstKeptEntryIndex]?.any isTurnStartEntry
    cutPoint.turnStartIndex = (if startsTurn then none
        else findTurnStartIndex entries s cutPoint.firstKeptEntryIndex) ∧
      cutPoint.isSplitTurn = (!startsTurn && cutPoint.turnStartIndex.isSome) := by
  unfold findCutPoint
  split
  · contradiction
  · exact ⟨rfl, rfl⟩

/-- What `findCutPoint` returns for a chosen cut point. -/
theorem ChosenCutPoint.split (h : ChosenCutPoint entries s n keep c) :
    let f := includeMetadata entries s c
    ((findCutPoint entries s n keep).isSplitTurn = true ↔
      ¬ TurnStartAt entries f ∧ ∃ t, s ≤ t ∧ t ≤ f ∧ TurnStartAt entries t) ∧
    ((findCutPoint entries s n keep).isSplitTurn = true →
      ∃ t, (findCutPoint entries s n keep).turnStartIndex = some t ∧
        LastTurnStart entries s (f + 1) t) := by
  intro f
  obtain ⟨hturn, hsplit⟩ := findCutPoint_turn (List.ne_nil_of_mem h.mem) keep
  rw [h.firstKept] at hturn hsplit
  rw [hsplit]
  by_cases hstart : TurnStartAt entries f
  · rw [any_turnStart.mpr hstart]
    exact ⟨iff_of_false nofun fun hnot => hnot.1 hstart, nofun⟩
  · rw [any_turnStart_false.mpr hstart, if_neg Bool.false_ne_true] at hturn
    rw [any_turnStart_false.mpr hstart, hturn, Bool.not_false, Bool.true_and,
      Option.isSome_iff_exists]
    refine ⟨⟨fun ⟨t, ht⟩ => ?_, fun ⟨_, t, hs, hle, ht⟩ => findTurnStartIndex_isSome hs hle ht⟩,
      fun ⟨t, ht⟩ => ⟨t, ht, findTurnStartIndex_eq_some ht⟩⟩
    have hlast := findTurnStartIndex_eq_some ht
    exact ⟨hstart, t, hlast.le, Nat.lt_succ_iff.mp hlast.lt, hlast.start⟩

/-- Metadata kept in front of a turn start hides it: the cut then splits the
turn before. -/
theorem splitTurn_recognised_iff :
    SplitTurnRecognised entries s n keep ↔
      ∀ c, ChosenCutPoint entries s n keep c → TurnStartAt entries c →
        (∃ t, s ≤ t ∧ t < c ∧ TurnStartAt entries t) →
        ¬ (s < c ∧ ∃ e, entries[c - 1]? = some e ∧ sessionEntryToContextMessages e = []) := by
  constructor
  · rintro ⟨hiff, -⟩ c hc hstart hearlier hmoved
    have hlt := includeMetadata_lt_iff.mpr hmoved
    have hfirst := firstVisible_includeMetadata hc.mem
    obtain ⟨t, hs, htc, ht⟩ := hearlier
    have hhidden := hfirst.least _ (Nat.le_refl _) hlt
    have htf : t ≤ includeMetadata entries s c := Nat.le_of_not_lt fun hft =>
      hfirst.least t (Nat.le_of_lt hft) htc ht.visible
    have hsplit := hc.split.1.mpr ⟨fun hf => hhidden hf.visible, t, hs, htf, ht⟩
    rw [hiff, hc.firstKept] at hsplit
    obtain ⟨v, hv, hnot, -⟩ := hsplit
    exact hnot (hfirst.unique hv ▸ hstart)
  · intro h
    rcases findCutPoint_chosen entries s n keep with ⟨hnil, hcut⟩ | ⟨c, hc, -⟩
    · rw [SplitTurnRecognised, hcut]
      refine ⟨iff_of_false nofun ?_, nofun⟩
      rintro ⟨v, hv, -, t, hs, htv, ht⟩
      exact hv.least t hs htv ht.visible
    · have hfirst := firstVisible_includeMetadata hc.mem
      obtain ⟨hsplit, hlast⟩ := hc.split
      rw [SplitTurnRecognised, hc.firstKept]
      refine ⟨hsplit.trans ⟨?_, ?_⟩, fun hyes v hv => ?_⟩
      · rintro ⟨hnot, t, hs, htf, ht⟩
        have hle := includeMetadata_le entries s c
        have hcnot : ¬ TurnStartAt entries c := by
          intro hcstart
          rcases Nat.lt_or_eq_of_le hle with hlt | heq
          · exact h c hc hcstart ⟨t, hs, Nat.lt_of_le_of_lt htf hlt, ht⟩
              (includeMetadata_lt_iff.mp hlt)
          · exact hnot (by rwa [heq])
        have htc : t ≠ c := fun heq => hcnot (heq ▸ ht)
        exact ⟨c, hfirst, hcnot, t, hs, by omega, ht⟩
      · rintro ⟨v, hv, hnot, t, hs, htv, ht⟩
        obtain rfl := hfirst.unique hv
        have htf : t ≤ includeMetadata entries s c := Nat.le_of_not_lt fun hft =>
          hfirst.least t (Nat.le_of_lt hft) htv ht.visible
        refine ⟨fun hf => ?_, t, hs, htf, ht⟩
        rcases Nat.lt_or_eq_of_le hfirst.le with hlt | heq
        · exact hfirst.least _ (Nat.le_refl _) hlt hf.visible
        · exact hnot (heq ▸ hf)
      · obtain rfl := hfirst.unique hv
        obtain ⟨t, ht, hle, hlt, hstart, hlater⟩ := hlast hyes
        have htc : t ≠ c := by
          rintro rfl
          have heq : includeMetadata entries s t = t := by have := hfirst.le; omega
          exact (hsplit.mp hyes).1 (heq.symm ▸ hstart)
        have hle' := hfirst.le
        refine ⟨t, ht, hle, by omega, hstart, fun i hti hic hi => ?_⟩
        rcases Nat.lt_or_ge i (includeMetadata entries s c + 1) with hlt' | hge
        · exact hlater i hti hlt' hi
        · exact hfirst.least i (by omega) hic hi.visible

def modelChangeTurns : List SessionEntry :=
  [ sayEntry "u1" none, replyWith "a1" (some "u1") [.text "text"],
    ⟨"m", some "a1", dawn, .modelChange "p" "m"⟩,
    sayEntry "u2" (some "m"), replyWith "a2" (some "u2") [.text "text"] ]

/-- Two tokens to keep: the second turn is kept whole, and the first one is
taken for the prefix of a split turn. -/
theorem modelChangeTurns_not_recognised : ¬ SplitTurnRecognised modelChangeTurns 0 5 2 := by
  rintro ⟨hiff, -⟩
  have hcut : (findCutPoint modelChangeTurns 0 5 2).firstKeptEntryIndex = 2 := by decide
  have hsplit : (findCutPoint modelChangeTurns 0 5 2).isSplitTurn = true := by decide
  have hsecond : FirstVisible modelChangeTurns 2 3 := by
    refine ⟨by decide, ⟨_, rfl, nofun⟩, fun i hi hlt => ?_⟩
    obtain rfl : i = 2 := by omega
    rintro ⟨e, he, hvisible⟩
    cases he
    exact hvisible rfl
  rw [hiff, hcut] at hsplit
  obtain ⟨v, hv, hnot, -⟩ := hsplit
  obtain rfl := hsecond.unique hv
  exact hnot ⟨_, rfl, by decide⟩

end Eagent
