import Mathlib.Algebra.Order.BigOperators.Group.List
import Eagent.CompactionContext
import Eagent.HarnessCompaction

/-!
# The previous summary

A compaction of a session that was compacted before updates the previous
summary: `compact` puts it into the request for the history's summary. When
a turn is split and nothing comes before it there is no such request.
-/

namespace Eagent

/-! ## What a call carries -/

def Compacted.Carries {ε : Type} (compacted : Compacted ε) (summary : String) : Prop :=
  (∃ request ∈ compacted.requests, summary.toList <:+: request.promptText.toList) ∨
    ∃ result, compacted.result = .ok result ∧ summary.toList <:+: result.summary.toList

/-- A turn is split, and nothing is summarized but its prefix. -/
structure CompactionPreparation.OnlyTurnPrefix (preparation : CompactionPreparation) : Prop where
  split : preparation.isSplitTurn = true
  turnPrefix : preparation.turnPrefixMessages ≠ []
  history : preparation.messagesToSummarize = []

theorem infix_previousSummaryTags (summary : String) :
    summary.toList <:+: (previousSummaryTags (some summary)).toList := by
  rw [previousSummaryTags]
  by_cases h : truthy summary = true
  · rw [Option.filter_some, if_pos h]
    simp only [String.toList_append]
    exact List.infix_append _ _ _
  · rw [truthy_iff, not_not] at h
    rw [h]
    exact List.nil_infix

section

variable {ε : Type} (summarizer : Summarizer ε) (preparation : CompactionPreparation)
  (options : SummaryOptions)

theorem infix_summaryRequest (texts : SummaryTexts) (messages : List AgentMessage)
    (reserveTokens : Int) (summary : String) :
    summary.toList <:+:
      (texts.summaryRequest options messages reserveTokens (some summary)).promptText.toList := by
  rw [SummaryTexts.summaryRequest, SummaryTexts.request, String.toList_append,
    String.toList_append]
  exact (infix_previousSummaryTags summary).trans (List.infix_append _ _ _)

theorem compactWith_requests (h : ¬ preparation.OnlyTurnPrefix) :
    summarizer.texts.summaryRequest options preparation.messagesToSummarize
        preparation.settings.reserveTokens preparation.previousSummary ∈
      (compactWith summarizer preparation options).requests := by
  rw [compactWith]
  dsimp only
  split
  · rename_i hsplit
    rw [Bool.and_eq_true, Bool.not_eq_true', List.isEmpty_eq_false_iff] at hsplit
    rw [if_neg fun hempty => h ⟨hsplit.1, hsplit.2, List.isEmpty_iff.mp hempty⟩]
    split
    · exact List.mem_singleton.mpr rfl
    · exact List.mem_cons_self
  · exact List.mem_singleton.mpr rfl

/-- With nothing but a turn prefix the call does not look at the previous
summary. -/
theorem compactWith_onlyTurnPrefix (h : preparation.OnlyTurnPrefix)
    (previousSummary : Option String) :
    compactWith summarizer { preparation with previousSummary } options =
      compactWith summarizer preparation options := by
  have hsplit : (preparation.isSplitTurn && !preparation.turnPrefixMessages.isEmpty) = true := by
    rw [Bool.and_eq_true, Bool.not_eq_true', List.isEmpty_eq_false_iff]
    exact ⟨h.split, h.turnPrefix⟩
  have hempty : preparation.messagesToSummarize.isEmpty = true := List.isEmpty_iff.mpr h.history
  rw [compactWith, compactWith]
  dsimp only
  rw [if_pos hsplit, if_pos hempty, if_pos hsplit, if_pos hempty]
  rfl

theorem Compacted.exists_not_carries (compacted : Compacted ε) :
    ∃ summary, ¬ compacted.Carries summary := by
  obtain ⟨requests, result⟩ := compacted
  let sizes := requests.map fun request => request.promptText.toList.length
  let size := match result with
    | .ok result => result.summary.toList.length
    | .error _ => 0
  have hlength : (String.ofList (List.replicate (sizes.sum + size + 1) 'x')).toList.length =
      sizes.sum + size + 1 := by
    rw [String.toList_ofList, List.length_replicate]
  refine ⟨String.ofList (List.replicate (sizes.sum + size + 1) 'x'), ?_⟩
  rintro (⟨request, hrequest, hinfix⟩ | ⟨result', rfl, hinfix⟩)
  · have hle := hinfix.length_le
    rw [hlength] at hle
    have hsum : request.promptText.toList.length ≤ sizes.sum :=
      List.le_sum_of_mem (List.mem_map_of_mem hrequest)
    omega
  · have hle := hinfix.length_le
    rw [hlength] at hle
    exact absurd hle (Nat.not_le.mpr (Nat.lt_succ_of_le (Nat.le_add_left _ _)))

theorem compactWith_carries_iff :
    (∀ summary, (compactWith summarizer { preparation with previousSummary := some summary }
      options).Carries summary) ↔ ¬ preparation.OnlyTurnPrefix := by
  constructor
  · intro h honly
    obtain ⟨summary, hnot⟩ := (compactWith summarizer preparation options).exists_not_carries
    refine hnot ?_
    rw [← compactWith_onlyTurnPrefix summarizer preparation options honly (some summary)]
    exact h summary
  · intro h summary
    refine Or.inl ⟨_, compactWith_requests summarizer
      { preparation with previousSummary := some summary } options
      (fun honly => h ⟨honly.split, honly.turnPrefix, honly.history⟩), ?_⟩
    exact infix_summaryRequest options summarizer.texts _ _ summary

end

/-! ## The coding agent -/

/-- The fields of a preparation that the requests depend on. -/
structure PreparedFields (path : List SessionEntry) (settings : CompactionSettings)
    (preparation : CompactionPreparation) : Prop where
  firstKept : truthy preparation.firstKeptEntryId = true
  previous : preparation.previousSummary = (compactionBoundary path).1.map (·.summary)
  split : preparation.isSplitTurn =
    (findCutPoint path (compactionBoundary path).2 path.length
      settings.keepRecentTokens).isSplitTurn
  history : preparation.messagesToSummarize = historyMessages path (compactionBoundary path).2
    (findCutPoint path (compactionBoundary path).2 path.length settings.keepRecentTokens)
  some : preparation.messagesToSummarize ≠ [] ∨ preparation.turnPrefixMessages ≠ []

theorem prepareCompaction_fields {path : List SessionEntry} {settings : CompactionSettings}
    {preparation : CompactionPreparation}
    (h : prepareCompaction path settings = some preparation) :
    PreparedFields path settings preparation := by
  rw [prepareCompaction] at h
  split at h
  · cases h
  dsimp only at h
  split at h
  · cases h
  split at h
  · cases h
  split at h
  · cases h
  rename_i hid
  split at h
  · cases h
  rename_i hne
  obtain rfl := Option.some.inj h
  refine ⟨by simpa using hid, rfl, rfl, rfl, ?_⟩
  rw [Bool.and_eq_true, List.isEmpty_iff, List.isEmpty_iff, not_and_or] at hne
  exact hne

theorem compactionBoundary_latest (path : List SessionEntry) :
    (compactionBoundary path).1 = latestCompaction path := by
  cases hlatest : latestCompaction path with
  | none =>
    have hprev := prevCompactionIndex_eq_none (latestCompaction_eq_none.mp hlatest) path.length
    rw [compactionBoundary, hprev]
  | some c =>
    obtain ⟨pre, post, hpath, hpost⟩ := latestCompaction_split hlatest
    have hc := latestCompaction_compaction? hlatest
    have hcompaction : c.entry.isCompaction = true := by
      rw [← SessionEntry.compaction?_isSome, hc]
      rfl
    have hprev := prevCompactionIndex_split pre hcompaction hpost _ (Nat.le_refl _)
    have hlength : path.length = pre.length + 1 + post.length := by
      rw [hpath, List.length_append, List.length_cons]
      omega
    have hat : path[pre.length]? = some c.entry := by
      rw [hpath, List.getElem?_append_right (Nat.le_refl _), Nat.sub_self]
      rfl
    rw [← hpath, ← hlength] at hprev
    rw [compactionBoundary, hprev]
    dsimp only
    rw [hat, Option.bind_some, hc]

/-! ## The harness -/

namespace HarnessCompaction

theorem compaction?_isSome (entry : SessionTreeEntry) :
    (compaction? entry).isSome = isCompaction entry := by
  unfold compaction? isCompaction
  cases hb : entry.body with
  | entry body =>
    rw [SessionEntry.compaction?_isSome]
    cases body <;> rfl
  | _ => rfl

/-- The first entry from the end that is a compaction. -/
theorem bind_findIdx? {α β : Type*} {p : α → Bool} {f : α → Option β}
    (h : ∀ a, (f a).isSome = p a) (as : List α) :
    ((as.findIdx? p).bind fun i => as[i]?.bind f) = as.findSome? f := by
  induction as with
  | nil => rfl
  | cons a as ih =>
    rw [List.findIdx?_cons, List.findSome?_cons]
    cases ha : f a with
    | some b =>
      have hp : p a = true := by rw [← h, ha]; rfl
      rw [if_pos hp]
      exact ha
    | none =>
      have hp : p a = false := by rw [← h, ha]; rfl
      rw [hp, if_neg Bool.false_ne_true, ← ih, Option.bind_map]
      rfl

theorem compactionBoundary_latest (path : List SessionTreeEntry) :
    (compactionBoundary path).1 = path.reverse.findSome? compaction? := by
  rw [← bind_findIdx? compaction?_isSome, compactionBoundary]
  cases hfind : path.reverse.findIdx? isCompaction with
  | none => rfl
  | some fromEnd =>
    have hlt : fromEnd < path.length := by
      have := (List.findIdx?_eq_some_iff_getElem.mp hfind).1
      rwa [List.length_reverse] at this
    rw [Option.bind_some, List.getElem?_reverse hlt]
    dsimp only
    cases path[path.length - 1 - fromEnd]?.bind compaction? with
    | none => rfl
    | some c => rfl

theorem prepareCompaction_fields {path : List SessionTreeEntry} {settings : CompactionSettings}
    {preparation : CompactionPreparation}
    (h : prepareCompaction path settings = .ok (some preparation)) :
    let cutPoint := findCutPoint path (compactionBoundary path).2 path.length
      settings.keepRecentTokens
    truthy preparation.firstKeptEntryId = true ∧
      preparation.previousSummary = (compactionBoundary path).1.map (·.summary) ∧
      preparation.isSplitTurn = cutPoint.isSplitTurn ∧
      preparation.messagesToSummarize =
        historyMessages path (compactionBoundary path).2 cutPoint ∧
      preparation.turnPrefixMessages = turnPrefix path cutPoint := by
  rw [prepareCompaction] at h
  split at h
  · cases h
  dsimp only at h
  split at h
  · cases h
  rename_i first hfirst
  cases h
  exact ⟨(Option.filter_eq_some_iff.mp hfirst).2, rfl, rfl, rfl, rfl⟩

end HarnessCompaction

/-! ## Both -/

/-- For every path that was compacted before: whatever its summary says is
carried, except when the cut splits a turn and no entry between the kept
boundary and that turn contributes a message. The same holds for the
harness. -/
theorem compact_carries_previous_iff (options : SummaryOptions) (settings : CompactionSettings) :
    (∀ (complete : SummarizationRequest → Except String AssistantMessage)
        (path : List SessionEntry) (preparation : CompactionPreparation)
        (previous : CompactionEntry),
      prepareCompaction path settings = some preparation →
      latestCompaction path = some previous →
      let boundaryStart := (compactionBoundary path).2
      let cutPoint := findCutPoint path boundaryStart path.length settings.keepRecentTokens
      preparation.previousSummary = some previous.summary ∧
        ((∀ summary, (CodingAgentCompaction.compact complete
          { preparation with previousSummary := some summary } options).Carries summary) ↔
            ¬ (cutPoint.isSplitTurn = true ∧ historyMessages path boundaryStart cutPoint = []))) ∧
    (∀ (complete : SummarizationRequest → Except HarnessCompaction.CompactionError AssistantMessage)
        (path : List SessionTreeEntry) (preparation : CompactionPreparation)
        (previous : CompactionEntry),
      HarnessCompaction.prepareCompaction path settings = .ok (some preparation) →
      path.reverse.findSome? HarnessCompaction.compaction? = some previous →
      let boundaryStart := (HarnessCompaction.compactionBoundary path).2
      let cutPoint := HarnessCompaction.findCutPoint path boundaryStart path.length
        settings.keepRecentTokens
      preparation.previousSummary = some previous.summary ∧
        ((∀ summary, (HarnessCompaction.compact complete
          { preparation with previousSummary := some summary } options).Carries summary) ↔
            ¬ (cutPoint.isSplitTurn = true ∧ HarnessCompaction.turnPrefix path cutPoint ≠ [] ∧
              HarnessCompaction.historyMessages path boundaryStart cutPoint = []))) := by
  constructor
  · intro complete path preparation previous hprep hlatest
    obtain ⟨hid, hprevious, hsplit, hhistory, hsome⟩ := prepareCompaction_fields hprep
    refine ⟨?_, ?_⟩
    · rw [hprevious, compactionBoundary_latest, hlatest]
      rfl
    · have hcompact : ∀ summary, CodingAgentCompaction.compact complete
          { preparation with previousSummary := some summary } options =
            compactWith (CodingAgentCompaction.summarizer complete)
              { preparation with previousSummary := some summary } options :=
        fun summary => if_pos hid
      simp only [hcompact]
      rw [compactWith_carries_iff, ← hsplit, ← hhistory]
      refine not_congr ⟨fun h => ⟨h.split, h.history⟩, fun h => ⟨h.1, ?_, h.2⟩⟩
      exact hsome.resolve_left (not_not.mpr h.2)
  · intro complete path preparation previous hprep hlatest
    obtain ⟨hid, hprevious, hsplit, hhistory, hturn⟩ :=
      HarnessCompaction.prepareCompaction_fields hprep
    refine ⟨?_, ?_⟩
    · rw [hprevious, HarnessCompaction.compactionBoundary_latest, hlatest]
      rfl
    · have hcompact : ∀ summary, HarnessCompaction.compact complete
          { preparation with previousSummary := some summary } options =
            compactWith (HarnessCompaction.summarizer complete)
              { preparation with previousSummary := some summary } options :=
        fun summary => if_pos hid
      simp only [hcompact]
      rw [compactWith_carries_iff, ← hsplit, ← hhistory, ← hturn]
      exact not_congr ⟨fun h => ⟨h.split, h.turnPrefix, h.history⟩, fun h => ⟨h.1, h.2.1, h.2.2⟩⟩

private def daybreak : String := "1970-01-01T00:00:00.000Z"

private def askedEntry (id : String) (parentId : Option String) : SessionEntry :=
  ⟨id, parentId, daybreak, .message (.user ⟨some (.string "text"), 0⟩)⟩

private def answer : AssistantMessage where
  content := some [.text "text"]
  provider := "p"
  model := "m"
  usage := none
  stopReason := .stop
  timestamp := 0

private def answeredEntry (id : String) (parentId : Option String) : SessionEntry :=
  ⟨id, parentId, daybreak, .message (.assistant answer)⟩

private def summarizedEntry (id : String) (parentId : Option String) (firstKeptEntryId : String) :
    SessionEntry :=
  ⟨id, parentId, daybreak, .compaction "∅" firstKeptEntryId 0 none none⟩

private def plainOptions : SummaryOptions := ⟨⟨0, false⟩, none, none⟩

/-- A turn after the compaction is kept: the history is summarized with the
previous summary. -/
theorem compact_carries_history :
    ∃ preparation, prepareCompaction
        [askedEntry "u1" none, answeredEntry "a1" (some "u1"),
          summarizedEntry "c" (some "a1") "u1", askedEntry "u2" (some "c")]
        ⟨true, 0, 1⟩ = some preparation ∧
      (CodingAgentCompaction.compact (fun _ => .ok answer) preparation plainOptions).Carries
        "∅" := by
  obtain ⟨preparation, hprep⟩ := Option.isSome_iff_exists.mp
    (show (prepareCompaction
        [askedEntry "u1" none, answeredEntry "a1" (some "u1"),
          summarizedEntry "c" (some "a1") "u1", askedEntry "u2" (some "c")]
        ⟨true, 0, 1⟩).isSome = true by decide)
  refine ⟨preparation, hprep, ?_⟩
  obtain ⟨hprevious, hiff⟩ := (compact_carries_previous_iff plainOptions _).1 (fun _ => .ok answer) _
    preparation ⟨summarizedEntry "c" (some "a1") "u1", "∅", "u1", 0, none, none, rfl⟩ hprep rfl
  have hcarries := hiff.mpr (by decide) "∅"
  rwa [← hprevious] at hcarries

/-- The first byte of `∅`, by which a text that holds it is told. -/
private theorem byte_of_mem {t : String} (h : "∅".toList <:+: t.toList) :
    (0xE2 : UInt8) ∈ t.toByteArray.data.toList := by
  have hmem : '∅' ∈ t.toList := h.subset (by decide)
  rw [← String.utf8Encode_toList, List.utf8Encode, List.data_toByteArray]
  exact List.mem_flatMap.mpr ⟨_, hmem, by decide⟩

private def free (t : String) : Bool := t.toByteArray.data.toList.all (· ≠ 0xE2)

private theorem not_infix_of_free {t : String} (h : free t = true) :
    ¬ "∅".toList <:+: t.toList := by
  intro hinfix
  have hne := List.all_eq_true.mp h _ (byte_of_mem hinfix)
  exact absurd rfl (of_decide_eq_true hne)

/-- The turn that the previous compaction kept has grown: its prefix is
summarized alone, and the previous summary is neither sent nor kept. -/
theorem compact_drops_previous :
    ∃ (path : List SessionEntry) (preparation : CompactionPreparation) (previous : CompactionEntry),
      prepareCompaction path ⟨true, 0, 1⟩ = some preparation ∧
      latestCompaction path = some previous ∧
      ¬ (CodingAgentCompaction.compact (fun _ => .ok answer) preparation plainOptions).Carries
        previous.summary := by
  let path := [askedEntry "u1" none, answeredEntry "a1" (some "u1"),
    summarizedEntry "c" (some "a1") "u1", answeredEntry "a2" (some "c")]
  have hnone : (prepareCompaction path ⟨true, 0, 1⟩).map (fun preparation =>
      let compacted := CodingAgentCompaction.compact (fun _ => .ok answer) preparation plainOptions
      compacted.requests.all (fun request => free request.promptText) &&
        compacted.result.toOption.all fun result => free result.summary) = some true := by
    decide +kernel
  obtain ⟨preparation, hprep, hnone⟩ := Option.map_eq_some_iff.mp hnone
  rw [Bool.and_eq_true, List.all_eq_true] at hnone
  obtain ⟨hrequests, hresult⟩ := hnone
  refine ⟨path, preparation, ⟨summarizedEntry "c" (some "a1") "u1", "∅", "u1", 0, none, none, rfl⟩,
    hprep, rfl, ?_⟩
  rintro (⟨request, hrequest, hinfix⟩ | ⟨result, hok, hinfix⟩)
  · exact not_infix_of_free (hrequests request hrequest) hinfix
  · rw [hok, Except.toOption, Option.all_some] at hresult
    exact not_infix_of_free hresult hinfix

end Eagent
