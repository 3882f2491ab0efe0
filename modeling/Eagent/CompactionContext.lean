import Mathlib.Tactic.IntervalCases
import Eagent.Compaction

/-!
# Compaction preserves the context

`prepareCompaction` hands over the messages to summarize, the session
appends the compaction entry, and `buildSessionContext` replays the rest.
Nothing is lost or repeated exactly when the cut lies after the previous
compaction and that compaction's own kept window holds no older one
(`contextPreserved_iff`): otherwise the replay projects a compaction entry
that the summary loops skipped.
-/

namespace Eagent

/-! ## What a preparation holds -/

/-- The cut of a preparation: the index of its first kept entry, and the
messages before it. -/
structure PreparedAt (path : List SessionEntry) (settings : CompactionSettings)
    (prep : CompactionPreparation) (cut : Nat) (first : SessionEntry) : Prop where
  cut_eq : (findCutPoint path (compactionBoundary path).2 path.length
    settings.keepRecentTokens).firstKeptEntryIndex = cut
  first_at : path[cut]? = some first
  firstKept : prep.firstKeptEntryId = first.id
  summarized : prep.messagesToSummarize ++ prep.turnPrefixMessages =
    messagesBetween path (compactionBoundary path).2 cut
  nonempty : messagesBetween path (compactionBoundary path).2 cut ≠ []

/-- History and turn prefix together are what lies between the boundary
and the cut. -/
theorem historyMessages_turnPrefix (es : List SessionEntry) (s n : Nat) (keep : Int) :
    historyMessages es s (findCutPoint es s n keep) ++ turnPrefix es (findCutPoint es s n keep)
      = messagesBetween es s (findCutPoint es s n keep).firstKeptEntryIndex := by
  have hrange := findCutPoint_range es s n keep
  generalize findCutPoint es s n keep = cp at hrange ⊢
  rw [historyMessages, turnPrefix, historyEnd]
  cases hsplit : cp.isSplitTurn with
  | false => simp
  | true =>
    obtain ⟨t, ht, hst, htc⟩ := hrange.2 hsplit
    simp only [ht, if_true, Option.getD_some]
    exact messagesBetween_append es hst htc

variable {path : List SessionEntry} {prep : CompactionPreparation} {settings : CompactionSettings}

theorem prepareCompaction_spec (h : prepareCompaction path settings = some prep) :
    ∃ cut first, PreparedAt path settings prep cut first := by
  have hsplit := historyMessages_turnPrefix path (compactionBoundary path).2 path.length
    settings.keepRecentTokens
  rw [prepareCompaction] at h
  split at h
  · cases h
  dsimp only at h
  split at h
  · cases h
  split at h
  · cases h
  rename_i first hfirst
  split at h
  · cases h
  split at h
  · cases h
  rename_i hne
  obtain rfl := Option.some.inj h
  refine ⟨_, first, rfl, hfirst, rfl, hsplit, ?_⟩
  rw [← hsplit]
  intro hnil
  simp only [List.append_eq_nil_iff] at hnil
  exact hne (by simp [hnil])

/-! ## Positions on a path -/

variable {x : SessionEntry}

theorem findIdx?_id (h : (path.map (·.id)).Nodup) {i : Nat} (hi : path[i]? = some x) :
    path.findIdx? (fun e => e.id = x.id) = some i := by
  obtain ⟨hlt, rfl⟩ := List.getElem?_eq_some_iff.mp hi
  rw [List.findIdx?_eq_some_iff_getElem]
  refine ⟨hlt, by simp, ?_⟩
  intro j hj
  rw [decide_eq_true_eq]
  intro heq
  have hi' : i < (path.map (·.id)).length := by simpa using hlt
  have hj' : j < (path.map (·.id)).length := Nat.lt_trans hj hi'
  have hmap : (path.map (·.id))[j] = (path.map (·.id))[i] := by
    rw [List.getElem_map, List.getElem_map, heq]
  have hsame := (List.Nodup.getElem_inj_iff h).mp hmap
  omega

theorem path_split {i : Nat} (hi : path[i]? = some x) :
    path = path.take i ++ x :: path.drop (i + 1) := by
  obtain ⟨hlt, rfl⟩ := List.getElem?_eq_some_iff.mp hi
  rw [List.getElem_cons_drop, List.take_append_drop]

theorem ids_ne_before (h : (path.map (·.id)).Nodup) {i : Nat} (hi : path[i]? = some x) :
    ∀ e ∈ path.take i, e.id ≠ x.id := by
  rw [path_split hi, List.map_append, List.nodup_append] at h
  intro e he heq
  exact h.2.2 _ (List.mem_map_of_mem he) x.id (by simp) heq

/-- Keeping from the entry at `i`, up to `k`. -/
theorem keptEntries_slice (h : (path.map (·.id)).Nodup) {i k : Nat} (hi : path[i]? = some x)
    (hik : i < k) :
    keptEntries x.id false (path.take k) = slice path i k := by
  have hk : (path.take k)[i]? = some x := by rw [List.getElem?_take_of_lt hik, hi]
  obtain ⟨hlt, hx⟩ := List.getElem?_eq_some_iff.mp hk
  have hslice : slice path i k = x :: (path.take k).drop (i + 1) := by
    rw [slice, List.drop_eq_getElem_cons hlt, hx]
  have hsplit := path_split hk
  rw [List.take_take, Nat.min_eq_left (Nat.le_of_lt hik)] at hsplit
  rw [hsplit, keptEntries_split (ids_ne_before h hi) rfl, hslice]

/-! ## The previous compaction's window -/

/-- The latest compaction, at index `p`, and its first kept entry, at the
earlier index `s`. -/
structure PreviousWindow (path : List SessionEntry) (s p : Nat) (c : CompactionEntry) :
    Prop where
  latest : latestCompaction path = some c
  compaction_at : path[p]? = some c.entry
  first_at : path[s]?.map (·.id) = some c.firstKeptEntryId
  lt : s < p

/-- A well-formed session path: linear, its compactions keep from an entry
before them, and its message entries hold no compaction summaries. -/
structure WellFormedPath (path : List SessionEntry) : Prop extends LinearPath path where
  firstKept : ∀ i < path.length, ∀ c ∈ path[i]?.bind SessionEntry.compaction?,
    ∃ x ∈ path.take i, x.id = c.firstKeptEntryId
  noSummary : NoSummaryMessages path

variable {c : CompactionEntry}

theorem WellFormedPath.previousWindow (h : WellFormedPath path)
    (hc : latestCompaction path = some c) :
    ∃ s p, PreviousWindow path s p c := by
  obtain ⟨pre, post, hpath, -⟩ := latestCompaction_split hc
  have hcomp : c.entry.compaction? = some c := latestCompaction_compaction? hc
  obtain ⟨x, hx, hid⟩ := h.firstKept pre.length (by simp [hpath]) c
    (by simp [hpath, hcomp])
  rw [hpath, List.take_left] at hx
  obtain ⟨s, hs, rfl⟩ := List.getElem_of_mem hx
  refine ⟨s, pre.length, hc, ?_, ?_, hs⟩
  · rw [hpath]
    simp
  · rw [hpath, List.getElem?_append_left hs, List.getElem?_eq_getElem hs, Option.map_some, hid]

section

variable (h : (path.map (·.id)).Nodup)
include h

theorem PreviousWindow.no_later {s p : Nat} (w : PreviousWindow path s p c) :
    ∀ e ∈ path.drop (p + 1), e.isCompaction = false := by
  obtain ⟨pre, post, hpath, hpost⟩ := latestCompaction_split w.latest
  have hlen : path[pre.length]? = some c.entry := by
    rw [hpath]
    simp
  have hp : p = pre.length :=
    Option.some.inj ((findIdx?_id h w.compaction_at).symm.trans (findIdx?_id h hlen))
  have hdrop : path.drop (p + 1) = post := by
    rw [hp, hpath]
    simp
  rw [hdrop]
  exact hpost

theorem PreviousWindow.selectContextEntries {s p : Nat} (w : PreviousWindow path s p c) :
    selectContextEntries path = c.entry :: slice path s p ++ path.drop (p + 1) := by
  obtain ⟨f, hf, hid⟩ := Option.map_eq_some_iff.mp w.first_at
  have hsplit := path_split w.compaction_at
  calc Eagent.selectContextEntries path
      = Eagent.selectContextEntries (path.take p ++ c.entry :: path.drop (p + 1)) := by
        rw [← hsplit]
    _ = c.entry :: keptEntries c.firstKeptEntryId false (path.take p) ++ path.drop (p + 1) :=
        selectContextEntries_split (latestCompaction_compaction? w.latest) (w.no_later h)
          (ids_ne_before h w.compaction_at)
    _ = c.entry :: slice path s p ++ path.drop (p + 1) := by
        rw [← hid, keptEntries_slice h hf w.lt]

theorem PreviousWindow.boundary {s p : Nat} (w : PreviousWindow path s p c) :
    compactionBoundary path = (some c, s) := by
  obtain ⟨f, hf, hid⟩ := Option.map_eq_some_iff.mp w.first_at
  have hplt : p < path.length := (List.getElem?_eq_some_iff.mp w.compaction_at).1
  have hcomp := latestCompaction_compaction? w.latest
  have hprev : prevCompactionIndex path path.length = some p := by
    have hsplit := path_split w.compaction_at
    have hpost := w.no_later h
    have hc : c.entry.isCompaction = true := by
      rw [← SessionEntry.compaction?_isSome, hcomp]
      rfl
    have hk := prevCompactionIndex_split (path.take p) hc hpost _ (Nat.le_refl _)
    rw [← hsplit, List.length_take, List.length_drop, Nat.min_eq_left (Nat.le_of_lt hplt)] at hk
    rwa [show p + 1 + (path.length - (p + 1)) = path.length by omega] at hk
  rw [compactionBoundary, hprev]
  simp only [w.compaction_at, Option.bind_some, hcomp]
  rw [← hid, findIdx?_id h hf]
  rfl

theorem PreviousWindow.unique {s p s' p' : Nat} {c c' : CompactionEntry}
    (w : PreviousWindow path s p c) (w' : PreviousWindow path s' p' c') :
    s = s' ∧ p = p' ∧ c = c' := by
  obtain rfl : c = c' := Option.some.inj (w.latest.symm.trans w'.latest)
  have hp := (findIdx?_id h w.compaction_at).symm.trans (findIdx?_id h w'.compaction_at)
  have hb := (w.boundary h).symm.trans (w'.boundary h)
  exact ⟨congrArg Prod.snd hb, Option.some.inj hp, rfl⟩

end

/-! ## When the cut lies after the previous compaction -/

/-- Entry `i` of the path is a valid cut point. -/
def ValidCutAt (path : List SessionEntry) (i : Nat) : Prop :=
  ∃ e, path[i]? = some e ∧ isValidCutPoint e = true

/-- Seen from the start `s` of the previous window, whose compaction is at
`p`: no valid cut point lies before `p`, or the budget is reached at some
`b` with a valid cut point at or after it, and none of those before `p`. -/
def BudgetCutsAfter (path : List SessionEntry) (keepRecentTokens : Int) (s p : Nat) : Prop :=
  (∀ i, s ≤ i → ValidCutAt path i → p < i) ∨
    ∃ b, s ≤ b ∧ ReachesBudget path path.length keepRecentTokens b ∧
      (∃ i, b ≤ i ∧ ValidCutAt path i) ∧ ∀ i, b ≤ i → ValidCutAt path i → p < i

/-- The previous compaction's kept window holds no older compaction, and
the cut comes after the previous compaction. -/
def CutsAfterPrevious (path : List SessionEntry) (keepRecentTokens : Int) : Prop :=
  ∀ s p c, PreviousWindow path s p c →
    (∀ e ∈ slice path s p, e.isCompaction = false) ∧
      BudgetCutsAfter path keepRecentTokens s p

theorem validCutAt_iff {s i : Nat} :
    i ∈ findValidCutPoints path s path.length ↔ s ≤ i ∧ ValidCutAt path i := by
  rw [mem_findValidCutPoints, ValidCutAt]
  constructor
  · rintro ⟨hs, -, hvalid⟩
    exact ⟨hs, hvalid⟩
  · rintro ⟨hs, e, he, hvalid⟩
    exact ⟨hs, (List.getElem?_eq_some_iff.mp he).1, e, he, hvalid⟩

/-- The first cut point at or after `b` is the least of them. -/
theorem find?_cutPoint_le {s n b c : Nat}
    (h : (findValidCutPoints path s n).find? (fun c => b ≤ c) = some c) :
    b ≤ c ∧ ∀ i ∈ findValidCutPoints path s n, b ≤ i → c ≤ i := by
  have hsorted := findValidCutPoints_sorted path s n
  obtain ⟨hbc, as, bs, hl, has⟩ := List.find?_eq_some_iff_append.mp h
  rw [hl] at hsorted ⊢
  refine ⟨by simpa using hbc, ?_⟩
  intro i hi hbi
  rcases List.mem_append.mp hi with hi | hi
  · have := has i hi
    simp [hbi] at this
  · rcases List.mem_cons.mp hi with rfl | hi
    · exact Nat.le_refl _
    · have hpair := (List.pairwise_append.mp hsorted).2.1
      exact Nat.le_of_lt (List.rel_of_pairwise_cons hpair hi)

theorem head?_cutPoint_le {s n c : Nat} (h : (findValidCutPoints path s n).head? = some c) :
    ∀ i ∈ findValidCutPoints path s n, c ≤ i := by
  have hsorted := findValidCutPoints_sorted path s n
  obtain ⟨rest, hl⟩ := List.head?_eq_some_iff.mp h
  rw [hl] at hsorted ⊢
  intro i hi
  rcases List.mem_cons.mp hi with rfl | hi
  · exact Nat.le_refl _
  · exact Nat.le_of_lt (List.rel_of_pairwise_cons hsorted hi)

theorem ChosenCutPoint.lt_iff {s p c : Nat} {keep : Int}
    (h : ChosenCutPoint path s path.length keep c) :
    p < c ↔ BudgetCutsAfter path keep s p := by
  have hc := validCutAt_iff.mp h.mem
  rcases h with ⟨b, hsb, hb, hfind⟩ | ⟨hhead, hnone⟩
  · obtain ⟨hbc, hleast⟩ := find?_cutPoint_le hfind
    constructor
    · intro hp
      refine Or.inr ⟨b, hsb, hb, ⟨c, hbc, hc.2⟩, ?_⟩
      intro i hbi hi
      exact Nat.lt_of_lt_of_le hp
        (hleast i (validCutAt_iff.mpr ⟨Nat.le_trans hsb hbi, hi⟩) hbi)
    · rintro (hall | ⟨b', -, hb', -, hall⟩)
      · exact hall c hc.1 hc.2
      · obtain rfl := hb.unique hb'
        exact hall c hbc hc.2
  · have hleast := head?_cutPoint_le hhead
    constructor
    · intro hp
      refine Or.inl ?_
      intro i hsi hi
      exact Nat.lt_of_lt_of_le hp (hleast i (validCutAt_iff.mpr ⟨hsi, hi⟩))
    · rintro (hall | ⟨b, hsb, hb, ⟨i, hbi, hi⟩, -⟩)
      · exact hall c hc.1 hc.2
      · have hlate := List.find?_eq_none.mp (hnone b hsb hb) i
          (validCutAt_iff.mpr ⟨Nat.le_trans hsb hbi, hi⟩)
        exact absurd hbi (by simpa using hlate)

theorem lt_includeMetadata_iff {s p c : Nat} {e : SessionEntry} (hp : path[p]? = some e)
    (he : e.isCompaction = true) :
    p < includeMetadata path s c ↔ p < c := by
  have hle := includeMetadata_le path s c
  constructor
  · intro h
    exact Nat.lt_of_lt_of_le h hle
  · intro h
    rcases Nat.lt_or_ge p (includeMetadata path s c) with hlt | hge
    · exact hlt
    · obtain ⟨x, hx, hsilent⟩ := includeMetadata_silent hge h
      obtain rfl := Option.some.inj (hp.symm.trans hx)
      simp [isSilentMetadata, he] at hsilent

/-! ## The two contexts -/

def CompactionEntry.summaryMessage (c : CompactionEntry) : AgentMessage :=
  .compactionSummary (createCompactionSummaryMessage c.summary c.tokensBefore c.entry.timestamp)

/-- The context of the path is the previous summary, the messages handed
to the summarizer and a list of kept messages; the context of the extended
path is the new summary and the same kept messages, with no other
compaction summary in it. -/
def ContextPreserved (path : List SessionEntry) (prep : CompactionPreparation)
    (summary : String) (entry : SessionEntry) : Prop :=
  ∃ old new kept,
    buildSessionContext path none none = some old ∧
    buildSessionContext (path ++ [entry]) none none = some new ∧
    old.messages = (latestCompaction path).toList.map CompactionEntry.summaryMessage
      ++ prep.messagesToSummarize ++ prep.turnPrefixMessages ++ kept ∧
    new.messages =
      .compactionSummary (createCompactionSummaryMessage summary prep.tokensBefore entry.timestamp)
        :: kept ∧
    summaryCount new.messages = 1

theorem CompactionEntry.projects (c : CompactionEntry) :
    sessionEntryToContextMessages c.entry = [c.summaryMessage] := by
  rw [sessionEntryToContextMessages, c.body_eq]
  rfl

theorem selectContextEntries_append (h : (path.map (·.id)).Nodup) {entry first : SessionEntry}
    {cut : Nat} (hc : entry.compaction? = some c) (hfresh : ∀ e ∈ path, e.id ≠ entry.id)
    (hfirst : path[cut]? = some first) (hid : c.firstKeptEntryId = first.id) :
    selectContextEntries (path ++ [entry]) = entry :: path.drop cut := by
  have hlt : cut < path.length := (List.getElem?_eq_some_iff.mp hfirst).1
  have hkept := keptEntries_slice h hfirst hlt
  rw [List.take_length, slice_length] at hkept
  rw [selectContextEntries_split hc (by simp) hfresh, hid, hkept, List.append_nil]

/-- Compaction preserves the context when the replay and the summary loops
account for the same messages and no compaction is kept. -/
theorem contextPreserved_reduce (hwf : WellFormedPath path) {cut : Nat} {first : SessionEntry}
    (hprep : PreparedAt path settings prep cut first) {id summary : String} {timestamp : String}
    {details : Option Json} {fromHook : Option Bool} (hid : truthy id = true)
    (hfresh : ∀ e ∈ path, e.id ≠ id) :
    ContextPreserved path prep summary
        (compactionEntryFor prep id ((path.map (·.id)).getLast?) timestamp summary details
          fromHook) ↔
      contextMessages (selectContextEntries path) =
          (latestCompaction path).toList.map CompactionEntry.summaryMessage
            ++ messagesBetween path (compactionBoundary path).2 cut
            ++ contextMessages (path.drop cut) ∧
        ∀ e ∈ path.drop cut, e.isCompaction = false := by
  have hold := buildSessionContext_linear hwf.toLinearPath
  have hlinear := hwf.append_entry (compactionEntryFor prep id
    ((path.map (·.id)).getLast?) timestamp summary details fromHook) hid hfresh rfl
  have hnew := buildSessionContext_linear hlinear
  have hmessages : (contextOfPath (path ++ [compactionEntryFor prep id
      ((path.map (·.id)).getLast?) timestamp summary details fromHook])).messages =
      .compactionSummary (createCompactionSummaryMessage summary prep.tokensBefore timestamp)
        :: contextMessages (path.drop cut) := by
    rw [contextOfPath, selectContextEntries_append hwf.nodup rfl hfresh hprep.first_at
      hprep.firstKept]
    rfl
  have hcount : summaryCount (contextMessages (path.drop cut)) = 0 ↔
      ∀ e ∈ path.drop cut, e.isCompaction = false := by
    rw [summaryCount_contextMessages _ fun e he => hwf.noSummary e (List.mem_of_mem_drop he),
      List.countP_eq_zero]
    simp only [Bool.not_eq_true]
  constructor
  · rintro ⟨old, new, kept, ho, hn, hom, hnm, hone⟩
    obtain rfl := Option.some.inj (hold.symm.trans ho)
    obtain rfl := Option.some.inj (hnew.symm.trans hn)
    rw [hmessages] at hnm hone
    obtain rfl := (List.cons.inj hnm).2
    rw [summaryCount_compactionSummary] at hone
    refine ⟨?_, hcount.mp (by omega)⟩
    rw [← hprep.summarized, ← List.append_assoc]
    exact hom
  · rintro ⟨hom, hnone⟩
    refine ⟨_, _, contextMessages (path.drop cut), hold, hnew, ?_, hmessages, ?_⟩
    · rw [← hprep.summarized, ← List.append_assoc] at hom
      exact hom
    · rw [hmessages, summaryCount_compactionSummary, hcount.mpr hnone]

/-! ## The exact condition -/

/-- The summary loops skip a compaction. -/
theorem messagesBetween_compaction {p : Nat} {e : SessionEntry} (hp : path[p]? = some e)
    (he : e.isCompaction = true) :
    messagesBetween path p (p + 1) = [] := by
  obtain ⟨hlt, rfl⟩ := List.getElem?_eq_some_iff.mp hp
  have hslice : slice path p (p + 1) = [path[p]] := by
    rw [slice, List.drop_take, Nat.add_sub_cancel_left, List.drop_eq_getElem_cons hlt]
    rfl
  rw [messagesBetween, hslice]
  simp [getMessageFromEntryForCompaction, he]

theorem mem_of_slice {α : Type*} {es : List α} {i j : Nat} {e : α} (h : e ∈ slice es i j) :
    e ∈ es.drop i := by
  rw [slice, List.drop_take] at h
  exact List.mem_of_mem_take h

theorem PreviousWindow.accounts_iff (hwf : WellFormedPath path) {s p cut : Nat}
    (w : PreviousWindow path s p c) (hcut : cut ≤ path.length) :
    (contextMessages (Eagent.selectContextEntries path) =
          (latestCompaction path).toList.map CompactionEntry.summaryMessage
            ++ messagesBetween path (compactionBoundary path).2 cut
            ++ contextMessages (path.drop cut) ∧
        ∀ e ∈ path.drop cut, e.isCompaction = false) ↔
      (∀ e ∈ slice path s p, e.isCompaction = false) ∧ p < cut := by
  have hcomp : c.entry.isCompaction = true := by
    rw [← SessionEntry.compaction?_isSome, latestCompaction_compaction? w.latest]
    rfl
  rw [w.selectContextEntries hwf.nodup, w.latest, w.boundary hwf.nodup]
  simp only [List.cons_append, contextMessages_cons, contextMessages_append, c.projects,
    Option.toList_some, List.map_cons, List.map_nil, List.nil_append, List.cons.injEq, true_and]
  constructor
  · rintro ⟨heq, hnone⟩
    constructor
    · -- every compaction in the window would be one summary too many
      have hcount := congrArg summaryCount heq
      have hzero := summaryCount_filterMap (slice path s cut) fun e he =>
        hwf.noSummary e (List.mem_of_mem_drop (mem_of_slice he))
      have hwindow := summaryCount_contextMessages (slice path s p) fun e he =>
        hwf.noSummary e (List.mem_of_mem_drop (mem_of_slice he))
      have hkept := summaryCount_contextMessages (path.drop cut) fun e he =>
        hwf.noSummary e (List.mem_of_mem_drop he)
      have hnone' : (path.drop cut).countP SessionEntry.isCompaction = 0 := by
        rw [List.countP_eq_zero]
        simpa using hnone
      simp only [summaryCount, List.countP_append, messagesBetween] at hcount hzero hwindow hkept
      have hslice : (slice path s p).countP SessionEntry.isCompaction = 0 := by omega
      rw [List.countP_eq_zero] at hslice
      simpa using hslice
    · rcases Nat.lt_or_ge p cut with hlt | hge
      · exact hlt
      · have hmem : c.entry ∈ path.drop cut := by
          refine List.mem_of_getElem? (i := p - cut) ?_
          rw [List.getElem?_drop, Nat.add_sub_cancel' hge]
          exact w.compaction_at
        have := hnone _ hmem
        rw [hcomp] at this
        cases this
  · rintro ⟨hwindow, hlt⟩
    have hlater := w.no_later hwf.nodup
    have hrest : ∀ e ∈ slice path (p + 1) cut, e.isCompaction = false :=
      fun e he => hlater e (mem_of_slice he)
    constructor
    · have hdrop : path.drop (p + 1) = slice path (p + 1) cut ++ path.drop cut := by
        rw [← slice_length path (p + 1), ← slice_length path cut,
          slice_append path (by omega) hcut]
      have hbetween : messagesBetween path s cut =
          contextMessages (slice path s p) ++ contextMessages (slice path (p + 1) cut) := by
        calc messagesBetween path s cut
            = messagesBetween path s p
                ++ (messagesBetween path p (p + 1) ++ messagesBetween path (p + 1) cut) := by
              rw [messagesBetween_append path (by omega) (by omega),
                messagesBetween_append path (Nat.le_of_lt w.lt) (by omega)]
          _ = messagesBetween path s p ++ messagesBetween path (p + 1) cut := by
              rw [messagesBetween_compaction w.compaction_at hcomp, List.nil_append]
          _ = _ := by
              rw [messagesBetween, messagesBetween, filterMap_getMessage hwindow,
                filterMap_getMessage hrest]
      rw [hdrop, hbetween, contextMessages_append, List.append_assoc]
    · intro e he
      refine hlater e ?_
      have : path.drop cut = (path.drop (p + 1)).drop (cut - (p + 1)) := by
        rw [List.drop_drop, Nat.add_sub_cancel' (by omega)]
      rw [this] at he
      exact List.mem_of_mem_drop he

/-- The cut of a preparation comes after the previous compaction exactly
when the budget says so. -/
theorem PreparedAt.lt_cut_iff (hwf : WellFormedPath path) {cut : Nat} {first : SessionEntry}
    (hprep : PreparedAt path settings prep cut first) {s p : Nat} (w : PreviousWindow path s p c) :
    p < cut ↔ BudgetCutsAfter path settings.keepRecentTokens s p := by
  have hcomp : c.entry.isCompaction = true := by
    rw [← SessionEntry.compaction?_isSome, latestCompaction_compaction? w.latest]
    rfl
  have hcut := hprep.cut_eq
  have hne := hprep.nonempty
  rw [w.boundary hwf.nodup] at hcut hne
  dsimp only at hcut hne
  rcases findCutPoint_chosen path s path.length settings.keepRecentTokens with
    ⟨-, hstart⟩ | ⟨k, hk, hscan⟩
  · -- without a cut point nothing is summarized, and there is no preparation
    rw [hstart] at hcut
    dsimp only at hcut
    subst hcut
    exact absurd (by simp [messagesBetween, slice, List.drop_take_self]) hne
  · rw [hcut] at hscan
    rw [hscan, lt_includeMetadata_iff w.compaction_at hcomp, hk.lt_iff]

theorem CutsAfterPrevious.of_none {keep : Int} (h : latestCompaction path = none) :
    CutsAfterPrevious path keep := by
  intro s p c w
  rw [w.latest] at h
  cases h

theorem accounts_of_none (h : latestCompaction path = none) (cut : Nat) :
    contextMessages (selectContextEntries path) =
        (latestCompaction path).toList.map CompactionEntry.summaryMessage
          ++ messagesBetween path (compactionBoundary path).2 cut
          ++ contextMessages (path.drop cut) ∧
      ∀ e ∈ path.drop cut, e.isCompaction = false := by
  have hnone := latestCompaction_eq_none.mp h
  have hbetween : messagesBetween path 0 cut = contextMessages (path.take cut) :=
    filterMap_getMessage fun e he => hnone e (List.mem_of_mem_take he)
  refine ⟨?_, fun e he => hnone e (List.mem_of_mem_drop he)⟩
  rw [selectContextEntries, compactionBoundary, h, prevCompactionIndex_eq_none hnone]
  simp only [Option.toList_none, List.map_nil, List.nil_append]
  rw [hbetween, ← contextMessages_append, List.take_append_drop]

/-- Compaction neither loses nor repeats context if and only if the cut
comes after the previous compaction and the previous window holds no older
one. -/
theorem contextPreserved_iff {path : List SessionEntry} (hwf : WellFormedPath path)
    {settings : CompactionSettings} {prep : CompactionPreparation}
    (hprep : prepareCompaction path settings = some prep)
    {id summary : String} {timestamp : String} {details : Option Json} {fromHook : Option Bool}
    (hid : truthy id = true) (hfresh : ∀ e ∈ path, e.id ≠ id) :
    ContextPreserved path prep summary
        (compactionEntryFor prep id ((path.map (·.id)).getLast?) timestamp summary details
          fromHook) ↔
      CutsAfterPrevious path settings.keepRecentTokens := by
  obtain ⟨cut, first, hat⟩ := prepareCompaction_spec hprep
  have hcut : cut ≤ path.length :=
    Nat.le_of_lt (List.getElem?_eq_some_iff.mp hat.first_at).1
  rw [contextPreserved_reduce hwf hat hid hfresh]
  cases hlatest : latestCompaction path with
  | none =>
      have haccounts := accounts_of_none hlatest cut
      rw [hlatest] at haccounts
      exact ⟨fun _ => CutsAfterPrevious.of_none hlatest, fun _ => haccounts⟩
  | some c =>
      obtain ⟨s, p, w⟩ := hwf.previousWindow hlatest
      rw [← hlatest, w.accounts_iff hwf hcut, hat.lt_cut_iff hwf w]
      constructor
      · rintro hcond s' p' c' w'
        obtain ⟨rfl, rfl, rfl⟩ := w.unique hwf.nodup w'
        exact hcond
      · intro hcond
        exact hcond s p c w

/-! ### A cut inside the previous window -/

private def epoch : String := "1970-01-01T00:00:00.000Z"

private def userEntry (id : String) (parentId : Option String) : SessionEntry :=
  ⟨id, parentId, epoch, .message (.user ⟨some (.string "text"), 0⟩)⟩

private def replyEntry (id : String) (parentId : Option String) : SessionEntry :=
  ⟨id, parentId, epoch, .message (.assistant
    { content := some [.text "text"], provider := "p", model := "m", usage := none
      stopReason := .stop, timestamp := 0 })⟩

/-- Two turns, both kept by a compaction, and a third one. -/
def overlappingPath : List SessionEntry :=
  [ userEntry "u1" none, replyEntry "a1" (some "u1"), userEntry "u2" (some "a1"),
    replyEntry "a2" (some "u2"), ⟨"c1", some "a2", epoch, .compaction "s" "u1" 0 none none⟩,
    userEntry "u3" (some "c1") ]

theorem overlappingPath_wellFormed : WellFormedPath overlappingPath where
  nodup := by decide
  truthy := by decide
  chain := ⟨rfl, rfl, rfl, rfl, rfl, rfl, trivial⟩
  firstKept := by
    intro i hi c hc
    have h4 : i = 4 ∧ c.firstKeptEntryId = "u1" := by
      change i < 6 at hi
      interval_cases i <;> cases hc
      exact ⟨rfl, rfl⟩
    obtain ⟨rfl, hid⟩ := h4
    exact ⟨userEntry "u1" none, by decide, hid.symm⟩
  noSummary := by
    intro e he m hm
    simp only [overlappingPath, List.mem_cons, List.not_mem_nil, or_false] at he
    rcases he with rfl | rfl | rfl | rfl | rfl | rfl <;> cases hm <;> rfl

/-- Preparing to keep one token moves the cut after the previous
compaction, and the context is preserved. -/
theorem contextPreserved_iff_overlappingPath :
    ∃ prep, prepareCompaction overlappingPath ⟨true, 0, 1⟩ = some prep ∧
      ContextPreserved overlappingPath prep "t"
        (compactionEntryFor prep "c2" (some "u3") epoch "t" none none) := by
  obtain ⟨prep, hprep⟩ := Option.isSome_iff_exists.mp
    (show (prepareCompaction overlappingPath ⟨true, 0, 1⟩).isSome = true by decide)
  refine ⟨prep, hprep, (contextPreserved_iff overlappingPath_wellFormed hprep (by decide)
    (by decide)).mpr ?_⟩
  intro s p c w
  have hw : PreviousWindow overlappingPath 0 4
      ⟨_, "s", "u1", 0, none, none, rfl⟩ := ⟨rfl, rfl, rfl, by decide⟩
  obtain ⟨rfl, rfl, -⟩ := hw.unique overlappingPath_wellFormed.nodup w
  refine ⟨by decide, Or.inr ⟨5, by decide, ⟨by decide, by decide, by decide, ?_⟩,
    ⟨5, by decide, _, rfl, by decide⟩, fun i hi _ => by omega⟩⟩
  intro j hj hjn
  change j < 6 at hjn
  omega

/-- Preparing to keep four tokens puts the cut at `u2`, before the previous
compaction: its summary is replayed next to the new one. -/
theorem overlappingPath_not_preserved :
    WellFormedPath overlappingPath ∧
      ∃ prep, prepareCompaction overlappingPath ⟨true, 0, 4⟩ = some prep ∧
        ¬ ContextPreserved overlappingPath prep "t"
          (compactionEntryFor prep "c2" (some "u3") epoch "t" none none) := by
  refine ⟨overlappingPath_wellFormed, ?_⟩
  have hcount : (prepareCompaction overlappingPath ⟨true, 0, 4⟩).map (fun prep =>
      (buildSessionContext
        (overlappingPath ++ [compactionEntryFor prep "c2" (some "u3") epoch "t" none none])
        none none).map (fun context => summaryCount context.messages)) = some (some 2) := by
    decide
  obtain ⟨prep, hprep, htwo⟩ := Option.map_eq_some_iff.mp hcount
  obtain ⟨context, hcontext, htwo⟩ := Option.map_eq_some_iff.mp htwo
  refine ⟨prep, hprep, ?_⟩
  rintro ⟨old, new, kept, -, hnew, -, -, hone⟩
  obtain rfl := Option.some.inj (hcontext.symm.trans hnew)
  omega

end Eagent
