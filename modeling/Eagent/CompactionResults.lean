import Mathlib.Logic.Relation
import Eagent.CompactionContext

/-!
# Tool results after a compaction

A context in which each tool result follows the assistant message with its
call keeps that form when a session is compacted: what a compaction keeps
begins with a message that is no tool result (`LatestPrepared`), so a
result that is kept is kept with its call.
-/

namespace Eagent

/-! ## Results behind their calls -/

/-- The message is a result of one of the calls of `a`. -/
def AssistantMessage.HasResult (a : AssistantMessage) (m : AgentMessage) : Prop :=
  ∃ r, m = .toolResult r ∧ r.toolCallId ∈ a.toolCalls.map (·.id)

/-- Each tool result follows an assistant message with its call, with only
results of that message in between. -/
def ResultsFollowCalls (ms : List AgentMessage) : Prop :=
  ∀ pre r post, ms = pre ++ .toolResult r :: post →
    ∃ before a results, pre = before ++ .assistant a :: results ∧
      r.toolCallId ∈ a.toolCalls.map (·.id) ∧ ∀ m ∈ results, a.HasResult m

def AgentMessage.isToolResult : AgentMessage → Bool
  | .toolResult _ => true
  | _ => false

variable {m : AgentMessage}

theorem AssistantMessage.HasResult.isToolResult {a : AssistantMessage} (h : a.HasResult m) :
    m.isToolResult = true := by
  obtain ⟨r, rfl, -⟩ := h
  rfl

def StartsOutside (ms : List AgentMessage) : Prop := ∀ m ∈ ms.head?, m.isToolResult = false

variable {as bs : List AgentMessage}

theorem ResultsFollowCalls.left (h : ResultsFollowCalls (as ++ bs)) : ResultsFollowCalls as := by
  rintro pre r post rfl
  refine h pre r (post ++ bs) ?_
  rw [List.append_assoc, List.cons_append]

/-- A part that does not begin with a tool result stands alone: a call
before it would have a message between itself and its result. -/
theorem ResultsFollowCalls.right (h : ResultsFollowCalls (as ++ bs)) (hstart : StartsOutside bs) :
    ResultsFollowCalls bs := by
  rintro pre r post rfl
  obtain ⟨before, a, results, hpre, hcall, hresults⟩ := h (as ++ pre) r post
    (List.append_assoc _ _ _).symm
  rcases List.append_eq_append_iff.mp hpre with ⟨middle, rfl, hmiddle⟩ | ⟨middle, rfl, hmiddle⟩
  · exact ⟨middle, a, results, hmiddle, hcall, hresults⟩
  · -- the call lies in `as`, or at its end
    cases middle with
    | nil => exact ⟨[], a, results, hmiddle.symm, hcall, hresults⟩
    | cons first middle =>
      rw [List.cons_append] at hmiddle
      have hall : ∀ m ∈ pre, a.HasResult m := fun m hm =>
        hresults m ((List.cons.inj hmiddle).2 ▸ List.mem_append_right middle hm)
      cases pre with
      | nil => exact absurd (hstart _ rfl) nofun
      | cons m pre =>
        have hfalse := hstart m rfl
        rw [(hall m List.mem_cons_self).isToolResult] at hfalse
        cases hfalse

theorem ResultsFollowCalls.append (ha : ResultsFollowCalls as) (hb : ResultsFollowCalls bs) :
    ResultsFollowCalls (as ++ bs) := by
  intro pre r post heq
  rcases List.append_eq_append_iff.mp heq with ⟨middle, rfl, hmiddle⟩ | ⟨middle, rfl, hmiddle⟩
  · obtain ⟨before, a, results, rfl, hcall, hresults⟩ := hb middle r post hmiddle
    exact ⟨as ++ before, a, results, (List.append_assoc _ _ _).symm, hcall, hresults⟩
  · cases middle with
    | nil =>
      obtain ⟨before, a, results, hnil, -⟩ := hb [] r post hmiddle.symm
      exact absurd hnil.symm (by simp)
    | cons m middle =>
      obtain ⟨rfl, -⟩ := List.cons.inj hmiddle
      exact ha pre r middle rfl

theorem resultsFollowCalls_singleton (h : m.isToolResult = false) :
    ResultsFollowCalls [m] := by
  intro pre r post heq
  cases pre with
  | nil =>
    rw [(List.cons.inj heq).1] at h
    cases h
  | cons _ pre => exact absurd (List.cons.inj heq).2.symm (by simp)

theorem resultsFollowCalls_turn {a : AssistantMessage} {results : List AgentMessage}
    (h : ∀ m ∈ results, a.HasResult m) : ResultsFollowCalls (.assistant a :: results) := by
  intro pre r post heq
  cases pre with
  | nil => cases (List.cons.inj heq).1
  | cons m pre =>
    rw [List.cons_append] at heq
    obtain ⟨rfl, rfl⟩ := List.cons.inj heq
    obtain ⟨r', hr', hcall⟩ := h (.toolResult r) (List.mem_append_right _ List.mem_cons_self)
    cases hr'
    exact ⟨[], a, pre, rfl, hcall, fun m hm => h m (List.mem_append_left _ hm)⟩

theorem ResultsFollowCalls.starts (h : ResultsFollowCalls (m :: bs)) (hm : m.isAssistant = false) :
    StartsOutside bs := by
  intro b hb
  obtain ⟨rest, rfl⟩ := List.head?_eq_some_iff.mp hb
  by_contra hresult
  cases b with
  | toolResult r =>
    obtain ⟨before, a, results, heq, -⟩ := h [m] r rest rfl
    cases before with
    | nil =>
      rw [(List.cons.inj heq).1] at hm
      cases hm
    | cons _ before => exact absurd (List.cons.inj heq).2.symm (by simp)
  | _ => exact hresult rfl

/-! ## What a compaction keeps -/

theorem contextMessages_invisible {es : List SessionEntry}
    (h : ∀ e ∈ es, sessionEntryToContextMessages e = []) : contextMessages es = [] := by
  rw [contextMessages, List.flatMap_eq_nil_iff]
  exact h

theorem PreparedAt.starts {path : List SessionEntry} {settings : CompactionSettings}
    {prep : CompactionPreparation} {cut : Nat} {first : SessionEntry}
    (h : PreparedAt path settings prep cut first) :
    StartsOutside (contextMessages (path.drop cut)) := by
  have hcut := h.cut_eq
  rcases findCutPoint_chosen path (compactionBoundary path).2 path.length
      settings.keepRecentTokens with ⟨-, hstart⟩ | ⟨c, hc, hscan⟩
  · -- without a cut point nothing would be summarized
    rw [hstart] at hcut
    dsimp only at hcut
    subst hcut
    exact absurd (by simp [messagesBetween, slice, List.drop_take_self]) h.nonempty
  · rw [hcut] at hscan
    obtain ⟨-, -, e, he, hvalid⟩ := mem_findValidCutPoints.mp hc.mem
    have hle : cut ≤ c := hscan ▸ includeMetadata_le path _ c
    have hsilent : contextMessages (slice path cut c) = [] := by
      refine contextMessages_invisible fun x hx => ?_
      obtain ⟨i, hi⟩ := List.getElem?_of_mem hx
      rw [slice, List.getElem?_drop] at hi
      obtain ⟨hlt, -⟩ := List.getElem?_eq_some_iff.mp hi
      rw [List.length_take] at hlt
      rw [List.getElem?_take_of_lt (by omega)] at hi
      obtain ⟨x', hx', hmeta⟩ := includeMetadata_silent (i := cut + i)
        (by rw [← hscan]; omega) (by omega : cut + i < c)
      obtain rfl := Option.some.inj (hi.symm.trans hx')
      rw [isSilentMetadata, Bool.and_eq_true, List.isEmpty_iff] at hmeta
      exact hmeta.2
    have hsplit : path.drop cut = slice path cut c ++ e :: path.drop (c + 1) := by
      obtain ⟨hlt, rfl⟩ := List.getElem?_eq_some_iff.mp he
      rw [List.getElem_cons_drop, ← slice_length path c, ← slice_length path cut,
        slice_append path hle (Nat.le_of_lt hlt)]
    rw [hsplit, contextMessages_append, hsilent, List.nil_append, contextMessages_cons]
    rw [isValidCutPoint, Bool.and_eq_true, List.any_eq_true] at hvalid
    obtain ⟨-, m, hm, hcutPoint⟩ := hvalid
    obtain ⟨rest, hone⟩ : ∃ rest, sessionEntryToContextMessages e = m :: rest := by
      have hlen := length_contextMessages_le e
      rcases hms : sessionEntryToContextMessages e with _ | ⟨m', _ | _⟩
      · rw [hms] at hm
        cases hm
      · rw [hms, List.mem_singleton] at hm
        exact ⟨[], by rw [hm]⟩
      · rw [hms] at hlen
        exact absurd hlen (by simp)
    rw [hone, List.cons_append]
    rintro m' hm'
    obtain rfl := Option.some.inj hm'
    cases m <;> first | rfl | cases hcutPoint

/-- The latest compaction of a path, if it has one, is one that
`prepareCompaction` prepared from the entries before it. -/
def LatestPrepared (path : List SessionEntry) : Prop :=
  ∀ c, latestCompaction path = some c →
    ∃ pre post settings prep, path = pre ++ c.entry :: post ∧
      (∀ e ∈ post, e.isCompaction = false) ∧
      prepareCompaction pre settings = some prep ∧ c.firstKeptEntryId = prep.firstKeptEntryId

theorem contextOfPath_results {path : List SessionEntry} (hlinear : LinearPath path)
    (hprepared : LatestPrepared path) (h : ResultsFollowCalls (contextMessages path)) :
    ResultsFollowCalls (contextOfPath path).messages := by
  show ResultsFollowCalls (contextMessages (selectContextEntries path))
  cases hlatest : latestCompaction path with
  | none => rwa [selectContextEntries, hlatest]
  | some c =>
    obtain ⟨pre, post, settings, prep, rfl, hpost, hprep, hid⟩ := hprepared c hlatest
    obtain ⟨cut, first, hat⟩ := prepareCompaction_spec hprep
    have hnodup := hlinear.nodup
    rw [List.map_append, List.nodup_append] at hnodup
    have hlt : cut < pre.length := (List.getElem?_eq_some_iff.mp hat.first_at).1
    have hkept : keptEntries c.firstKeptEntryId false pre = pre.drop cut := by
      have hslice := keptEntries_slice hnodup.1 hat.first_at hlt
      rwa [List.take_length, slice_length, ← hat.firstKept, ← hid] at hslice
    have hselect : selectContextEntries (pre ++ c.entry :: post) = _ :=
      selectContextEntries_split (latestCompaction_compaction? hlatest) hpost
      (fun x hx heq => hnodup.2.2 _ (List.mem_map_of_mem hx) c.entry.id (by simp) heq)
    rw [contextMessages_append, contextMessages_cons, c.projects, List.singleton_append] at h
    have hkeptResults : ResultsFollowCalls (contextMessages (pre.drop cut)) := by
      have hpre := h.left
      rw [← List.take_append_drop cut pre, contextMessages_append] at hpre
      exact hpre.right hat.starts
    have hafter : ResultsFollowCalls (c.summaryMessage :: contextMessages post) :=
      h.right fun m hm => by obtain rfl := Option.some.inj hm; rfl
    have hpostResults : ResultsFollowCalls (contextMessages post) := by
      rw [← List.singleton_append] at hafter
      exact hafter.right (hafter.starts rfl)
    rw [hselect, hkept, contextMessages_append, contextMessages_cons, c.projects]
    exact ((resultsFollowCalls_singleton rfl).append hkeptResults).append hpostResults

/-! ## Repeated compaction -/

/-- A session goes on: entries without a compaction are appended, with their
tool results behind their calls, or a prepared compaction is. -/
inductive SessionGrows : List SessionEntry → List SessionEntry → Prop where
  | turns {path : List SessionEntry} (added : List SessionEntry) :
      LinearPath (path ++ added) → (∀ e ∈ added, e.isCompaction = false) →
      ResultsFollowCalls (contextMessages added) → SessionGrows path (path ++ added)
  | compaction {path : List SessionEntry} {settings : CompactionSettings}
      {prep : CompactionPreparation} (id : String) (parentId : Option String)
      (timestamp summary : String) (details : Option Json) (fromHook : Option Bool) :
      prepareCompaction path settings = some prep →
      LinearPath
        (path ++ [compactionEntryFor prep id parentId timestamp summary details fromHook]) →
      SessionGrows path
        (path ++ [compactionEntryFor prep id parentId timestamp summary details fromHook])

/-- What growing keeps. -/
structure ResultsKept (path : List SessionEntry) : Prop where
  linear : LinearPath path
  prepared : LatestPrepared path
  results : ResultsFollowCalls (contextMessages path)

theorem ResultsKept.step {path path' : List SessionEntry} (h : ResultsKept path)
    (hgrows : SessionGrows path path') : ResultsKept path' := by
  cases hgrows with
  | turns added hlinear hadded hresults =>
    refine ⟨hlinear, fun c hc => ?_, ?_⟩
    · rw [latestCompaction_append, latestCompaction_eq_none.mpr hadded, Option.none_or] at hc
      obtain ⟨pre, post, settings, prep, rfl, hpost, hprep, hid⟩ := h.prepared c hc
      refine ⟨pre, post ++ added, settings, prep, ?_, ?_, hprep, hid⟩
      · rw [List.append_assoc, List.cons_append]
      · intro e he
        exact (List.mem_append.mp he).elim (hpost e) (hadded e)
    · rw [contextMessages_append]
      exact h.results.append hresults
  | compaction id parentId timestamp summary details fromHook hprep hlinear =>
    refine ⟨hlinear, fun c hc => ?_, ?_⟩
    · rw [latestCompaction_append, latestCompaction_singleton,
        SessionEntry.compaction?_of_body rfl, Option.some_or] at hc
      obtain rfl := Option.some.inj hc
      exact ⟨path, [], _, _, rfl, nofun, hprep, rfl⟩
    · rw [contextMessages_append, contextMessages_cons]
      exact h.results.append (resultsFollowCalls_singleton rfl)

/-- Compacted and continued any number of times, a session whose tool
results follow their calls has a context of the same form. -/
theorem compacted_results_follow_calls {path path' : List SessionEntry} (hlinear : LinearPath path)
    (hprepared : LatestPrepared path) (hresults : ResultsFollowCalls (contextMessages path))
    (hgrows : Relation.ReflTransGen SessionGrows path path') :
    ∃ context, buildSessionContext path' none none = some context ∧
      ResultsFollowCalls context.messages := by
  have hkept : ResultsKept path' := by
    induction hgrows with
    | refl => exact ⟨hlinear, hprepared, hresults⟩
    | tail _ hstep ih => exact ih.step hstep
  exact ⟨_, buildSessionContext_linear hkept.linear,
    contextOfPath_results hkept.linear hkept.prepared hkept.results⟩

private def sunrise : String := "1970-01-01T00:00:00.000Z"

private def calling : AssistantMessage where
  content := some [.toolCall ⟨"t", "bash", .obj []⟩]
  provider := "p"
  model := "m"
  usage := none
  stopReason := .toolUse
  timestamp := 0

private def called : ToolResultMessage where
  toolCallId := "t"
  toolName := "bash"
  content := some [.text "text"]
  details := none
  isError := false
  timestamp := 0

def calledPath : List SessionEntry :=
  [ ⟨"u", none, sunrise, .message (.user ⟨some (.string "text"), 0⟩)⟩,
    ⟨"a", some "u", sunrise, .message (.assistant calling)⟩,
    ⟨"r", some "a", sunrise, .message (.toolResult called)⟩ ]

/-- Two tokens to keep: the call is kept with its result. -/
theorem calledPath_compacted :
    ∃ prep, prepareCompaction calledPath ⟨true, 0, 2⟩ = some prep ∧
      ∃ context, buildSessionContext
          (calledPath ++ [compactionEntryFor prep "c" (some "r") sunrise "s" none none]) none none =
        some context ∧ ResultsFollowCalls context.messages := by
  obtain ⟨prep, hprep⟩ := Option.isSome_iff_exists.mp
    (show (prepareCompaction calledPath ⟨true, 0, 2⟩).isSome = true by decide)
  have hlinear : LinearPath calledPath :=
    ⟨by decide, by decide, rfl, rfl, rfl, trivial⟩
  have hresults : ResultsFollowCalls (contextMessages calledPath) :=
    (resultsFollowCalls_singleton rfl).append
      (resultsFollowCalls_turn fun m hm => ⟨called, List.mem_singleton.mp hm, by decide⟩)
  have happended := hlinear.append_entry
    (compactionEntryFor prep "c" (some "r") sunrise "s" none none)
    (show truthy "c" = true by decide) (show ∀ e ∈ calledPath, e.id ≠ "c" by decide) rfl
  have hprepared : LatestPrepared calledPath := fun c hc => by cases hc
  have hgrows : SessionGrows calledPath _ :=
    .compaction "c" (some "r") sunrise "s" none none hprep happended
  exact ⟨prep, hprep, compacted_results_follow_calls hlinear hprepared hresults (.single hgrows)⟩

end Eagent
