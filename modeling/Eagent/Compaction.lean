import Eagent.CutPoint

/-!
# Preparing a compaction

`prepareCompaction` splits the entries since the previous compaction's
first kept entry at the cut point: messages to summarize, the prefix of a
split turn, and the rest, which the session keeps. `buildContextEntries`
replays that split from the appended entry's `firstKeptEntryId` alone.

The split leaves compaction entries out (`getMessageFromEntryForCompaction`),
while the replay projects the ones inside the kept window.
-/

namespace Eagent

/-! ## File operations -/

/-- Sets of paths, in insertion order. -/
structure FileOperations where
  read : List String
  written : List String
  edited : List String
deriving Repr, DecidableEq

def createFileOps : FileOperations := ⟨[], [], []⟩

/-- `Set.prototype.add`. -/
def addPath (paths : List String) (path : String) : List String :=
  if path ∈ paths then paths else paths ++ [path]

/-- The string under `key`, if the value is an object holding one. -/
def Json.stringField? (key : String) : Json → Option String
  | .obj fields =>
      match fields.lookup key with
      | some (.str s) => some s
      | _ => none
  | _ => none

/-- The strings of the array under `key`, if there is one. -/
def Json.stringItems (key : String) : Json → List String
  | .obj fields =>
      match fields.lookup key with
      | some (.arr items) => items.filterMap fun item =>
          match item with
          | .str s => some s
          | _ => none
      | _ => []
  | _ => []

def addFileOp (ops : FileOperations) (call : ToolCall) : FileOperations :=
  match call.arguments.stringField? "path" with
  | none => ops
  | some path =>
      if !truthy path then ops
      else if call.name = "read" then { ops with read := addPath ops.read path }
      else if call.name = "write" then { ops with written := addPath ops.written path }
      else if call.name = "edit" then { ops with edited := addPath ops.edited path }
      else ops

def extractFileOpsFromMessage (ops : FileOperations) : AgentMessage → FileOperations
  | .assistant m => m.toolCalls.foldl addFileOp ops
  | _ => ops

/-- File operations of the previous compaction's details and of the
messages being summarized. -/
def extractFileOperations (messages : List AgentMessage)
    (prevCompaction : Option CompactionEntry) : FileOperations :=
  let fromDetails := match prevCompaction with
    | some c =>
        match c.details with
        | some details =>
            if c.fromHook = some true then createFileOps
            else
              { read := (details.stringItems "readFiles").foldl addPath []
                written := []
                edited := (details.stringItems "modifiedFiles").foldl addPath [] }
        | none => createFileOps
    | none => createFileOps
  messages.foldl extractFileOpsFromMessage fromDetails

/-! ## Context size -/

/-- `usage.totalTokens || input + output + cacheRead + cacheWrite`. -/
def calculateContextTokens (usage : Usage) : Nat :=
  if usage.totalTokens = 0 then
    usage.input + usage.output + usage.cacheRead + usage.cacheWrite
  else usage.totalTokens

def getAssistantUsage : AgentMessage → Option Usage
  | .assistant m =>
      if m.stopReason = .aborted || m.stopReason = .error then none
      else m.usage.filter fun usage => 0 < calculateContextTokens usage
  | _ => none

structure ContextUsageEstimate where
  tokens : Nat
  usageTokens : Nat
  trailingTokens : Nat
  lastUsageIndex : Option Nat
deriving Repr, DecidableEq

def getLastAssistantUsageInfo (messages : List AgentMessage) : Option (Usage × Nat) :=
  (messages.zipIdx.filterMap fun (message, i) =>
    (getAssistantUsage message).map (·, i)).getLast?

def estimateContextTokens (messages : List AgentMessage) : ContextUsageEstimate :=
  match getLastAssistantUsageInfo messages with
  | none =>
      let estimated := (messages.map estimateTokens).sum
      { tokens := estimated, usageTokens := 0, trailingTokens := estimated,
        lastUsageIndex := none }
  | some (usage, index) =>
      let usageTokens := calculateContextTokens usage
      let trailingTokens := ((messages.drop (index + 1)).map estimateTokens).sum
      { tokens := usageTokens + trailingTokens, usageTokens, trailingTokens,
        lastUsageIndex := some index }

/-! ## The preparation -/

structure CompactionPreparation where
  firstKeptEntryId : String
  messagesToSummarize : List AgentMessage
  turnPrefixMessages : List AgentMessage
  isSplitTurn : Bool
  tokensBefore : Nat
  previousSummary : Option String
  fileOps : FileOperations
  settings : CompactionSettings
deriving Repr, DecidableEq

def getMessageFromEntryForCompaction (entry : SessionEntry) : Option AgentMessage :=
  if entry.isCompaction then none else (sessionEntryToContextMessages entry).head?

/-- The entries from index `i` to index `j`. -/
def slice {α : Type*} (es : List α) (i j : Nat) : List α := (es.take j).drop i

/-- The messages the summary loops push for entries `i` to `j`. -/
def messagesBetween (entries : List SessionEntry) (i j : Nat) : List AgentMessage :=
  (slice entries i j).filterMap getMessageFromEntryForCompaction

/-- The backward loop for the previous compaction; `n` entries are still
to be looked at. -/
def prevCompactionIndex (entries : List SessionEntry) : Nat → Option Nat
  | 0 => none
  | i + 1 =>
      if entries[i]?.any SessionEntry.isCompaction then some i
      else prevCompactionIndex entries i

/-- The previous compaction, where the summarized span starts. -/
def compactionBoundary (entries : List SessionEntry) : Option CompactionEntry × Nat :=
  match prevCompactionIndex entries entries.length with
  | none => (none, 0)
  | some prev =>
      match entries[prev]?.bind SessionEntry.compaction? with
      | none => (none, 0)
      | some c =>
          (some c, (entries.findIdx? (fun e => e.id = c.firstKeptEntryId)).getD (prev + 1))

/-- Where the history to summarize ends: at the cut, or where the turn it
splits starts. -/
def historyEnd (cutPoint : CutPointResult) : Nat :=
  if cutPoint.isSplitTurn then cutPoint.turnStartIndex.getD 0
  else cutPoint.firstKeptEntryIndex

/-- `messagesToSummarize` for a cut point. -/
def historyMessages (entries : List SessionEntry) (boundaryStart : Nat)
    (cutPoint : CutPointResult) : List AgentMessage :=
  messagesBetween entries boundaryStart (historyEnd cutPoint)

/-- `turnPrefixMessages` for a cut point. -/
def turnPrefix (entries : List SessionEntry) (cutPoint : CutPointResult) :
    List AgentMessage :=
  if cutPoint.isSplitTurn then
    messagesBetween entries (historyEnd cutPoint) cutPoint.firstKeptEntryIndex
  else []

/-- `none` is the source's `undefined` (and, on a list whose parents form
a cycle, a call that does not return). -/
def prepareCompaction (pathEntries : List SessionEntry) (settings : CompactionSettings) :
    Option CompactionPreparation :=
  if pathEntries.getLast?.any SessionEntry.isCompaction then none
  else
    let prevCompaction := (compactionBoundary pathEntries).1
    let boundaryStart := (compactionBoundary pathEntries).2
    match buildSessionContext pathEntries none none with
    | none => none
    | some context =>
        let tokensBefore := (estimateContextTokens context.messages).tokens
        let cutPoint :=
          findCutPoint pathEntries boundaryStart pathEntries.length settings.keepRecentTokens
        match pathEntries[cutPoint.firstKeptEntryIndex]? with
        | none => none
        | some firstKeptEntry =>
            let messagesToSummarize := historyMessages pathEntries boundaryStart cutPoint
            let turnPrefixMessages := turnPrefix pathEntries cutPoint
            if !truthy firstKeptEntry.id then none
            else if messagesToSummarize.isEmpty && turnPrefixMessages.isEmpty then none
            else
              some
                { firstKeptEntryId := firstKeptEntry.id
                  messagesToSummarize
                  turnPrefixMessages
                  isSplitTurn := cutPoint.isSplitTurn
                  tokensBefore
                  previousSummary := prevCompaction.map (·.summary)
                  fileOps :=
                    turnPrefixMessages.foldl extractFileOpsFromMessage
                      (extractFileOperations messagesToSummarize prevCompaction)
                  settings }

/-- The entry `appendCompaction` writes for a preparation. -/
def compactionEntryFor (prep : CompactionPreparation) (id : String) (parentId : Option String)
    (timestamp : String) (summary : String) (details : Option Json) (fromHook : Option Bool) :
    SessionEntry :=
  { id, parentId, timestamp
    body := .compaction summary prep.firstKeptEntryId prep.tokensBefore details fromHook }

/-! ## Slices -/

theorem slice_append {α : Type*} (es : List α) {i j k : Nat} (hij : i ≤ j) (hjk : j ≤ k) :
    slice es i j ++ slice es j k = slice es i k := by
  have hdrop : es.drop j = (es.drop i).drop (j - i) := by
    rw [List.drop_drop, Nat.add_sub_cancel' hij]
  have hsum : k - i = (j - i) + (k - j) := by omega
  rw [slice, slice, slice, List.drop_take, List.drop_take, List.drop_take, hdrop, hsum,
    List.take_add]

theorem slice_length {α : Type*} (es : List α) (i : Nat) :
    slice es i es.length = es.drop i := by
  rw [slice, List.take_length]

theorem messagesBetween_append (es : List SessionEntry) {i j k : Nat} (hij : i ≤ j)
    (hjk : j ≤ k) :
    messagesBetween es i j ++ messagesBetween es j k = messagesBetween es i k := by
  rw [messagesBetween, messagesBetween, messagesBetween, ← List.filterMap_append,
    slice_append es hij hjk]

/-- Away from compactions the summary loops push what the context shows. -/
theorem filterMap_getMessage {es : List SessionEntry}
    (h : ∀ e ∈ es, e.isCompaction = false) :
    es.filterMap getMessageFromEntryForCompaction = contextMessages es := by
  induction es with
  | nil => rfl
  | cons e rest ih =>
    have he := h e (List.mem_cons_self ..)
    have ih := ih fun x hx => h x (List.mem_cons_of_mem _ hx)
    have hlen := length_contextMessages_le e
    rw [contextMessages_cons, ← ih]
    simp only [List.filterMap_cons, getMessageFromEntryForCompaction, he]
    match hm : sessionEntryToContextMessages e with
    | [] => simp
    | [m] => simp
    | _ :: _ :: _ => rw [hm] at hlen; simp at hlen

/-! ## Counting compaction summaries -/

def summaryCount (ms : List AgentMessage) : Nat := ms.countP AgentMessage.isCompactionSummary

@[simp] theorem summaryCount_compactionSummary (m : CompactionSummaryMessage)
    (ms : List AgentMessage) :
    summaryCount (.compactionSummary m :: ms) = summaryCount ms + 1 :=
  List.countP_cons_of_pos rfl

/-- No message entry stores a compaction summary: `appendMessage` takes
none, they are entries of their own. -/
def NoSummaryMessages (path : List SessionEntry) : Prop :=
  ∀ e ∈ path, ∀ m, e.body = .message m → m.isCompactionSummary = false

theorem summaryCount_entry {e : SessionEntry}
    (h : ∀ m, e.body = .message m → m.isCompactionSummary = false) :
    summaryCount (sessionEntryToContextMessages e) = if e.isCompaction then 1 else 0 := by
  unfold sessionEntryToContextMessages SessionEntry.isCompaction summaryCount
  cases hb : e.body with
  | message m => simp [normalizeContent_isCompactionSummary, h m hb]
  | branchSummary => dsimp only; split <;> simp [AgentMessage.isCompactionSummary]
  | _ => simp [AgentMessage.isCompactionSummary]

theorem summaryCount_contextMessages (es : List SessionEntry) (h : NoSummaryMessages es) :
    summaryCount (contextMessages es) = es.countP SessionEntry.isCompaction := by
  induction es with
  | nil => rfl
  | cons e rest ih =>
    have he := summaryCount_entry (h e (List.mem_cons_self ..))
    have hrest := ih fun x hx => h x (List.mem_cons_of_mem _ hx)
    rw [contextMessages_cons, summaryCount, List.countP_append, List.countP_cons]
    rw [summaryCount] at he hrest
    omega

theorem summaryCount_filterMap (es : List SessionEntry) (h : NoSummaryMessages es) :
    summaryCount (es.filterMap getMessageFromEntryForCompaction) = 0 := by
  rw [summaryCount, List.countP_eq_zero]
  intro m hm
  obtain ⟨e, he, hget⟩ := List.mem_filterMap.mp hm
  unfold getMessageFromEntryForCompaction at hget
  split at hget
  · cases hget
  · rename_i hc
    have hcount := summaryCount_entry (h e he)
    rw [if_neg hc, summaryCount, List.countP_eq_zero] at hcount
    exact hcount m (List.mem_of_head? hget)

/-! ## The boundary -/

theorem prevCompactionIndex_eq_none {es : List SessionEntry}
    (h : ∀ e ∈ es, e.isCompaction = false) : ∀ n, prevCompactionIndex es n = none
  | 0 => rfl
  | i + 1 => by
    have hi : es[i]?.any SessionEntry.isCompaction = false := by
      cases he : es[i]? with
      | none => rfl
      | some e => exact h e (List.mem_of_getElem? he)
    rw [prevCompactionIndex, hi]
    exact prevCompactionIndex_eq_none h i

theorem prevCompactionIndex_split (pre : List SessionEntry) {post : List SessionEntry}
    {e : SessionEntry}
    (he : e.isCompaction = true) (hpost : ∀ x ∈ post, x.isCompaction = false) :
    ∀ k, k ≤ post.length →
      prevCompactionIndex (pre ++ e :: post) (pre.length + 1 + k) = some pre.length
  | 0, _ => by
    simp [prevCompactionIndex, he]
  | k + 1, hk => by
    have hidx : (pre ++ e :: post)[pre.length + 1 + k]? = post[k]? := by
      rw [List.getElem?_append_right (by omega)]
      rw [show pre.length + 1 + k - pre.length = k + 1 by omega, List.getElem?_cons_succ]
    have hk' : k < post.length := by omega
    have hne : (pre ++ e :: post)[pre.length + 1 + k]?.any SessionEntry.isCompaction
        = false := by
      rw [hidx, List.getElem?_eq_getElem hk']
      exact hpost _ (List.getElem_mem hk')
    rw [← Nat.add_assoc, prevCompactionIndex, hne]
    exact prevCompactionIndex_split pre he hpost k (by omega)

end Eagent
