import Mathlib.Algebra.GroupWithZero.Nat
import Eagent.Message

/-!
# Session entries

The entries of a session file and their projection into context
messages (`sessionEntryToContextMessages`).

Timestamps are the texts `toISOString` writes; `getTime` reads one back.
-/

namespace Eagent

/-! ## Entries -/

/-- What an entry records, one constructor per `type`. -/
inductive EntryBody where
  | message (message : AgentMessage)
  | thinkingLevelChange (thinkingLevel : String)
  | modelChange (provider modelId : String)
  | compaction (summary firstKeptEntryId : String) (tokensBefore : Nat)
      (details : Option Json) (fromHook : Option Bool)
  | branchSummary (fromId summary : String) (details : Option Json)
      (fromHook : Option Bool)
  | custom (customType : String) (data : Option Json)
  | customMessage (customType : String) (content : Option MessageContent)
      (display : Bool) (details : Option Json)
  | label (targetId : String) (label : Option String)
  | sessionInfo (name : Option String)
deriving Repr, DecidableEq

/-- `SessionEntry`: the id/parentId pair that makes a file a tree, and
the body. -/
structure SessionEntry where
  id : String
  parentId : Option String
  timestamp : String
  body : EntryBody
deriving Repr, DecidableEq

structure SessionHeader where
  version : Option Nat
  id : String
  timestamp : String
  cwd : String
  parentSession : Option String
deriving Repr, DecidableEq

/-- `FileEntry`: a line of the session file. -/
inductive FileEntry where
  | session (header : SessionHeader)
  | entry (e : SessionEntry)
deriving Repr, DecidableEq

/-- The entry of a non-header line. -/
def FileEntry.entry? : FileEntry → Option SessionEntry
  | .session _ => none
  | .entry e => some e

def truthy (s : String) : Bool := s ≠ ""

theorem truthy_iff {s : String} : truthy s = true ↔ s.toList ≠ [] := by
  rw [truthy, decide_eq_true_eq, ne_eq, ne_eq, String.toList_eq_nil_iff]

namespace SessionEntry

def isCompaction (e : SessionEntry) : Bool :=
  match e.body with
  | .compaction .. => true
  | _ => false

def isLabel (e : SessionEntry) : Bool :=
  match e.body with
  | .label .. => true
  | _ => false

end SessionEntry

/-- `CompactionEntry`: an entry known to be a compaction, with the fields
of its body. -/
structure CompactionEntry where
  entry : SessionEntry
  summary : String
  firstKeptEntryId : String
  tokensBefore : Nat
  details : Option Json
  fromHook : Option Bool
  body_eq : entry.body = .compaction summary firstKeptEntryId tokensBefore details fromHook

namespace SessionEntry

def compaction? (e : SessionEntry) : Option CompactionEntry :=
  match h : e.body with
  | .compaction summary firstKept tokensBefore details fromHook =>
      some ⟨e, summary, firstKept, tokensBefore, details, fromHook, h⟩
  | _ => none

theorem compaction?_entry {e : SessionEntry} {c : CompactionEntry}
    (h : e.compaction? = some c) : c.entry = e := by
  unfold compaction? at h
  split at h
  · cases h; rfl
  · cases h

theorem compaction?_isSome (e : SessionEntry) : e.compaction?.isSome = e.isCompaction := by
  unfold compaction? isCompaction
  split <;> rename_i h <;> simp [h]

theorem compaction?_of_body {e : SessionEntry} {summary firstKept : String} {tokens : Nat}
    {details : Option Json} {fromHook : Option Bool}
    (h : e.body = .compaction summary firstKept tokens details fromHook) :
    e.compaction? = some ⟨e, summary, firstKept, tokens, details, fromHook, h⟩ := by
  unfold compaction?
  split
  · rename_i h'
    obtain ⟨rfl, rfl, rfl, rfl, rfl⟩ := EntryBody.compaction.inj (h'.symm.trans h)
    rfl
  · rename_i hne
    exact absurd h (hne _ _ _ _ _)

/-- `entry.type === "message" && entry.message.role === "assistant"`. -/
def isAssistantMessage (e : SessionEntry) : Bool :=
  match e.body with
  | .message m => m.isAssistant
  | _ => false

end SessionEntry

/-! ## Timestamps -/

/-- The digits from position `i` up to `j`, as a number. -/
def digitsAt (cs : List Char) (i j : Nat) : Nat :=
  ((cs.take j).drop i).foldl (fun n c => 10 * n + (c.toNat - '0'.toNat)) 0

def isLeapYear (year : Nat) : Bool :=
  year % 4 = 0 && (year % 100 ≠ 0 || year % 400 = 0)

def daysBeforeMonth (year month : Nat) : Nat :=
  let lengths := [31, if isLeapYear year then 29 else 28, 31, 30, 31, 30, 31, 31, 30, 31, 30, 31]
  (lengths.take (month - 1)).sum

def daysBeforeYear (year : Nat) : Nat :=
  let leapDays (y : Nat) := y / 4 - y / 100 + y / 400
  365 * (year - 1970) + (leapDays (year - 1) - leapDays 1969)

/-- `new Date(timestamp).getTime()` for a text `YYYY-MM-DDTHH:MM:SS.sssZ`. -/
def getTime (timestamp : String) : Nat :=
  let cs := timestamp.toList
  let year := digitsAt cs 0 4
  let days := daysBeforeYear year + daysBeforeMonth year (digitsAt cs 5 7) + (digitsAt cs 8 10 - 1)
  let seconds :=
    86400 * days + 3600 * digitsAt cs 11 13 + 60 * digitsAt cs 14 16 + digitsAt cs 17 19
  1000 * seconds + digitsAt cs 20 23

example : getTime "2000-02-29T12:34:56.789Z" = 951827696789 := by decide

/-! ## Context projection -/

def createBranchSummaryMessage (summary fromId timestamp : String) : BranchSummaryMessage :=
  { summary, fromId, timestamp := getTime timestamp }

def createCompactionSummaryMessage (summary : String) (tokensBefore : Nat)
    (timestamp : String) : CompactionSummaryMessage :=
  { summary, tokensBefore, timestamp := getTime timestamp }

def createCustomMessage (customType : String) (content : MessageContent) (display : Bool)
    (details : Option Json) (timestamp : String) : CustomMessage :=
  { customType, content, display, details, timestamp := getTime timestamp }

/-- A message read from a file can lack its content; it enters the
context with an empty one. -/
def normalizeContent : AgentMessage → AgentMessage
  | .user m => .user { m with content := some (m.content.getD (.blocks [])) }
  | .assistant m => .assistant { m with content := some (m.content.getD []) }
  | .toolResult m => .toolResult { m with content := some (m.content.getD []) }
  | m => m

def sessionEntryToContextMessages (entry : SessionEntry) : List AgentMessage :=
  match entry.body with
  | .message message => [normalizeContent message]
  | .customMessage customType content display details =>
      [.custom (createCustomMessage customType (content.getD (.blocks [])) display details
        entry.timestamp)]
  | .branchSummary fromId summary _ _ =>
      if truthy summary then
        [.branchSummary (createBranchSummaryMessage summary fromId entry.timestamp)]
      else []
  | .compaction summary _ tokensBefore _ _ =>
      [.compactionSummary (createCompactionSummaryMessage summary tokensBefore entry.timestamp)]
  | _ => []

/-- `entries.flatMap(sessionEntryToContextMessages)`. -/
def contextMessages (entries : List SessionEntry) : List AgentMessage :=
  entries.flatMap sessionEntryToContextMessages

@[simp] theorem contextMessages_nil : contextMessages [] = [] := rfl

@[simp] theorem contextMessages_cons (e : SessionEntry) (es : List SessionEntry) :
    contextMessages (e :: es) = sessionEntryToContextMessages e ++ contextMessages es := by
  simp [contextMessages]

@[simp] theorem contextMessages_append (as bs : List SessionEntry) :
    contextMessages (as ++ bs) = contextMessages as ++ contextMessages bs := by
  simp [contextMessages]

theorem length_contextMessages_le (e : SessionEntry) :
    (sessionEntryToContextMessages e).length ≤ 1 := by
  unfold sessionEntryToContextMessages
  split <;> (try split) <;> simp

theorem normalizeContent_isCompactionSummary (m : AgentMessage) :
    (normalizeContent m).isCompactionSummary = m.isCompactionSummary := by
  cases m <;> rfl

theorem compaction_projects {e : SessionEntry} (h : e.isCompaction = true) :
    ∃ m, sessionEntryToContextMessages e = [.compactionSummary m] := by
  unfold SessionEntry.isCompaction at h
  unfold sessionEntryToContextMessages
  split at h
  · rename_i heq
    rw [heq]
    exact ⟨_, rfl⟩
  · cases h

theorem label_projects {e : SessionEntry} (h : e.isLabel = true) :
    sessionEntryToContextMessages e = [] := by
  unfold SessionEntry.isLabel at h
  unfold sessionEntryToContextMessages
  split at h
  · rename_i heq
    rw [heq]
  · cases h

end Eagent
