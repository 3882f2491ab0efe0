import Eagent.OutputAccumulator
import Eagent.SessionManager
import Eagent.Splitting

/-!
# Server-sent events

`parseGoogleSse`: the bytes of a response, read chunk by chunk, decoded, and
cut at blank lines into events; what follows the last blank line is read by
other rules. The values of a stream are those of its text, whatever the
chunks (`parseGoogleSse_text`).

The generator is taken as read to its end; a read itself does not fail.
-/

namespace Eagent.Ai

open Splitting SessionManager

/-! ## Line ends and blank lines -/

/-- `/\r?\n/` at the start of a text. -/
def lineEndAt : List Char → Option (List Char)
  | '\n' :: rest => some rest
  | '\r' :: '\n' :: rest => some rest
  | _ => none

/-- `/\r?\n\r?\n/` at the start of a text. -/
def blankLineAt (text : List Char) : Option (List Char) := (lineEndAt text).bind lineEndAt

theorem lineEndAt_eq_some {text rest : List Char} :
    lineEndAt text = some rest ↔ text = '\n' :: rest ∨ text = '\r' :: '\n' :: rest := by
  constructor
  · intro h
    unfold lineEndAt at h
    split at h
    · exact .inl (congrArg _ (Option.some.inj h))
    · exact .inr (congrArg _ (congrArg _ (Option.some.inj h)))
    · cases h
  · rintro (rfl | rfl) <;> rfl

theorem blankLineAt_eq_some {text rest : List Char} :
    blankLineAt text = some rest ↔
      ∃ line, lineEndAt text = some line ∧ lineEndAt line = some rest :=
  Option.bind_eq_some_iff

theorem lineEndAt_shorter {text rest : List Char} (h : lineEndAt text = some rest) :
    rest.length < text.length := by
  rcases lineEndAt_eq_some.mp h with rfl | rfl
  · exact Nat.lt_succ_self _
  · exact (Nat.lt_succ_self _).trans (Nat.lt_succ_self _)

theorem lineEndAt_append {text rest : List Char} (more : List Char)
    (h : lineEndAt text = some rest) : lineEndAt (text ++ more) = some (rest ++ more) := by
  rcases lineEndAt_eq_some.mp h with rfl | rfl <;> rfl

theorem lineEndAt_begun {text more rest : List Char} (h : lineEndAt text = none)
    (hmore : lineEndAt (text ++ more) = some rest) : text = [] ∨ text = ['\r'] := by
  rcases text with _ | ⟨c, _ | ⟨d, cs⟩⟩
  · exact .inl rfl
  · rcases lineEndAt_eq_some.mp hmore with heq | heq
    · cases List.head_eq_of_cons_eq heq
      cases h
    · cases List.head_eq_of_cons_eq heq
      exact .inr rfl
  · rcases lineEndAt_eq_some.mp hmore with heq | heq
    · cases List.head_eq_of_cons_eq heq
      cases h
    · cases List.head_eq_of_cons_eq heq
      cases List.head_eq_of_cons_eq (List.tail_eq_of_cons_eq heq)
      cases h

theorem count_of_lineEndAt {text rest : List Char} (h : lineEndAt text = some rest) :
    text.count '\n' = rest.count '\n' + 1 := by
  rcases lineEndAt_eq_some.mp h with rfl | rfl <;> simp

theorem count_of_blankLineAt {text rest : List Char} (h : blankLineAt text = some rest) :
    text.count '\n' = rest.count '\n' + 2 := by
  obtain ⟨line, hline, hrest⟩ := blankLineAt_eq_some.mp h
  rw [count_of_lineEndAt hline, count_of_lineEndAt hrest]

theorem count_of_begun {text more rest : List Char} (h : blankLineAt text = none)
    (hmore : blankLineAt (text ++ more) = some rest) : text.count '\n' ≤ 1 := by
  obtain ⟨line, hline, hrest⟩ := blankLineAt_eq_some.mp hmore
  cases hself : lineEndAt text with
  | none =>
    rcases lineEndAt_begun hself hline with rfl | rfl <;> decide
  | some own =>
    rw [lineEndAt_append more hself] at hline
    obtain rfl := Option.some.inj hline
    have hown : lineEndAt own = none := by rwa [blankLineAt, hself] at h
    rw [count_of_lineEndAt hself]
    rcases lineEndAt_begun hown hrest with rfl | rfl <;> decide

/-- The lines of an event. -/
def lineEnd : Separator Char where
  strip := lineEndAt
  shorter := lineEndAt_shorter
  append := lineEndAt_append
  within {text more rest} h hmore t ht := by
    rw [Option.eq_none_iff_forall_ne_some]
    intro rest' ht'
    have hcount := ht.sublist.count_le '\n'
    rw [count_of_lineEndAt ht'] at hcount
    rcases lineEndAt_begun h hmore with rfl | rfl <;> simp at hcount

/-- The events of a response. -/
def blankLine : Separator Char where
  strip := blankLineAt
  shorter h := by
    obtain ⟨line, hline, hrest⟩ := blankLineAt_eq_some.mp h
    exact (lineEndAt_shorter hrest).trans (lineEndAt_shorter hline)
  append more h := by
    obtain ⟨line, hline, hrest⟩ := blankLineAt_eq_some.mp h
    exact blankLineAt_eq_some.mpr
      ⟨line ++ more, lineEndAt_append more hline, lineEndAt_append more hrest⟩
  within {text more rest} h hmore t ht := by
    rw [Option.eq_none_iff_forall_ne_some]
    intro rest' ht'
    have hcount := ht.sublist.count_le '\n'
    rw [count_of_blankLineAt ht'] at hcount
    have hbegun := count_of_begun h hmore
    omega

/-! ## The data of an event -/

def dataPrefix : List Char := "data:".toList

def eventData (event : List Char) : List Char :=
  let lines := (split lineEnd event).1 ++ [(split lineEnd event).2]
  joinLines ((lines.filter dataPrefix.isPrefixOf).map fun line =>
    (line.drop dataPrefix.length).dropWhile isJsSpace)

/-- What `^` stands after, in a pattern over several lines. -/
def isLineTerminator (c : Char) : Bool := c.toNat ∈ [0x0a, 0x0d, 0x2028, 0x2029]

/-- `text.replace(/^data:\s*/gm, "")`; the spaces may go on into later lines. -/
def dropDataPrefixes (atLineStart : Bool) (text : List Char) : List Char :=
  match text with
  | [] => []
  | c :: cs =>
      if atLineStart ∧ dataPrefix <+: c :: cs then
        let rest := (c :: cs).drop dataPrefix.length
        dropDataPrefixes ((rest.takeWhile isJsSpace).getLast?.any isLineTerminator)
          (rest.dropWhile isJsSpace)
      else c :: dropDataPrefixes (isLineTerminator c) cs
termination_by text.length
decreasing_by
  · have hrest := ((c :: cs).drop dataPrefix.length).dropWhile_sublist isJsSpace |>.length_le
    rw [List.length_drop] at hrest
    have hlength : dataPrefix.length = 5 := rfl
    simp only [List.length_cons] at hrest ⊢
    omega
  · exact Nat.lt_succ_self _

/-- The data of what follows the last blank line. -/
def remainderData (buffer : List Char) : List Char := trimSpaces (dropDataPrefixes true buffer)

/-! ## The generator -/

/-- What it has yielded, and whether it has thrown. -/
structure SseRun where
  yielded : List Json
  failed : Bool
deriving DecidableEq

def SseRun.start : SseRun := ⟨[], false⟩

/-- `if (data && data !== "[DONE]") yield JSON.parse(data)` -/
def SseRun.yieldData (run : SseRun) (data : List Char) : SseRun :=
  if run.failed then run
  else if data = [] ∨ data = "[DONE]".toList then run
  else match Json.parse data with
    | some value => { run with yielded := run.yielded ++ [value] }
    | none => { run with failed := true }

def SseRun.yieldEvent (run : SseRun) (event : List Char) : SseRun := run.yieldData (eventData event)

def SseRun.yieldRemainder (run : SseRun) (buffer : List Char) : SseRun :=
  if trimSpaces buffer = [] then run else run.yieldData (remainderData buffer)

/-- The variables of the loop. -/
structure SseLoop (decoder : StreamDecoder) where
  decoderState : decoder.State
  buffer : List Char
  run : SseRun

namespace SseLoop

variable {decoder : StreamDecoder}

/-- A read, once decoded; nothing is read after a throw. -/
def take (s : SseLoop decoder) (decoderState : decoder.State) (decoded : List Char) :
    SseLoop decoder :=
  if s.run.failed then s
  else
    let (events, rest) := split blankLine (s.buffer ++ decoded)
    { decoderState, buffer := rest, run := events.foldl SseRun.yieldEvent s.run }

def read (s : SseLoop decoder) (value : List UInt8) : SseLoop decoder :=
  s.take (decoder.decode s.decoderState value).1 (decoder.decode s.decoderState value).2

def readDone (s : SseLoop decoder) : SseLoop decoder :=
  s.take s.decoderState (decoder.flush s.decoderState)

theorem take_failed {s : SseLoop decoder} (h : s.run.failed = true) (decoderState : decoder.State)
    (decoded : List Char) : s.take decoderState decoded = s := by
  rw [take, if_pos h]

end SseLoop

def parseGoogleSse (decoder : StreamDecoder) (chunks : List (List UInt8)) : SseRun :=
  let s := (chunks.foldl SseLoop.read ⟨decoder.start, [], .start⟩).readDone
  s.run.yieldRemainder s.buffer

/-! ## The values of a text -/

def sseRun (text : List Char) : SseRun :=
  ((split blankLine text).1.foldl SseRun.yieldEvent .start).yieldRemainder (split blankLine text).2

theorem SseRun.yieldData_failed {run : SseRun} (h : run.failed = true) (data : List Char) :
    run.yieldData data = run := by
  rw [yieldData, if_pos h]

theorem SseRun.foldl_failed {run : SseRun} (h : run.failed = true) (events : List (List Char)) :
    events.foldl SseRun.yieldEvent run = run := by
  induction events with
  | nil => rfl
  | cons event events ih => rw [List.foldl_cons, yieldEvent, yieldData_failed h, ih]

theorem SseRun.yieldRemainder_failed {run : SseRun} (h : run.failed = true) (buffer : List Char) :
    run.yieldRemainder buffer = run := by
  rw [yieldRemainder, yieldData_failed h, ite_self]

/-- The loop has read `text`, unless it has thrown. -/
structure SseLoop.Reads {decoder : StreamDecoder} (s : SseLoop decoder) (state : decoder.State)
    (text : List Char) : Prop where
  run : s.run = (split blankLine text).1.foldl SseRun.yieldEvent .start
  rest : s.run.failed = false → s.decoderState = state ∧ s.buffer = (split blankLine text).2

namespace SseLoop.Reads

variable {decoder : StreamDecoder}

variable (decoder) in
theorem start : SseLoop.Reads ⟨decoder.start, [], .start⟩ decoder.start [] where
  run := by rw [split_nil]; rfl
  rest _ := by rw [split_nil]; exact ⟨rfl, rfl⟩

variable {s : SseLoop decoder} {state : decoder.State} {text : List Char}

section

variable (h : s.Reads state text)
include h

theorem failed (hfailed : s.run.failed = true) (state' : decoder.State) (decoded : List Char) :
    s.Reads state' (text ++ decoded) where
  run := by
    rw [split_append, List.foldl_append, ← h.run, SseRun.foldl_failed hfailed]
  rest hnot := by
    rw [hfailed] at hnot
    cases hnot

theorem take (hgoing : s.run.failed = false) (state' : decoder.State) (decoded : List Char) :
    (s.take state' decoded).Reads state' (text ++ decoded) := by
  have htaken : s.take state' decoded =
      ⟨state', (split blankLine (s.buffer ++ decoded)).2,
        (split blankLine (s.buffer ++ decoded)).1.foldl SseRun.yieldEvent s.run⟩ := by
    rw [SseLoop.take, if_neg (by rw [hgoing]; exact Bool.false_ne_true)]
  have hsplit := split_append blankLine text decoded
  rw [← (h.rest hgoing).2] at hsplit
  rw [htaken]
  refine ⟨?_, fun _ => ⟨rfl, ?_⟩⟩
  · rw [hsplit, List.foldl_append, ← h.run]
  · rw [hsplit]

theorem read (value : List UInt8) :
    (s.read value).Reads (decoder.decode state value).1
      (text ++ (decoder.decode state value).2) := by
  cases hfailed : s.run.failed with
  | true =>
    rw [SseLoop.read, take_failed hfailed]
    exact h.failed hfailed _ _
  | false =>
    rw [SseLoop.read, (h.rest hfailed).1]
    exact h.take hfailed _ _

theorem readDone :
    s.readDone.Reads state (text ++ decoder.flush state) := by
  cases hfailed : s.run.failed with
  | true =>
    rw [SseLoop.readDone, take_failed hfailed]
    exact h.failed hfailed _ _
  | false =>
    rw [SseLoop.readDone, (h.rest hfailed).1]
    exact h.take hfailed _ _

end

theorem foldl_read (chunks : List (List UInt8)) (h : s.Reads state text) :
    let decoded := chunks.foldl (fun d chunk =>
      ((decoder.decode d.1 chunk).1, d.2 ++ (decoder.decode d.1 chunk).2)) (state, text)
    (chunks.foldl SseLoop.read s).Reads decoded.1 decoded.2 := by
  induction chunks generalizing s state text with
  | nil => exact h
  | cons chunk chunks ih => exact ih (h.read chunk)

end SseLoop.Reads

theorem parseGoogleSse_text (decoder : StreamDecoder) (chunks : List (List UInt8)) :
    parseGoogleSse decoder chunks = sseRun (decoder.text chunks.flatten) := by
  have hdone := ((SseLoop.Reads.start decoder).foldl_read chunks).readDone
  rw [decoder.sound chunks] at hdone
  rw [parseGoogleSse, sseRun, ← hdone.run]
  cases hfailed : (chunks.foldl SseLoop.read ⟨decoder.start, [], .start⟩).readDone.run.failed with
  | true => rw [SseRun.yieldRemainder_failed hfailed, SseRun.yieldRemainder_failed hfailed]
  | false => rw [(hdone.rest hfailed).2]

/-- The values of a stream do not depend on its chunks. -/
theorem parseGoogleSse_chunks (decoder : StreamDecoder) (chunks : List (List UInt8)) :
    parseGoogleSse decoder chunks = parseGoogleSse decoder [chunks.flatten] := by
  rw [parseGoogleSse_text, parseGoogleSse_text, List.flatten_singleton]

end Eagent.Ai
