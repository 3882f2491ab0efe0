import Eagent.OutputAccumulator
import Eagent.SessionFile
import Eagent.Splitting

/-!
# Reading a session file

`loadEntriesFromFile` as it reads: buffer by buffer, decoded by a
`StringDecoder`, each line parsed once its newline has come, what follows the
last newline kept for the next read and parsed at the end. Whatever the
reads, it loads what the whole text does (`loadEntriesFromFile_text`).
-/

namespace Eagent.SessionReading

open Splitting

/-- A decoder whose `end` gives replacement characters only, for the bytes of
a character that is not complete. -/
structure StringDecoder extends StreamDecoder where
  flush_replacement : ∀ (state : State) (c : Char), c ∈ flush state → c = '\uFFFD'

/-! ## The loop -/

/-- `if (entry) entries.push(entry)` -/
def push (entries : List Json) (entry : Option Json) : List Json :=
  match entry with
  | some entry => entries ++ [entry]
  | none => entries

/-- The loop over the newlines of what follows `lineStart`: the entries, and
what follows the last newline. -/
def lineLoop (entries : List Json) (pending : List Char) : List Json × List Char :=
  match _h : pending.dropWhile (· ≠ '\n') with
  | [] => (entries, pending)
  | _ :: rest =>
      lineLoop (push entries (parseSessionEntryLine (pending.takeWhile (· ≠ '\n')))) rest
termination_by pending.length
decreasing_by
  have hshorter := (List.dropWhile_sublist (l := pending) (· ≠ '\n')).length_le
  rw [_h] at hshorter
  exact hshorter

structure LoadLoop (decoder : StringDecoder) where
  decoderState : decoder.State
  entries : List Json
  pending : List Char

/-- The rounds of the loop, for what `readSync` gives; a read of no bytes
ends it. -/
def readLoop {decoder : StringDecoder} (s : LoadLoop decoder) :
    List (List UInt8) → LoadLoop decoder
  | [] => s
  | bytes :: reads =>
      if bytes.length = 0 then s
      else
        let (decoderState, text) := decoder.decode s.decoderState bytes
        let (entries, pending) := lineLoop s.entries (s.pending ++ text)
        readLoop { decoderState, entries, pending } reads

/-- `reads` are the bytes that `readSync` puts in the buffer, read by read. -/
def loadEntriesFromFile (decoder : StringDecoder) (reads : List (List UInt8)) : List Json :=
  let s := readLoop ⟨decoder.start, [], []⟩ reads
  let pending := s.pending ++ decoder.flush s.decoderState
  let entries := push s.entries (parseSessionEntryLine pending)
  match entries with
  | [] => []
  | header :: _ => if isSessionHeader header then entries else []

/-! ## The lines of a text -/

def completeEntries (text : List Char) : List Json :=
  (split (single '\n') text).1.filterMap parseSessionEntryLine

theorem completeEntries_append (text more : List Char) :
    completeEntries (text ++ more) =
      completeEntries text ++ completeEntries ((split (single '\n') text).2 ++ more) := by
  rw [completeEntries, split_append, List.filterMap_append]
  rfl

theorem push_eq (entries : List Json) (line : List Char) :
    push entries (parseSessionEntryLine line) =
      entries ++ [line].filterMap parseSessionEntryLine := by
  rw [List.filterMap_cons, List.filterMap_nil]
  cases parseSessionEntryLine line with
  | none => exact (List.append_nil entries).symm
  | some entry => rfl

theorem lineLoop_eq (entries : List Json) (pending : List Char) :
    lineLoop entries pending =
      (entries ++ completeEntries pending, (split (single '\n') pending).2) := by
  induction hn : pending.length using Nat.strongRecOn generalizing entries pending with
  | _ n ih =>
    subst hn
    have hline := List.takeWhile_append_dropWhile (p := (· ≠ '\n')) (l := pending)
    have hnotMem : '\n' ∉ pending.takeWhile (· ≠ '\n') := fun h => by
      simpa using List.mem_takeWhile_imp h
    rw [lineLoop]
    split
    · rename_i hnone
      rw [hnone, List.append_nil] at hline
      rw [completeEntries, split_single_of_notMem '\n' (hline ▸ hnotMem)]
      exact congrArg (·, pending) (List.append_nil entries).symm
    · rename_i c rest hrest
      have hc : c = '\n' := by
        have hhead := List.head?_dropWhile_not (· ≠ '\n') pending
        rw [hrest] at hhead
        simpa using hhead
      subst hc
      rw [hrest] at hline
      have hsplit := split_single_append '\n' hnotMem rest
      rw [hline] at hsplit
      have hshorter : rest.length < pending.length := by
        rw [← hline, List.length_append, List.length_cons]
        omega
      have hcomplete : completeEntries pending =
          [pending.takeWhile (· ≠ '\n')].filterMap parseSessionEntryLine ++
            completeEntries rest := by
        rw [completeEntries, hsplit, completeEntries, ← List.filterMap_append]
        rfl
      rw [ih _ hshorter _ rest rfl, push_eq, List.append_assoc, ← hcomplete, hsplit]

theorem splitLines_eq (text : List Char) :
    splitLines text = (split (single '\n') text).1 ++ [(split (single '\n') text).2] := by
  induction text with
  | nil => rw [split_nil]; rfl
  | cons c cs ih =>
    by_cases hc : c = '\n'
    · subst hc
      rw [split_strip _ (strip_single '\n' cs), splitLines, if_pos rfl, ih]
      rfl
    · have hstrip := strip_single_of_ne '\n' hc cs
      cases hparts : (split (single '\n') cs).1 with
      | nil =>
        rw [hparts] at ih
        rw [split_cons_rest _ hstrip hparts, splitLines_cons hc ih]
        rfl
      | cons part parts =>
        rw [hparts] at ih
        rw [split_cons_part _ hstrip hparts, splitLines_cons hc ih]
        rfl

/-- More of a text without a newline goes to its last line. -/
theorem splitLines_append {more : List Char} (h : '\n' ∉ more) (text : List Char) :
    splitLines (text ++ more) =
      (split (single '\n') text).1 ++ [(split (single '\n') text).2 ++ more] := by
  have hrest : '\n' ∉ (split (single '\n') text).2 ++ more := by
    rw [List.mem_append]
    exact not_or.mpr ⟨notMem_split_single '\n' text, h⟩
  rw [splitLines_eq, split_append, split_single_of_notMem '\n' hrest, List.append_nil]

/-! ## Every read -/

variable {decoder : StringDecoder}

/-- The loop has read `text`. -/
structure LoadLoop.Reads (s : LoadLoop decoder) (state : decoder.State) (text : List Char) :
    Prop where
  decoderState : s.decoderState = state
  entries : s.entries = completeEntries text
  pending : s.pending = (split (single '\n') text).2

theorem readLoop_reads {reads : List (List UInt8)} (hreads : ∀ bytes ∈ reads, bytes ≠ [])
    {s : LoadLoop decoder} {state : decoder.State} {text : List Char} (h : s.Reads state text) :
    let decoded := reads.foldl (fun d chunk =>
      ((decoder.decode d.1 chunk).1, d.2 ++ (decoder.decode d.1 chunk).2)) (state, text)
    (readLoop s reads).Reads decoded.1 decoded.2 := by
  induction reads generalizing s state text with
  | nil => exact h
  | cons bytes reads ih =>
    have hbytes := hreads bytes List.mem_cons_self
    rw [readLoop, if_neg fun hlength => hbytes (List.length_eq_zero_iff.mp hlength)]
    refine ih (fun other hother => hreads other (List.mem_cons_of_mem bytes hother)) ⟨?_, ?_, ?_⟩
    · rw [h.decoderState]
    · rw [lineLoop_eq, h.decoderState, h.entries, h.pending, ← completeEntries_append]
    · rw [lineLoop_eq, h.decoderState, h.pending, split_append (single '\n') text]

theorem loadEntriesFromFile_text {reads : List (List UInt8)}
    (hreads : ∀ bytes ∈ reads, bytes ≠ []) :
    loadEntriesFromFile decoder reads =
      Eagent.loadEntriesFromFile (decoder.text reads.flatten) := by
  have hstart : LoadLoop.Reads ⟨decoder.start, [], []⟩ decoder.start [] :=
    ⟨rfl, by rw [completeEntries, split_nil]; rfl, by rw [split_nil]⟩
  have hread := readLoop_reads hreads hstart
  have hflush : '\n' ∉ decoder.flush (readLoop ⟨decoder.start, [], []⟩ reads).decoderState :=
    fun h => absurd (decoder.flush_replacement _ _ h) (by decide)
  have hentries : push (readLoop ⟨decoder.start, [], []⟩ reads).entries (parseSessionEntryLine
      ((readLoop ⟨decoder.start, [], []⟩ reads).pending ++
        decoder.flush (readLoop ⟨decoder.start, [], []⟩ reads).decoderState)) =
      (splitLines (decoder.text reads.flatten)).filterMap parseSessionEntryLine := by
    rw [← decoder.sound reads, ← hread.decoderState, splitLines_append hflush,
      List.filterMap_append, push_eq, hread.entries, hread.pending]
    rfl
  rw [loadEntriesFromFile, hentries, Eagent.loadEntriesFromFile]
  cases (splitLines (decoder.text reads.flatten)).filterMap parseSessionEntryLine with
  | nil => rfl
  | cons header entries => rfl

/-! ## The values of a text -/

def lineValues (text : List Char) : List Json :=
  ((splitLines text).filter fun line => SessionManager.trimSpaces line ≠ []).filterMap Json.parse

theorem filterMap_parseSessionEntryLine (lines : List (List Char)) :
    lines.filterMap parseSessionEntryLine =
      ((lines.filter fun line => SessionManager.trimSpaces line ≠ []).filterMap Json.parse).filter
        Json.isTruthy := by
  induction lines with
  | nil => rfl
  | cons line lines ih =>
    rw [List.filterMap_cons, parseSessionEntryLine, ih]
    by_cases hblank : SessionManager.trimSpaces line = []
    · rw [if_pos hblank, List.filter_cons_of_neg (by simpa using hblank)]
    · rw [if_neg hblank, List.filter_cons_of_pos (by simpa using hblank), List.filterMap_cons]
      cases Json.parse line with
      | none => rfl
      | some value =>
        cases htruthy : value.isTruthy with
        | true =>
          rw [Option.filter_some_pos htruthy]
          exact (List.filter_cons_of_pos htruthy).symm
        | false =>
          have hfalsy : ¬ value.isTruthy = true := Bool.eq_false_iff.mp htruthy
          rw [Option.filter_some_neg htruthy]
          exact (List.filter_cons_of_neg hfalsy).symm

/-- Whatever the reads, the truthy values of the text are loaded if the first
of them is a session header, and nothing otherwise. -/
theorem loadEntriesFromFile_values {reads : List (List UInt8)}
    (hreads : ∀ bytes ∈ reads, bytes ≠ []) :
    loadEntriesFromFile decoder reads =
      let values := (lineValues (decoder.text reads.flatten)).filter Json.isTruthy
      if values.head?.any isSessionHeader then values else [] := by
  rw [loadEntriesFromFile_text hreads, Eagent.loadEntriesFromFile, filterMap_parseSessionEntryLine]
  dsimp only [lineValues]
  generalize (((splitLines (decoder.text reads.flatten)).filter fun line =>
    SessionManager.trimSpaces line ≠ []).filterMap Json.parse).filter Json.isTruthy = values
  cases values with
  | nil => rfl
  | cons header values => rfl

/-! ## A file in two reads -/

def asciiText (bytes : List UInt8) : List Char := bytes.map fun b => Char.ofNat b.toNat

/-- `StringDecoder` on bytes below 128. -/
def asciiDecoder : StringDecoder where
  State := Unit
  start := ()
  decode _ bytes := ((), asciiText bytes)
  flush _ := []
  text := asciiText
  sound chunks := by
    have hfold : ∀ (text : List Char), chunks.foldl (fun s chunk => ((), s.2 ++ asciiText chunk))
        ((), text) = ((), text ++ asciiText chunks.flatten) := by
      induction chunks with
      | nil => exact fun text => congrArg (Prod.mk ()) (List.append_nil text).symm
      | cons chunk chunks ih =>
          intro text
          rw [List.foldl_cons, ih, List.flatten_cons, asciiText, asciiText, asciiText,
            List.map_append, List.append_assoc]
    dsimp only
    rw [hfold, List.append_nil, List.nil_append]
  flush_replacement _ _ h := absurd h List.not_mem_nil

/-- A header, in two reads, and a line `null`. -/
def headerReads : List (List UInt8) :=
  ["\x7b\"type\":\"sess", "ion\",\"id\":\"s\"\x7d\nnull"].map fun s =>
    s.toList.map fun c => UInt8.ofNat c.toNat

theorem loadEntriesFromFile_values_header :
    (∀ bytes ∈ headerReads, bytes ≠ []) ∧
      loadEntriesFromFile asciiDecoder headerReads =
        let values := (lineValues (asciiText headerReads.flatten)).filter Json.isTruthy
        if values.head?.any isSessionHeader then values else [] :=
  ⟨by decide +kernel, loadEntriesFromFile_values (by decide +kernel)⟩

/-- The `null` is not loaded. -/
theorem loadEntriesFromFile_skips_null :
    (∀ bytes ∈ headerReads, bytes ≠ []) ∧
      (lineValues (asciiText headerReads.flatten)).head?.any isSessionHeader ∧
      loadEntriesFromFile asciiDecoder headerReads ≠
        lineValues (asciiText headerReads.flatten) := by
  refine ⟨by decide +kernel, by decide +kernel, ?_⟩
  rw [loadEntriesFromFile_text (by decide +kernel)]
  decide +kernel

end Eagent.SessionReading
