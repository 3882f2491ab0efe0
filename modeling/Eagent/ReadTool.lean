import Eagent.ShellOutput
import Eagent.TextBlocks
import Eagent.TextTruncation

/-!
# Reading a file in pages

The text branch of the tool `read`. A page shows lines from an offset on; when
lines are left, a notice behind them names the offset to go on from. The pages
that follow the notices are the file (`pages_cover`).
-/

namespace Eagent.CodingAgent

/-! ## The code -/

def textOf (literal : String) : List UInt16 := Utf16Text.units literal.toList

/-- `toFixed(1)` of `bytes / unit` -/
def toFixed (bytes unit : Nat) : String :=
  let tenths := (20 * bytes + unit) / (2 * unit)
  s!"{tenths / 10}.{tenths % 10}"

def formatSize (bytes : Nat) : String :=
  if bytes < 1024 then s!"{bytes}B"
  else if bytes < 1024 * 1024 then toFixed bytes 1024 ++ "KB"
  else toFixed bytes (1024 * 1024) ++ "MB"

/-- What the tool writes behind the lines, or in their place. -/
inductive ReadNotice where
  | lineTooLong (line size : Nat) (path : String)
  | stoppedByLines (first last total : Nat)
  | stoppedByBytes (first last total : Nat)
  | remaining (count next : Nat)
deriving DecidableEq

def ReadNotice.text : ReadNotice → String
  | .lineTooLong line size path =>
      s!"[Line {line} is {formatSize size}, exceeds {formatSize defaultMaxBytes} limit. " ++
        s!"Use bash: sed -n '{line}p' {path} | head -c {defaultMaxBytes}]"
  | .stoppedByLines first last total =>
      s!"\n\n[Showing lines {first}-{last} of {total}. Use offset={last + 1} to continue.]"
  | .stoppedByBytes first last total =>
      s!"\n\n[Showing lines {first}-{last} of {total} ({formatSize defaultMaxBytes} limit). " ++
        s!"Use offset={last + 1} to continue.]"
  | .remaining count next =>
      s!"\n\n[{count} more lines in file. Use offset={next} to continue.]"

def ReadNotice.nextOffset : ReadNotice → Option Nat
  | .lineTooLong .. => none
  | .stoppedByLines _ last _ => some (last + 1)
  | .stoppedByBytes _ last _ => some (last + 1)
  | .remaining _ next => some next

structure ReadResult where
  content : List UInt16
  notice : Option ReadNotice
  details : Option TruncationResult
deriving DecidableEq

def ReadResult.outputText (r : ReadResult) : List UInt16 :=
  r.content ++ (r.notice.map fun notice => textOf notice.text).getD []

def noticeOfLimit (allLines : List (List UInt16)) (startLine : Nat) :
    Option Nat → Option ReadNotice
  | some userLimitedLines =>
      if startLine + userLimitedLines < allLines.length then
        some (.remaining (allLines.length - (startLine + userLimitedLines))
          (startLine + userLimitedLines + 1))
      else none
  | none => none

/-- The notice behind what `truncateHead` has left of the selected lines. -/
def noticeOf (path : String) (allLines : List (List UInt16)) (startLine : Nat)
    (userLimitedLines : Option Nat) (truncation : TruncationResult) : Option ReadNotice :=
  let startLineDisplay := startLine + 1
  if truncation.firstLineExceedsLimit then
    some (.lineTooLong startLineDisplay (byteLengthOf (allLines[startLine]?.getD [])) path)
  else if truncation.truncated then
    let endLineDisplay := startLineDisplay + truncation.outputLines - 1
    if truncation.truncatedBy = some .lines then
      some (.stoppedByLines startLineDisplay endLineDisplay allLines.length)
    else some (.stoppedByBytes startLineDisplay endLineDisplay allLines.length)
  else noticeOfLimit allLines startLine userLimitedLines

/-- The lines a call asks for. -/
def selectLines (allLines : List (List UInt16)) (startLine : Nat) : Option Nat →
    List (List UInt16)
  | some limit => (allLines.take (min (startLine + limit) allLines.length)).drop startLine
  | none => allLines.drop startLine

/-- `execute` on a file whose text is `textContent`. -/
def readText (textContent : List UInt16) (path : String) (offset limit : Option Nat) :
    Except String ReadResult :=
  let allLines := textContent.splitOn newline
  let startLine := offset.getD 0 - 1
  if startLine ≥ allLines.length then
    .error s!"Offset {offset.getD 0} is beyond end of file ({allLines.length} lines total)"
  else
    let userLimitedLines :=
      limit.map fun limit => min (startLine + limit) allLines.length - startLine
    let selectedContent := joinLines (selectLines allLines startLine limit)
    let truncation := truncateHead selectedContent defaultMaxLines defaultMaxBytes
    .ok
      { content := truncation.content
        notice := noticeOf path allLines startLine userLimitedLines truncation
        details := if truncation.truncated then some truncation else none }

/-! ## One page -/

variable {content : List UInt16} {maxLines maxBytes : Nat}

/-- A text is split at its newlines, or is it counted without its last line,
an empty one. -/
theorem splitOn_counted (h : content ≠ []) :
    content.splitOn newline = splitLinesForCounting content ∨
      content.splitOn newline = splitLinesForCounting content ++ [[]] := by
  by_cases hlast : content.getLast? = some newline
  · obtain ⟨before, rfl⟩ := List.getLast?_eq_some_iff.mp hlast
    refine .inr ?_
    rw [splitLinesForCounting_concat, List.splitOn_append_cons_self, List.splitOn_nil]
  · refine .inl ?_
    rw [splitLinesForCounting, if_neg (fun hlength => h (List.length_eq_zero_iff.mp hlength)),
      if_neg hlast]

/-- What `truncateHead` leaves of lines that are each within the limit: all of
them, or at least one and not all. -/
structure Shown (lines : List (List UInt16)) (count : Nat) (r : TruncationResult) : Prop where
  content : r.content = joinLines (lines.take count)
  pos : 0 < count
  length : count ≤ lines.length
  firstLine : r.firstLineExceedsLimit = false
  whole : r.truncated = false ↔ count = lines.length
  outputLines : r.truncated = true → r.outputLines = count

theorem truncateHead_shown {lines : List (List UInt16)} (hone : 1 ≤ maxLines) (hne : lines ≠ [])
    (hnewline : ∀ line ∈ lines, newline ∉ line)
    (hbytes : ∀ line ∈ lines, byteLengthOf line ≤ maxBytes) :
    ∃ count, Shown lines count (truncateHead (joinLines lines) maxLines maxBytes) := by
  have hsplit : (joinLines lines).splitOn newline = lines :=
    List.splitOn_intercalate newline hnewline hne
  by_cases hfits : Fits (joinLines lines) maxLines maxBytes
  · rw [truncateHead_fits hfits]
    exact ⟨lines.length, by rw [List.take_length]; rfl, List.length_pos_of_ne_nil hne,
      Nat.le_refl _, rfl, ⟨fun _ => rfl, fun _ => rfl⟩, fun h => by cases h⟩
  · have hcounted : lines = splitLinesForCounting (joinLines lines) ∨
        lines = splitLinesForCounting (joinLines lines) ++ [[]] := by
      have hcontent : joinLines lines ≠ [] := by
        intro hnil
        rw [hnil] at hfits
        exact hfits (fits_nil maxLines maxBytes)
      have h := splitOn_counted hcontent
      rwa [hsplit] at h
    have hmem : ∀ line ∈ splitLinesForCounting (joinLines lines), line ∈ lines := by
      intro line hline
      obtain h | h := hcounted
      · rwa [h]
      · rw [h]
        exact List.mem_append_left _ hline
    obtain ⟨first, rest, hfirst⟩ :=
      List.exists_cons_of_ne_nil (splitLinesForCounting_ne_nil hfits)
    have hfirstBytes : byteLengthOf first ≤ maxBytes :=
      hbytes first (hmem first (hfirst ▸ List.mem_cons_self))
    obtain ⟨kept, left, hkept, hstopped⟩ := @headLoop_stopped maxLines maxBytes []
      (splitLinesForCounting (joinLines lines)) (Nat.zero_le _) (Nat.zero_le _)
    rw [List.nil_append] at hstopped
    have hself : truncateHead (joinLines lines) maxLines maxBytes =
        truncatedTo (joinLines lines) maxLines maxBytes
          (headLoop maxLines maxBytes 0 .start (splitLinesForCounting (joinLines lines))) := by
      refine (if_neg hfits).trans (if_neg ?_)
      rw [hfirst]
      exact Nat.not_lt.mpr hfirstBytes
    have hpos : kept ≠ [] := by
      rintro rfl
      rw [List.nil_append] at hkept
      rw [← hkept, hfirst] at hstopped
      obtain ⟨-, hnone | hzero⟩ | ⟨-, -, more, hmore, hover⟩ := hstopped.reason
      · cases hnone
      · rw [List.length_nil] at hzero
        omega
      · obtain rfl := Option.some.inj hmore
        have hjoined : joinLines ([] ++ [first]) = first := joinLines_singleton first
        exact Nat.not_le.mpr hover (by rwa [hjoined])
    have hprefix : kept <+: lines := by
      obtain h | h := hcounted
      · exact ⟨left, by rw [h, hkept]⟩
      · exact ⟨left ++ [[]], by rw [h, hkept, List.append_assoc]⟩
    have hpartly : kept.length ≠ lines.length := by
      intro hlength
      obtain h | h := hcounted
      · have hall : kept = lines := hprefix.eq_of_length hlength
        rw [hall] at hstopped
        exact hfits ⟨by rw [← h]; exact hstopped.lines, hstopped.bytes⟩
      · rw [h, hkept, List.length_append, List.length_append, List.length_singleton] at hlength
        omega
    rw [hself]
    refine ⟨kept.length, ?_, List.length_pos_of_ne_nil hpos, hprefix.length_le, rfl, ?_, ?_⟩
    · rw [← List.prefix_iff_eq_take.mp hprefix]
      exact congrArg joinLines hstopped.outputLinesArr
    · constructor
      · intro hwhole
        cases hwhole
      · exact fun hlength => absurd hlength hpartly
    · exact fun _ => congrArg List.length hstopped.outputLinesArr

/-! ## The pages -/

/-- The contents of the pages from an offset on, each at the offset that the
notice before it names, until one has no notice. -/
inductive Pages (textContent : List UInt16) (path : String) (limit : Option Nat) :
    Nat → List (List UInt16) → Prop
  | last {offset : Nat} {r : ReadResult}
      (hread : readText textContent path (some offset) limit = .ok r) (hnone : r.notice = none) :
      Pages textContent path limit offset [r.content]
  | next {offset following : Nat} {r : ReadResult} {notice : ReadNotice}
      {contents : List (List UInt16)}
      (hread : readText textContent path (some offset) limit = .ok r)
      (hnotice : r.notice = some notice) (hnext : notice.nextOffset = some following)
      (hrest : Pages textContent path limit following contents) :
      Pages textContent path limit offset (r.content :: contents)

variable {textContent : List UInt16} {path : String} {limit : Option Nat}

/-- A page shows the lines from `startLine` on, and a notice names the first one it
does not show. -/
structure ReadsLines (allLines : List (List UInt16)) (startLine count : Nat) (r : ReadResult) :
    Prop where
  content : r.content = joinLines ((allLines.drop startLine).take count)
  pos : 0 < count
  length : startLine + count ≤ allLines.length
  notice : if startLine + count = allLines.length then r.notice = none
    else ∃ notice, r.notice = some notice ∧ notice.nextOffset = some (startLine + count + 1)

/-- The notice that follows what is left of `count` of the `chosen` lines. -/
theorem noticeOf_shown {allLines chosen : List (List UInt16)} {startLine count : Nat}
    {userLimitedLines : Option Nat} {truncation : TruncationResult}
    (hshown : Shown chosen count truncation)
    (hlength : startLine + chosen.length ≤ allLines.length)
    (hlimited : ∀ lines, userLimitedLines = some lines → lines = chosen.length)
    (hall : userLimitedLines = none → startLine + chosen.length = allLines.length) :
    if startLine + count = allLines.length then
      noticeOf path allLines startLine userLimitedLines truncation = none
    else ∃ notice, noticeOf path allLines startLine userLimitedLines truncation = some notice ∧
      notice.nextOffset = some (startLine + count + 1) := by
  have hcount := hshown.length
  have hpos := hshown.pos
  have hself : noticeOf path allLines startLine userLimitedLines truncation =
      if truncation.truncated then
        if truncation.truncatedBy = some .lines then
          some (.stoppedByLines (startLine + 1) (startLine + 1 + truncation.outputLines - 1)
            allLines.length)
        else
          some (.stoppedByBytes (startLine + 1) (startLine + 1 + truncation.outputLines - 1)
            allLines.length)
      else noticeOfLimit allLines startLine userLimitedLines :=
    if_neg (by rw [hshown.firstLine]; decide)
  rw [hself]
  by_cases htruncated : truncation.truncated = true
  · have hless : count ≠ chosen.length := by
      intro h
      rw [hshown.whole.mpr h] at htruncated
      cases htruncated
    have hnext : startLine + 1 + count - 1 + 1 = startLine + count + 1 := by omega
    rw [if_neg (by omega), if_pos htruncated, hshown.outputLines htruncated]
    split
    · exact ⟨_, rfl, congrArg some hnext⟩
    · exact ⟨_, rfl, congrArg some hnext⟩
  · have hwhole : count = chosen.length := hshown.whole.mp (Bool.eq_false_iff.mpr htruncated)
    rw [if_neg htruncated]
    cases userLimitedLines with
    | none =>
      have hend := hall rfl
      rw [if_pos (by omega)]
      rfl
    | some lines =>
      obtain rfl : lines = count := (hlimited lines rfl).trans hwhole.symm
      rw [noticeOfLimit]
      by_cases hmore : startLine + lines < allLines.length
      · rw [if_neg (by omega), if_pos hmore]
        exact ⟨_, rfl, rfl⟩
      · rw [if_pos (by omega), if_neg hmore]

/-- The lines a call asks for are the next ones, as many as its limit allows. -/
theorem selectLines_spec {allLines : List (List UInt16)} {startLine : Nat}
    (hlimit : ∀ lines, limit = some lines → 1 ≤ lines) (hstart : startLine < allLines.length) :
    ∃ size, 0 < size ∧ startLine + size ≤ allLines.length ∧
      selectLines allLines startLine limit = (allLines.drop startLine).take size ∧
      (∀ lines, limit = some lines →
        min (startLine + lines) allLines.length - startLine = size) ∧
      (limit = none → startLine + size = allLines.length) := by
  cases limit with
  | none =>
    refine ⟨allLines.length - startLine, by omega, by omega, ?_, ?_, fun _ => by omega⟩
    · rw [selectLines, List.take_of_length_le (by rw [List.length_drop])]
    · intro lines hnone
      cases hnone
  | some lines =>
    have hone := hlimit lines rfl
    refine ⟨min (startLine + lines) allLines.length - startLine, by omega, by omega, ?_, ?_, ?_⟩
    · rw [selectLines, List.drop_take]
    · intro other hother
      rw [Option.some.inj hother]
    · intro hsome
      cases hsome

theorem readText_lines (path : String) (hlimit : ∀ lines, limit = some lines → 1 ≤ lines)
    (hbytes : ∀ line ∈ textContent.splitOn newline, byteLengthOf line ≤ defaultMaxBytes)
    {startLine : Nat} (hstart : startLine < (textContent.splitOn newline).length) :
    ∃ count r, readText textContent path (some (startLine + 1)) limit = .ok r ∧
      ReadsLines (textContent.splitOn newline) startLine count r := by
  have hlines := TextBlocks.mem_splitOn (a := newline) textContent
  obtain ⟨size, hsize, hend, hselect, hlimited, hrest⟩ := selectLines_spec hlimit hstart
  have hlength : (((textContent.splitOn newline).drop startLine).take size).length = size := by
    rw [List.length_take, List.length_drop]
    omega
  have hsub : ∀ line ∈ ((textContent.splitOn newline).drop startLine).take size,
      line ∈ textContent.splitOn newline :=
    fun line hline => List.mem_of_mem_drop (List.mem_of_mem_take hline)
  obtain ⟨count, hshown⟩ := @truncateHead_shown defaultMaxLines defaultMaxBytes
    (((textContent.splitOn newline).drop startLine).take size) (by decide)
    (List.ne_nil_of_length_pos (by omega)) (fun line hline => (hlines line (hsub line hline)).1)
    (fun line hline => hbytes line (hsub line hline))
  have hread : readText textContent path (some (startLine + 1)) limit = _ :=
    if_neg (Nat.not_le.mpr hstart)
  have hoffset : (some (startLine + 1)).getD 0 - 1 = startLine := rfl
  rw [hoffset, hselect] at hread
  have hcount := hshown.length
  have hshort := hlength ▸ hcount
  refine ⟨count, _, hread, ?_, hshown.pos, ?_, ?_⟩
  · refine hshown.content.trans ?_
    rw [List.take_take, Nat.min_eq_left hshort]
  · omega
  · refine noticeOf_shown hshown (by rw [hlength]; exact hend) ?_ ?_
    · intro lines hsome
      obtain ⟨limit', hlimit', rfl⟩ := Option.map_eq_some_iff.mp hsome
      exact (hlimited limit' hlimit').trans hlength.symm
    · intro hnone
      rw [hlength]
      exact hrest (Option.map_eq_none_iff.mp hnone)

theorem joinLines_append {lines more : List (List UInt16)} (hlines : lines ≠ [])
    (hmore : more ≠ []) :
    joinLines (lines ++ more) = joinLines lines ++ newline :: joinLines more := by
  induction lines with
  | nil => exact absurd rfl hlines
  | cons line lines ih =>
    cases lines with
    | nil => rw [joinLines_singleton, List.singleton_append, joinLines_cons line hmore]
    | cons next lines =>
      have hne : next :: lines ++ more ≠ [] := List.cons_ne_nil _ _
      rw [List.cons_append, joinLines_cons line hne, ih (List.cons_ne_nil _ _),
        joinLines_cons line (List.cons_ne_nil _ _), List.append_assoc]
      rfl

theorem Pages.ne_nil {offset : Nat} {contents : List (List UInt16)}
    (h : Pages textContent path limit offset contents) : contents ≠ [] := by
  cases h <;> exact List.cons_ne_nil _ _

theorem Pages.unique {offset : Nat} {contents other : List (List UInt16)}
    (h : Pages textContent path limit offset contents)
    (hother : Pages textContent path limit offset other) : other = contents := by
  induction h generalizing other with
  | last hread hnone =>
    cases hother with
    | last hread' _ => rw [Except.ok.inj (hread'.symm.trans hread)]
    | next hread' hnotice _ _ =>
      rw [Except.ok.inj (hread'.symm.trans hread), hnone] at hnotice
      cases hnotice
  | next hread hnotice hnext _ ih =>
    cases hother with
    | last hread' hnone =>
      rw [Except.ok.inj (hread'.symm.trans hread), hnotice] at hnone
      cases hnone
    | next hread' hnotice' hnext' hrest' =>
      obtain rfl := Except.ok.inj (hread'.symm.trans hread)
      obtain rfl := Option.some.inj (hnotice'.symm.trans hnotice)
      obtain rfl := Option.some.inj (hnext'.symm.trans hnext)
      rw [ih hrest']

theorem pages_from (path : String) (hlimit : ∀ lines, limit = some lines → 1 ≤ lines)
    (hbytes : ∀ line ∈ textContent.splitOn newline, byteLengthOf line ≤ defaultMaxBytes)
    (left startLine : Nat) (hleft : startLine + left + 1 = (textContent.splitOn newline).length) :
    ∃ contents, Pages textContent path limit (startLine + 1) contents ∧
      joinLines contents = joinLines ((textContent.splitOn newline).drop startLine) ∧
      contents.flatMap (·.splitOn newline) = (textContent.splitOn newline).drop startLine := by
  have hlines := TextBlocks.mem_splitOn (a := newline) textContent
  induction left using Nat.strong_induction_on generalizing startLine with
  | _ left ih =>
    obtain ⟨count, r, hread, hreads⟩ := readText_lines path hlimit hbytes
      (by omega : startLine < (textContent.splitOn newline).length)
    have hpos := hreads.pos
    have hlength := hreads.length
    have hnotice := hreads.notice
    have hshown : r.content.splitOn newline =
        ((textContent.splitOn newline).drop startLine).take count := by
      rw [hreads.content]
      refine List.splitOn_intercalate newline ?_ (List.ne_nil_of_length_pos ?_)
      · intro line hline
        exact (hlines line (List.mem_of_mem_drop (List.mem_of_mem_take hline))).1
      · rw [List.length_take, List.length_drop]
        omega
    split at hnotice
    · next hend =>
        have hall : ((textContent.splitOn newline).drop startLine).take count =
            (textContent.splitOn newline).drop startLine :=
          List.take_of_length_le (by rw [List.length_drop]; omega)
        refine ⟨_, .last hread hnotice, ?_, ?_⟩
        · rw [joinLines_singleton, hreads.content, hall]
        · rw [List.flatMap_singleton, hshown, hall]
    · next hmore =>
        obtain ⟨notice, hsome, hnext⟩ := hnotice
        obtain ⟨contents, hpages, hjoined, hflat⟩ :=
          ih (left - count) (by omega) (startLine + count) (by omega)
        have hsplit : (textContent.splitOn newline).drop startLine =
            ((textContent.splitOn newline).drop startLine).take count ++
              (textContent.splitOn newline).drop (startLine + count) := by
          rw [← List.drop_drop, List.take_append_drop]
        refine ⟨_, .next hread hsome hnext hpages, ?_, ?_⟩
        · rw [hsplit, joinLines_cons r.content hpages.ne_nil, hreads.content, hjoined,
            joinLines_append]
          · apply List.ne_nil_of_length_pos
            rw [List.length_take, List.length_drop]
            omega
          · apply List.ne_nil_of_length_pos
            rw [List.length_drop]
            omega
        · rw [List.flatMap_cons, hshown, hflat, ← hsplit]

/-- The pages end, and joined they are the file: each line is shown once. -/
theorem pages_cover (hlimit : ∀ lines, limit = some lines → 1 ≤ lines)
    (hbytes : ∀ line ∈ textContent.splitOn newline, byteLengthOf line ≤ defaultMaxBytes) :
    ∃ contents, Pages textContent path limit 1 contents ∧
      (∀ other, Pages textContent path limit 1 other → other = contents) ∧
      joinLines contents = textContent ∧
      contents.flatMap (·.splitOn newline) = textContent.splitOn newline := by
  have hlength := List.length_pos_of_ne_nil (List.splitOn_ne_nil newline textContent)
  obtain ⟨contents, hpages, hjoined, hflat⟩ := pages_from path hlimit hbytes
    ((textContent.splitOn newline).length - 1) 0 (by omega)
  rw [List.drop_zero] at hjoined hflat
  have htext : joinLines (textContent.splitOn newline) = textContent :=
    List.intercalate_splitOn newline
  exact ⟨contents, hpages, fun other hother => hpages.unique hother, hjoined.trans htext, hflat⟩

/-- Two lines and a newline behind them, a line a page. -/
theorem pages_cover_threeLines :
    ∃ contents, Pages (textOf "ab\nc\n") "a.txt" (some 1) 1 contents ∧
      (∀ other, Pages (textOf "ab\nc\n") "a.txt" (some 1) 1 other → other = contents) ∧
      joinLines contents = textOf "ab\nc\n" ∧
      contents.flatMap (·.splitOn newline) = (textOf "ab\nc\n").splitOn newline :=
  pages_cover (by decide) (by decide +kernel)

end Eagent.CodingAgent
