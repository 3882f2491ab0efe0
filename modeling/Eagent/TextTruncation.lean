import Eagent.OutputAccumulator
import Eagent.RuntimeTruncate

/-!
# The head and the tail of a text

`truncateHead` and `truncateTail` of the tools, on strings of UTF-16 units.
Both collect lines until one more passes a limit; which limit it was is
worked out after the loop from the counters.
-/

namespace Eagent.CodingAgent

open Utf8Text Utf16Text

/-! ## The code -/

/-- `Buffer.byteLength(str, "utf-8")` -/
def byteLengthOf (str : List UInt16) : Nat := (utf8Bytes str).length

/-- `"\n"` -/
def newline : UInt16 := 0x0a

def splitLinesForCounting (content : List UInt16) : List (List UInt16) :=
  if content.length = 0 then []
  else
    let lines := content.splitOn newline
    if content.getLast? = some newline then lines.dropLast else lines

/-- `lines.join("\n")` -/
def joinLines (lines : List (List UInt16)) : List UInt16 := [newline].intercalate lines

structure TruncationResult where
  content : List UInt16
  truncated : Bool
  truncatedBy : Option TruncatedBy
  totalLines : Nat
  totalBytes : Nat
  outputLines : Nat
  outputBytes : Nat
  lastLinePartial : Bool
  firstLineExceedsLimit : Bool
  maxLines : Nat
  maxBytes : Nat
deriving DecidableEq

/-- The variables of the loops. -/
structure LineLoop where
  outputLinesArr : List (List UInt16)
  outputBytesCount : Nat
  truncatedBy : TruncatedBy
  lastLinePartial : Bool

def LineLoop.start : LineLoop := ⟨[], 0, .lines, false⟩

/-- The loop of `truncateHead`, from line `i` on. -/
def headLoop (maxLines maxBytes : Nat) (i : Nat) (s : LineLoop) : List (List UInt16) → LineLoop
  | [] => s
  | line :: rest =>
      if i < maxLines then
        let lineBytes := byteLengthOf line + if i > 0 then 1 else 0
        if s.outputBytesCount + lineBytes > maxBytes then { s with truncatedBy := .bytes }
        else
          headLoop maxLines maxBytes (i + 1)
            { s with
              outputLinesArr := s.outputLinesArr ++ [line]
              outputBytesCount := s.outputBytesCount + lineBytes } rest
      else s

/-- The loop of `truncateTail`, over the lines that are left, the last one
first. A line is cut where its bytes are well formed. -/
def tailLoop (maxLines maxBytes : Nat) (s : LineLoop) : List (List UInt16) → LineLoop
  | [] => s
  | line :: above =>
      if s.outputLinesArr.length < maxLines then
        let lineBytes := byteLengthOf line + if s.outputLinesArr.length > 0 then 1 else 0
        if s.outputBytesCount + lineBytes > maxBytes then
          if s.outputLinesArr.length = 0 then
            let truncatedLine := (truncateStringToBytesFromEnd line maxBytes).getD []
            { outputLinesArr := [truncatedLine], outputBytesCount := byteLengthOf truncatedLine
              truncatedBy := .bytes, lastLinePartial := true }
          else { s with truncatedBy := .bytes }
        else
          tailLoop maxLines maxBytes
            { s with
              outputLinesArr := line :: s.outputLinesArr
              outputBytesCount := s.outputBytesCount + lineBytes } above
      else s

def untruncated (content : List UInt16) (maxLines maxBytes : Nat) : TruncationResult :=
  let totalLines := (splitLinesForCounting content).length
  { content, truncated := false, truncatedBy := none, totalLines
    totalBytes := byteLengthOf content, outputLines := totalLines
    outputBytes := byteLengthOf content, lastLinePartial := false, firstLineExceedsLimit := false
    maxLines, maxBytes }

def truncatedTo (content : List UInt16) (maxLines maxBytes : Nat) (s : LineLoop) :
    TruncationResult :=
  let outputContent := joinLines s.outputLinesArr
  { content := outputContent, truncated := true
    truncatedBy := some (if s.outputLinesArr.length ≥ maxLines ∧ s.outputBytesCount ≤ maxBytes then
      .lines else s.truncatedBy)
    totalLines := (splitLinesForCounting content).length, totalBytes := byteLengthOf content
    outputLines := s.outputLinesArr.length, outputBytes := byteLengthOf outputContent
    lastLinePartial := s.lastLinePartial, firstLineExceedsLimit := false, maxLines, maxBytes }

def truncateHead (content : List UInt16) (maxLines maxBytes : Nat) : TruncationResult :=
  let totalBytes := byteLengthOf content
  let lines := splitLinesForCounting content
  let totalLines := lines.length
  if totalLines ≤ maxLines ∧ totalBytes ≤ maxBytes then untruncated content maxLines maxBytes
  else if byteLengthOf (lines.headD []) > maxBytes then
    { content := [], truncated := true, truncatedBy := some .bytes, totalLines, totalBytes
      outputLines := 0, outputBytes := 0, lastLinePartial := false, firstLineExceedsLimit := true
      maxLines, maxBytes }
  else truncatedTo content maxLines maxBytes (headLoop maxLines maxBytes 0 .start lines)

def truncateTail (content : List UInt16) (maxLines maxBytes : Nat) : TruncationResult :=
  let totalBytes := byteLengthOf content
  let lines := splitLinesForCounting content
  let totalLines := lines.length
  if totalLines ≤ maxLines ∧ totalBytes ≤ maxBytes then untruncated content maxLines maxBytes
  else truncatedTo content maxLines maxBytes (tailLoop maxLines maxBytes .start lines.reverse)

/-! ## What is kept -/

/-- The whole text is within the limits. -/
def Fits (content : List UInt16) (maxLines maxBytes : Nat) : Prop :=
  (splitLinesForCounting content).length ≤ maxLines ∧ byteLengthOf content ≤ maxBytes

/-- Of the parts of a text's lines, the longest within the limits. -/
structure Longest (part : List (List UInt16) → Prop) (maxLines maxBytes : Nat)
    (kept : List (List UInt16)) : Prop where
  isPart : part kept
  lines : kept.length ≤ maxLines
  bytes : byteLengthOf (joinLines kept) ≤ maxBytes
  longest : ∀ other, part other → other.length ≤ maxLines →
    byteLengthOf (joinLines other) ≤ maxBytes → other.length ≤ kept.length

/-- `t` is an end of a line that begins with a character. -/
def EndsLine (line t : List UInt16) : Prop := ∃ before, line = before ++ t ∧ Cut before t

/-- The longest end of a line, of whole characters, that fits. -/
structure LongestEnd (line : List UInt16) (maxBytes : Nat) (t : List UInt16) : Prop where
  ends : EndsLine line t
  bytes : byteLengthOf t ≤ maxBytes
  longest : ∀ other, EndsLine line other → byteLengthOf other ≤ maxBytes →
    other.length ≤ t.length

/-- The limit that is named is the one that excludes the next line. -/
structure LimitNamed (part : List (List UInt16) → Prop) (totalLines maxLines maxBytes : Nat)
    (kept : List (List UInt16)) (truncatedBy : Option TruncatedBy) : Prop where
  lines : truncatedBy = some .lines → maxLines < totalLines
  bytes : truncatedBy = some .bytes → ∃ next, part next ∧ next.length = kept.length + 1 ∧
    next.length ≤ maxLines ∧ maxBytes < byteLengthOf (joinLines next)

structure HeadExact (content : List UInt16) (maxLines maxBytes : Nat) (r : TruncationResult) :
    Prop where
  truncated : r.truncated = true ↔ ¬ Fits content maxLines maxBytes
  whole : Fits content maxLines maxBytes → r.content = content ∧ r.truncatedBy = none
  kept : ¬ Fits content maxLines maxBytes → ∃ kept,
    Longest (· <+: splitLinesForCounting content) maxLines maxBytes kept ∧
      r.content = joinLines kept ∧
      LimitNamed (· <+: splitLinesForCounting content) (splitLinesForCounting content).length
        maxLines maxBytes kept r.truncatedBy

def TailContent (lines : List (List UInt16)) (maxBytes : Nat) (kept : List (List UInt16))
    (content : List UInt16) : Prop :=
  if kept = [] then ∃ line, lines.getLast? = some line ∧ LongestEnd line maxBytes content
  else content = joinLines kept

structure TailExact (content : List UInt16) (maxLines maxBytes : Nat) (r : TruncationResult) :
    Prop where
  truncated : r.truncated = true ↔ ¬ Fits content maxLines maxBytes
  whole : Fits content maxLines maxBytes → r.content = content ∧ r.truncatedBy = none
  kept : ¬ Fits content maxLines maxBytes → ∃ kept,
    Longest (· <:+ splitLinesForCounting content) maxLines maxBytes kept ∧
      TailContent (splitLinesForCounting content) maxBytes kept r.content ∧
      LimitNamed (· <:+ splitLinesForCounting content) (splitLinesForCounting content).length
        maxLines maxBytes kept r.truncatedBy

/-! ## Lines and bytes -/

theorem byteLengthOf_newline (a b : List UInt16) :
    byteLengthOf (a ++ newline :: b) = byteLengthOf a + 1 + byteLengthOf b := by
  have hcut : Cut a (newline :: b) := by
    rintro u v - ⟨⟩ -
    rfl
  have hsize : (Char.ofNat newline.toNat).utf8Size = 1 := by decide
  rw [byteLengthOf, utf8Bytes, ← byteLength, scalars_append hcut,
    scalars_plain rfl rfl, byteLength_append, byteLength_cons, hsize, ← Nat.add_assoc]
  rfl

theorem joinLines_singleton (line : List UInt16) : joinLines [line] = line := by
  simp [joinLines]

theorem joinLines_cons (line : List UInt16) {lines : List (List UInt16)} (h : lines ≠ []) :
    joinLines (line :: lines) = line ++ newline :: joinLines lines := by
  cases lines with
  | nil => exact absurd rfl h
  | cons next lines => rfl

theorem joinLines_concat {lines : List (List UInt16)} (h : lines ≠ []) (line : List UInt16) :
    joinLines (lines ++ [line]) = joinLines lines ++ newline :: line := by
  induction lines with
  | nil => exact absurd rfl h
  | cons first lines ih =>
    cases lines with
    | nil =>
      rw [joinLines_singleton, List.singleton_append, joinLines_cons first (by simp),
        joinLines_singleton]
    | cons next lines =>
      rw [List.cons_append, joinLines_cons first (by simp), ih (List.cons_ne_nil _ _),
        joinLines_cons first (List.cons_ne_nil _ _), List.append_assoc]
      rfl

/-- The newline before a line that is not the first. -/
def newlineBytes (lines : List (List UInt16)) : Nat := if lines.length > 0 then 1 else 0

theorem bytes_concat (lines : List (List UInt16)) (line : List UInt16) :
    byteLengthOf (joinLines (lines ++ [line])) =
      byteLengthOf (joinLines lines) + (byteLengthOf line + newlineBytes lines) := by
  cases lines with
  | nil =>
    rw [List.nil_append, joinLines_singleton]
    exact (Nat.zero_add _).symm
  | cons first lines =>
    rw [joinLines_concat (List.cons_ne_nil _ _), byteLengthOf_newline, Nat.add_assoc,
      Nat.add_comm 1]
    rfl

theorem bytes_cons (line : List UInt16) (lines : List (List UInt16)) :
    byteLengthOf (joinLines (line :: lines)) =
      byteLengthOf (joinLines lines) + (byteLengthOf line + newlineBytes lines) := by
  cases lines with
  | nil =>
    rw [joinLines_singleton]
    exact (Nat.zero_add _).symm
  | cons next lines =>
    rw [joinLines_cons line (List.cons_ne_nil _ _), byteLengthOf_newline, Nat.add_comm]
    rfl

theorem splitLinesForCounting_concat (before : List UInt16) :
    splitLinesForCounting (before ++ [newline]) = before.splitOn newline := by
  rw [splitLinesForCounting, if_neg (by simp), if_pos List.getLast?_concat,
    List.splitOn_append_cons_self, List.splitOn_nil, List.dropLast_concat]

variable {content : List UInt16}

theorem splitLinesForCounting_newline (h : content.getLast? = some newline) :
    content = joinLines (splitLinesForCounting content) ++ [newline] := by
  obtain ⟨before, rfl⟩ : ∃ before, content = before ++ [newline] := List.getLast?_eq_some_iff.mp h
  rw [splitLinesForCounting_concat, joinLines, List.intercalate_splitOn]

theorem splitLinesForCounting_open (h : content.getLast? ≠ some newline) :
    content = joinLines (splitLinesForCounting content) := by
  rw [splitLinesForCounting]
  split
  · rename_i hempty
    rw [List.length_eq_zero_iff.mp hempty]
    rfl
  · exact (List.intercalate_splitOn newline).symm

theorem bytes_content (content : List UInt16) :
    byteLengthOf content = byteLengthOf (joinLines (splitLinesForCounting content)) +
      if content.getLast? = some newline then 1 else 0 := by
  split
  · rename_i h
    have hbytes := byteLengthOf_newline (joinLines (splitLinesForCounting content)) []
    rw [← splitLinesForCounting_newline h] at hbytes
    exact hbytes
  · rename_i h
    rw [← splitLinesForCounting_open h]
    rfl

/-! ## The loops -/

/-- A loop stopped with `kept`; `next` is that and one more line, if there is
one. -/
structure Stopped (maxLines maxBytes : Nat) (kept : List (List UInt16))
    (next : Option (List (List UInt16))) (s : LineLoop) : Prop where
  outputLinesArr : s.outputLinesArr = kept
  outputBytesCount : s.outputBytesCount = byteLengthOf (joinLines kept)
  lines : kept.length ≤ maxLines
  bytes : byteLengthOf (joinLines kept) ≤ maxBytes
  reason : (s.truncatedBy = .lines ∧ (next = none ∨ kept.length = maxLines)) ∨
    (s.truncatedBy = .bytes ∧ kept.length < maxLines ∧
      ∃ more, next = some more ∧ maxBytes < byteLengthOf (joinLines more))

variable {maxLines maxBytes : Nat}

theorem headLoop_stopped (kept rest : List (List UInt16))
    (hlines : kept.length ≤ maxLines) (hbytes : byteLengthOf (joinLines kept) ≤ maxBytes) :
    ∃ more left, rest = more ++ left ∧
      Stopped maxLines maxBytes (kept ++ more) (left.head?.map fun line => kept ++ more ++ [line])
        (headLoop maxLines maxBytes kept.length
          ⟨kept, byteLengthOf (joinLines kept), .lines, false⟩ rest) := by
  induction rest generalizing kept with
  | nil =>
    refine ⟨[], [], rfl, ?_⟩
    rw [List.append_nil]
    exact ⟨rfl, rfl, hlines, hbytes, .inl ⟨rfl, .inl rfl⟩⟩
  | cons line rest ih =>
    by_cases hroom : kept.length < maxLines
    · have hnext := bytes_concat kept line
      rw [newlineBytes] at hnext
      by_cases hover : byteLengthOf (joinLines (kept ++ [line])) ≤ maxBytes
      · obtain ⟨more, left, rfl, hstopped⟩ :=
          ih (kept ++ [line]) (by rwa [List.length_append]) hover
        refine ⟨line :: more, left, rfl, ?_⟩
        rw [List.append_cons]
        have hloop : headLoop maxLines maxBytes kept.length
            ⟨kept, byteLengthOf (joinLines kept), .lines, false⟩ (line :: (more ++ left)) =
            headLoop maxLines maxBytes (kept ++ [line]).length
              ⟨kept ++ [line], byteLengthOf (joinLines (kept ++ [line])), .lines, false⟩
              (more ++ left) := by
          rw [headLoop, if_pos hroom]
          dsimp only
          rw [if_neg (by omega), hnext, List.length_append, List.length_singleton]
        rw [hloop]
        exact hstopped
      · refine ⟨[], line :: rest, rfl, ?_⟩
        have hloop : headLoop maxLines maxBytes kept.length
            ⟨kept, byteLengthOf (joinLines kept), .lines, false⟩ (line :: rest) =
            ⟨kept, byteLengthOf (joinLines kept), .bytes, false⟩ := by
          rw [headLoop, if_pos hroom]
          dsimp only
          rw [if_pos (by omega)]
        rw [hloop, List.append_nil]
        exact ⟨rfl, rfl, hlines, hbytes, .inr ⟨rfl, hroom, _, rfl, Nat.not_le.mp hover⟩⟩
    · refine ⟨[], line :: rest, rfl, ?_⟩
      have hloop : headLoop maxLines maxBytes kept.length
          ⟨kept, byteLengthOf (joinLines kept), .lines, false⟩ (line :: rest) =
          ⟨kept, byteLengthOf (joinLines kept), .lines, false⟩ := by
        rw [headLoop, if_neg hroom]
      rw [hloop, List.append_nil]
      exact ⟨rfl, rfl, hlines, hbytes, .inl ⟨rfl, .inr (by omega)⟩⟩

variable {kept : List (List UInt16)}

/-- Once a line is kept, the loop of the tail is that of the head, the other
way round. -/
theorem tailLoop_stopped (hkept : kept ≠ []) (rest : List (List UInt16))
    (hlines : kept.length ≤ maxLines) (hbytes : byteLengthOf (joinLines kept) ≤ maxBytes) :
    ∃ more left, rest = more ++ left ∧
      Stopped maxLines maxBytes (more.reverse ++ kept)
        (left.head?.map fun line => line :: (more.reverse ++ kept))
        (tailLoop maxLines maxBytes ⟨kept, byteLengthOf (joinLines kept), .lines, false⟩ rest) := by
  have hlength : kept.length ≠ 0 := fun h => hkept (List.length_eq_zero_iff.mp h)
  induction rest generalizing kept with
  | nil => exact ⟨[], [], rfl, rfl, rfl, hlines, hbytes, .inl ⟨rfl, .inl rfl⟩⟩
  | cons line rest ih =>
    by_cases hroom : kept.length < maxLines
    · have hnext := bytes_cons line kept
      rw [newlineBytes] at hnext
      by_cases hover : byteLengthOf (joinLines (line :: kept)) ≤ maxBytes
      · obtain ⟨more, left, rfl, hstopped⟩ :=
          ih (List.cons_ne_nil line kept) hroom hover (Nat.succ_ne_zero _)
        refine ⟨line :: more, left, rfl, ?_⟩
        rw [List.reverse_cons, List.append_assoc, List.singleton_append]
        have hloop : tailLoop maxLines maxBytes
            ⟨kept, byteLengthOf (joinLines kept), .lines, false⟩ (line :: (more ++ left)) =
            tailLoop maxLines maxBytes
              ⟨line :: kept, byteLengthOf (joinLines (line :: kept)), .lines, false⟩
              (more ++ left) := by
          rw [tailLoop, if_pos hroom]
          dsimp only
          rw [if_neg (by omega), hnext]
        rw [hloop]
        exact hstopped
      · refine ⟨[], line :: rest, rfl, ?_⟩
        have hloop : tailLoop maxLines maxBytes
            ⟨kept, byteLengthOf (joinLines kept), .lines, false⟩ (line :: rest) =
            ⟨kept, byteLengthOf (joinLines kept), .bytes, false⟩ := by
          rw [tailLoop, if_pos hroom]
          dsimp only
          rw [if_pos (by omega), if_neg hlength]
        rw [hloop]
        exact ⟨rfl, rfl, hlines, hbytes, .inr ⟨rfl, hroom, _, rfl, Nat.not_le.mp hover⟩⟩
    · refine ⟨[], line :: rest, rfl, ?_⟩
      have hloop : tailLoop maxLines maxBytes
          ⟨kept, byteLengthOf (joinLines kept), .lines, false⟩ (line :: rest) =
          ⟨kept, byteLengthOf (joinLines kept), .lines, false⟩ := by
        rw [tailLoop, if_neg hroom]
      have hfull : kept.length = maxLines := by omega
      rw [hloop]
      exact ⟨rfl, rfl, hlines, hbytes, .inl ⟨rfl, .inr hfull⟩⟩

/-! ## The longest part -/

theorem bytes_append_left (lines more : List (List UInt16)) :
    byteLengthOf (joinLines lines) ≤ byteLengthOf (joinLines (lines ++ more)) := by
  induction more generalizing lines with
  | nil => rw [List.append_nil]
  | cons line more ih =>
    have hone := bytes_concat lines line
    have hrest := ih (lines ++ [line])
    rw [List.append_assoc, List.singleton_append] at hrest
    omega

theorem bytes_append_right (more lines : List (List UInt16)) :
    byteLengthOf (joinLines lines) ≤ byteLengthOf (joinLines (more ++ lines)) := by
  induction more with
  | nil => exact Nat.le_refl _
  | cons line more ih =>
    have hone := bytes_cons line (more ++ lines)
    rw [List.cons_append]
    omega

/-- `next` is the one part that is a line longer, within every longer one. -/
structure Grows (part : List (List UInt16) → Prop) (kept : List (List UInt16))
    (next : Option (List (List UInt16))) : Prop where
  isPart : ∀ more, next = some more → part more ∧ more.length = kept.length + 1
  within : ∀ other, part other → kept.length < other.length →
    ∃ more, next = some more ∧ byteLengthOf (joinLines more) ≤ byteLengthOf (joinLines other)

theorem grows_prefix (kept left : List (List UInt16)) :
    Grows (· <+: kept ++ left) kept (left.head?.map fun line => kept ++ [line]) := by
  cases left with
  | nil =>
    refine ⟨(fun more h => nomatch h), fun other hother hlength => ?_⟩
    have hle := hother.length_le
    rw [List.append_nil] at hle
    omega
  | cons line left =>
    refine ⟨?_, fun other hother hlength => ⟨_, rfl, ?_⟩⟩
    · rintro more ⟨⟩
      refine ⟨⟨left, ?_⟩, List.length_append⟩
      rw [List.append_assoc, List.singleton_append]
    · have hpart : kept ++ [line] <+: kept ++ line :: left :=
        ⟨left, by rw [List.append_assoc, List.singleton_append]⟩
      obtain ⟨more, rfl⟩ := List.prefix_of_prefix_length_le hpart hother (by
        rw [List.length_append]
        exact hlength)
      exact bytes_append_left _ more

theorem grows_suffix (kept left : List (List UInt16)) :
    Grows (· <:+ left.reverse ++ kept) kept (left.head?.map fun line => line :: kept) := by
  cases left with
  | nil =>
    refine ⟨(fun more h => nomatch h), fun other hother hlength => ?_⟩
    have hle := hother.length_le
    rw [List.reverse_nil, List.nil_append] at hle
    omega
  | cons line left =>
    have hlines : (line :: left).reverse ++ kept = left.reverse ++ line :: kept := by
      rw [List.reverse_cons, List.append_assoc, List.singleton_append]
    rw [hlines]
    refine ⟨?_, fun other hother hlength => ⟨_, rfl, ?_⟩⟩
    · rintro more ⟨⟩
      exact ⟨⟨left.reverse, rfl⟩, rfl⟩
    · obtain ⟨more, rfl⟩ := List.suffix_of_suffix_length_le ⟨left.reverse, rfl⟩ hother hlength
      exact bytes_append_right more _

variable {part : List (List UInt16) → Prop} {next : Option (List (List UInt16))}

theorem Stopped.longest {s : LineLoop} (h : Stopped maxLines maxBytes kept next s)
    (hpart : part kept) (hgrows : Grows part kept next) : Longest part maxLines maxBytes kept := by
  refine ⟨hpart, h.lines, h.bytes, fun other hother hlines hbytes => ?_⟩
  by_contra hlonger
  obtain ⟨more, hmore, hless⟩ := hgrows.within other hother (Nat.not_le.mp hlonger)
  rcases h.reason with ⟨-, hnone | hfull⟩ | ⟨-, -, more', hmore', hover⟩
  · rw [hnone] at hmore
    cases hmore
  · omega
  · obtain rfl := Option.some.inj (hmore.symm.trans hmore')
    omega

theorem Stopped.named {s : LineLoop} {totalLines : Nat} (h : Stopped maxLines maxBytes kept next s)
    (hgrows : Grows part kept next) (htotal : next = none ↔ totalLines ≤ kept.length) :
    LimitNamed part totalLines maxLines maxBytes kept
      (truncatedTo content maxLines maxBytes s).truncatedBy ↔ next ≠ none := by
  have hby : (truncatedTo content maxLines maxBytes s).truncatedBy = some s.truncatedBy := by
    refine congrArg some ?_
    rcases h.reason with ⟨hlines, -⟩ | ⟨hbytes, hroom, -⟩
    · rw [hlines, ite_self]
    · rw [if_neg]
      rw [h.outputLinesArr]
      omega
  rw [hby]
  rcases h.reason with ⟨hlines, hstop⟩ | ⟨hbytes, hroom, more, rfl, hover⟩
  · rw [hlines]
    have hkept := h.lines
    refine ⟨fun hnamed hnone => ?_, fun hnext => ⟨fun _ => ?_, nofun⟩⟩
    · have hmore := hnamed.lines rfl
      have hall := htotal.mp hnone
      omega
    · rcases hstop with hnone | hfull
      · exact absurd hnone hnext
      · have hmore := mt htotal.mpr hnext
        omega
  · rw [hbytes]
    obtain ⟨hpart, hlength⟩ := hgrows.isPart more rfl
    exact ⟨fun _ => nofun, fun _ => ⟨nofun, fun _ => ⟨more, hpart, hlength, by omega, hover⟩⟩⟩

/-- A part of a text's lines within the limits, as long as it can be. -/
theorem Longest.length_unique {kept kept' : List (List UInt16)}
    (h : Longest part maxLines maxBytes kept) (h' : Longest part maxLines maxBytes kept') :
    kept.length = kept'.length :=
  Nat.le_antisymm (h'.longest kept h.isPart h.lines h.bytes)
    (h.longest kept' h'.isPart h'.lines h'.bytes)

/-! ## The exceptions -/

def OnlyNewlineOver (content : List UInt16) (maxLines maxBytes : Nat) : Prop :=
  content.getLast? = some newline ∧ (splitLinesForCounting content).length ≤ maxLines ∧
    byteLengthOf content = maxBytes + 1

/-- Where a loop has kept every line, only a newline was too much. -/
theorem onlyNewlineOver_iff (hfits : ¬ Fits content maxLines maxBytes) :
    OnlyNewlineOver content maxLines maxBytes ↔
      (splitLinesForCounting content).length ≤ maxLines ∧
        byteLengthOf (joinLines (splitLinesForCounting content)) ≤ maxBytes := by
  have hbytes := bytes_content content
  constructor
  · rintro ⟨hlast, hlines, hover⟩
    rw [if_pos hlast] at hbytes
    exact ⟨hlines, by omega⟩
  · rintro ⟨hlines, hjoined⟩
    have hover : ¬ byteLengthOf content ≤ maxBytes := fun h => hfits ⟨hlines, h⟩
    split at hbytes
    · rename_i hlast
      exact ⟨hlast, hlines, by omega⟩
    · omega

theorem OnlyNewlineOver.not_fits (h : OnlyNewlineOver content maxLines maxBytes) :
    ¬ Fits content maxLines maxBytes := by
  rintro ⟨-, hbytes⟩
  have hover := h.2.2
  omega

/-- The last line alone is too long, and its end that fits has an unpaired
surrogate, which is replaced. -/
def UnpairedEnd (content : List UInt16) (maxBytes : Nat) : Prop :=
  ∃ line t, (splitLinesForCounting content).getLast? = some line ∧
    maxBytes < byteLengthOf line ∧ LongestEnd line maxBytes t ∧ units (scalars t) ≠ t

def OnlyLineOver (content : List UInt16) (maxLines maxBytes : Nat) : Prop :=
  maxLines = 1 ∧ ∃ line, splitLinesForCounting content = [line] ∧ maxBytes < byteLengthOf line

/-! ## The end of a line -/

variable {line : List UInt16}

theorem exists_longestEnd (h : maxBytes < byteLengthOf line) :
    ∃ t, LongestEnd line maxBytes t ∧ scalars t = fit maxBytes (scalars line) := by
  obtain ⟨a, c, hscalars, hover⟩ := fit_split h
  rw [List.append_cons] at hscalars
  obtain ⟨before, t, rfl, hcut, hbefore, ht⟩ := exists_cut hscalars
  have hfits : byteLengthOf t ≤ maxBytes := by
    rw [byteLengthOf, utf8Bytes, ← byteLength, ht]
    exact byteLength_fit_le _ _
  refine ⟨t, ⟨⟨before, rfl, hcut⟩, hfits, ?_⟩, ht⟩
  rintro other ⟨before', hother, hcut'⟩ hbytes
  by_contra hlonger
  -- a longer end holds the character that does not fit
  obtain ⟨mid, rfl⟩ := List.suffix_of_suffix_length_le ⟨before, rfl⟩ ⟨before', hother.symm⟩
    (Nat.le_of_lt (Nat.not_le.mp hlonger))
  have hmid : mid ≠ [] := by
    rintro rfl
    exact hlonger (Nat.le_refl _)
  have hbefore' : before = before' ++ mid := by
    rw [← List.append_assoc] at hother
    exact List.append_cancel_right hother
  subst hbefore'
  have hcut₁ : Cut before' mid := by
    intro u v hu hv
    refine hcut' u v hu ?_
    cases mid with
    | nil => cases hv
    | cons w mid => exact hv
  rw [scalars_append hcut₁] at hbefore
  have hlast : (scalars mid).getLast? = some c := by
    rw [← List.getLast?_append_of_ne_nil (scalars before') (scalars_ne_nil hmid), hbefore,
      List.getLast?_concat]
  obtain ⟨front, hfront⟩ := List.getLast?_eq_some_iff.mp hlast
  rw [byteLengthOf, utf8Bytes, ← byteLength, scalars_append (hcut.of_append hmid), ht, hfront,
    byteLength_append, byteLength_append, byteLength_cons] at hbytes
  omega

theorem LongestEnd.unique {line t t' : List UInt16} (h : LongestEnd line maxBytes t)
    (h' : LongestEnd line maxBytes t') : t = t' := by
  obtain ⟨before, hbefore, -⟩ := h.ends
  obtain ⟨before', hbefore', -⟩ := h'.ends
  have hlength : t.length = t'.length :=
    Nat.le_antisymm (h'.longest t h.ends h.bytes) (h.longest t' h'.ends h'.bytes)
  exact (List.append_inj' (hbefore.symm.trans hbefore') hlength).2

/-! ## The head -/

theorem fits_nil (maxLines maxBytes : Nat) : Fits [] maxLines maxBytes :=
  ⟨Nat.zero_le _, Nat.zero_le _⟩

theorem splitLinesForCounting_ne_nil (h : ¬ Fits content maxLines maxBytes) :
    splitLinesForCounting content ≠ [] := by
  intro hlines
  by_cases hlast : content.getLast? = some newline
  · obtain ⟨before, rfl⟩ := List.getLast?_eq_some_iff.mp hlast
    rw [splitLinesForCounting_concat] at hlines
    exact List.splitOn_ne_nil _ _ hlines
  · have hcontent := splitLinesForCounting_open hlast
    rw [hlines] at hcontent
    rw [hcontent] at h
    exact h (fits_nil maxLines maxBytes)

theorem truncateHead_fits (h : Fits content maxLines maxBytes) :
    truncateHead content maxLines maxBytes = untruncated content maxLines maxBytes := if_pos h

/-- Where the first line is too long, the loop would have kept nothing too. -/
theorem truncateHead_loop (hone : 1 ≤ maxLines) (h : ¬ Fits content maxLines maxBytes) :
    let r := truncateHead content maxLines maxBytes
    let t := truncatedTo content maxLines maxBytes
      (headLoop maxLines maxBytes 0 .start (splitLinesForCounting content))
    r.content = t.content ∧ r.truncated = true ∧ r.truncatedBy = t.truncatedBy := by
  obtain ⟨first, rest, hlines⟩ := List.exists_cons_of_ne_nil (splitLinesForCounting_ne_nil h)
  by_cases hfirst : byteLengthOf first > maxBytes
  · have hself : truncateHead content maxLines maxBytes = _ :=
      (if_neg h).trans (if_pos (hlines ▸ hfirst))
    have hloop : headLoop maxLines maxBytes 0 .start (splitLinesForCounting content) =
        ⟨[], 0, .bytes, false⟩ := by
      rw [hlines, headLoop, if_pos (show 0 < maxLines from hone)]
      exact if_pos (by rwa [LineLoop.start, Nat.zero_add])
    have hnone : ¬ (([] : List (List UInt16)).length ≥ maxLines ∧ 0 ≤ maxBytes) := by
      rintro ⟨hlength, -⟩
      exact absurd (hone.trans hlength) (Nat.not_succ_le_zero 0)
    rw [hself, hloop]
    exact ⟨rfl, rfl, congrArg some (if_neg hnone).symm⟩
  · have hself : truncateHead content maxLines maxBytes = truncatedTo content maxLines maxBytes
        (headLoop maxLines maxBytes 0 .start (splitLinesForCounting content)) := by
      refine (if_neg h).trans (if_neg ?_)
      rw [hlines]
      exact hfirst
    rw [hself]
    exact ⟨rfl, rfl, rfl⟩

/-- Of what a loop leaves, the next line comes first. -/
theorem next_eq_none {kept left : List (List UInt16)} {lines : Nat}
    (grow : List UInt16 → List (List UInt16)) (h : lines = kept.length + left.length) :
    left.head?.map grow = none ↔ lines ≤ kept.length := by
  cases left with
  | nil => exact ⟨fun _ => Nat.le_of_eq h, fun _ => rfl⟩
  | cons line left =>
    refine ⟨nofun, fun hle => ?_⟩
    rw [List.length_cons] at h
    omega

/-- The limit is named exactly unless only the final newline was too much. -/
theorem Stopped.named_iff {s : LineLoop} (h : Stopped maxLines maxBytes kept next s)
    (hfits : ¬ Fits content maxLines maxBytes) (hpart : part kept) (hgrows : Grows part kept next)
    (hall : part (splitLinesForCounting content))
    (hkept : (splitLinesForCounting content).length ≤ kept.length →
      splitLinesForCounting content = kept)
    (hnext : next = none ↔ (splitLinesForCounting content).length ≤ kept.length) :
    LimitNamed part (splitLinesForCounting content).length maxLines maxBytes kept
      (truncatedTo content maxLines maxBytes s).truncatedBy ↔
      ¬ OnlyNewlineOver content maxLines maxBytes := by
  rw [h.named hgrows hnext, onlyNewlineOver_iff hfits, ne_eq, hnext]
  refine not_congr ⟨fun hlength => ?_, fun ⟨hlines, hbytes⟩ => ?_⟩
  · rw [hkept hlength]
    exact ⟨h.lines, h.bytes⟩
  · exact (h.longest hpart hgrows).longest _ hall hlines hbytes

theorem truncateHead_exact_iff (hone : 1 ≤ maxLines) (content : List UInt16) :
    HeadExact content maxLines maxBytes (truncateHead content maxLines maxBytes) ↔
      ¬ OnlyNewlineOver content maxLines maxBytes := by
  by_cases hfits : Fits content maxLines maxBytes
  · rw [truncateHead_fits hfits]
    exact ⟨fun _ h => h.not_fits hfits, fun _ => ⟨⟨nofun, fun h => absurd hfits h⟩,
      fun _ => ⟨rfl, rfl⟩, fun h => absurd hfits h⟩⟩
  · obtain ⟨kept, left, hlines, hstopped⟩ := headLoop_stopped [] (splitLinesForCounting content)
      (Nat.zero_le maxLines) (Nat.zero_le maxBytes)
    obtain ⟨hcontent, htruncated, hby⟩ := truncateHead_loop hone hfits
    rw [List.nil_append] at hstopped
    have hpart : kept <+: splitLinesForCounting content := ⟨left, hlines.symm⟩
    have hgrows := grows_prefix kept left
    rw [← hlines] at hgrows
    have hlongest := hstopped.longest hpart hgrows
    have hnamed := hstopped.named_iff hfits hpart hgrows List.prefix_rfl
      (fun hle => (hpart.eq_of_length_le hle).symm)
      (next_eq_none _ (by rw [hlines, List.length_append]))
    rw [← hnamed]
    constructor
    · intro hexact
      obtain ⟨kept', hlongest', -, hnamed'⟩ := hexact.kept hfits
      obtain rfl : kept' = kept := List.IsPrefix.eq_of_length
        (List.prefix_of_prefix_length_le hlongest'.isPart hpart
          (Nat.le_of_eq (hlongest'.length_unique hlongest))) (hlongest'.length_unique hlongest)
      rwa [hby] at hnamed'
    · intro hnamed'
      refine ⟨⟨fun _ => hfits, fun _ => htruncated⟩, fun h => absurd h hfits, fun _ => ?_⟩
      refine ⟨kept, hlongest, hcontent.trans ?_, by rwa [hby]⟩
      exact congrArg joinLines hstopped.outputLinesArr

/-! ## The tail -/

theorem truncateTail_fits (h : Fits content maxLines maxBytes) :
    truncateTail content maxLines maxBytes = untruncated content maxLines maxBytes := if_pos h

theorem truncateTail_loop (h : ¬ Fits content maxLines maxBytes) :
    truncateTail content maxLines maxBytes = truncatedTo content maxLines maxBytes
      (tailLoop maxLines maxBytes .start (splitLinesForCounting content).reverse) := if_neg h

theorem bytes_last_le (lines : List (List UInt16)) (last : List UInt16) :
    byteLengthOf last ≤ byteLengthOf (joinLines (lines ++ [last])) := by
  have h := bytes_append_right lines [last]
  rwa [joinLines_singleton] at h

theorem tailLoop_start_next (hone : 1 ≤ maxLines) (h : byteLengthOf line ≤ maxBytes)
    (above : List (List UInt16)) :
    tailLoop maxLines maxBytes .start (line :: above) =
      tailLoop maxLines maxBytes ⟨[line], byteLengthOf (joinLines [line]), .lines, false⟩
        above := by
  have hroom : LineLoop.start.outputLinesArr.length < maxLines := hone
  have hcount : LineLoop.start.outputBytesCount + (byteLengthOf line + 0) = byteLengthOf line :=
    Nat.zero_add _
  rw [tailLoop, joinLines_singleton]
  refine (if_pos hroom).trans ((if_neg ?_).trans ?_)
  · change ¬ 0 + (byteLengthOf line + 0) > maxBytes
    omega
  · exact congrArg (fun count => tailLoop maxLines maxBytes ⟨[line], count, .lines, false⟩ above)
      hcount

/-- The last line is too long, and its end is taken. -/
theorem tailLoop_start_over (hone : 1 ≤ maxLines) (h : maxBytes < byteLengthOf line)
    (above : List (List UInt16)) :
    tailLoop maxLines maxBytes .start (line :: above) =
      ⟨[units (fit maxBytes (scalars line))], byteLengthOf (units (fit maxBytes (scalars line))),
        .bytes, true⟩ := by
  have hline : truncateStringToBytesFromEnd line maxBytes =
      some (units (fit maxBytes (scalars line))) := truncateStringToBytesFromEnd_fit h
  have hroom : LineLoop.start.outputLinesArr.length < maxLines := hone
  rw [tailLoop]
  refine (if_pos hroom).trans ((if_pos ?_).trans ((if_pos rfl).trans ?_))
  · change 0 + (byteLengthOf line + 0) > maxBytes
    omega
  · rw [hline]
    rfl

theorem truncateTail_exact_of_le {content last : List UInt16}
    (hfits : ¬ Fits content maxLines maxBytes) (hone : 1 ≤ maxLines)
    (hlast : (splitLinesForCounting content).getLast? = some last)
    (hbytes : byteLengthOf last ≤ maxBytes) :
    TailExact content maxLines maxBytes (truncateTail content maxLines maxBytes) ↔
      ¬ OnlyNewlineOver content maxLines maxBytes := by
  obtain ⟨front, hsplit⟩ := List.getLast?_eq_some_iff.mp hlast
  have hjoined : byteLengthOf (joinLines [last]) ≤ maxBytes := by rwa [joinLines_singleton]
  obtain ⟨more, left, hlines, hstopped⟩ := tailLoop_stopped (List.cons_ne_nil last [])
    front.reverse hone hjoined
  have hreverse : (splitLinesForCounting content).reverse = last :: front.reverse := by
    rw [hsplit, List.reverse_append, List.reverse_singleton, List.singleton_append]
  have hself : splitLinesForCounting content = left.reverse ++ (more.reverse ++ [last]) := by
    rw [hsplit, ← List.append_assoc, ← List.reverse_append, ← hlines, List.reverse_reverse]
  rw [truncateTail_loop hfits, hreverse, tailLoop_start_next hone hbytes]
  generalize tailLoop maxLines maxBytes ⟨[last], byteLengthOf (joinLines [last]), .lines, false⟩
    front.reverse = s at hstopped ⊢
  generalize hkept : more.reverse ++ [last] = kept at hstopped hself
  have hne : kept ≠ [] := by
    rw [← hkept]
    exact List.append_ne_nil_of_right_ne_nil _ (List.cons_ne_nil _ _)
  have hpart : kept <:+ splitLinesForCounting content := ⟨left.reverse, hself.symm⟩
  have hgrows := grows_suffix kept left
  rw [← hself] at hgrows
  have hlongest := hstopped.longest hpart hgrows
  have hnamed := hstopped.named_iff hfits hpart hgrows List.suffix_rfl
    (fun hle => (hpart.eq_of_length_le hle).symm)
    (next_eq_none _ (by rw [hself, List.length_append, List.length_reverse, Nat.add_comm]))
  rw [← hnamed]
  constructor
  · intro hexact
    obtain ⟨kept', hlongest', -, hnamed'⟩ := hexact.kept hfits
    obtain rfl : kept' = kept := List.IsSuffix.eq_of_length
      (List.suffix_of_suffix_length_le hlongest'.isPart hpart
        (Nat.le_of_eq (hlongest'.length_unique hlongest))) (hlongest'.length_unique hlongest)
    exact hnamed'
  · intro hnamed'
    refine ⟨⟨fun _ => hfits, fun _ => rfl⟩, fun h => absurd h hfits, fun _ => ?_⟩
    refine ⟨kept, hlongest, ?_, hnamed'⟩
    rw [TailContent, if_neg hne]
    exact congrArg joinLines hstopped.outputLinesArr

theorem truncateTail_exact_of_lt {content last : List UInt16}
    (hfits : ¬ Fits content maxLines maxBytes) (hone : 1 ≤ maxLines)
    (hlast : (splitLinesForCounting content).getLast? = some last)
    (hbytes : maxBytes < byteLengthOf last) :
    TailExact content maxLines maxBytes (truncateTail content maxLines maxBytes) ↔
      ¬ OnlyLineOver content maxLines maxBytes ∧ ¬ UnpairedEnd content maxBytes := by
  obtain ⟨front, hsplit⟩ := List.getLast?_eq_some_iff.mp hlast
  have hreverse : (splitLinesForCounting content).reverse = last :: front.reverse := by
    rw [hsplit, List.reverse_append, List.reverse_singleton, List.singleton_append]
  rw [truncateTail_loop hfits, hreverse, tailLoop_start_over hone hbytes]
  obtain ⟨t, ht, hscalars⟩ := exists_longestEnd hbytes
  have hfit : byteLengthOf (units (fit maxBytes (scalars last))) ≤ maxBytes := by
    rw [byteLengthOf, utf8Bytes, ← byteLength, scalars_units]
    exact byteLength_fit_le _ _
  have hlongest : Longest (· <:+ splitLinesForCounting content) maxLines maxBytes [] := by
    refine ⟨List.nil_suffix, Nat.zero_le _, Nat.zero_le _, fun other hother _ hother' => ?_⟩
    rcases List.eq_nil_or_concat' other with rfl | ⟨lines, line, rfl⟩
    · exact Nat.le_refl 0
    · obtain ⟨before, hbefore⟩ := hother
      rw [hsplit, ← List.append_assoc] at hbefore
      obtain rfl := List.singleton_inj.mp (List.append_inj' hbefore rfl).2
      have hle := bytes_last_le lines line
      omega
  have hnext : [last] <:+ splitLinesForCounting content := ⟨front, hsplit.symm⟩
  -- the end that is taken is one line, so it reaches a limit of one line
  have hnamed : LimitNamed (· <:+ splitLinesForCounting content)
      (splitLinesForCounting content).length maxLines maxBytes []
      (truncatedTo content maxLines maxBytes ⟨[units (fit maxBytes (scalars last))],
        byteLengthOf (units (fit maxBytes (scalars last))), .bytes, true⟩).truncatedBy ↔
      ¬ OnlyLineOver content maxLines maxBytes := by
    by_cases hlimit : maxLines = 1
    · have hby : (truncatedTo content maxLines maxBytes ⟨[units (fit maxBytes (scalars last))],
          byteLengthOf (units (fit maxBytes (scalars last))), .bytes, true⟩).truncatedBy =
          some .lines := congrArg some (if_pos ⟨Nat.le_of_eq hlimit, hfit⟩)
      rw [hby]
      constructor
      · rintro hnamed' ⟨-, line, hline, -⟩
        have hmore := hnamed'.lines rfl
        rw [hline, List.length_singleton] at hmore
        omega
      · refine fun hnot => ⟨fun _ => ?_, fun hby => by cases hby⟩
        cases hfront : front with
        | nil => exact absurd ⟨hlimit, last, by rw [hsplit, hfront]; rfl, hbytes⟩ hnot
        | cons line lines =>
          rw [hsplit, hfront, List.length_append, List.length_cons, List.length_singleton]
          omega
    · have hby : (truncatedTo content maxLines maxBytes ⟨[units (fit maxBytes (scalars last))],
          byteLengthOf (units (fit maxBytes (scalars last))), .bytes, true⟩).truncatedBy =
          some .bytes := by
        refine congrArg some (if_neg ?_)
        rintro ⟨hle, -⟩
        exact hlimit (Nat.le_antisymm hle hone)
      rw [hby]
      refine ⟨fun _ h => hlimit h.1, fun _ => ⟨fun hby => (by cases hby), fun _ => ?_⟩⟩
      refine ⟨[last], hnext, rfl, hone, ?_⟩
      rwa [joinLines_singleton]
  have hend : TailContent (splitLinesForCounting content) maxBytes []
      (units (fit maxBytes (scalars last))) ↔ ¬ UnpairedEnd content maxBytes := by
    rw [TailContent, if_pos rfl]
    constructor
    · rintro ⟨line, hline, hlong⟩ ⟨line', t', hline', -, ht', hunpaired⟩
      obtain rfl := Option.some.inj (hline.symm.trans hline')
      obtain rfl := Option.some.inj (hline.symm.trans hlast)
      obtain rfl := ht'.unique ht
      exact hunpaired (hscalars ▸ hlong.unique ht)
    · intro hpaired
      refine ⟨last, hlast, ?_⟩
      by_cases hself : units (scalars t) = t
      · rw [← hscalars, hself]
        exact ht
      · exact absurd ⟨last, t, hlast, hbytes, ht, hself⟩ hpaired
  have hresult : (truncatedTo content maxLines maxBytes ⟨[units (fit maxBytes (scalars last))],
      byteLengthOf (units (fit maxBytes (scalars last))), .bytes, true⟩).content =
      units (fit maxBytes (scalars last)) := joinLines_singleton _
  rw [← hnamed, ← hend]
  constructor
  · intro hexact
    obtain ⟨kept, hlongest', hcontent, hnamed'⟩ := hexact.kept hfits
    obtain rfl : kept = [] := List.length_eq_zero_iff.mp (hlongest'.length_unique hlongest)
    rw [hresult] at hcontent
    exact ⟨hnamed', hcontent⟩
  · rintro ⟨hnamed', hend'⟩
    refine ⟨⟨fun _ => hfits, fun _ => rfl⟩, fun h => absurd h hfits, fun _ => ?_⟩
    refine ⟨[], hlongest, ?_, hnamed'⟩
    rwa [hresult]

theorem bytes_joined_of_last {content last : List UInt16}
    (hlast : (splitLinesForCounting content).getLast? = some last) :
    byteLengthOf last ≤ byteLengthOf (joinLines (splitLinesForCounting content)) := by
  obtain ⟨front, hsplit⟩ := List.getLast?_eq_some_iff.mp hlast
  rw [hsplit]
  exact bytes_last_le front last

theorem not_fits_of_last {content last : List UInt16}
    (hlast : (splitLinesForCounting content).getLast? = some last)
    (h : maxBytes < byteLengthOf last) : ¬ Fits content maxLines maxBytes := by
  rintro ⟨-, hbytes⟩
  have hcontent := bytes_content content
  have hjoined := bytes_joined_of_last hlast
  omega

theorem OnlyLineOver.last (h : OnlyLineOver content maxLines maxBytes) :
    ∃ last, (splitLinesForCounting content).getLast? = some last ∧
      maxBytes < byteLengthOf last := by
  obtain ⟨-, line, hline, hlong⟩ := h
  exact ⟨line, by rw [hline]; rfl, hlong⟩

theorem UnpairedEnd.last (h : UnpairedEnd content maxBytes) :
    ∃ last, (splitLinesForCounting content).getLast? = some last ∧
      maxBytes < byteLengthOf last := by
  obtain ⟨line, -, hline, hlong, -⟩ := h
  exact ⟨line, hline, hlong⟩

theorem truncateTail_exact_iff (hone : 1 ≤ maxLines) (content : List UInt16) :
    TailExact content maxLines maxBytes (truncateTail content maxLines maxBytes) ↔
      ¬ OnlyNewlineOver content maxLines maxBytes ∧ ¬ OnlyLineOver content maxLines maxBytes ∧
        ¬ UnpairedEnd content maxBytes := by
  by_cases hfits : Fits content maxLines maxBytes
  · rw [truncateTail_fits hfits]
    refine ⟨fun _ => ⟨fun h => h.not_fits hfits, fun h => ?_, fun h => ?_⟩,
      fun _ => ⟨⟨nofun, fun h => absurd hfits h⟩, fun _ => ⟨rfl, rfl⟩, fun h => absurd hfits h⟩⟩
    · obtain ⟨last, hlast, hlong⟩ := h.last
      exact not_fits_of_last hlast hlong hfits
    · obtain ⟨last, hlast, hlong⟩ := h.last
      exact not_fits_of_last hlast hlong hfits
  · have hne := splitLinesForCounting_ne_nil hfits
    obtain ⟨last, hlast⟩ : ∃ last, (splitLinesForCounting content).getLast? = some last :=
      ⟨_, List.getLast?_eq_some_getLast hne⟩
    by_cases hbytes : byteLengthOf last ≤ maxBytes
    · have hlong : ¬ ∃ last, (splitLinesForCounting content).getLast? = some last ∧
          maxBytes < byteLengthOf last := by
        rintro ⟨last', hlast', hlong⟩
        obtain rfl := Option.some.inj (hlast.symm.trans hlast')
        exact Nat.not_le.mpr hlong hbytes
      rw [truncateTail_exact_of_le hfits hone hlast hbytes]
      exact ⟨fun h => ⟨h, fun hline => hlong hline.last, fun hend => hlong hend.last⟩, And.left⟩
    · have hnewline : ¬ OnlyNewlineOver content maxLines maxBytes := by
        rw [onlyNewlineOver_iff hfits]
        rintro ⟨-, hjoined⟩
        exact hbytes ((bytes_joined_of_last hlast).trans hjoined)
      rw [truncateTail_exact_of_lt hfits hone hlast (Nat.not_le.mp hbytes)]
      exact ⟨fun h => ⟨hnewline, h⟩, And.right⟩

/-- Both are exact for every text but three kinds. -/
theorem truncation_exact_iff (hone : 1 ≤ maxLines) (content : List UInt16) :
    HeadExact content maxLines maxBytes (truncateHead content maxLines maxBytes) ∧
        TailExact content maxLines maxBytes (truncateTail content maxLines maxBytes) ↔
      ¬ OnlyNewlineOver content maxLines maxBytes ∧ ¬ OnlyLineOver content maxLines maxBytes ∧
        ¬ UnpairedEnd content maxBytes := by
  rw [truncateHead_exact_iff hone, truncateTail_exact_iff hone, ← and_assoc, and_self]

def fiveBytes : List UInt16 := [0x61, 0x62, 0x63, 0x64, newline]

theorem truncation_exact_iff_five :
    1 ≤ 10 ∧ (HeadExact fiveBytes 10 5 (truncateHead fiveBytes 10 5) ∧
        TailExact fiveBytes 10 5 (truncateTail fiveBytes 10 5) ↔
      ¬ OnlyNewlineOver fiveBytes 10 5 ∧ ¬ OnlyLineOver fiveBytes 10 5 ∧
        ¬ UnpairedEnd fiveBytes 5) :=
  ⟨by decide, truncation_exact_iff (by decide) fiveBytes⟩

/-- One line, of at most ten, is said to be too many. -/
theorem truncateHead_names_lines : ¬ HeadExact fiveBytes 10 4 (truncateHead fiveBytes 10 4) := by
  intro hexact
  have hfits : ¬ Fits fiveBytes 10 4 := by
    rw [Fits]
    decide +kernel
  obtain ⟨kept, -, -, hnamed⟩ := hexact.kept hfits
  have hby : (truncateHead fiveBytes 10 4).truncatedBy = some .lines := by decide +kernel
  exact absurd (hnamed.lines hby) (by decide +kernel)

end Eagent.CodingAgent
