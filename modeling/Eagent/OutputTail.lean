import Eagent.OutputAccumulator

/-!
# The rolling tail of an output

The accumulator's counters are those of the whole text (`Counts`), and its
tail is an end of it with at least twice `maxBytes` bytes up to a character,
so whatever does not reach beyond the tail can be read off it. What follows
the first line of the tail, when that line was cut, can be shorter.
-/

namespace Eagent

open Utf8Text

/-! ## Lines -/

/-- A text without line ends goes on with the last line. -/
theorem splitLines_append (a : List Char) {b : List Char} (hb : '\n' ∉ b) :
    ∃ lines line, splitLines (a ++ b) = lines ++ [line ++ b] := by
  induction a with
  | nil =>
    refine ⟨[], [], ?_⟩
    induction b with
    | nil => rfl
    | cons c b ih =>
      rw [List.mem_cons, not_or] at hb
      exact splitLines_cons (Ne.symm hb.1) (ih hb.2)
  | cons c a ih =>
    obtain ⟨lines, line, hlines⟩ := ih
    by_cases hc : c = '\n'
    · exact ⟨[] :: lines, line, by simp [splitLines, hc, hlines]⟩
    · cases lines with
      | nil => exact ⟨[], c :: line, splitLines_cons hc hlines⟩
      | cons first lines => exact ⟨(c :: first) :: lines, line, splitLines_cons hc hlines⟩

theorem length_splitLines (text : List Char) :
    (splitLines text).length = text.count '\n' + 1 := by
  induction text with
  | nil => rfl
  | cons c text ih =>
    by_cases hc : c = '\n'
    · simp [splitLines, hc, ih]
    · obtain ⟨line, lines, hlines⟩ := List.exists_cons_of_ne_nil (splitLines_ne_nil text)
      rw [splitLines_cons hc hlines, List.length_cons, ← List.length_cons (a := line), ← hlines,
        ih, List.count_cons_of_ne hc]

theorem splitLinesForCounting_append_newline (a b : List Char) :
    splitLinesForCounting (a ++ '\n' :: b) = splitLines a ++ splitLinesForCounting b := by
  unfold splitLinesForCounting endsWithNewline
  rw [splitLines_append_newline, if_neg (by simp)]
  cases b with
  | nil => simp [splitLines]
  | cons c b =>
    have hlast : (a ++ '\n' :: c :: b).getLast? = (c :: b).getLast? := by
      rw [List.getLast?_append_of_ne_nil _ (by simp), List.getLast?_cons_cons]
    have hlength : (c :: b).length ≠ 0 := by simp
    rw [hlast, if_neg hlength]
    split
    · rw [List.dropLast_append_of_ne_nil (splitLines_ne_nil _)]
    · rfl

theorem splitLinesForCounting_append {b : List Char} (hne : b ≠ []) (hb : '\n' ∉ b)
    (a : List Char) : ∃ lines line, splitLinesForCounting (a ++ b) = lines ++ [line ++ b] := by
  obtain ⟨lines, line, hlines⟩ := splitLines_append a hb
  refine ⟨lines, line, ?_⟩
  have hlast : endsWithNewline (a ++ b) = false := by
    obtain ⟨init, c, rfl⟩ := (List.eq_nil_or_concat b).resolve_left hne
    have hc : c ≠ '\n' := fun h => hb (by simp [h])
    simp [endsWithNewline, ← List.append_assoc, hc]
  rw [splitLinesForCounting, hlast, if_neg (by simpa using fun _ => hne)]
  exact hlines

section

variable (text : List Char)
include text

theorem sum_splitLines :
    ((splitLines text).map fun line => byteLength line + 1).sum = byteLength text + 1 := by
  induction text with
  | nil => rfl
  | cons c text ih =>
    by_cases hc : c = '\n'
    · have hsize : ('\n').utf8Size = 1 := by decide
      simp [splitLines, hc, ih, hsize]
      omega
    · obtain ⟨line, lines, hlines⟩ := List.exists_cons_of_ne_nil (splitLines_ne_nil text)
      rw [hlines] at ih
      rw [splitLines_cons hc hlines]
      simp at ih ⊢
      omega

theorem joinLines_splitLines : joinLines (splitLines text) = text := by
  induction text with
  | nil => rfl
  | cons c text ih =>
    obtain ⟨line, lines, hlines⟩ := List.exists_cons_of_ne_nil (splitLines_ne_nil text)
    by_cases hc : c = '\n'
    · rw [splitLines, if_pos hc, hc]
      rw [hlines] at ih ⊢
      rw [← ih]
      rfl
    · rw [splitLines_cons hc hlines]
      rw [hlines] at ih
      rw [← ih]
      cases lines <;> rfl

theorem splitLinesForCounting_cases :
    (text = [] ∧ splitLinesForCounting text = []) ∨
      (∃ before, text = before ++ ['\n'] ∧ splitLinesForCounting text = splitLines before) ∨
      (text ≠ [] ∧ endsWithNewline text = false ∧
        splitLinesForCounting text = splitLines text) := by
  rcases List.eq_nil_or_concat' text with rfl | ⟨before, c, rfl⟩
  · exact .inl ⟨rfl, rfl⟩
  · by_cases hc : c = '\n'
    · subst hc
      refine .inr (.inl ⟨before, rfl, ?_⟩)
      have hlines := splitLinesForCounting_append_newline before []
      rw [hlines]
      exact List.append_nil _
    · have hlast : endsWithNewline (before ++ [c]) = false := by simp [endsWithNewline, hc]
      refine .inr (.inr ⟨by simp, hlast, ?_⟩)
      rw [splitLinesForCounting, hlast, if_neg (by simp)]
      rfl

theorem length_splitLinesForCounting :
    (splitLinesForCounting text).length =
      text.count '\n' + if text = [] ∨ endsWithNewline text = true then 0 else 1 := by
  rcases splitLinesForCounting_cases text with ⟨rfl, h⟩ | ⟨before, rfl, h⟩ | ⟨hne, hends, h⟩
  · rfl
  · rw [h, length_splitLines]
    simp [endsWithNewline]
  · rw [h, length_splitLines]
    simp [hne, hends]

theorem byteLength_le_sum :
    byteLength text ≤ ((splitLinesForCounting text).map fun line => byteLength line + 1).sum := by
  rcases splitLinesForCounting_cases text with ⟨rfl, h⟩ | ⟨before, rfl, h⟩ | ⟨hne, hends, h⟩
  · exact Nat.zero_le _
  · have hsize : ('\n').utf8Size = 1 := by decide
    rw [h, sum_splitLines]
    simp [hsize]
  · rw [h, sum_splitLines]
    exact Nat.le_succ _

theorem sum_le_byteLength :
    ((splitLinesForCounting text).map fun line => byteLength line + 1).sum ≤
      byteLength text + 1 := by
  rcases splitLinesForCounting_cases text with ⟨rfl, h⟩ | ⟨before, rfl, h⟩ | ⟨hne, hends, h⟩
  · exact Nat.zero_le _
  · rw [h, sum_splitLines]
    simp
  · rw [h, sum_splitLines]

theorem joinLines_counting :
    joinLines (splitLinesForCounting text) = text ↔ endsWithNewline text = false := by
  rcases splitLinesForCounting_cases text with ⟨rfl, h⟩ | ⟨before, rfl, h⟩ | ⟨hne, hends, h⟩
  · exact ⟨fun _ => rfl, fun _ => rfl⟩
  · rw [h, joinLines_splitLines]
    simp [endsWithNewline]
  · rw [h, joinLines_splitLines, hends]
    exact ⟨fun _ => rfl, fun _ => rfl⟩

end

/-! ## The loop -/

section Loop

variable {maxLines maxBytes : Nat}

/-- What the last lines take when nothing is above them. -/
def bytesWith (s : TailLoop) (lines : List (List Char)) : Nat :=
  s.outputBytesCount + (lines.map fun line => byteLength line + 1).sum

/-- A line that is too long for what is left, with others after it, changes
nothing, and neither do those above it. -/
theorem tailLoop_stops (line : List Char) (above : List (List Char)) :
    ∀ (lines : List (List Char)) (s : TailLoop), (s.outputLinesArr ≠ [] ∨ lines ≠ []) →
      maxBytes < bytesWith s lines + byteLength line + (if s.outputLinesArr = [] then 0 else 1) →
      (tailLoop maxLines maxBytes (lines ++ line :: above) s).outputLinesArr =
        (tailLoop maxLines maxBytes lines s).outputLinesArr
  | [], s, hsome, hlong => by
    have hne : s.outputLinesArr ≠ [] := hsome.resolve_right fun h => h rfl
    have hlength : s.outputLinesArr.length > 0 := List.length_pos_iff.mpr hne
    rw [if_neg hne] at hlong
    simp only [bytesWith, List.map_nil, List.sum_nil, Nat.add_zero] at hlong
    have hover : s.outputBytesCount + (byteLength line +
        if s.outputLinesArr.length > 0 then 1 else 0) > maxBytes := by
      rw [if_pos hlength]
      omega
    rw [List.nil_append, tailLoop, tailLoop]
    dsimp only
    rw [if_pos hover, if_neg (Nat.ne_of_gt hlength)]
    split <;> rfl
  | x :: lines, s, _, hlong => by
    rw [List.cons_append, tailLoop, tailLoop]
    split
    · dsimp only
      by_cases hover : s.outputBytesCount + (byteLength x +
          if s.outputLinesArr.length > 0 then 1 else 0) > maxBytes
      · rw [if_pos hover, if_pos hover]
      · rw [if_neg hover, if_neg hover]
        refine tailLoop_stops line above lines _ (.inl (by simp)) ?_
        simp only [bytesWith, List.map_cons, List.sum_cons, reduceCtorEq, if_false] at hlong ⊢
        cases hout : s.outputLinesArr with
        | nil =>
          rw [hout] at hlong
          simp at hlong ⊢
          omega
        | cons y ys =>
          rw [hout] at hlong
          simp at hlong ⊢
          omega
    · rfl

theorem tailLoop_all : ∀ (lines : List (List Char)) (s : TailLoop),
    s.outputLinesArr.length + lines.length ≤ maxLines →
    bytesWith s lines ≤ maxBytes + (if s.outputLinesArr = [] then 1 else 0) →
    (tailLoop maxLines maxBytes lines s).outputLinesArr = lines.reverse ++ s.outputLinesArr
  | [], s, _, _ => rfl
  | x :: lines, s, hlines, hbytes => by
    rw [List.length_cons] at hlines
    have hnext : byteLength x + 1 + s.outputBytesCount ≤
        maxBytes + (if s.outputLinesArr = [] then 1 else 0) := by
      simp only [bytesWith, List.map_cons, List.sum_cons] at hbytes
      omega
    have hfits : ¬ s.outputBytesCount + (byteLength x +
        if s.outputLinesArr.length > 0 then 1 else 0) > maxBytes := by
      cases hout : s.outputLinesArr with
      | nil =>
        rw [hout] at hnext
        simp at hnext ⊢
        omega
      | cons y ys =>
        rw [hout] at hnext
        simp at hnext ⊢
        omega
    rw [tailLoop, if_pos (by omega)]
    dsimp only
    rw [if_neg hfits, tailLoop_all lines]
    · simp
    · simp only [List.length_cons]
      omega
    · simp only [bytesWith, List.map_cons, List.sum_cons, reduceCtorEq, if_false] at hbytes ⊢
      cases hout : s.outputLinesArr with
      | nil =>
        rw [hout] at hbytes
        simp at hbytes ⊢
        omega
      | cons y ys =>
        rw [hout] at hbytes
        simp at hbytes ⊢
        omega

theorem tailLoop_cut (hlines : 1 ≤ maxLines) {line : List Char} (hlong : maxBytes < byteLength line)
    (above : List (List Char)) :
    (tailLoop maxLines maxBytes (line :: above) ⟨[], 0, .lines, false⟩).outputLinesArr =
      [fit maxBytes line] := by
  have hcut : truncateStringToBytesFromEnd line maxBytes = fit maxBytes line := by
    have hbuf : ¬ (encode line).length ≤ maxBytes := Nat.not_le.mpr hlong
    rw [truncateStringToBytesFromEnd]
    simp only [if_neg hbuf]
    exact charsFrom_align hlong
  rw [tailLoop]
  simp only [List.length_nil, gt_iff_lt, Nat.lt_irrefl, if_false, Nat.zero_add, Nat.add_zero,
    if_pos hlong, if_true, if_pos (Nat.lt_of_lt_of_le Nat.zero_lt_one hlines), hcut]

theorem tailLoop_full (more : List (List Char)) : ∀ (lines : List (List Char)) (s : TailLoop),
    maxLines ≤ s.outputLinesArr.length + lines.length →
    tailLoop maxLines maxBytes (lines ++ more) s = tailLoop maxLines maxBytes lines s
  | [], s, hfull => by
    cases more with
    | nil => rfl
    | cons line above =>
      have hmany : ¬ s.outputLinesArr.length < maxLines := Nat.not_lt.mpr hfull
      rw [List.nil_append, tailLoop.eq_2, if_neg hmany]
      rfl
  | line :: lines, s, hfull => by
    rw [List.length_cons] at hfull
    rw [List.cons_append, tailLoop, tailLoop]
    split
    · dsimp only
      by_cases hover : s.outputBytesCount + (byteLength line +
          if s.outputLinesArr.length > 0 then 1 else 0) > maxBytes
      · rw [if_pos hover, if_pos hover]
      · rw [if_neg hover, if_neg hover]
        refine tailLoop_full more lines _ ?_
        dsimp only
        rw [List.length_cons]
        omega
    · rfl

end Loop

/-! ## Contents -/

def tailLines (maxLines maxBytes : Nat) (text : List Char) : List (List Char) :=
  (tailLoop maxLines maxBytes (splitLinesForCounting text).reverse
    ⟨[], 0, .lines, false⟩).outputLinesArr

def WithinLimits (maxLines maxBytes : Nat) (text : List Char) : Prop :=
  (splitLinesForCounting text).length ≤ maxLines ∧ byteLength text ≤ maxBytes

instance (maxLines maxBytes : Nat) (text : List Char) :
    Decidable (WithinLimits maxLines maxBytes text) := inferInstanceAs (Decidable (_ ∧ _))

section Contents

variable {maxLines maxBytes : Nat}

theorem truncateTail_content (text : List Char) :
    (truncateTail text maxLines maxBytes).content =
      if WithinLimits maxLines maxBytes text then text
      else joinLines (tailLines maxLines maxBytes text) := by
  unfold truncateTail
  by_cases h : WithinLimits maxLines maxBytes text
  · rw [if_pos h]
    simp only [WithinLimits] at h
    simp only [if_pos h]
  · rw [if_neg h]
    simp only [WithinLimits] at h
    simp only [if_neg h]
    rfl

variable {text : List Char}

theorem truncateTail_of_long (h : maxBytes < byteLength text) :
    (truncateTail text maxLines maxBytes).content =
      joinLines (tailLines maxLines maxBytes text) := by
  rw [truncateTail_content, if_neg fun hwithin => Nat.not_lt.mpr hwithin.2 h]

/-- The lines after one that is too long for what they leave. -/
theorem tailLines_after {text rest line : List Char} {lines : List (List Char)}
    (htext : splitLinesForCounting text = lines ++ line :: splitLinesForCounting rest)
    (hrest : rest ≠ [])
    (hlong : maxLines ≤ (splitLinesForCounting rest).length ∨
      maxBytes < ((splitLinesForCounting rest).map fun line => byteLength line + 1).sum +
        byteLength line) :
    tailLines maxLines maxBytes text = tailLines maxLines maxBytes rest := by
  have hsome : (splitLinesForCounting rest).reverse ≠ [] := by
    rw [ne_eq, List.reverse_eq_nil_iff]
    rcases splitLinesForCounting_cases rest with ⟨hnil, -⟩ | ⟨before, -, h⟩ | ⟨-, -, h⟩
    · exact absurd hnil hrest
    · rw [h]
      exact splitLines_ne_nil before
    · rw [h]
      exact splitLines_ne_nil rest
  rw [tailLines, tailLines, htext, List.reverse_append, List.reverse_cons, List.append_assoc,
    List.singleton_append]
  rcases hlong with hfull | hbytes
  · rw [tailLoop_full]
    rw [List.length_reverse]
    exact Nat.le_trans hfull (Nat.le_add_left _ _)
  · refine tailLoop_stops line lines.reverse _ _ (.inr hsome) ?_
    rw [bytesWith, List.map_reverse, List.sum_reverse]
    simp only [if_true]
    omega

theorem tailLines_long (hlines : 1 ≤ maxLines) {text line : List Char} {lines : List (List Char)}
    (htext : splitLinesForCounting text = lines ++ [line]) (hlong : maxBytes < byteLength line) :
    tailLines maxLines maxBytes text = [fit maxBytes line] := by
  rw [tailLines, htext, List.reverse_append, List.reverse_singleton, List.singleton_append,
    tailLoop_cut hlines hlong]

theorem tailLines_past {before rest line : List Char} {lines : List (List Char)}
    (hlines : splitLines before = lines ++ [line]) (hne : rest ≠ [])
    (hlong : maxBytes < byteLength rest + byteLength line) :
    tailLines maxLines maxBytes (before ++ '\n' :: rest) = tailLines maxLines maxBytes rest := by
  have hsum := byteLength_le_sum rest
  have htext : splitLinesForCounting (before ++ '\n' :: rest) =
      lines ++ line :: splitLinesForCounting rest := by
    rw [splitLinesForCounting_append_newline, hlines, List.append_assoc, List.singleton_append]
  exact tailLines_after htext hne (.inr (by omega))

/-- A text without line ends that is too long is cut. -/
theorem tailLines_cut (hlines : 1 ≤ maxLines) (before : List Char) (hline : '\n' ∉ text)
    (hlong : maxBytes < byteLength text) :
    tailLines maxLines maxBytes (before ++ text) = [fit maxBytes text] := by
  have hne : text ≠ [] := by
    rintro rfl
    exact Nat.not_lt_zero _ hlong
  obtain ⟨lines, line, hsplit⟩ := splitLinesForCounting_append hne hline before
  have hlonger : maxBytes < byteLength (line ++ text) := by
    rw [byteLength_append]
    omega
  rw [tailLines, hsplit, List.reverse_append, List.reverse_singleton, List.singleton_append,
    tailLoop_cut hlines hlonger, fit_append _ (Nat.le_of_lt hlong)]

theorem tailLines_all (h : WithinLimits maxLines maxBytes text) :
    tailLines maxLines maxBytes text = splitLinesForCounting text := by
  have hsum := sum_le_byteLength text
  have hbytes := h.2
  rw [tailLines, tailLoop_all]
  · rw [List.reverse_reverse, List.append_nil]
  · simpa using h.1
  · rw [bytesWith, List.map_reverse, List.sum_reverse]
    simp only [if_true]
    omega

end Contents

/-! ## What the tail shows -/

/-- The text that has left the tail, and the tail. -/
structure RollingTail where
  dropped : List Char
  kept : List Char
deriving Repr, DecidableEq

namespace RollingTail

/-- A tail of more than four times `maxBytes` is cut to the end that fits in
half of that. -/
def push (maxBytes : Nat) (t : RollingTail) (text : List Char) : RollingTail :=
  let kept := t.kept ++ text
  if byteLength kept > maxBytes * 2 * 2 then
    let fitting := fit (maxBytes * 2) kept
    ⟨t.dropped ++ kept.take (kept.length - fitting.length), fitting⟩
  else ⟨t.dropped, kept⟩

def ofTexts (maxBytes : Nat) (texts : List (List Char)) : RollingTail :=
  texts.foldl (push maxBytes) ⟨[], []⟩

def afterFirstLine (t : RollingTail) : List Char := (t.kept.dropWhile (· ≠ '\n')).tail

/-- Nothing was cut off, or it was at a line end, or the tail is in the last
line; or else what follows its first line exceeds a limit, or is not empty
and does not end with a line end. -/
def Shows (maxLines maxBytes : Nat) (t : RollingTail) : Prop :=
  t.dropped = [] ∨ t.dropped.getLast? = some '\n' ∨ '\n' ∉ t.kept ∨
    ¬ WithinLimits maxLines maxBytes t.afterFirstLine ∨
    (t.afterFirstLine ≠ [] ∧ endsWithNewline t.afterFirstLine = false)

/-- `text` has been cut so that with one more character the tail would be
too long. -/
structure Keeps (maxBytes : Nat) (text : List Char) (t : RollingTail) : Prop where
  text : text = t.dropped ++ t.kept
  large : ∀ c, t.dropped.getLast? = some c → maxBytes * 2 < c.utf8Size + byteLength t.kept
  small : byteLength t.kept ≤ maxBytes * 2 * 2

variable {maxLines maxBytes : Nat}

theorem take_before {l a b : List Char} (h : l = a ++ b) : l.take (l.length - b.length) = a := by
  subst h
  simp

variable {t : RollingTail} {whole : List Char}

theorem Keeps.push (h : Keeps maxBytes whole t) (text : List Char) :
    Keeps maxBytes (whole ++ text) (t.push maxBytes text) := by
  unfold RollingTail.push
  dsimp only
  split
  · rename_i hover
    obtain ⟨before, c, hkept, hlarge⟩ := fit_split (Nat.lt_of_le_of_lt
      (Nat.le_mul_of_pos_right (maxBytes * 2) (by decide)) hover)
    have hfitting := byteLength_fit_le (maxBytes * 2) (t.kept ++ text)
    have htake : (t.kept ++ text).take ((t.kept ++ text).length -
        (fit (maxBytes * 2) (t.kept ++ text)).length) = before ++ [c] := by
      refine take_before ?_
      rw [List.append_assoc, List.singleton_append]
      exact hkept
    refine ⟨?_, ?_, ?_⟩
    · dsimp only
      rw [htake, h.text, List.append_assoc, List.append_assoc, List.append_assoc,
        List.singleton_append, ← hkept]
    · intro d hd
      dsimp only at hd ⊢
      rw [htake, ← List.append_assoc, List.getLast?_concat] at hd
      obtain rfl := Option.some.inj hd
      exact hlarge
    · dsimp only
      omega
  · rename_i hunder
    refine ⟨?_, fun c hc => ?_, Nat.not_lt.mp hunder⟩
    · rw [h.text, List.append_assoc]
    · have hlarge := h.large c hc
      dsimp only
      rw [byteLength_append]
      omega

theorem keeps_ofTexts (maxBytes : Nat) (texts : List (List Char)) :
    Keeps maxBytes texts.flatten (ofTexts maxBytes texts) := by
  induction texts using List.reverseRecOn with
  | nil => exact ⟨rfl, fun c hc => (nomatch hc), Nat.zero_le _⟩
  | append_singleton texts text ih =>
    rw [ofTexts, List.foldl_append, List.flatten_append]
    have hpush := ih.push text
    rw [ofTexts] at hpush
    simpa using hpush

/-- `getSnapshotText` -/
def snapshotText (t : RollingTail) : List Char :=
  if t.dropped = [] ∨ t.dropped.getLast? = some '\n' then t.kept
  else if '\n' ∈ t.kept then t.afterFirstLine
  else t.kept

theorem Keeps.content_at_line (h : Keeps maxBytes whole t) (hbytes : 4 ≤ maxBytes)
    (hlast : t.dropped.getLast? = some '\n') :
    (truncateTail t.kept maxLines maxBytes).content =
      (truncateTail whole maxLines maxBytes).content := by
  have hlarge := h.large _ hlast
  have hsize : ('\n').utf8Size = 1 := by decide
  obtain ⟨before, hdropped⟩ := List.getLast?_eq_some_iff.mp hlast
  obtain ⟨lines, line, hlines⟩ := splitLines_append before (b := []) List.not_mem_nil
  rw [List.append_nil, List.append_nil] at hlines
  have hwhole : whole = before ++ '\n' :: t.kept := by
    rw [h.text, hdropped, List.append_assoc, List.singleton_append]
  have hkept : t.kept ≠ [] := by
    intro hnil
    rw [hnil, byteLength_nil] at hlarge
    omega
  have hlong : maxBytes < byteLength whole := by
    rw [hwhole, byteLength_append, byteLength_cons]
    omega
  rw [truncateTail_of_long (by omega), truncateTail_of_long hlong, hwhole,
    tailLines_past hlines hkept (by omega)]

theorem Keeps.content_in_last_line (h : Keeps maxBytes whole t) (hlines : 1 ≤ maxLines)
    (hbytes : 4 ≤ maxBytes) (hdropped : t.dropped ≠ []) (hline : '\n' ∉ t.kept) :
    (truncateTail t.kept maxLines maxBytes).content =
      (truncateTail whole maxLines maxBytes).content := by
  obtain ⟨before, c, hc⟩ := (List.eq_nil_or_concat' t.dropped).resolve_left hdropped
  have hlarge := h.large c (by rw [hc, List.getLast?_concat])
  have hfour := c.utf8Size_le_four
  have hlong : maxBytes < byteLength t.kept := by omega
  have hlonger : maxBytes < byteLength whole := by
    rw [h.text, byteLength_append]
    omega
  have hcut := tailLines_cut hlines [] hline hlong
  rw [truncateTail_of_long hlong, truncateTail_of_long hlonger, h.text,
    tailLines_cut hlines _ hline hlong, ← hcut, List.nil_append]

/-- A tail that begins within a line that ends: what comes after it is
shown. -/
theorem exists_first_line (t : RollingTail) (h : '\n' ∈ t.kept) :
    ∃ first, '\n' ∉ first ∧ t.kept = first ++ '\n' :: t.afterFirstLine := by
  obtain ⟨first, rest, hkept, hfirst⟩ := List.eq_append_cons_of_mem h
  refine ⟨first, hfirst, ?_⟩
  have hpass : ∀ c ∈ first, decide (c ≠ '\n') = true := by
    intro c hc
    exact decide_eq_true fun heq => hfirst (heq ▸ hc)
  rw [afterFirstLine, hkept, List.dropWhile_append_of_pos hpass]
  rfl

theorem Keeps.content_after_line (h : Keeps maxBytes whole t) (hlines : 1 ≤ maxLines)
    (hbytes : 4 ≤ maxBytes) (hdropped : t.dropped ≠ []) (hlast : t.dropped.getLast? ≠ some '\n')
    (hline : '\n' ∈ t.kept) :
    (truncateTail t.afterFirstLine maxLines maxBytes).content =
        (truncateTail whole maxLines maxBytes).content ↔
      ¬ WithinLimits maxLines maxBytes t.afterFirstLine ∨
        (t.afterFirstLine ≠ [] ∧ endsWithNewline t.afterFirstLine = false) := by
  obtain ⟨before, c, hc⟩ := (List.eq_nil_or_concat' t.dropped).resolve_left hdropped
  have hlarge := h.large c (by rw [hc, List.getLast?_concat])
  have hcne : c ≠ '\n' := by
    rintro rfl
    exact hlast (by rw [hc, List.getLast?_concat])
  have hsize : ('\n').utf8Size = 1 := by decide
  obtain ⟨first, hfirst, hkept⟩ := t.exists_first_line hline
  have hwhole : whole = (before ++ c :: first) ++ '\n' :: t.afterFirstLine := by
    rw [h.text, hc, hkept]
    simp
  have hcut : '\n' ∉ c :: first := by
    rw [List.mem_cons, not_or]
    exact ⟨Ne.symm hcne, hfirst⟩
  obtain ⟨lines, line, hsplit⟩ := splitLines_append before hcut
  have hlong : maxBytes * 2 < byteLength (line ++ c :: first) + 1 + byteLength t.afterFirstLine := by
    rw [hkept, byteLength_append, byteLength_cons] at hlarge
    rw [byteLength_append, byteLength_cons]
    omega
  have hwholeLong : maxBytes < byteLength whole := by
    rw [hwhole, byteLength_append, byteLength_append, byteLength_cons, byteLength_cons]
    rw [hkept, byteLength_append, byteLength_cons] at hlarge
    omega
  rw [truncateTail_of_long hwholeLong, hwhole]
  by_cases hwithin : WithinLimits maxLines maxBytes t.afterFirstLine
  · rw [truncateTail_content, if_pos hwithin]
    have hrestBytes := hwithin.2
    by_cases hrest : t.afterFirstLine = []
    · have hlineLong : maxBytes < byteLength (line ++ c :: first) := by
        rw [hrest, byteLength_nil] at hlong
        omega
      obtain ⟨above, d, hd, hfit⟩ := fit_split hlineLong
      have hfour := d.utf8Size_le_four
      have hne : fit maxBytes (line ++ c :: first) ≠ [] := by
        intro hnil
        rw [hnil, byteLength_nil] at hfit
        omega
      have hlast : tailLines maxLines maxBytes ((before ++ c :: first) ++ ['\n']) =
          [fit maxBytes (line ++ c :: first)] := by
        have hcounted : splitLinesForCounting ((before ++ c :: first) ++ ['\n']) =
            lines ++ [line ++ c :: first] := by
          rw [splitLinesForCounting_append_newline, hsplit]
          exact List.append_nil _
        exact tailLines_long hlines hcounted hlineLong
      rw [hrest] at hwithin ⊢
      rw [hlast]
      have hjoin : joinLines [fit maxBytes (line ++ c :: first)] =
          fit maxBytes (line ++ c :: first) := by simp [joinLines]
      rw [hjoin]
      exact ⟨fun heq => absurd heq.symm hne, fun hor => hor.elim (absurd hwithin) fun h =>
        absurd rfl h.1⟩
    · rw [tailLines_past hsplit hrest (by omega), tailLines_all hwithin, eq_comm,
        joinLines_counting]
      simp [hwithin, hrest]
  · rw [truncateTail_content, if_neg hwithin]
    have hrest : t.afterFirstLine ≠ [] := by
      intro hnil
      exact hwithin (by rw [hnil]; exact ⟨Nat.zero_le _, Nat.zero_le _⟩)
    have hover : maxBytes < byteLength t.afterFirstLine + byteLength (line ++ c :: first) := by
      omega
    rw [tailLines_past hsplit hrest hover]
    exact ⟨fun _ => .inl hwithin, fun _ => rfl⟩

theorem Keeps.shows_iff (h : Keeps maxBytes whole t) (hlines : 1 ≤ maxLines)
    (hbytes : 4 ≤ maxBytes) :
    (truncateTail t.snapshotText maxLines maxBytes).content =
        (truncateTail whole maxLines maxBytes).content ↔ t.Shows maxLines maxBytes := by
  unfold snapshotText Shows
  by_cases hdropped : t.dropped = []
  · have hwhole : whole = t.kept := by rw [h.text, hdropped, List.nil_append]
    rw [if_pos (.inl hdropped), hwhole]
    simp [hdropped]
  · by_cases hlast : t.dropped.getLast? = some '\n'
    · rw [if_pos (.inr hlast), h.content_at_line hbytes hlast]
      simp [hlast]
    · rw [if_neg (not_or.mpr ⟨hdropped, hlast⟩)]
      by_cases hline : '\n' ∈ t.kept
      · rw [if_pos hline, h.content_after_line hlines hbytes hdropped hlast hline]
        simp [hdropped, hlast, hline]
      · rw [if_neg hline, h.content_in_last_line hlines hbytes hdropped hline]
        simp [hline]

end RollingTail

/-! ## What the accumulator keeps -/

namespace OutputAccumulator

variable {decoder : StreamDecoder}

def decodedTexts (decoder : StreamDecoder) :
    decoder.State → List (List UInt8) → List (List Char)
  | st, [] => [decoder.flush st]
  | st, chunk :: chunks =>
      (decoder.decode st chunk).2 :: decodedTexts decoder (decoder.decode st chunk).1 chunks

theorem flatten_decodedTexts (decoder : StreamDecoder) (chunks : List (List UInt8)) :
    (decodedTexts decoder decoder.start chunks).flatten = decoder.text chunks.flatten := by
  have hfold : ∀ (chunks : List (List UInt8)) (s : decoder.State × List Char),
      let e := chunks.foldl
        (fun s chunk => ((decoder.decode s.1 chunk).1, s.2 ++ (decoder.decode s.1 chunk).2)) s
      e.2 ++ decoder.flush e.1 = s.2 ++ (decodedTexts decoder s.1 chunks).flatten := by
    intro chunks
    induction chunks with
    | nil => simp [decodedTexts]
    | cons chunk chunks ih =>
      intro s
      have hrest := ih ((decoder.decode s.1 chunk).1, s.2 ++ (decoder.decode s.1 chunk).2)
      simpa [decodedTexts] using hrest
  exact (hfold chunks (decoder.start, [])).symm.trans (decoder.sound chunks)

/-- The counters are those of the whole text. -/
structure Counts (whole : List Char) (s : OutputAccumulator decoder) : Prop where
  bytes : s.totalDecodedBytes = byteLength whole
  completed : s.completedLines = whole.count '\n'
  openLine : s.hasOpenLine = decide (whole ≠ [] ∧ endsWithNewline whole = false)
  lines : s.totalLines = (splitLinesForCounting whole).length

/-- The tail is the rolling tail. -/
structure Rolls (t : RollingTail) (s : OutputAccumulator decoder) : Prop where
  tail : s.tailText = t.kept
  bytes : s.tailBytes = byteLength t.kept
  boundary : s.tailStartsAtLineBoundary =
    decide (t.dropped = [] ∨ t.dropped.getLast? = some '\n')

variable {s : OutputAccumulator decoder}

theorem maxRollingBytes_eq (h : 1 ≤ s.maxBytes) :
    s.maxRollingBytes = s.maxBytes * 2 :=
  Nat.max_eq_left (by omega)

/-- `countLines` changes only the line counters. -/
theorem countLines_frame (s : OutputAccumulator decoder) (text : List Char) :
    (s.countLines text).tailText = s.tailText ∧ (s.countLines text).tailBytes = s.tailBytes ∧
      (s.countLines text).tailStartsAtLineBoundary = s.tailStartsAtLineBoundary ∧
      (s.countLines text).totalDecodedBytes = s.totalDecodedBytes := by
  unfold countLines
  dsimp only
  split <;> exact ⟨rfl, rfl, rfl, rfl⟩

theorem endsWithNewline_append (a : List Char) {b : List Char} (h : b ≠ []) :
    endsWithNewline (a ++ b) = endsWithNewline b := by
  rw [endsWithNewline, endsWithNewline, List.getLast?_append_of_ne_nil _ h]

theorem afterLastNewline_nil {text : List Char} (h : text ≠ []) :
    afterLastNewline text = [] ↔ endsWithNewline text = true := by
  obtain ⟨before, c, rfl⟩ := (List.eq_nil_or_concat' text).resolve_left h
  simp [afterLastNewline, endsWithNewline]

theorem countLines_counts {whole text : List Char} (hne : text ≠ [])
    (hcompleted : s.completedLines = whole.count '\n') :
    (s.countLines text).completedLines = (whole ++ text).count '\n' ∧
      (s.countLines text).hasOpenLine =
        decide (whole ++ text ≠ [] ∧ endsWithNewline (whole ++ text) = false) ∧
      (s.countLines text).totalLines = (splitLinesForCounting (whole ++ text)).length := by
  have hwhole : whole ++ text ≠ [] := by simp [hne]
  have hclosed : (s.countLines text).completedLines = (whole ++ text).count '\n' := by
    rw [List.count_append, ← hcompleted]
    unfold countLines
    dsimp only
    split
    · rename_i hzero
      rw [hzero, Nat.add_zero]
    · rfl
  have hopen : (s.countLines text).hasOpenLine = !endsWithNewline (whole ++ text) := by
    rw [endsWithNewline_append _ hne]
    unfold countLines
    dsimp only
    split
    · rename_i hzero
      have hlast : endsWithNewline text = false := by
        obtain ⟨before, c, rfl⟩ := (List.eq_nil_or_concat' text).resolve_left hne
        have hc : c ≠ '\n' := by
          rintro rfl
          simp at hzero
        simp [endsWithNewline, hc]
      rw [hlast]
      rfl
    · have hnil := afterLastNewline_nil hne
      cases hends : endsWithNewline text with
      | true => simp [hnil.mpr hends]
      | false =>
        have hsome : afterLastNewline text ≠ [] := fun h => by simp [hnil.mp h] at hends
        simpa using List.length_pos_iff.mpr hsome
  have htotal : (s.countLines text).totalLines = (s.countLines text).completedLines +
      if (s.countLines text).hasOpenLine then 1 else 0 := rfl
  refine ⟨hclosed, ?_, ?_⟩
  · rw [hopen]
    simp [hne]
  · rw [htotal, hclosed, hopen, length_splitLinesForCounting]
    cases hends : endsWithNewline (whole ++ text) <;> simp [hne]

theorem trimTail_frame (s : OutputAccumulator decoder) :
    s.trimTail.completedLines = s.completedLines ∧
      s.trimTail.totalDecodedBytes = s.totalDecodedBytes := by
  unfold trimTail
  dsimp only
  split <;> exact ⟨rfl, rfl⟩

theorem appendDecodedText_nil (s : OutputAccumulator decoder) : s.appendDecodedText [] = s :=
  rfl

/-- A text that is not empty is kept, the tail is trimmed, and the lines are
counted. -/
theorem appendDecodedText_eq (s : OutputAccumulator decoder) {text : List Char}
    (h : text ≠ []) :
    ∃ kept : OutputAccumulator decoder,
      kept = { s with
        totalDecodedBytes := s.totalDecodedBytes + byteLength text
        tailText := s.tailText ++ text
        tailBytes := s.tailBytes + byteLength text } ∧
      s.appendDecodedText text =
        (if kept.tailBytes > kept.maxRollingBytes * 2 then kept.trimTail else kept).countLines
          text := by
  refine ⟨_, rfl, ?_⟩
  rw [appendDecodedText, if_neg (by simpa using h)]

theorem Counts.appendDecodedText {whole : List Char} (h : s.Counts whole) (text : List Char) :
    (s.appendDecodedText text).Counts (whole ++ text) := by
  by_cases htext : text = []
  · rw [htext, appendDecodedText_nil, List.append_nil]
    exact h
  · obtain ⟨kept, hkept, happend⟩ := s.appendDecodedText_eq htext
    rw [happend]
    have hbytes : kept.totalDecodedBytes = byteLength (whole ++ text) := by
      rw [hkept, byteLength_append, ← h.bytes]
    have hcompleted : kept.completedLines = whole.count '\n' := by
      rw [hkept]
      exact h.completed
    have hcounts : ∀ s' : OutputAccumulator decoder, s'.completedLines = kept.completedLines →
        s'.totalDecodedBytes = kept.totalDecodedBytes →
        (s'.countLines text).Counts (whole ++ text) := by
      intro s' hlines htotal
      obtain ⟨hclosed, hopen, hall⟩ :=
        countLines_counts htext (hlines.trans hcompleted)
      exact ⟨(countLines_frame s' text).2.2.2.trans (htotal.trans hbytes), hclosed, hopen, hall⟩
    split
    · exact hcounts _ (trimTail_frame kept).1 (trimTail_frame kept).2
    · exact hcounts _ rfl rfl

/-- A tail that is too long is cut to the end that fits. -/
theorem trimTail_rolls (dropped : List Char) (hbytes : 1 ≤ s.maxBytes)
    (hlong : s.maxBytes * 2 < byteLength s.tailText) :
    s.trimTail.Rolls ⟨dropped ++ s.tailText.take
      (s.tailText.length - (fit (s.maxBytes * 2) s.tailText).length),
      fit (s.maxBytes * 2) s.tailText⟩ := by
  have hrolling := maxRollingBytes_eq hbytes
  obtain ⟨before, c, htext, hlarge⟩ := fit_split hlong
  have htake : s.tailText.take (s.tailText.length - (fit (s.maxBytes * 2) s.tailText).length) =
      before ++ [c] := by
    refine RollingTail.take_before ?_
    rw [List.append_assoc, List.singleton_append]
    exact htext
  have hfit := byteLength_fit_le (s.maxBytes * 2) s.tailText
  have hstart : ¬ byteLength s.tailText - byteLength (fit (s.maxBytes * 2) s.tailText) = 0 := by
    omega
  have hover : ¬ (encode s.tailText).length ≤ s.maxRollingBytes := by
    rw [hrolling]
    exact Nat.not_le.mpr hlong
  have halign : align (encode s.tailText) ((encode s.tailText).length - s.maxRollingBytes) =
      byteLength s.tailText - byteLength (fit (s.maxBytes * 2) s.tailText) := by
    rw [hrolling]
    exact align_eq hlong
  have hchars : charsFrom s.tailText
      (byteLength s.tailText - byteLength (fit (s.maxBytes * 2) s.tailText)) =
        fit (s.maxBytes * 2) s.tailText := by
    rw [← align_eq hlong]
    exact charsFrom_align hlong
  unfold trimTail
  simp only [if_neg hover, halign, if_neg hstart, hchars]
  refine ⟨rfl, rfl, ?_⟩
  dsimp only
  rw [getElem?_before_fit htext, htake, ← List.append_assoc, List.getLast?_concat]
  simp [getLast_encodeChar]

variable {t : RollingTail}

theorem Rolls.of_eq {s s' : OutputAccumulator decoder} (h : s.Rolls t)
    (htext : s'.tailText = s.tailText) (hbytes : s'.tailBytes = s.tailBytes)
    (hboundary : s'.tailStartsAtLineBoundary = s.tailStartsAtLineBoundary) : s'.Rolls t :=
  ⟨htext.trans h.tail, hbytes.trans h.bytes, hboundary.trans h.boundary⟩

theorem Rolls.appendDecodedText (h : s.Rolls t) (hbytes : 1 ≤ s.maxBytes)
    (hsmall : byteLength t.kept ≤ s.maxBytes * 2 * 2) (text : List Char) :
    (s.appendDecodedText text).Rolls (t.push s.maxBytes text) := by
  by_cases htext : text = []
  · have hpush : t.push s.maxBytes [] = t := by
      unfold RollingTail.push
      dsimp only
      rw [List.append_nil, if_neg (Nat.not_lt.mpr hsmall)]
    rw [htext, appendDecodedText_nil, hpush]
    exact h
  · obtain ⟨kept, hkept, happend⟩ := s.appendDecodedText_eq htext
    have hmax : kept.maxBytes = s.maxBytes := by rw [hkept]
    have htail : kept.tailText = t.kept ++ text := by rw [hkept, ← h.tail]
    have hlength : kept.tailBytes = byteLength (t.kept ++ text) := by
      rw [hkept, byteLength_append, ← h.bytes]
    have hframe := fun s' : OutputAccumulator decoder => countLines_frame s' text
    rw [happend, maxRollingBytes_eq (hmax ▸ hbytes), hmax, hlength]
    unfold RollingTail.push
    dsimp only
    split
    · rename_i hover
      have htrim := trimTail_rolls (s := kept) t.dropped (by omega) (by rw [hmax, htail]; omega)
      rw [hmax, htail] at htrim
      exact htrim.of_eq (hframe _).1 (hframe _).2.1 (hframe _).2.2.1
    · have hrolls : kept.Rolls ⟨t.dropped, t.kept ++ text⟩ :=
        ⟨htail, hlength, by rw [hkept]; exact h.boundary⟩
      exact hrolls.of_eq (hframe _).1 (hframe _).2.1 (hframe _).2.2.1

/-! ## Runs -/

/-- After `texts` the accumulator has the counters of the whole text and the
rolling tail. -/
structure Follows (texts : List (List Char)) (s : OutputAccumulator decoder) : Prop where
  counts : s.Counts texts.flatten
  rolls : s.Rolls (RollingTail.ofTexts s.maxBytes texts)

theorem appendDecodedText_limits (s : OutputAccumulator decoder) (text : List Char) :
    (s.appendDecodedText text).maxBytes = s.maxBytes ∧
      (s.appendDecodedText text).maxLines = s.maxLines ∧
      (s.appendDecodedText text).finished = s.finished ∧
      (s.appendDecodedText text).decoderState = s.decoderState := by
  have hcount : ∀ s' : OutputAccumulator decoder, (s'.countLines text).maxBytes = s'.maxBytes ∧
      (s'.countLines text).maxLines = s'.maxLines ∧
      (s'.countLines text).finished = s'.finished ∧
      (s'.countLines text).decoderState = s'.decoderState := by
    intro s'
    unfold countLines
    dsimp only
    split <;> exact ⟨rfl, rfl, rfl, rfl⟩
  have htrim : ∀ s' : OutputAccumulator decoder, s'.trimTail.maxBytes = s'.maxBytes ∧
      s'.trimTail.maxLines = s'.maxLines ∧ s'.trimTail.finished = s'.finished ∧
      s'.trimTail.decoderState = s'.decoderState := by
    intro s'
    unfold trimTail
    dsimp only
    split <;> exact ⟨rfl, rfl, rfl, rfl⟩
  by_cases htext : text = []
  · rw [htext, appendDecodedText_nil]
    exact ⟨rfl, rfl, rfl, rfl⟩
  · obtain ⟨kept, hkept, happend⟩ := s.appendDecodedText_eq htext
    obtain ⟨hb, hl, hf, hd⟩ := htrim kept
    rw [happend]
    split
    · obtain ⟨hb', hl', hf', hd'⟩ := hcount kept.trimTail
      rw [hb', hl', hf', hd', hb, hl, hf, hd, hkept]
      exact ⟨rfl, rfl, rfl, rfl⟩
    · obtain ⟨hb', hl', hf', hd'⟩ := hcount kept
      rw [hb', hl', hf', hd', hkept]
      exact ⟨rfl, rfl, rfl, rfl⟩

variable {texts : List (List Char)}

theorem Follows.appendDecodedText (h : s.Follows texts) (hbytes : 1 ≤ s.maxBytes)
    (text : List Char) :
    (s.appendDecodedText text).Follows (texts ++ [text]) := by
  refine ⟨?_, ?_⟩
  · rw [List.flatten_append, List.flatten_singleton]
    exact h.counts.appendDecodedText text
  · have hsmall := (RollingTail.keeps_ofTexts s.maxBytes texts).small
    rw [(s.appendDecodedText_limits text).1, RollingTail.ofTexts, List.foldl_append]
    exact h.rolls.appendDecodedText hbytes hsmall text

/-- What is outside of the temp file and of the raw chunks. -/
structure SameOutput (s s' : OutputAccumulator decoder) : Prop where
  maxLines : s'.maxLines = s.maxLines
  maxBytes : s'.maxBytes = s.maxBytes
  decoderState : s'.decoderState = s.decoderState
  finished : s'.finished = s.finished
  tailText : s'.tailText = s.tailText
  tailBytes : s'.tailBytes = s.tailBytes
  tailStartsAtLineBoundary : s'.tailStartsAtLineBoundary = s.tailStartsAtLineBoundary
  totalDecodedBytes : s'.totalDecodedBytes = s.totalDecodedBytes
  completedLines : s'.completedLines = s.completedLines
  totalLines : s'.totalLines = s.totalLines
  hasOpenLine : s'.hasOpenLine = s.hasOpenLine

theorem SameOutput.follows {s s' : OutputAccumulator decoder} (hsame : SameOutput s s')
    (h : s.Follows texts) : s'.Follows texts := by
  refine ⟨⟨?_, ?_, ?_, ?_⟩, ?_⟩
  · exact hsame.totalDecodedBytes.trans h.counts.bytes
  · exact hsame.completedLines.trans h.counts.completed
  · exact hsame.hasOpenLine.trans h.counts.openLine
  · exact hsame.totalLines.trans h.counts.lines
  · rw [hsame.maxBytes]
    exact h.rolls.of_eq hsame.tailText hsame.tailBytes hsame.tailStartsAtLineBoundary

theorem sameOutput_ensureTempFile (s : OutputAccumulator decoder) :
    SameOutput s s.ensureTempFile := by
  unfold ensureTempFile
  split <;> exact ⟨rfl, rfl, rfl, rfl, rfl, rfl, rfl, rfl, rfl, rfl, rfl⟩

theorem SameOutput.withTempFile {s s' : OutputAccumulator decoder} (h : SameOutput s s')
    (file : Option TempFile) : SameOutput s { s' with tempFile := file } :=
  ⟨h.maxLines, h.maxBytes, h.decoderState, h.finished, h.tailText, h.tailBytes,
    h.tailStartsAtLineBoundary, h.totalDecodedBytes, h.completedLines, h.totalLines,
    h.hasOpenLine⟩

/-- `append` decodes the chunk, and the rest is about the temp file. -/
theorem append_eq (h : s.finished = false) (data : List UInt8) :
    ∃ s', s.append data = some s' ∧
      SameOutput (appendDecodedText
        { s with
          totalRawBytes := s.totalRawBytes + data.length
          decoderState := (decoder.decode s.decoderState data).1 }
        (decoder.decode s.decoderState data).2) s' := by
  rw [append, h, if_neg Bool.false_ne_true]
  dsimp only
  split
  · exact ⟨_, rfl, (sameOutput_ensureTempFile _).withTempFile _⟩
  · split
    · exact ⟨_, rfl, ⟨rfl, rfl, rfl, rfl, rfl, rfl, rfl, rfl, rfl, rfl, rfl⟩⟩
    · exact ⟨_, rfl, ⟨rfl, rfl, rfl, rfl, rfl, rfl, rfl, rfl, rfl, rfl, rfl⟩⟩

theorem append_follows (h : s.Follows texts) (hbytes : 1 ≤ s.maxBytes) (hopen : s.finished = false)
    (data : List UInt8) :
    ∃ s', s.append data = some s' ∧
      s'.Follows (texts ++ [(decoder.decode s.decoderState data).2]) ∧
      s'.maxBytes = s.maxBytes ∧ s'.maxLines = s.maxLines ∧ s'.finished = false ∧
      s'.decoderState = (decoder.decode s.decoderState data).1 := by
  obtain ⟨s', happend, hsame⟩ := append_eq hopen data
  generalize hstart : ({ s with
    totalRawBytes := s.totalRawBytes + data.length
    decoderState := (decoder.decode s.decoderState data).1 } : OutputAccumulator decoder) = start
    at hsame
  have hfollows : start.Follows texts := by
    rw [← hstart]
    exact ⟨⟨h.counts.bytes, h.counts.completed, h.counts.openLine, h.counts.lines⟩,
      ⟨h.rolls.tail, h.rolls.bytes, h.rolls.boundary⟩⟩
  have hmax : start.maxBytes = s.maxBytes := by rw [← hstart]
  obtain ⟨hb, hl, hf, hd⟩ :=
    start.appendDecodedText_limits (decoder.decode s.decoderState data).2
  have htext := hfollows.appendDecodedText (hmax ▸ hbytes) (decoder.decode s.decoderState data).2
  refine ⟨s', happend, hsame.follows htext, ?_, ?_, ?_, ?_⟩
  · rw [hsame.maxBytes, hb, hmax]
  · rw [hsame.maxLines, hl, ← hstart]
  · rw [hsame.finished, hf, ← hstart]
    exact hopen
  · rw [hsame.decoderState, hd, ← hstart]

theorem finish_follows (h : s.Follows texts) (hbytes : 1 ≤ s.maxBytes)
    (hopen : s.finished = false) :
    s.finish.Follows (texts ++ [decoder.flush s.decoderState]) ∧
      s.finish.maxBytes = s.maxBytes ∧ s.finish.maxLines = s.maxLines := by
  generalize hstart : ({ s with finished := true } : OutputAccumulator decoder) = start
  have hfollows : start.Follows texts := by
    rw [← hstart]
    exact ⟨⟨h.counts.bytes, h.counts.completed, h.counts.openLine, h.counts.lines⟩,
      ⟨h.rolls.tail, h.rolls.bytes, h.rolls.boundary⟩⟩
  have hmax : start.maxBytes = s.maxBytes := by rw [← hstart]
  have hmaxLines : start.maxLines = s.maxLines := by rw [← hstart]
  obtain ⟨hb, hl, -, -⟩ := start.appendDecodedText_limits (decoder.flush s.decoderState)
  have htext := hfollows.appendDecodedText (hmax ▸ hbytes) (decoder.flush s.decoderState)
  have hsame := sameOutput_ensureTempFile (start.appendDecodedText (decoder.flush s.decoderState))
  rw [finish, hopen, if_neg Bool.false_ne_true, hstart]
  dsimp only
  split
  · exact ⟨hsame.follows htext, hsame.maxBytes.trans (hb.trans hmax),
      hsame.maxLines.trans (hl.trans hmaxLines)⟩
  · exact ⟨htext, hb.trans hmax, hl.trans hmaxLines⟩

theorem run_follows (chunks : List (List UInt8)) :
    ∀ {s : OutputAccumulator decoder} {texts : List (List Char)}, s.Follows texts →
      1 ≤ s.maxBytes → s.finished = false →
      ∃ s', s.run chunks = some s' ∧
        s'.Follows (texts ++ decodedTexts decoder s.decoderState chunks) ∧
        s'.maxBytes = s.maxBytes ∧ s'.maxLines = s.maxLines := by
  induction chunks with
  | nil =>
    intro s texts h hbytes hopen
    obtain ⟨hfollows, hb, hl⟩ := finish_follows h hbytes hopen
    exact ⟨s.finish, rfl, hfollows, hb, hl⟩
  | cons chunk chunks ih =>
    intro s texts h hbytes hopen
    obtain ⟨mid, happend, hfollows, hb, hl, hopen', hd⟩ := append_follows h hbytes hopen chunk
    obtain ⟨s', hrun, hfollows', hb', hl'⟩ := ih hfollows (hb ▸ hbytes) hopen'
    refine ⟨s', ?_, ?_, hb'.trans hb, hl'.trans hl⟩
    · rw [run, List.foldlM_cons, happend]
      exact hrun
    · rw [hd, List.append_assoc] at hfollows'
      exact hfollows'

theorem truncateTail_totals (text : List Char) (maxLines maxBytes : Nat) :
    (truncateTail text maxLines maxBytes).totalLines = (splitLinesForCounting text).length ∧
      (truncateTail text maxLines maxBytes).totalBytes = byteLength text ∧
      (truncateTail text maxLines maxBytes).truncated =
        decide ((splitLinesForCounting text).length > maxLines ∨ byteLength text > maxBytes) := by
  unfold truncateTail
  dsimp only
  split
  · rename_i h
    refine ⟨rfl, rfl, ?_⟩
    have hor : ¬ ((splitLinesForCounting text).length > maxLines ∨ byteLength text > maxBytes) :=
      by omega
    simp [hor]
  · rename_i h
    refine ⟨rfl, rfl, ?_⟩
    have hor : (splitLinesForCounting text).length > maxLines ∨ byteLength text > maxBytes := by
      omega
    simp [hor]

theorem Rolls.snapshotText (h : s.Rolls t) :
    s.getSnapshotText = t.snapshotText := by
  unfold getSnapshotText RollingTail.snapshotText RollingTail.afterFirstLine
  rw [h.boundary, h.tail]
  by_cases hdropped : t.dropped = [] ∨ t.dropped.getLast? = some '\n'
  · rw [if_pos hdropped, decide_eq_true hdropped, if_pos rfl]
  · rw [if_neg hdropped, decide_eq_false hdropped, if_neg Bool.false_ne_true]
    split
    · rename_i hall
      have hline : '\n' ∉ t.kept := by
        intro hmem
        have hnil := List.dropWhile_eq_nil_iff.mp hall '\n' hmem
        simp at hnil
      rw [if_neg hline]
    · rename_i d rest hrest
      have hline : '\n' ∈ t.kept := by
        by_contra hmem
        have hnil : t.kept.dropWhile (· ≠ '\n') = [] := by
          refine List.dropWhile_eq_nil_iff.mpr fun x hx => ?_
          simpa using fun heq : x = '\n' => hmem (heq ▸ hx)
        rw [hnil] at hrest
        cases hrest
      rw [if_pos hline, hrest, List.tail_cons]

/-- The snapshot of a finished accumulator is the truncation of the whole
text exactly when the tail shows it. -/
theorem snapshot_tail (decoder : StreamDecoder) (maxLines maxBytes : Nat) (tempFilePath : String)
    (chunks : List (List UInt8)) (persistIfTruncated : Bool) (hlines : 1 ≤ maxLines)
    (hbytes : 4 ≤ maxBytes) :
    ∃ s, (new decoder maxLines maxBytes tempFilePath).run chunks = some s ∧
      let whole := truncateTail (decoder.text chunks.flatten) maxLines maxBytes
      let shot := (s.snapshot persistIfTruncated).2
      ((shot.content = whole.content ∧ shot.truncation.totalLines = whole.totalLines ∧
          shot.truncation.totalBytes = whole.totalBytes ∧
          shot.truncation.truncated = whole.truncated) ↔
        (RollingTail.ofTexts maxBytes (decodedTexts decoder decoder.start chunks)).Shows
          maxLines maxBytes) := by
  have hstart : (new decoder maxLines maxBytes tempFilePath).Follows [] :=
    ⟨⟨rfl, rfl, rfl, rfl⟩, ⟨rfl, rfl, rfl⟩⟩
  obtain ⟨s, hrun, hfollows, hb, hl⟩ :=
    run_follows chunks hstart (Nat.le_trans (by decide) hbytes) rfl
  refine ⟨s, hrun, ?_⟩
  have hkeeps := RollingTail.keeps_ofTexts maxBytes (decodedTexts decoder decoder.start chunks)
  rw [flatten_decodedTexts] at hkeeps
  have hcounts := hfollows.counts
  have hrolls := hfollows.rolls
  have hmax : s.maxBytes = maxBytes := hb
  have hmaxLines : s.maxLines = maxLines := hl
  have htexts : [] ++ decodedTexts decoder
      (new decoder maxLines maxBytes tempFilePath).decoderState chunks =
        decodedTexts decoder decoder.start chunks := rfl
  rw [htexts, flatten_decodedTexts] at hcounts
  rw [htexts, hmax] at hrolls
  obtain ⟨htotalLines, htotalBytes, htruncated⟩ :=
    truncateTail_totals (decoder.text chunks.flatten) maxLines maxBytes
  dsimp only
  rw [← hkeeps.shows_iff hlines hbytes, htotalLines, htotalBytes, htruncated]
  simp only [snapshot, hrolls.snapshotText, hmax, hmaxLines, hcounts.lines, hcounts.bytes,
    and_self, and_true]

def asciiDecoder : StreamDecoder where
  State := Unit
  start := ()
  decode := fun _ chunk => ((), chunk.map fun b => Char.ofNat b.toNat)
  flush := fun _ => []
  text := fun bytes => bytes.map fun b => Char.ofNat b.toNat
  sound := by
    intro chunks
    dsimp only
    rw [List.append_nil]
    induction chunks using List.reverseRecOn with
    | nil => rfl
    | append_singleton chunks chunk ih =>
        rw [List.foldl_append, List.foldl_cons, List.foldl_nil, ih, List.flatten_append,
          List.flatten_singleton, List.map_append]

theorem snapshot_tail_short :
    ∃ s, (new asciiDecoder 1 4 "log").run [[120, 10], [121]] = some s ∧
      let whole := truncateTail ['x', '\n', 'y'] 1 4
      let shot := (s.snapshot false).2
      shot.content = whole.content ∧ shot.truncation.totalLines = whole.totalLines ∧
        shot.truncation.totalBytes = whole.totalBytes ∧
        shot.truncation.truncated = whole.truncated := by
  obtain ⟨s, hrun, hshows⟩ := snapshot_tail asciiDecoder 1 4 "log" [[120, 10], [121]] false
    (by decide) (by decide)
  exact ⟨s, hrun, hshows.mpr (.inl (by decide +kernel))⟩

/-- Of a long line with its end nothing is shown. -/
theorem snapshot_not_tail :
    ∃ s, (new asciiDecoder 1 4 "log").run [List.replicate 16 120, [10]] = some s ∧
      (s.snapshot false).2.content = [] ∧
      (truncateTail (asciiDecoder.text (List.replicate 16 120 ++ [10])) 1 4).content =
        ['x', 'x', 'x', 'x'] := by
  refine ⟨((new asciiDecoder 1 4 "log").run [List.replicate 16 120, [10]]).get (by decide +kernel),
    (Option.some_get _).symm, ?_, ?_⟩
  · decide +kernel
  · decide +kernel

end OutputAccumulator

end Eagent
