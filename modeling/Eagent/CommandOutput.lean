import Eagent.BashExecutor

/-!
# The output of a command

Both executors show the tail of a rolling list of chunks, from which whole
chunks are dropped. The result is that of the whole output if and only if
nothing was dropped or what is left still exceeds a limit
(`OutputChunks.Shows`): a large chunk that leaves the list takes with it
what a small one after it cannot make up for.
-/

namespace Eagent

open Utf8Text

/-! ## What is left after trimming -/

namespace OutputChunks

def window (maxOutputBytes : Nat) : List (List Char) → List (List Char)
  | removed :: next :: rest =>
      if maxOutputBytes < utf16Length (removed :: next :: rest).flatten then
        window maxOutputBytes (next :: rest)
      else removed :: next :: rest
  | texts => texts

variable {maxOutputBytes : Nat}

theorem trim_eq (texts : List (List Char)) :
    trim maxOutputBytes texts (utf16Length texts.flatten) =
      ⟨window maxOutputBytes texts, utf16Length (window maxOutputBytes texts).flatten⟩ := by
  fun_induction window maxOutputBytes texts with
  | case1 removed next rest hover ih =>
    rw [trim, if_pos hover, List.flatten_cons, utf16Length_append, Nat.add_sub_cancel_left, ih]
  | case2 removed next rest hunder => rw [trim, if_neg hunder]
  | case3 texts hshort => rw [trim.eq_2 _ _ _ hshort]

theorem window_concat (texts : List (List Char)) (text : List Char) :
    window maxOutputBytes (window maxOutputBytes texts ++ [text]) =
      window maxOutputBytes (texts ++ [text]) := by
  fun_induction window maxOutputBytes texts with
  | case1 removed next rest hover ih =>
    have hover' : maxOutputBytes <
        utf16Length (removed :: next :: (rest ++ [text])).flatten := by
      simp only [List.flatten_cons, List.flatten_append, utf16Length_append] at hover ⊢
      omega
    rw [ih, List.cons_append, List.cons_append, List.cons_append, window.eq_1 _ removed next,
      if_pos hover']
  | case2 removed next rest hunder => rfl
  | case3 texts hshort => rfl

def kept (texts : List (List Char)) : List (List Char) := window (defaultMaxBytes * 2) texts

theorem ofTexts_eq (texts : List (List Char)) :
    ofTexts texts = ⟨kept texts, utf16Length (kept texts).flatten⟩ := by
  induction texts using List.reverseRecOn with
  | nil => rfl
  | append_singleton texts text ih =>
    have hlength : utf16Length (kept texts).flatten + utf16Length text =
        utf16Length (kept texts ++ [text]).flatten := by
      rw [List.flatten_append, utf16Length_append, List.flatten_singleton]
    rw [ofTexts, List.foldl_append, ← ofTexts, ih, List.foldl_cons, List.foldl_nil, push, hlength,
      trim_eq, kept, window_concat]
    rfl

def dropped (texts : List (List Char)) : List (List Char) :=
  texts.take (texts.length - (kept texts).length)

theorem window_suffix (texts : List (List Char)) : window maxOutputBytes texts <:+ texts := by
  fun_induction window maxOutputBytes texts with
  | case1 removed next rest hover ih => exact ih.trans (List.suffix_cons _ _)
  | case2 removed next rest hunder => exact List.suffix_refl _
  | case3 texts hshort => exact List.suffix_refl _

theorem dropped_append_kept (texts : List (List Char)) : dropped texts ++ kept texts = texts := by
  obtain ⟨before, hkept⟩ : kept texts <:+ texts := window_suffix texts
  have htake : texts.take (texts.length - (kept texts).length) = before := by
    have hlength : texts.length = before.length + (kept texts).length := by
      rw [← List.length_append, hkept]
    rw [hlength, Nat.add_sub_cancel]
    conv_lhs => rw [← hkept]
    exact List.take_left
  rw [dropped, htake, hkept]

theorem long_of_dropped {texts : List (List Char)} (h : dropped texts ≠ []) :
    defaultMaxBytes * 2 < utf16Length texts.flatten := by
  have hkept : kept texts ≠ texts := by
    intro hall
    rw [dropped, hall, Nat.sub_self] at h
    exact h rfl
  unfold kept at hkept
  revert hkept
  fun_cases window (defaultMaxBytes * 2) texts with
  | case1 removed next rest hover => exact fun _ => hover
  | case2 removed next rest hunder => exact fun hne => absurd rfl hne
  | case3 texts hshort => exact fun hne => absurd rfl hne

end OutputChunks

/-! ## Tails of a kept part -/

section Tails

variable {maxLines maxBytes : Nat}

theorem tailLines_only (hlines : 1 ≤ maxLines) {text line : List Char}
    (htext : splitLinesForCounting text = [line]) (hfits : byteLength line ≤ maxBytes) :
    tailLines maxLines maxBytes text = [fit maxBytes line] := by
  rw [tailLines, htext, List.reverse_singleton, tailLoop_all, fit_of_le hfits]
  · rfl
  · exact hlines
  · rw [bytesWith]
    simp
    omega

theorem sum_counted {text : List Char} (hne : text ≠ []) :
    ((splitLinesForCounting text).map fun line => byteLength line + 1).sum =
      byteLength text + if endsWithNewline text = true then 0 else 1 := by
  rcases splitLinesForCounting_cases text with ⟨hnil, -⟩ | ⟨before, rfl, h⟩ | ⟨-, hends, h⟩
  · exact absurd hnil hne
  · have hsize : ('\n').utf8Size = 1 := by decide
    rw [h, sum_splitLines]
    simp [hsize, endsWithNewline]
  · rw [h, sum_splitLines, hends]
    rfl

/-- A part is kept whose first line is cut off, and whose lines are just as
long as may be kept. -/
structure CutsFirstLine (maxLines maxBytes : Nat) (dropped kept : List Char) : Prop where
  inside : dropped.getLast? ≠ some '\n'
  bytes : byteLength kept = maxBytes + 1
  lines : (splitLinesForCounting kept).length ≤ maxLines
  ends : endsWithNewline kept = true
  several : '\n' ∈ kept.dropLast

theorem truncated_iff (text : List Char) :
    (truncateTail text maxLines maxBytes).truncated = true ↔
      ¬ WithinLimits maxLines maxBytes text := by
  unfold truncateTail WithinLimits
  dsimp only
  split
  · rename_i hfits
    simp [hfits]
  · rename_i hover
    simp [hover]

variable {before kept : List Char}

/-- A part that begins at the beginning of a line. -/
theorem tailLines_at_line (hkept : ¬ WithinLimits maxLines maxBytes kept) :
    tailLines maxLines maxBytes (before ++ '\n' :: kept) = tailLines maxLines maxBytes kept := by
  have hne : kept ≠ [] := by
    rintro rfl
    exact hkept ⟨Nat.zero_le _, Nat.zero_le _⟩
  obtain ⟨lines, line, hlines⟩ := splitLines_append before (b := []) List.not_mem_nil
  rw [List.append_nil, List.append_nil] at hlines
  have htext : splitLinesForCounting (before ++ '\n' :: kept) =
      lines ++ line :: splitLinesForCounting kept := by
    rw [splitLinesForCounting_append_newline, hlines, List.append_assoc, List.singleton_append]
  refine tailLines_after htext hne ?_
  have hbytes := byteLength_le_sum kept
  rcases Nat.lt_or_ge maxBytes (byteLength kept) with hlong | hshort
  · exact .inr (by omega)
  · refine .inl ?_
    by_contra hfew
    exact hkept ⟨by omega, hshort⟩

theorem tailLines_in_line (hlines : 1 ≤ maxLines) (hkept : ¬ WithinLimits maxLines maxBytes kept)
    (hline : '\n' ∉ kept) :
    tailLines maxLines maxBytes (before ++ kept) = tailLines maxLines maxBytes kept := by
  have hlong : maxBytes < byteLength kept := by
    by_contra hshort
    refine hkept ⟨?_, Nat.not_lt.mp hshort⟩
    rw [length_splitLinesForCounting, List.count_eq_zero_of_not_mem hline]
    split <;> omega
  have hcut := tailLines_cut hlines [] hline hlong
  rw [tailLines_cut hlines before hline hlong, ← hcut, List.nil_append]

/-- A part that begins inside a line and has a line end: its first line is
the end of a longer one. -/
theorem tailLines_inside (hlines : 1 ≤ maxLines) {dropped : List Char}
    (hkept : ¬ WithinLimits maxLines maxBytes kept) (hdropped : dropped ≠ [])
    (hlast : dropped.getLast? ≠ some '\n') (hline : '\n' ∈ kept)
    (hcut : ¬ CutsFirstLine maxLines maxBytes dropped kept) :
    tailLines maxLines maxBytes (dropped ++ kept) = tailLines maxLines maxBytes kept := by
  obtain ⟨first, rest, rfl, hfirst⟩ := List.eq_append_cons_of_mem hline
  obtain ⟨above, c, rfl⟩ := (List.eq_nil_or_concat' dropped).resolve_left hdropped
  have hc : c ≠ '\n' := by
    rintro rfl
    exact hlast List.getLast?_concat
  have hopen : '\n' ∉ c :: first := by
    rw [List.mem_cons, not_or]
    exact ⟨Ne.symm hc, hfirst⟩
  obtain ⟨lines, line, hsplit⟩ := splitLines_append above hopen
  have hwhole : above ++ [c] ++ (first ++ '\n' :: rest) =
      (above ++ c :: first) ++ '\n' :: rest := by simp
  have hfirstLine : splitLines first = [first] := by
    obtain ⟨lines', line', h⟩ := splitLines_append [] hfirst
    have hlength := length_splitLines first
    rw [List.count_eq_zero_of_not_mem hfirst] at hlength
    have hjoin := joinLines_splitLines first
    cases hall : splitLines first with
    | nil => exact absurd hall (splitLines_ne_nil first)
    | cons line more =>
      rw [hall] at hlength hjoin
      have hmore : more = [] := List.length_eq_zero_iff.mp (Nat.succ.inj hlength)
      rw [hmore] at hjoin ⊢
      exact congrArg (fun line => [line]) (by simpa [joinLines] using hjoin)
  have hwholeLines : splitLinesForCounting ((above ++ c :: first) ++ '\n' :: rest) =
      lines ++ (line ++ c :: first) :: splitLinesForCounting rest := by
    rw [splitLinesForCounting_append_newline, hsplit, List.append_assoc, List.singleton_append]
  have hkeptLines : splitLinesForCounting (first ++ '\n' :: rest) =
      [] ++ first :: splitLinesForCounting rest := by
    rw [splitLinesForCounting_append_newline, hfirstLine, List.singleton_append, List.nil_append]
  have hcsize := c.utf8Size_pos
  have hsize : ('\n').utf8Size = 1 := by decide
  have hbytes : byteLength (first ++ '\n' :: rest) = byteLength first + 1 + byteLength rest := by
    rw [byteLength_append, byteLength_cons, hsize]
    omega
  have hlonger : byteLength first + 1 ≤ byteLength (line ++ c :: first) := by
    rw [byteLength_append, byteLength_cons]
    omega
  rw [hwhole]
  by_cases hrest : rest = []
  · subst hrest
    have hfull : maxBytes ≤ byteLength first := by
      by_contra hshort
      refine hkept ⟨?_, by rw [hbytes, byteLength_nil]; omega⟩
      rw [hkeptLines]
      exact hlines
    rw [tailLines_long hlines hwholeLines (by omega), List.append_cons, fit_append _ hfull]
    rcases Nat.lt_or_eq_of_le hfull with hlong | hexact
    · exact (tailLines_long hlines hkeptLines hlong).symm
    · exact (tailLines_only hlines hkeptLines (Nat.le_of_eq hexact.symm)).symm
  · have hsum := sum_counted hrest
    have hlong : maxLines ≤ (splitLinesForCounting rest).length ∨
        maxBytes < ((splitLinesForCounting rest).map fun line => byteLength line + 1).sum +
          byteLength first := by
      by_contra hshort
      rw [not_or, Nat.not_le, Nat.not_lt] at hshort
      have hfew : (splitLinesForCounting (first ++ '\n' :: rest)).length ≤ maxLines := by
        rw [hkeptLines, List.nil_append, List.length_cons]
        omega
      have hmany : maxBytes < byteLength (first ++ '\n' :: rest) := by
        by_contra hfits
        exact hkept ⟨hfew, Nat.not_lt.mp hfits⟩
      rw [hbytes] at hmany
      cases hends : endsWithNewline rest with
      | false =>
        rw [hends, if_neg Bool.false_ne_true] at hsum
        omega
      | true =>
        rw [hends, if_pos rfl] at hsum
        refine hcut ⟨hlast, by omega, hfew, ?_, ?_⟩
        · have hne : '\n' :: rest ≠ [] := List.cons_ne_nil _ _
          rw [endsWithNewline, List.getLast?_append_of_ne_nil _ hne]
          obtain ⟨d, more, rfl⟩ := List.exists_cons_of_ne_nil hrest
          rwa [List.getLast?_cons_cons]
        · rw [List.dropLast_append_of_ne_nil (List.cons_ne_nil _ _),
            List.dropLast_cons_of_ne_nil hrest]
          simp
    rw [tailLines_after hwholeLines hrest (hlong.imp_right fun h => by omega),
      tailLines_after hkeptLines hrest hlong]

theorem content_ended {body : List Char} (hlines : body.count '\n' + 1 ≤ maxLines)
    (hbytes : byteLength body ≤ maxBytes) :
    joinLines (tailLines maxLines maxBytes (body ++ ['\n'])) = body := by
  have hcounted : splitLinesForCounting (body ++ ['\n']) = splitLines body := by
    rw [splitLinesForCounting_append_newline]
    exact List.append_nil _
  rw [tailLines, hcounted, tailLoop_all]
  · rw [List.reverse_reverse, List.append_nil, joinLines_splitLines]
  · rw [List.length_nil, Nat.zero_add, List.length_reverse, length_splitLines]
    exact hlines
  · rw [bytesWith, List.map_reverse, List.sum_reverse, sum_splitLines]
    simp only [if_true]
    omega

/-- Such a part shows more of the first line than the whole text does. -/
theorem CutsFirstLine.content_ne {dropped : List Char} (hdropped : dropped ≠ [])
    (h : CutsFirstLine maxLines maxBytes dropped kept) :
    joinLines (tailLines maxLines maxBytes (dropped ++ kept)) ≠
      joinLines (tailLines maxLines maxBytes kept) := by
  obtain ⟨body, rfl⟩ := List.getLast?_eq_some_iff.mp (of_decide_eq_true h.ends)
  have hseveral := h.several
  rw [List.dropLast_concat] at hseveral
  obtain ⟨first, rest, rfl, hfirst⟩ := List.eq_append_cons_of_mem hseveral
  obtain ⟨above, c, rfl⟩ := (List.eq_nil_or_concat' dropped).resolve_left hdropped
  have hc : c ≠ '\n' := by
    rintro rfl
    exact h.inside List.getLast?_concat
  have hopen : '\n' ∉ c :: first := by
    rw [List.mem_cons, not_or]
    exact ⟨Ne.symm hc, hfirst⟩
  have hsize : ('\n').utf8Size = 1 := by decide
  have hcsize := c.utf8Size_pos
  have hlines := h.lines
  have hbytes := h.bytes
  rw [length_splitLinesForCounting] at hlines
  simp [endsWithNewline] at hlines
  simp [hsize] at hbytes
  obtain ⟨lines, line, hsplit⟩ := splitLines_append above hopen
  have hwhole : above ++ [c] ++ (first ++ '\n' :: rest ++ ['\n']) =
      (above ++ c :: first) ++ '\n' :: (rest ++ ['\n']) := by simp
  have hwholeLines : splitLinesForCounting ((above ++ c :: first) ++ '\n' :: (rest ++ ['\n'])) =
      lines ++ (line ++ c :: first) :: splitLinesForCounting (rest ++ ['\n']) := by
    rw [splitLinesForCounting_append_newline, hsplit, List.append_assoc, List.singleton_append]
  have hafter : tailLines maxLines maxBytes ((above ++ c :: first) ++ '\n' :: (rest ++ ['\n'])) =
      tailLines maxLines maxBytes (rest ++ ['\n']) := by
    refine tailLines_after hwholeLines (by simp) (.inr ?_)
    rw [sum_counted (by simp)]
    simp [endsWithNewline, hsize]
    omega
  rw [hwhole, hafter, content_ended (by omega) (by omega), content_ended _ _]
  · intro heq
    have hlength := congrArg List.length heq
    simp at hlength
    omega
  · simp
    omega
  · simp [hsize]
    omega

/-- A part is shown as the whole text is if it exceeds a limit, but for one
case. -/
theorem content_kept_iff (hlines : 1 ≤ maxLines) {dropped : List Char} (hdropped : dropped ≠ [])
    (hlong : maxBytes < byteLength (dropped ++ kept)) :
    ((truncateTail kept maxLines maxBytes).content =
        (truncateTail (dropped ++ kept) maxLines maxBytes).content ∧
      ((truncateTail kept maxLines maxBytes).truncated = true ↔
        ¬ WithinLimits maxLines maxBytes (dropped ++ kept))) ↔
      ¬ WithinLimits maxLines maxBytes kept ∧ ¬ CutsFirstLine maxLines maxBytes dropped kept := by
  have hwhole : ¬ WithinLimits maxLines maxBytes (dropped ++ kept) := fun h =>
    Nat.not_lt.mpr h.2 hlong
  by_cases hkept : WithinLimits maxLines maxBytes kept
  · simp [truncated_iff, hkept, hwhole]
  · rw [truncated_iff, truncateTail_content, if_neg hkept, truncateTail_content, if_neg hwhole]
    by_cases hcut : CutsFirstLine maxLines maxBytes dropped kept
    · have hne := hcut.content_ne hdropped
      simp [hcut, Ne.symm hne]
    · have hsame : tailLines maxLines maxBytes (dropped ++ kept) =
          tailLines maxLines maxBytes kept := by
        by_cases hlast : dropped.getLast? = some '\n'
        · obtain ⟨before, rfl⟩ := List.getLast?_eq_some_iff.mp hlast
          rw [List.append_assoc]
          exact tailLines_at_line hkept
        · by_cases hline : '\n' ∈ kept
          · exact tailLines_inside hlines hkept hdropped hlast hline hcut
          · exact tailLines_in_line hlines hkept hline
      simp [hsame, hkept, hcut, hwhole]

end Tails

/-! ## What the rolling list shows -/

namespace OutputChunks

/-- Nothing has been dropped, or what is kept exceeds a limit without the
line that the dropping has cut. -/
def Shows (texts : List (List Char)) : Prop :=
  (dropped texts).flatten = [] ∨
    (¬ WithinLimits defaultMaxLines defaultMaxBytes (kept texts).flatten ∧
      ¬ CutsFirstLine defaultMaxLines defaultMaxBytes (dropped texts).flatten
        (kept texts).flatten)

theorem shows_iff (texts : List (List Char)) :
    ((truncateTail (kept texts).flatten defaultMaxLines defaultMaxBytes).content =
        (truncateTail texts.flatten defaultMaxLines defaultMaxBytes).content ∧
      ((truncateTail (kept texts).flatten defaultMaxLines defaultMaxBytes).truncated = true ↔
        ¬ WithinLimits defaultMaxLines defaultMaxBytes texts.flatten)) ↔ Shows texts := by
  have hflatten : texts.flatten = (dropped texts).flatten ++ (kept texts).flatten := by
    rw [← List.flatten_append, dropped_append_kept]
  unfold Shows
  by_cases hdropped : (dropped texts).flatten = []
  · rw [hdropped, List.nil_append] at hflatten
    rw [hflatten]
    simp [hdropped, truncated_iff]
  · have hlong : defaultMaxBytes <
        byteLength ((dropped texts).flatten ++ (kept texts).flatten) := by
      have hunits : defaultMaxBytes * 2 < utf16Length texts.flatten :=
        long_of_dropped fun hnil => hdropped (by rw [hnil]; rfl)
      have hbytes := utf16Length_filter_le (fun _ => true) texts.flatten
      rw [List.filter_true] at hbytes
      rw [← hflatten]
      omega
    rw [hflatten, content_kept_iff (by decide) hdropped hlong]
    simp [hdropped]

end OutputChunks

/-! ## The harness -/

namespace ShellOutput

theorem linesOf_eq {content : List Char} (hne : content ≠ []) :
    linesOf content = splitLinesForCounting content := by
  rcases splitLinesForCounting_cases content with ⟨hnil, -⟩ | ⟨before, rfl, h⟩ | ⟨-, hends, h⟩
  · exact absurd hnil hne
  · have hsplit : splitLines (before ++ ['\n']) = splitLines before ++ [[]] :=
      splitLines_append_newline before []
    have hsome := List.length_pos_iff.mpr (splitLines_ne_nil before)
    rw [h, linesOf, hsplit, if_pos]
    · exact List.dropLast_concat
    · simp
      omega
  · obtain ⟨init, c, rfl⟩ := (List.eq_nil_or_concat' content).resolve_left hne
    have hc : '\n' ∉ [c] := by
      rw [List.mem_singleton]
      rintro rfl
      simp [endsWithNewline] at hends
    obtain ⟨lines, line, hlines⟩ := splitLines_append init hc
    rw [h, linesOf, hlines, if_neg]
    simp

/-- The two versions differ in the number of lines of the empty text only. -/
theorem truncateTail_eq {maxLines : Nat} (hlines : 1 ≤ maxLines) (maxBytes : Nat)
    (content : List Char) :
    (truncateTail content maxLines maxBytes).content =
        (Eagent.truncateTail content maxLines maxBytes).content ∧
      (truncateTail content maxLines maxBytes).truncated =
        (Eagent.truncateTail content maxLines maxBytes).truncated := by
  by_cases hne : content = []
  · subst hne
    have hfits : (linesOf []).length ≤ maxLines ∧ byteLength [] ≤ maxBytes :=
      ⟨hlines, Nat.zero_le _⟩
    have hfits' : (splitLinesForCounting []).length ≤ maxLines ∧ byteLength [] ≤ maxBytes :=
      ⟨Nat.zero_le _, Nat.zero_le _⟩
    simp only [truncateTail, Eagent.truncateTail, if_pos hfits, if_pos hfits', and_self]
  · unfold truncateTail Eagent.truncateTail
    rw [linesOf_eq hne]
    exact ⟨rfl, rfl⟩

namespace Execution

/-- The list holds the sanitised chunks, and a result shows its text. -/
structure Holds (s : Execution) : Prop where
  chunks : s.capture.chunks = OutputChunks.ofTexts (s.received.map Capture.sanitized)
  returned : ∀ r, s.phase = .returned (some r) →
    r.output = s.capture.truncationResult.content ∧
      r.truncated = s.capture.truncationResult.truncated

theorem content_of_untruncated {content : List Char} {maxLines maxBytes : Nat}
    (h : (truncateTail content maxLines maxBytes).truncated = false) :
    (truncateTail content maxLines maxBytes).content = content := by
  unfold truncateTail at h ⊢
  dsimp only at h ⊢
  split
  · rfl
  · rename_i hover
    rw [if_neg hover] at h
    cases h

theorem output_result {capture : Capture} {exec : ExecResult} {aborted : Bool}
    {r : ShellCaptureResult} (h : capture.result exec aborted = some r) :
    r.output = capture.truncationResult.content ∧
      r.truncated = capture.truncationResult.truncated := by
  have houtput : (if capture.truncationResult.truncated = true then
      capture.truncationResult.content else capture.chunks.text) =
        capture.truncationResult.content := by
    split
    · rfl
    · rename_i hfits
      exact (content_of_untruncated (Bool.eq_false_iff.mpr hfits)).symm
  unfold Capture.result at h
  obtain ⟨-, hr⟩ := Option.ite_none_left_eq_some.mp h
  cases exec with
  | ok exitCode =>
    cases hr
    exact ⟨houtput, rfl⟩
  | error execAborted =>
    obtain ⟨-, hr⟩ := Option.ite_none_right_eq_some.mp hr
    cases hr
    exact ⟨houtput, rfl⟩
  | rejected => cases hr

theorem Holds.step {s s' : Execution} {e : Event} (h : s.Holds) (hstep : s.step e = some s') :
    s'.Holds := by
  rcases step_cases hstep with ⟨chunk, throws, -, hphase, rfl⟩ | ⟨-, -, rfl⟩ |
    ⟨result, -, -, -, rfl⟩ | ⟨path, initialContent, rest, -, -, hhead, rfl⟩ |
    ⟨path, text, rest, -, hhead, rfl⟩ | ⟨aborted, result, -, -, hnil, rfl⟩
  · obtain ⟨writes, hwrites⟩ := s.capture.onChunk_frame chunk throws
    refine ⟨?_, fun r hr => ?_⟩
    · rw [hwrites, h.chunks, List.map_append, List.map_singleton, OutputChunks.ofTexts,
        OutputChunks.ofTexts, List.foldl_append]
      rfl
    · rw [hphase] at hr
      cases hr
  · exact ⟨h.chunks, fun r hr => by cases hr⟩
  · obtain ⟨writes, hwrites⟩ := s.capture.complete_frame
    refine ⟨?_, fun r hr => by cases hr⟩
    rw [hwrites]
    exact h.chunks
  · exact ⟨h.chunks, h.returned⟩
  · exact ⟨h.chunks, h.returned⟩
  · exact ⟨h.chunks, fun r hr => output_result (Phase.returned.inj hr)⟩

theorem holds_start : Holds {} := ⟨rfl, fun r hr => by cases hr⟩

theorem Holds.result {s : Execution} {r : ShellCaptureResult} (h : s.Holds)
    (hr : s.phase = .returned (some r)) :
    r.output = (Eagent.truncateTail (OutputChunks.kept (s.received.map Capture.sanitized)).flatten
        defaultMaxLines defaultMaxBytes).content ∧
      r.truncated = (Eagent.truncateTail
        (OutputChunks.kept (s.received.map Capture.sanitized)).flatten
        defaultMaxLines defaultMaxBytes).truncated := by
  obtain ⟨houtput, htruncated⟩ := h.returned r hr
  have hone : 1 ≤ defaultMaxLines := by decide
  obtain ⟨hcontent, hsame⟩ := truncateTail_eq hone defaultMaxBytes
    (OutputChunks.kept (s.received.map Capture.sanitized)).flatten
  rw [houtput, htruncated, Capture.truncationResult, h.chunks, OutputChunks.ofTexts_eq]
  exact ⟨hcontent, hsame⟩

end Execution

theorem sanitized_flatten (chunks : List (List Char)) :
    (chunks.map Capture.sanitized).flatten = Capture.sanitized chunks.flatten := by
  induction chunks with
  | nil => rfl
  | cons chunk chunks ih =>
    rw [List.map_cons, List.flatten_cons, ih, List.flatten_cons, Capture.sanitized,
      Capture.sanitized, Capture.sanitized, removeReturns, removeReturns, removeReturns,
      sanitizeBinaryOutput, sanitizeBinaryOutput, sanitizeBinaryOutput, List.filter_append,
      List.filter_append]

end ShellOutput

/-! ## Both executors -/

def ShowsWhole (output : List Char) (truncated : Bool) (whole : List Char) : Prop :=
  output = (truncateTail whole defaultMaxLines defaultMaxBytes).content ∧
    (truncated = true ↔ ¬ WithinLimits defaultMaxLines defaultMaxBytes whole)

namespace BashExecutor

/-- The output does not end inside a character, and no escape sequence is
divided between chunks. -/
structure Undivided (decoder : StreamDecoder) (output : List (List UInt8)) : Prop where
  flushed : decoder.flush (decodingAfter decoder decoder.start output) = []
  stripped : ((texts decoder decoder.start output).map stripAnsi).flatten =
    stripAnsi (texts decoder decoder.start output).flatten

variable {decoder : StreamDecoder} {output : List (List UInt8)}

theorem Undivided.whole (h : Undivided decoder output) :
    ((texts decoder decoder.start output).map sanitized).flatten =
      sanitized (decoder.text output.flatten) := by
  have hsanitized : ∀ parts : List (List Char), (parts.map sanitized).flatten =
      removeReturns (sanitizeBinaryOutput (parts.map stripAnsi).flatten) := by
    intro parts
    rw [← ShellOutput.Capture.sanitized, ← ShellOutput.sanitized_flatten, List.map_map]
    rfl
  rw [hsanitized, h.stripped, ← OutputAccumulator.flatten_decodedTexts, decodedTexts_eq, h.flushed,
    List.flatten_append, List.flatten_singleton, List.append_nil, sanitized]

end BashExecutor

section Lost

open BashExecutor OutputAccumulator

theorem utf16Length_replicate (n : Nat) (c : Char) :
    utf16Length (List.replicate n c) = n * charLength c := by
  induction n with
  | zero => rw [List.replicate_zero, utf16Length_nil, Nat.zero_mul]
  | succ n ih => rw [List.replicate_succ, utf16Length_cons, ih, Nat.succ_mul, Nat.add_comm]

theorem sanitized_as (n : Nat) : sanitized (List.replicate n 'a') = List.replicate n 'a' := by
  have hplain : AnsiRegex.escape ∉ List.replicate n 'a' ∧
      AnsiRegex.csiIntroducer ∉ List.replicate n 'a' := by
    simp [AnsiRegex.escape, AnsiRegex.csiIntroducer, List.mem_replicate]
  rw [sanitized, stripAnsi, if_pos hplain]
  simp [sanitizeBinaryOutput, removeReturns]

theorem kept_pair {long short : List Char}
    (h : defaultMaxBytes * 2 < utf16Length long + utf16Length short) :
    OutputChunks.kept [long, short] = [short] := by
  rw [OutputChunks.kept, OutputChunks.window, if_pos]
  · rfl
  · simpa using h

end Lost

end Eagent
