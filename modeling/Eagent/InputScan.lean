import Eagent.StdinBuffer

/-!
# Scanning terminal input

`extractCompleteSequences` unit by unit: a scan holds the incomplete
sequence it is in, each unit extends or completes it, and what follows is
looked at only after a double ESC. So a scan can stop after any unit and go
on from what it holds, except there (`scan_append`).

At the end, `process` without its counter.
-/

namespace Eagent

namespace Tui

open EditTool (indexOf)

/-! ## The scan -/

/-- Read on with `held` as the sequence at hand. -/
def scan : Text → Text → Extracted
  | held, [] => ⟨[], held⟩
  | held, u :: rest =>
      let candidate := held ++ [u]
      if isCompleteSequence candidate = .incomplete then scan candidate rest
      else if candidate = [esc, esc] && beginsSequence rest.head? then
        (scan [esc] rest).push [esc]
      else (scan [] rest).push candidate

def Held (text : Text) : Prop :=
  ∀ n, 0 < n → n ≤ text.length → isCompleteSequence (text.take n) = .incomplete

theorem held_nil : Held [] := fun n hpos hle => by
  rw [List.length_nil] at hle
  omega

theorem held_esc : Held [esc] := fun n hpos hle => by
  obtain rfl : n = 1 := by
    rw [List.length_singleton] at hle
    omega
  decide

variable {held : Text}

theorem Held.append {u : UInt16} (h : Held held)
    (hnext : isCompleteSequence (held ++ [u]) = .incomplete) : Held (held ++ [u]) := by
  intro n hpos hle
  rw [List.length_append, List.length_singleton] at hle
  by_cases hn : n ≤ held.length
  · rw [List.take_append_of_le_length hn]
    exact h n hpos hn
  · rw [List.take_of_length_le (by rw [List.length_append, List.length_singleton]; omega)]
    exact hnext

theorem head?_of_incomplete {text : Text} (h : isCompleteSequence text = .incomplete) :
    text.head? = some esc := by
  cases text with
  | nil => cases h
  | cons u rest =>
    by_cases hu : u = esc
    · rw [hu]
      rfl
    · simp [isCompleteSequence, hu] at h

theorem Held.head? (h : Held held) (hne : held ≠ []) : held.head? = some esc := by
  have hpos : 0 < held.length := List.length_pos_iff.mpr hne
  have hlast := h held.length hpos (Nat.le_refl _)
  rw [List.take_length] at hlast
  exact head?_of_incomplete hlast

theorem scan_held : ∀ {text held : Text}, Held held → Held (scan held text).remainder
  | [], _, h => h
  | u :: rest, held, h => by
    rw [scan]
    split
    · rename_i hnext
      exact scan_held (h.append hnext)
    · split
      · exact scan_held held_esc
      · exact scan_held held_nil

theorem scan_flatten : ∀ (text held : Text),
    (scan held text).sequences.flatten ++ (scan held text).remainder = held ++ text
  | [], held => by simp [scan]
  | u :: rest, held => by
    rw [scan]
    split
    · rw [scan_flatten rest (held ++ [u]), List.append_assoc, List.singleton_append]
    · split
      · rename_i hdouble
        have hcandidate : held ++ [u] = [esc, esc] :=
          of_decide_eq_true (Bool.and_eq_true_iff.mp hdouble).1
        have hheld : held ++ u :: rest = [esc] ++ ([esc] ++ rest) := by
          rw [← List.singleton_append, ← List.append_assoc, hcandidate]
          rfl
        rw [Extracted.push, List.flatten_cons, List.append_assoc, scan_flatten rest [esc], hheld]
      · rw [Extracted.push, List.flatten_cons, List.append_assoc, scan_flatten rest [],
          List.nil_append, List.append_assoc, List.singleton_append]

theorem scan_of_held (h : Held held) (rest : Text) :
    ∀ n, n ≤ held.length → scan [] (held ++ rest) = scan (held.take n) (held.drop n ++ rest)
  | 0, _ => by rw [List.take_zero, List.drop_zero]
  | n + 1, hn => by
    have hnext := h (n + 1) (Nat.succ_pos n) hn
    rw [scan_of_held h rest n (Nat.le_of_succ_le hn), List.drop_eq_getElem_cons hn,
      List.cons_append, scan, List.take_append_getElem, if_pos hnext]

theorem scan_held_append (h : Held held) (rest : Text) :
    scan [] (held ++ rest) = scan held rest := by
  rw [scan_of_held h rest held.length (Nat.le_refl _), List.take_length, List.drop_length,
    List.nil_append]

/-! ## The loop is the scan -/

variable {remaining : Text}

theorem findSeqEnd_none (h : findSeqEnd remaining = none) : Held remaining := by
  intro n hpos hle
  have hall := List.find?_eq_none.mp h n (List.mem_range'_1.mpr ⟨hpos, by omega⟩)
  simpa using hall

theorem findSeqEnd_some {seqEnd : Nat} (h : findSeqEnd remaining = some seqEnd) :
    0 < seqEnd ∧ seqEnd ≤ remaining.length ∧ Held (remaining.take (seqEnd - 1)) ∧
      isCompleteSequence (remaining.take seqEnd) ≠ .incomplete := by
  obtain ⟨hstop, as, bs, hsplit, hbefore⟩ := List.find?_eq_some_iff_append.mp h
  have hmem : seqEnd ∈ List.range' 1 remaining.length := by
    rw [hsplit]
    exact List.mem_append_right _ List.mem_cons_self
  obtain ⟨hpos, hlt⟩ := List.mem_range'_1.mp hmem
  refine ⟨hpos, by omega, fun n hn hle => ?_, by simpa using hstop⟩
  rw [List.length_take] at hle
  have hn' : n ∈ as := by
    have hnmem : n ∈ List.range' 1 remaining.length := List.mem_range'_1.mpr ⟨hn, by omega⟩
    have hsorted : (as ++ seqEnd :: bs).Pairwise (· < ·) := hsplit ▸ List.pairwise_lt_range'
    rw [hsplit] at hnmem
    rcases List.mem_append.mp hnmem with has | hbs
    · exact has
    · exfalso
      rcases List.mem_cons.mp hbs with rfl | hbs
      · omega
      · have := (List.pairwise_cons.mp (List.pairwise_append.mp hsorted).2.1).1 n hbs
        omega
  have hincomplete := hbefore n hn'
  rw [List.take_take, Nat.min_eq_left (by omega)]
  simpa using hincomplete

theorem scan_of_seqEnd {seqEnd : Nat} (h : findSeqEnd remaining = some seqEnd) :
    scan [] remaining =
      if remaining.take seqEnd = [esc, esc] && beginsSequence remaining[seqEnd]? then
        (scan [] (remaining.drop 1)).push [esc]
      else (scan [] (remaining.drop seqEnd)).push (remaining.take seqEnd) := by
  obtain ⟨hpos, hle, hheld, hstop⟩ := findSeqEnd_some h
  obtain ⟨n, rfl⟩ : ∃ n, seqEnd = n + 1 := ⟨seqEnd - 1, by omega⟩
  rw [Nat.add_sub_cancel] at hheld
  have hread : scan [] remaining = scan (remaining.take n) (remaining.drop n) := by
    rw [← scan_held_append hheld, List.take_append_drop]
  rw [hread, List.drop_eq_getElem_cons hle, scan, List.take_append_getElem, if_neg hstop,
    List.head?_drop]
  by_cases hdouble :
      (remaining.take (n + 1) = [esc, esc] && beginsSequence remaining[n + 1]?) = true
  · rw [if_pos hdouble, if_pos hdouble]
    -- the second ESC begins the next sequence
    have htake : remaining.take (n + 1) = [esc, esc] :=
      of_decide_eq_true (Bool.and_eq_true_iff.mp hdouble).1
    have hlen : n + 1 = 2 := by
      have := congrArg List.length htake
      rw [List.length_take, List.length_cons, List.length_singleton] at this
      omega
    rw [hlen] at htake ⊢
    have hrest : remaining.drop 1 = [esc] ++ remaining.drop 2 := by
      have hsplit := List.take_append_drop 2 remaining
      rw [htake] at hsplit
      rw [← hsplit]
      rfl
    rw [hrest, scan_held_append held_esc]
  · rw [if_neg hdouble, if_neg hdouble]

theorem extractLoop_eq_scan :
    ∀ (n : Nat) (remaining : Text), remaining.length ≤ n →
      extractLoop n remaining = scan [] remaining
  | 0, [], _ => rfl
  | n + 1, [], _ => rfl
  | n + 1, u :: rest, h => by
    have hrest : rest.length ≤ n := by simpa using h
    have hdrop : ∀ k, 0 < k → ((u :: rest).drop k).length ≤ n := by
      intro k hk
      rw [List.length_drop, List.length_cons]
      omega
    rw [extractLoop]
    by_cases hu : u = esc
    · rw [if_pos hu]
      cases hend : findSeqEnd (u :: rest) with
      | none =>
        have hread := scan_held_append (findSeqEnd_none hend) []
        rw [List.append_nil] at hread
        rw [hread]
        rfl
      | some seqEnd =>
        have hpos := (findSeqEnd_some hend).1
        dsimp only
        rw [scan_of_seqEnd hend, extractLoop_eq_scan n _ (hdrop 1 Nat.one_pos),
          extractLoop_eq_scan n _ (hdrop seqEnd hpos)]
    · have hstatus : isCompleteSequence [u] = .notEscape := by
        simp [isCompleteSequence, hu]
      rw [if_neg hu, scan, List.nil_append, hstatus, extractLoop_eq_scan n rest hrest]
      simp

theorem extractCompleteSequences_eq_scan (buffer : Text) :
    extractCompleteSequences buffer = scan [] buffer :=
  extractLoop_eq_scan buffer.length buffer (Nat.le_refl _)

/-! ## Stopping and going on -/

/-- The scan ends on a double ESC, which the next unit would split. -/
def SplitsEscape (e : Extracted) (next : Text) : Prop :=
  e.remainder = [] ∧ e.sequences.getLast? = some [esc, esc] ∧ beginsSequence next.head? = true

instance (e : Extracted) (next : Text) : Decidable (SplitsEscape e next) :=
  inferInstanceAs (Decidable (_ ∧ _ ∧ _))

/-- Two scans one after the other. -/
def Extracted.followedBy (e : Extracted) (next : Text) : Extracted :=
  ⟨e.sequences ++ (scan e.remainder next).sequences, (scan e.remainder next).remainder⟩

theorem SplitsEscape.push {e : Extracted} {sequence next : Text} (h : SplitsEscape e next) :
    SplitsEscape (e.push sequence) next := by
  obtain ⟨hrem, hlast, hnext⟩ := h
  refine ⟨hrem, ?_, hnext⟩
  rw [Extracted.push, List.getLast?_cons, hlast]
  rfl

theorem splitsEscape_nil {next : Text} (h : beginsSequence next.head? = true) :
    SplitsEscape ⟨[[esc, esc]], []⟩ next := ⟨rfl, rfl, h⟩

theorem SplitsEscape.of_push {held sequence next rest : Text} {v : UInt16}
    (h : SplitsEscape ((scan held (v :: rest)).push sequence) next) :
    SplitsEscape (scan held (v :: rest)) next := by
  obtain ⟨hrem, hlast, hnext⟩ := h
  refine ⟨hrem, ?_, hnext⟩
  have hsome : (scan held (v :: rest)).sequences ≠ [] := by
    intro hnil
    have hflat := scan_flatten (v :: rest) held
    have hrem' : (scan held (v :: rest)).remainder = [] := hrem
    rw [hnil, hrem'] at hflat
    simp at hflat
  rw [Extracted.push, List.getLast?_cons, List.getLast?_eq_some_getLast hsome] at hlast
  rw [List.getLast?_eq_some_getLast hsome]
  exact hlast

/-- A unit that ends a sequence, where the scan stops or more units follow. -/
theorem scan_complete {u : UInt16} {rest : Text}
    (h : isCompleteSequence (held ++ [u]) ≠ .incomplete) :
    scan held (u :: rest) =
      if held ++ [u] = [esc, esc] && beginsSequence rest.head? then (scan [esc] rest).push [esc]
      else (scan [] rest).push (held ++ [u]) := by
  rw [scan, if_neg h]

theorem scan_incomplete {u : UInt16} {rest : Text}
    (h : isCompleteSequence (held ++ [u]) = .incomplete) :
    scan held (u :: rest) = scan (held ++ [u]) rest := by
  rw [scan, if_pos h]

/-- A scan may stop anywhere but between a double ESC and the start of a
sequence. -/
theorem scan_append (next : Text) :
    ∀ (text held : Text), ¬ SplitsEscape (scan held text) next →
      scan held (text ++ next) = (scan held text).followedBy next
  | [], held, _ => by simp [scan, Extracted.followedBy]
  | u :: rest, held, h => by
    by_cases hnext : isCompleteSequence (held ++ [u]) = .incomplete
    · rw [scan_incomplete hnext] at h ⊢
      rw [List.cons_append, scan_incomplete hnext]
      exact scan_append next rest _ h
    · rw [scan_complete hnext] at h ⊢
      rw [List.cons_append, scan_complete hnext]
      cases rest with
      | nil =>
        rw [List.nil_append]
        by_cases hdouble : (held ++ [u] = [esc, esc] && beginsSequence next.head?) = true
        · exfalso
          obtain ⟨hcandidate, hbegins⟩ := Bool.and_eq_true_iff.mp hdouble
          rw [of_decide_eq_true hcandidate] at h
          exact h (splitsEscape_nil hbegins)
        · rw [if_neg hdouble, if_neg (by simp [beginsSequence])]
          rfl
      | cons v rest =>
        rw [List.cons_append, List.head?_cons, List.head?_cons, ← List.cons_append]
        rw [List.head?_cons] at h
        split
        · rename_i hdouble
          rw [if_pos hdouble] at h
          rw [scan_append next (v :: rest) [esc] fun hsplit => h hsplit.push]
          rfl
        · rename_i hdouble
          rw [if_neg hdouble] at h
          rw [scan_append next (v :: rest) [] fun hsplit => h hsplit.push]
          rfl

theorem scan_append_splitsEscape {next : Text} :
    ∀ {text held : Text}, SplitsEscape (scan held text) next →
      ∃ before after, (scan held text).sequences = before ++ [[esc, esc]] ∧
        (scan held (text ++ next)).sequences = before ++ [esc] :: after
  | [], held, ⟨_, hlast, _⟩ => by cases hlast
  | u :: rest, held, h => by
    by_cases hnext : isCompleteSequence (held ++ [u]) = .incomplete
    · rw [scan_incomplete hnext] at h ⊢
      rw [List.cons_append, scan_incomplete hnext]
      exact scan_append_splitsEscape h
    · rw [scan_complete hnext] at h ⊢
      rw [List.cons_append, scan_complete hnext]
      cases rest with
      | nil =>
        rw [if_neg (by simp [beginsSequence])] at h ⊢
        obtain ⟨-, hlast, hbegins⟩ := h
        have hcandidate : held ++ [u] = [esc, esc] := by
          simpa [Extracted.push, scan] using hlast
        rw [List.nil_append, if_pos (by simp [hcandidate, hbegins])]
        exact ⟨[], _, by rw [hcandidate]; rfl, rfl⟩
      | cons v rest =>
        rw [List.cons_append, List.head?_cons, List.head?_cons, ← List.cons_append]
        rw [List.head?_cons] at h
        split
        · rename_i hdouble
          rw [if_pos hdouble] at h
          obtain ⟨before, after, hbefore, hafter⟩ := scan_append_splitsEscape h.of_push
          exact ⟨[esc] :: before, after, congrArg _ hbefore, congrArg _ hafter⟩
        · rename_i hdouble
          rw [if_neg hdouble] at h
          obtain ⟨before, after, hbefore, hafter⟩ := scan_append_splitsEscape h.of_push
          exact ⟨(held ++ [u]) :: before, after, congrArg _ hbefore, congrArg _ hafter⟩

/-! ## Calls without their counter -/

namespace StdinBuffer

def size (s : StdinBuffer) (str : Text) : Nat :=
  s.pasteBuffer.length + s.buffer.length + str.length

variable {s : StdinBuffer}

theorem readPaste_congr {f g : StdinBuffer → Text → StdinBuffer × List Item} {pasteBuffer : Text}
    (h : ∀ rest, rest.length + BRACKETED_PASTE_END.length ≤ pasteBuffer.length →
      f {} rest = g {} rest) :
    readPaste f s pasteBuffer = readPaste g s pasteBuffer := by
  unfold readPaste
  cases hend : indexOf BRACKETED_PASTE_END pasteBuffer with
  | none => rfl
  | some endIndex =>
    have hle := EditTool.indexOf_le hend
    dsimp only
    rw [h]
    rw [List.length_drop]
    omega

/-- More turns than units change nothing. -/
theorem processLoop_eq :
    ∀ {n m : Nat} {s : StdinBuffer} {str : Text}, s.size str < n → s.size str < m →
      processLoop n s str = processLoop m s str
  | 0, _, _, _, h, _ => absurd h (Nat.not_lt_zero _)
  | _ + 1, 0, _, _, _, h => absurd h (Nat.not_lt_zero _)
  | n + 1, m + 1, s, str, hn, hm => by
    have hrest : ∀ (text rest : Text), text.length ≤ s.size str →
        rest.length + BRACKETED_PASTE_END.length ≤ text.length →
        processLoop n {} rest = processLoop m {} rest := by
      intro text rest htext hlen
      have hmarker : BRACKETED_PASTE_END.length = 6 := rfl
      have hsize : ({} : StdinBuffer).size rest = rest.length := by simp [size]
      exact processLoop_eq (by omega) (by omega)
    rw [processLoop, processLoop]
    split
    · rfl
    · dsimp only
      split
      · refine readPaste_congr fun rest hlen => hrest _ rest ?_ hlen
        simp only [size, List.length_append]
        omega
      · split
        · rw [readPaste_congr fun rest hlen => hrest _ rest ?_ hlen]
          simp only [size, List.length_append, List.length_drop]
          omega
        · rfl

/-- The text before a paste start: its sequences are emitted, what is left
of it is not. -/
def beforePaste (s : StdinBuffer) (text : Text) : List Item :=
  (emitAll s.pendingKittyPrintableCodepoint (scan [] text).sequences).2

/-- A chunk without a paste start. -/
def readText (s : StdinBuffer) (text : Text) : StdinBuffer × List Item :=
  ({ s with
    buffer := (scan [] text).remainder
    pendingKittyPrintableCodepoint :=
      (emitAll s.pendingKittyPrintableCodepoint (scan [] text).sequences).1 },
    (emitAll s.pendingKittyPrintableCodepoint (scan [] text).sequences).2)

/-- `process` by the cases of the source, each call behind a paste a call of
`process`. -/
theorem process_eq (s : StdinBuffer) (str : Text) (hsome : ¬ (str = [] ∧ s.buffer = [])) :
    s.process str =
      if s.pasteMode then readPaste process s (s.pasteBuffer ++ (s.buffer ++ str))
      else match indexOf BRACKETED_PASTE_START (s.buffer ++ str) with
        | some i =>
          let pasted := readPaste process { s with pendingKittyPrintableCodepoint := none }
            ((s.buffer ++ str).drop (i + BRACKETED_PASTE_START.length))
          (pasted.1, s.beforePaste ((s.buffer ++ str).take i) ++ pasted.2)
        | none => s.readText (s.buffer ++ str) := by
  have hrest : ∀ (text rest : Text), text.length ≤ s.size str →
      rest.length + BRACKETED_PASTE_END.length ≤ text.length →
      processLoop (s.size str) {} rest = process {} rest := by
    intro text rest htext hlen
    have hmarker : BRACKETED_PASTE_END.length = 6 := rfl
    have hsize : ({} : StdinBuffer).size rest = rest.length := by simp [size]
    exact processLoop_eq (by omega) (by rw [hsize]; simp)
  have hempty : ¬ (str.length = 0 ∧ s.buffer.length = 0) := by
    simpa only [List.length_eq_zero_iff] using hsome
  rw [process, ← size, processLoop, if_neg hempty]
  dsimp only
  split
  · refine readPaste_congr fun rest hlen => hrest _ rest ?_ hlen
    simp only [size, List.length_append]
    omega
  · simp only [extractCompleteSequences_eq_scan]
    cases hstart : indexOf BRACKETED_PASTE_START (s.buffer ++ str) with
    | some i =>
      dsimp only
      rw [readPaste_congr fun rest hlen => hrest _ rest ?_ hlen]
      · rfl
      · simp only [size, List.length_append, List.length_drop]
        omega
    | none => rfl

/-! ## Settled buffers -/

/-- A paste start that stands in no text is found in none of its parts. -/
theorem indexOf_eq_none_iff {pattern text : Text} :
    indexOf pattern text = none ↔ ¬ pattern <:+: text := by
  constructor
  · rintro h ⟨before, after, rfl⟩
    refine EditTool.indexOf_none h before.length ⟨?_, ?_⟩
    · simp only [List.length_append]
      omega
    · rw [List.append_assoc, List.drop_left]
      exact List.prefix_append _ _
  · intro h
    cases hindex : indexOf pattern text with
    | none => rfl
    | some i =>
      have hbegin := (EditTool.indexOf_some hindex).2
      exact absurd (hbegin.isInfix.trans (List.drop_suffix i text).isInfix) h

/-- Between calls: in a paste nothing is buffered and no end is overlooked,
outside one the buffer is the start of a sequence. A remembered key is no
control. -/
structure Settled (s : StdinBuffer) : Prop where
  pasting : s.pasteMode = true → s.buffer = [] ∧ indexOf BRACKETED_PASTE_END s.pasteBuffer = none
  reading : s.pasteMode = false →
    s.pasteBuffer = [] ∧ Held s.buffer ∧ indexOf BRACKETED_PASTE_START s.buffer = none
  printable : ∀ n, s.pendingKittyPrintableCodepoint = some n → 32 ≤ n

theorem settled_init : Settled {} :=
  ⟨fun h => (by cases h), fun _ => ⟨rfl, held_nil, rfl⟩, fun n h => (by cases h)⟩

theorem parse_printable {sequence : Text} {n : Nat}
    (h : parseUnmodifiedKittyPrintableCodepoint sequence = some n) : 32 ≤ n := by
  unfold parseUnmodifiedKittyPrintableCodepoint at h
  split at h
  · split at h
    · dsimp only at h
      split at h
      · rename_i hprintable
        rw [← Option.some.inj h]
        exact hprintable
      · cases h
    · cases h
  · cases h

theorem emitDataSequence_printable {pending : Option Nat} {sequence : Text} {n : Nat}
    (h : (emitDataSequence pending sequence).1 = some n) : 32 ≤ n := by
  unfold emitDataSequence at h
  split at h
  · split at h
    · cases h
    · exact parse_printable h
  · exact parse_printable h

theorem emitAll_printable {sequences : List Text} {n : Nat} :
    ∀ {pending : Option Nat}, (∀ n, pending = some n → 32 ≤ n) →
      (emitAll pending sequences).1 = some n → 32 ≤ n := by
  induction sequences with
  | nil => exact fun hpending h => hpending n h
  | cons sequence rest ih => exact fun _ h => ih (fun _ => emitDataSequence_printable) h

theorem readPaste_settled {pasteBuffer : Text}
    (hprintable : ∀ n, s.pendingKittyPrintableCodepoint = some n → 32 ≤ n)
    (h : ∀ rest, rest.length + BRACKETED_PASTE_END.length ≤ pasteBuffer.length →
      Settled (process {} rest).1) :
    Settled (readPaste process s pasteBuffer).1 := by
  unfold readPaste
  cases hend : indexOf BRACKETED_PASTE_END pasteBuffer with
  | none => exact ⟨fun _ => ⟨rfl, hend⟩, fun hmode => (by cases hmode), hprintable⟩
  | some endIndex =>
    have hle := EditTool.indexOf_le hend
    dsimp only
    split
    · refine h _ ?_
      rw [List.length_drop]
      omega
    · exact settled_init

theorem readText_settled (h : Settled s) {text : Text} (hmode : s.pasteMode = false)
    (hstart : indexOf BRACKETED_PASTE_START text = none) :
    Settled (s.readText text).1 := by
  refine ⟨fun hpaste => ?_, fun _ => ⟨(h.reading hmode).1, scan_held held_nil, ?_⟩, ?_⟩
  · have hpaste' : s.pasteMode = true := hpaste
    rw [hmode] at hpaste'
    cases hpaste'
  · rw [indexOf_eq_none_iff] at hstart ⊢
    have hsuffix : (scan [] text).remainder <:+ text := ⟨_, scan_flatten text []⟩
    exact fun hpart => hstart (hpart.trans hsuffix.isInfix)
  · exact fun n hn => emitAll_printable h.printable hn

theorem process_settled (s : StdinBuffer) (str : Text) (h : Settled s) :
    Settled (s.process str).1 := by
  induction hsize : s.size str using Nat.strong_induction_on generalizing s str with
  | _ size ih =>
    by_cases hidle : str = [] ∧ s.buffer = []
    · obtain ⟨rfl, hbuffer⟩ := hidle
      have hprocess : (s.process []).1 = { s with
          pendingKittyPrintableCodepoint := none } := by
        rw [process, processLoop, if_pos (by simp [hbuffer])]
        rfl
      rw [hprocess]
      exact ⟨h.pasting, h.reading, fun n hn => by cases hn⟩
    · have hrest : ∀ (text rest : Text), text.length ≤ size →
          rest.length + BRACKETED_PASTE_END.length ≤ text.length →
          Settled (process {} rest).1 := by
        intro text rest htext hlen
        have hmarker : BRACKETED_PASTE_END.length = 6 := rfl
        exact ih rest.length (by omega) {} rest settled_init (by simp [StdinBuffer.size])
      rw [process_eq s str hidle]
      split
      · refine readPaste_settled h.printable fun rest hlen => hrest _ rest ?_ hlen
        simp only [← hsize, StdinBuffer.size, List.length_append]
        omega
      · rename_i hmode
        rw [Bool.not_eq_true] at hmode
        cases hstart : indexOf BRACKETED_PASTE_START (s.buffer ++ str) with
        | some i =>
          refine readPaste_settled (fun n hn => by cases hn)
            fun rest hlen => hrest _ rest ?_ hlen
          simp only [← hsize, StdinBuffer.size, List.length_append, List.length_drop]
          omega
        | none => exact readText_settled h hmode hstart

theorem flush_settled (h : Settled s) : Settled s.flush.1 := by
  unfold flush
  split
  · exact h
  · refine ⟨fun hmode => ⟨rfl, (h.pasting hmode).2⟩, fun hmode => ?_, fun n hn => by cases hn⟩
    exact ⟨(h.reading hmode).1, held_nil, rfl⟩

theorem act_settled (h : Settled s) (action : InputAction) :
    Settled (s.act action).1 := by
  cases action with
  | chunk str => exact process_settled s str h
  | flush => exact flush_settled h
  | timeout =>
    have hflushed := flush_settled h
    exact ⟨hflushed.pasting, hflushed.reading,
      fun n hn => emitAll_printable hflushed.printable hn⟩

end StdinBuffer

end Tui

end Eagent
