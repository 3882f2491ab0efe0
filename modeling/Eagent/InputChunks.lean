import Eagent.InputAccounting

/-!
# Chunks of terminal input

The events for an input that arrives in chunks are those for the input in
one chunk exactly when no chunk is empty while nothing is buffered, no chunk
ends between a double ESC and a unit that begins a sequence, and none ends
inside a paste start whose first units complete the sequence before it
(`chunks_independent_iff`).
-/

namespace Eagent

namespace Tui

open EditTool (indexOf)

/-! ## Events -/

def Item.isEvent : Item → Bool
  | .suppressed _ => false
  | _ => true

/-- What listeners see. -/
def events (items : List Item) : List Item := items.filter Item.isEvent

@[simp] theorem events_append (as bs : List Item) : events (as ++ bs) = events as ++ events bs :=
  List.filter_append ..

theorem emitAll_append (as bs : List Text) :
    ∀ pending, emitAll pending (as ++ bs) =
      ((emitAll (emitAll pending as).1 bs).1,
        (emitAll pending as).2 ++ (emitAll (emitAll pending as).1 bs).2) := by
  induction as with
  | nil => exact fun _ => rfl
  | cons sequence rest ih =>
    intro pending
    rw [List.cons_append]
    simp only [emitAll, ih]
    rfl

theorem emitDataSequence_esc {pending : Option Nat} (h : ∀ n, pending = some n → 32 ≤ n)
    {sequence : Text} (hesc : sequence.head? = some esc) :
    (emitDataSequence pending sequence).2 = .data sequence := by
  unfold emitDataSequence
  split
  · rename_i u hraw
    split
    · rename_i hpending
      have hu : u = esc := by
        unfold rawCodepoint at hraw
        split at hraw
        · exact (Option.some.inj hraw).symm.trans (Option.some.inj hesc)
        · cases hraw
      have hle := h _ hpending
      rw [hu] at hle
      exact absurd hle (by decide)
    · rfl
  · rfl

/-! ## First occurrences -/

/-- The first occurrence behind a part that is cut off. -/
theorem indexOf_of_append {pattern before text : Text} {k : Nat}
    (h : indexOf pattern (before ++ text) = some (before.length + k)) :
    indexOf pattern text = some k := by
  induction before with
  | nil => simpa using h
  | cons u rest ih =>
    rw [List.cons_append, indexOf] at h
    split at h
    · have hzero := Option.some.inj h
      rw [List.length_cons] at hzero
      omega
    · obtain ⟨j, hj, hjk⟩ := Option.map_eq_some_iff.mp h
      rw [List.length_cons] at hjk
      have hjk' : j = rest.length + k := by omega
      exact ih (hjk' ▸ hj)

/-- The first occurrence stays the first when more text follows. -/
theorem indexOf_append {pattern text : Text} {i : Nat} (h : indexOf pattern text = some i)
    (more : Text) : indexOf pattern (text ++ more) = some i := by
  induction text generalizing i with
  | nil =>
    rw [indexOf] at h
    split at h
    · rename_i hnil
      rw [← Option.some.inj h, hnil]
      cases more <;> simp [indexOf]
    · cases h
  | cons u rest ih =>
    rw [indexOf] at h
    rw [List.cons_append, indexOf]
    split at h
    · rename_i hbegin
      rw [if_pos, h]
      rw [List.isPrefixOf_iff_prefix] at hbegin ⊢
      exact hbegin.trans (List.prefix_append (u :: rest) more)
    · rename_i hbegin
      obtain ⟨j, hj, rfl⟩ := Option.map_eq_some_iff.mp h
      have hlonger : pattern <+: u :: (rest ++ more) → pattern <+: u :: rest := by
        intro hmore
        refine List.prefix_of_prefix_length_le hmore (List.prefix_append (u :: rest) more) ?_
        have hle := EditTool.indexOf_le hj
        rw [List.length_cons]
        omega
      rw [if_neg fun hmore => hbegin (List.isPrefixOf_iff_prefix.mpr
        (hlonger (List.isPrefixOf_iff_prefix.mp hmore))), ih hj]
      rfl

/-! ## A cut in text -/

/-- A boundary between a double ESC and a unit that begins a sequence, or
inside the first paste start, where the sequences of what has arrived are
not those of the text before it. -/
def CutsAt (text next : Text) : Prop :=
  SplitsEscape (extractCompleteSequences text) next ∨
    ∃ i, indexOf BRACKETED_PASTE_START (text ++ next) = some i ∧ i < text.length ∧
      (extractCompleteSequences text).sequences ≠
        (extractCompleteSequences (text.take i)).sequences

namespace StdinBuffer

/-- A call, and the next chunk after it. -/
def andThen (first : StdinBuffer × List Item) (next : Text) : StdinBuffer × List Item :=
  ((process first.1 next).1, first.2 ++ (process first.1 next).2)

theorem process_text {pending : Option Nat} {text : Text} (hsome : text ≠ [])
    (hstart : indexOf BRACKETED_PASTE_START text = none) :
    process { pendingKittyPrintableCodepoint := pending } text =
      readText { pendingKittyPrintableCodepoint := pending } text := by
  have hidle : ¬ (text = [] ∧ ({ pendingKittyPrintableCodepoint := pending } :
      StdinBuffer).buffer = []) := fun h => hsome h.1
  rw [process_eq _ _ hidle]
  simp only [List.nil_append, hstart, Bool.false_eq_true, if_false]

def afterText (pending : Option Nat) (text : Text) : StdinBuffer :=
  { buffer := (scan [] text).remainder
    pendingKittyPrintableCodepoint := (emitAll pending (scan [] text).sequences).1 }

theorem readPaste_pending {s s' : StdinBuffer}
    (h : s.pendingKittyPrintableCodepoint = s'.pendingKittyPrintableCodepoint)
    (pasteBuffer : Text) : readPaste process s pasteBuffer = readPaste process s' pasteBuffer := by
  unfold readPaste
  rw [h]

variable {s : StdinBuffer}

/-- A chunk of text whose first paste start is at `i`. -/
theorem process_start (hmode : s.pasteMode = false) (str : Text) {i : Nat}
    (hstart : indexOf BRACKETED_PASTE_START (s.buffer ++ str) = some i) :
    s.process str =
      ((readPaste process {} ((s.buffer ++ str).drop (i + BRACKETED_PASTE_START.length))).1,
        s.beforePaste ((s.buffer ++ str).take i) ++
          (readPaste process {} ((s.buffer ++ str).drop
            (i + BRACKETED_PASTE_START.length))).2) := by
  have hidle : ¬ (str = [] ∧ s.buffer = []) := by
    rintro ⟨rfl, hbuffer⟩
    rw [hbuffer] at hstart
    cases hstart
  rw [process_eq s str hidle, hstart, hmode]
  have hpending : readPaste process { s with pendingKittyPrintableCodepoint := none } =
      readPaste process {} := funext fun text => readPaste_pending rfl text
  simp only [hmode] at hpending
  simp only [Bool.false_eq_true, if_false, hpending]

theorem process_reading (hmode : s.pasteMode = false) {str : Text} (hsome : str ≠ [])
    (hstart : indexOf BRACKETED_PASTE_START (s.buffer ++ str) = none) :
    s.process str = s.readText (s.buffer ++ str) := by
  rw [process_eq s str fun h => hsome h.1, hstart, hmode]
  simp only [Bool.false_eq_true, if_false]

section Text

variable {pending : Option Nat} {text next : Text}

/-- What is read on behind a boundary. -/
theorem text_split (text next : Text) :
    (scan [] text).sequences.flatten ++ ((scan [] text).remainder ++ next) = text ++ next := by
  have hflat : (scan [] text).sequences.flatten ++ (scan [] text).remainder = text :=
    scan_flatten text []
  rw [← List.append_assoc, hflat]

theorem indexOf_behind {i : Nat}
    (hstart : indexOf BRACKETED_PASTE_START (text ++ next) = some i)
    (hflat : (scan [] text).sequences.flatten.length ≤ i) :
    indexOf BRACKETED_PASTE_START ((scan [] text).remainder ++ next) =
      some (i - (scan [] text).sequences.flatten.length) := by
  rw [← text_split text next] at hstart
  have hi : i = (scan [] text).sequences.flatten.length +
      (i - (scan [] text).sequences.flatten.length) := by omega
  rw [hi] at hstart
  exact indexOf_of_append hstart

theorem indexOf_behind_none (hstart : indexOf BRACKETED_PASTE_START (text ++ next) = none) :
    indexOf BRACKETED_PASTE_START ((scan [] text).remainder ++ next) = none := by
  rw [indexOf_eq_none_iff] at hstart ⊢
  rw [← text_split text next] at hstart
  exact fun hpart => hstart (hpart.trans (List.suffix_append _ _).isInfix)

theorem take_behind {i : Nat} (hflat : (scan [] text).sequences.flatten.length ≤ i) :
    (text ++ next).take i = (scan [] text).sequences.flatten ++
      ((scan [] text).remainder ++ next).take (i - (scan [] text).sequences.flatten.length) := by
  rw [← text_split text next, List.take_append, List.take_of_length_le hflat]

theorem drop_behind {i n : Nat} (hflat : (scan [] text).sequences.flatten.length ≤ i) :
    ((scan [] text).remainder ++ next).drop
        (i - (scan [] text).sequences.flatten.length + n) =
      (text ++ next).drop (i + n) := by
  have hadd : i + n = (scan [] text).sequences.flatten.length +
      (i - (scan [] text).sequences.flatten.length + n) := by omega
  conv_rhs => rw [← text_split text next, hadd, List.drop_length_add_append]

theorem splitsEscape_take {e : Extracted} {k : Nat} (h : SplitsEscape e (next.take k)) :
    SplitsEscape e next := by
  obtain ⟨hrem, hlast, hbegins⟩ := h
  refine ⟨hrem, hlast, ?_⟩
  cases k with
  | zero => cases hbegins
  | succ k =>
    cases next with
    | nil => cases hbegins
    | cons u rest => exact hbegins

theorem beforePaste_append (hesc : ¬ SplitsEscape (scan [] text) next) (k : Nat) :
    beforePaste { pendingKittyPrintableCodepoint := pending } (text ++ next.take k) =
      (emitAll pending (scan [] text).sequences).2 ++
        beforePaste (afterText pending text) ((scan [] text).remainder ++ next.take k) := by
  rw [beforePaste, beforePaste, scan_held_append (scan_held held_nil),
    scan_append (next.take k) text [] fun hsplit => hesc (splitsEscape_take hsplit)]
  simp only [Extracted.followedBy, emitAll_append, afterText]

/-- Without a cut, text may be read in two parts. -/
theorem process_text_append (hsome : text ≠ []) (hnext : next ≠ [])
    (htext : indexOf BRACKETED_PASTE_START text = none) (hcut : ¬ CutsAt text next) :
    process { pendingKittyPrintableCodepoint := pending } (text ++ next) =
      andThen (process { pendingKittyPrintableCodepoint := pending } text) next := by
  have hfirst : process { pendingKittyPrintableCodepoint := pending } text =
      (afterText pending text, (emitAll pending (scan [] text).sequences).2) :=
    process_text hsome htext
  have hheld : Held (scan [] text).remainder := scan_held held_nil
  rw [CutsAt, not_or, not_exists] at hcut
  simp only [extractCompleteSequences_eq_scan] at hcut
  obtain ⟨hesc, hmarker⟩ := hcut
  rw [hfirst, andThen]
  cases hstart : indexOf BRACKETED_PASTE_START (text ++ next) with
  | none =>
    have hsecond : process (afterText pending text) next =
        readText (afterText pending text) ((scan [] text).remainder ++ next) :=
      process_reading rfl hnext (indexOf_behind_none hstart)
    rw [hsecond, process_text (List.append_ne_nil_of_left_ne_nil hsome next) hstart, readText,
      readText, scan_held_append hheld, scan_append next text [] hesc]
    simp only [Extracted.followedBy, emitAll_append, afterText]
  | some i =>
    have hwhole := process_start (s := { pendingKittyPrintableCodepoint := pending }) rfl
      (text ++ next) hstart
    by_cases hin : i < text.length
    · -- the marker is cut: the text before it reads as it did
      have hsame : (scan [] text).sequences = (scan [] (text.take i)).sequences :=
        not_not.mp fun hne => hmarker i ⟨hstart, hin, hne⟩
      have hbefore : (text ++ next).take i = text.take i :=
        List.take_append_of_le_length (Nat.le_of_lt hin)
      have hparts : (scan [] text).sequences.flatten ++ (scan [] (text.take i)).remainder =
          text.take i := by
        rw [hsame]
        exact scan_flatten (text.take i) []
      have hflat : (scan [] text).sequences.flatten.length ≤ i := by
        have hlength := congrArg List.length hparts
        rw [List.length_append, List.length_take] at hlength
        omega
      have hrest : ((scan [] text).remainder ++ next).take
          (i - (scan [] text).sequences.flatten.length) = (scan [] (text.take i)).remainder := by
        have htake : (text ++ next).take i = _ := take_behind hflat
        rw [hbefore, ← hparts] at htake
        exact (List.append_cancel_left htake).symm
      have hnone : beforePaste (afterText pending text) (scan [] (text.take i)).remainder =
          [] := by
        have hread := scan_held_append (scan_held held_nil : Held
          (scan [] (text.take i)).remainder) []
        rw [List.append_nil] at hread
        rw [beforePaste, hread]
        rfl
      have hall : beforePaste { pendingKittyPrintableCodepoint := pending } (text.take i) =
          (emitAll pending (scan [] text).sequences).2 := by
        rw [beforePaste, hsame]
      have hsecond : process (afterText pending text) next = _ :=
        process_start rfl next (indexOf_behind hstart hflat)
      have hbuffer : (afterText pending text).buffer = (scan [] text).remainder := rfl
      rw [hwhole, hsecond, hbuffer, hrest, drop_behind hflat, hnone, List.nil_append,
        List.nil_append, hbefore, hall]
    · rw [Nat.not_lt] at hin
      have hflat : (scan [] text).sequences.flatten.length ≤ i := by
        have hlength := congrArg List.length (scan_flatten text [])
        rw [List.length_append, List.nil_append] at hlength
        omega
      have hbefore : (text ++ next).take i = text ++ next.take (i - text.length) := by
        rw [List.take_append, List.take_of_length_le hin]
      have hrest : ((scan [] text).remainder ++ next).take
          (i - (scan [] text).sequences.flatten.length) =
          (scan [] text).remainder ++ next.take (i - text.length) := by
        have htake : (text ++ next).take i = _ := take_behind hflat
        rw [hbefore, ← text_split text (next.take (i - text.length))] at htake
        exact (List.append_cancel_left htake).symm
      have hsecond : process (afterText pending text) next = _ :=
        process_start rfl next (indexOf_behind hstart hflat)
      have hbuffer : (afterText pending text).buffer = (scan [] text).remainder := rfl
      rw [hwhole, hsecond, hbuffer, hrest, drop_behind hflat, List.nil_append, hbefore,
        beforePaste_append hesc, List.append_assoc]

end Text

/-! ## A cut is seen -/

theorem scan_nonempty : ∀ (text held : Text), ∀ sequence ∈ (scan held text).sequences, sequence ≠ []
  | [], _, _, h => by cases h
  | u :: rest, held, sequence, h => by
    rw [scan] at h
    split at h
    · exact scan_nonempty rest _ sequence h
    · split at h
      · rcases List.mem_cons.mp h with rfl | h
        · exact List.cons_ne_nil _ _
        · exact scan_nonempty rest _ sequence h
      · rcases List.mem_cons.mp h with rfl | h
        · exact List.append_ne_nil_of_right_ne_nil _ (List.cons_ne_nil _ _)
        · exact scan_nonempty rest _ sequence h

section Cut

variable {pending : Option Nat} {text next : Text}

theorem events_emitAll_esc (hprintable : ∀ n, pending = some n → 32 ≤ n) (before : List Text)
    {sequence : Text} (hesc : sequence.head? = some esc) (after : List Text) :
    ∃ more, events (emitAll pending (before ++ sequence :: after)).2 =
      events (emitAll pending before).2 ++ .data sequence :: more := by
  have hdata : (emitDataSequence (emitAll pending before).1 sequence).2 = .data sequence :=
    emitDataSequence_esc (fun n hn => emitAll_printable hprintable hn) hesc
  refine ⟨events (emitAll (emitDataSequence (emitAll pending before).1 sequence).1 after).2, ?_⟩
  rw [emitAll_append, events_append]
  simp only [emitAll, hdata]
  rfl

theorem readPaste_head (pasteBuffer : Text) :
    ∀ item ∈ (readPaste process {} pasteBuffer).2.head?, ∃ content, item = .paste content := by
  unfold readPaste
  intro item hitem
  split at hitem
  · cases hitem
  · dsimp only at hitem
    split at hitem
    · exact ⟨_, (Option.some.inj hitem).symm⟩
    · exact ⟨_, (Option.some.inj hitem).symm⟩

theorem head?_cut {i : Nat} (hstart : indexOf BRACKETED_PASTE_START (text ++ next) = some i)
    (hin : i < text.length) : (text.drop i).head? = some esc := by
  have hbegin := (EditTool.indexOf_some hstart).2
  rw [List.drop_append_of_le_length (Nat.le_of_lt hin)] at hbegin
  obtain ⟨tail, htail⟩ := hbegin
  cases hdrop : text.drop i with
  | nil =>
    rw [List.drop_eq_nil_iff] at hdrop
    omega
  | cons u rest =>
    rw [hdrop] at htail
    exact congrArg some (List.cons.inj htail).1.symm

theorem scan_cut {i : Nat} (hstart : indexOf BRACKETED_PASTE_START (text ++ next) = some i)
    (hin : i < text.length) :
    scan [] text = (scan [] (text.take i)).followedBy (text.drop i) := by
  have hread := scan_append (text.drop i) (text.take i) [] fun hsplit => by
    have hbegins := hsplit.2.2
    rw [head?_cut hstart hin] at hbegins
    cases hbegins
  rw [List.take_append_drop] at hread
  exact hread

section

variable (hprintable : ∀ n, pending = some n → 32 ≤ n)
include hprintable

theorem process_text_cutMarker (hsome : text ≠ [])
    (htext : indexOf BRACKETED_PASTE_START text = none) {i : Nat}
    (hstart : indexOf BRACKETED_PASTE_START (text ++ next) = some i) (hin : i < text.length)
    (hne : (scan [] text).sequences ≠ (scan [] (text.take i)).sequences) :
    ¬ events (process { pendingKittyPrintableCodepoint := pending } text).2 <+:
      events (process { pendingKittyPrintableCodepoint := pending } (text ++ next)).2 := by
  have hscan := scan_cut hstart hin
  have hsequences : (scan [] text).sequences = (scan [] (text.take i)).sequences ++
      (scan (scan [] (text.take i)).remainder (text.drop i)).sequences := by rw [hscan]; rfl
  obtain ⟨sequence, after, hextra⟩ : ∃ sequence after,
      (scan (scan [] (text.take i)).remainder (text.drop i)).sequences = sequence :: after := by
    refine List.exists_cons_of_ne_nil fun hnil => hne ?_
    rw [hsequences, hnil, List.append_nil]
  have hesc : sequence.head? = some esc := by
    have hflat := scan_flatten (text.drop i) (scan [] (text.take i)).remainder
    have hne' := scan_nonempty (text.drop i) _ sequence (hextra ▸ List.mem_cons_self)
    rw [hextra, List.flatten_cons, List.append_assoc] at hflat
    have hhead := congrArg List.head? hflat
    rw [List.head?_append_of_ne_nil _ hne'] at hhead
    rw [hhead]
    cases hrem : (scan [] (text.take i)).remainder with
    | nil => exact head?_cut hstart hin
    | cons u rest =>
      have hheld := (scan_held held_nil : Held (scan [] (text.take i)).remainder)
      rw [hrem] at hheld
      exact hheld.head? (List.cons_ne_nil _ _)
  obtain ⟨more, hmore⟩ := events_emitAll_esc hprintable (scan [] (text.take i)).sequences hesc after
  have hbefore : (text ++ next).take i = text.take i :=
    List.take_append_of_le_length (Nat.le_of_lt hin)
  have hwhole := process_start (s := { pendingKittyPrintableCodepoint := pending }) rfl
    (text ++ next) hstart
  rw [process_text hsome htext, readText, hsequences, hextra, hmore, hwhole, events_append,
    beforePaste, List.nil_append, hbefore, List.prefix_append_right_inj]
  rintro ⟨tail, htail⟩
  have hfirst := readPaste_head ((text ++ next).drop (i + BRACKETED_PASTE_START.length))
  cases hpasted : (readPaste process {} ((text ++ next).drop
      (i + BRACKETED_PASTE_START.length))).2 with
  | nil =>
    rw [hpasted] at htail
    cases htail
  | cons item rest =>
    obtain ⟨content, hcontent⟩ := hfirst item (by rw [hpasted]; rfl)
    rw [hpasted, hcontent] at htail
    cases htail

/-- A double ESC that is cut: both are emitted in place of the first. -/
theorem events_cutEscape (hcut : SplitsEscape (scan [] text) next) (tail : List Item) :
    ¬ events (emitAll pending (scan [] text).sequences).2 <+:
      events ((emitAll pending (scan [] (text ++ next)).sequences).2 ++ tail) := by
  obtain ⟨before, after, hbefore, hafter⟩ := scan_append_splitsEscape hcut
  obtain ⟨more, hmore⟩ := events_emitAll_esc hprintable before
    (show ([esc, esc] : Text).head? = some esc from rfl) []
  obtain ⟨more', hmore'⟩ := events_emitAll_esc hprintable before
    (show ([esc] : Text).head? = some esc from rfl) after
  rw [hbefore, hafter, events_append, hmore, hmore', List.append_assoc,
    List.prefix_append_right_inj]
  rintro ⟨rest, hrest⟩
  cases hrest

theorem process_text_cutEscape (hsome : text ≠ [])
    (htext : indexOf BRACKETED_PASTE_START text = none) (hcut : SplitsEscape (scan [] text) next)
    (hbehind : ∀ i, indexOf BRACKETED_PASTE_START (text ++ next) = some i → text.length ≤ i) :
    ¬ events (process { pendingKittyPrintableCodepoint := pending } text).2 <+:
      events (process { pendingKittyPrintableCodepoint := pending } (text ++ next)).2 := by
  rw [process_text hsome htext]
  cases hstart : indexOf BRACKETED_PASTE_START (text ++ next) with
  | none =>
    have hwhole := events_cutEscape hprintable hcut []
    rw [process_text (List.append_ne_nil_of_left_ne_nil hsome next) hstart]
    rwa [List.append_nil] at hwhole
  | some i =>
    have hle := hbehind i hstart
    have hbefore : (text ++ next).take i = text ++ next.take (i - text.length) := by
      rw [List.take_append, List.take_of_length_le hle]
    -- the unit that begins a sequence stands before the marker
    have hcut' : SplitsEscape (scan [] text) (next.take (i - text.length)) := by
      obtain ⟨hrem, hlast, hbegins⟩ := hcut
      refine ⟨hrem, hlast, ?_⟩
      have hpos : i - text.length ≠ 0 := by
        intro hzero
        have hat : i = text.length := by omega
        have hbegin := (EditTool.indexOf_some hstart).2
        rw [hat, List.drop_left] at hbegin
        obtain ⟨tail, rfl⟩ := hbegin
        cases hbegins
      obtain ⟨k, hk⟩ := Nat.exists_eq_succ_of_ne_zero hpos
      rw [hk]
      cases next with
      | nil => cases hbegins
      | cons u rest => exact hbegins
    rw [process_start (s := { pendingKittyPrintableCodepoint := pending }) rfl (text ++ next)
      hstart, beforePaste, List.nil_append, hbefore]
    exact events_cutEscape hprintable hcut' _

theorem process_text_cut (hsome : text ≠ []) (htext : indexOf BRACKETED_PASTE_START text = none)
    (hcut : CutsAt text next) :
    ¬ events (process { pendingKittyPrintableCodepoint := pending } text).2 <+:
      events (process { pendingKittyPrintableCodepoint := pending } (text ++ next)).2 := by
  simp only [CutsAt, extractCompleteSequences_eq_scan] at hcut
  rcases hcut with hesc | ⟨i, hstart, hin, hne⟩
  · by_cases hbehind : ∀ i, indexOf BRACKETED_PASTE_START (text ++ next) = some i → text.length ≤ i
    · exact process_text_cutEscape hprintable hsome htext hesc hbehind
    · simp only [not_forall, Nat.not_le] at hbehind
      obtain ⟨i, hstart, hin⟩ := hbehind
      refine process_text_cutMarker hprintable hsome htext hstart hin fun hsame => ?_
      -- all of the text is in sequences, so more of it than before the marker
      have hflat := congrArg List.length (scan_flatten text [])
      have hbefore := congrArg List.length (scan_flatten (text.take i) [])
      rw [hesc.1, hsame, List.append_nil, List.nil_append] at hflat
      rw [List.length_append, List.nil_append, List.length_take] at hbefore
      omega
  · exact process_text_cutMarker hprintable hsome htext hstart hin hne

end

end Cut

/-! ## Where a chunk ends -/

/-- What is read last: the text since the last paste, or none while a paste
is open. -/
def openText (text : Text) : Option Text :=
  match _hstart : indexOf BRACKETED_PASTE_START text with
  | none => some text
  | some i =>
      let pasteBuffer := text.drop (i + BRACKETED_PASTE_START.length)
      match indexOf BRACKETED_PASTE_END pasteBuffer with
      | none => none
      | some endIndex => openText (pasteBuffer.drop (endIndex + BRACKETED_PASTE_END.length))
termination_by text.length
decreasing_by
  have hle := EditTool.indexOf_le _hstart
  have hmarker : BRACKETED_PASTE_START.length = 6 := rfl
  simp only [List.length_drop]
  omega

def openBehindPaste (pasteBuffer : Text) : Option Text :=
  match indexOf BRACKETED_PASTE_END pasteBuffer with
  | none => none
  | some endIndex => openText (pasteBuffer.drop (endIndex + BRACKETED_PASTE_END.length))

theorem openText_none {text : Text} (h : indexOf BRACKETED_PASTE_START text = none) :
    openText text = some text := by
  rw [openText]
  split
  · rfl
  · rename_i i hstart
    rw [h] at hstart
    cases hstart

theorem openText_some {text : Text} {i : Nat} (h : indexOf BRACKETED_PASTE_START text = some i) :
    openText text = openBehindPaste (text.drop (i + BRACKETED_PASTE_START.length)) := by
  rw [openText]
  split
  · rename_i hstart
    rw [h] at hstart
    cases hstart
  · rename_i j hstart
    obtain rfl : j = i := Option.some.inj (hstart.symm.trans h)
    rfl

/-- The text a chunk ends in. -/
def lastText (s : StdinBuffer) (str : Text) : Option Text :=
  if s.pasteMode then openBehindPaste (s.pasteBuffer ++ str) else openText (s.buffer ++ str)

/-- How reading goes on behind a chunk: `read` is the call for the chunk and
what follows it. -/
structure Resumes (read : Text → StdinBuffer × List Item) (last : Option Text) : Prop where
  paste : last = none → ∀ next, next ≠ [] → read next = andThen (read []) next
  text : ∀ text, last = some text → indexOf BRACKETED_PASTE_START text = none ∧
    ∃ items pending, (∀ n, pending = some n → 32 ≤ n) ∧
      (text = [] → pending = none ∧ read [] = ({}, items)) ∧
      ∀ next, text ++ next ≠ [] →
        read next = ((process { pendingKittyPrintableCodepoint := pending } (text ++ next)).1,
          items ++ (process { pendingKittyPrintableCodepoint := pending } (text ++ next)).2)

theorem Resumes.prepend {read : Text → StdinBuffer × List Item} {last : Option Text}
    (h : Resumes read last) (before : List Item) :
    Resumes (fun next => ((read next).1, before ++ (read next).2)) last := by
  refine ⟨fun hlast next hnext => ?_, fun text hlast => ?_⟩
  · rw [h.paste hlast next hnext, andThen, andThen, List.append_assoc]
  · obtain ⟨hstart, items, pending, hprintable, hempty, hread⟩ := h.text text hlast
    refine ⟨hstart, before ++ items, pending, hprintable, fun hnil => ?_, fun next hnext => ?_⟩
    · obtain ⟨hpending, hfirst⟩ := hempty hnil
      exact ⟨hpending, by rw [hfirst]⟩
    · rw [hread next hnext, List.append_assoc]

theorem readPaste_resumes (s : StdinBuffer) (pasteBuffer : Text)
    (h : ∀ rest, rest ≠ [] → rest.length + BRACKETED_PASTE_END.length ≤ pasteBuffer.length →
      Resumes (fun next => process {} (rest ++ next)) (openText rest)) :
    Resumes (fun next => readPaste process s (pasteBuffer ++ next))
      (openBehindPaste pasteBuffer) := by
  rw [openBehindPaste]
  cases hend : indexOf BRACKETED_PASTE_END pasteBuffer with
  | none =>
    refine ⟨fun _ next hnext => ?_, fun text hlast => by cases hlast⟩
    have hopen : readPaste process s (pasteBuffer ++ []) =
        ({ s with buffer := [], pasteMode := true, pasteBuffer }, []) := by
      rw [List.append_nil, readPaste, hend]
    rw [hopen, andThen, process_eq _ next fun hidle => hnext hidle.1]
    dsimp only
    rw [if_pos rfl, List.nil_append, List.nil_append]
    exact readPaste_pending rfl _
  | some endIndex =>
    have hle := EditTool.indexOf_le hend
    have hread : ∀ next, readPaste process s (pasteBuffer ++ next) =
        if (pasteBuffer.drop (endIndex + BRACKETED_PASTE_END.length) ++ next).length > 0 then
          ((process {} (pasteBuffer.drop (endIndex + BRACKETED_PASTE_END.length) ++ next)).1,
            [.paste (pasteBuffer.take endIndex)] ++ (process {}
              (pasteBuffer.drop (endIndex + BRACKETED_PASTE_END.length) ++ next)).2)
        else ({}, [.paste (pasteBuffer.take endIndex)]) := by
      intro next
      rw [readPaste, indexOf_append hend next]
      dsimp only
      rw [List.take_append_of_le_length (by omega), List.drop_append_of_le_length hle]
      rfl
    dsimp only
    by_cases hrest : pasteBuffer.drop (endIndex + BRACKETED_PASTE_END.length) = []
    · rw [hrest] at hread ⊢
      have hlast : openText [] = some [] := openText_none rfl
      rw [hlast]
      refine ⟨fun hnone => (by cases hnone), fun text htext => ?_⟩
      obtain rfl := Option.some.inj htext
      refine ⟨rfl, [.paste (pasteBuffer.take endIndex)], none, fun n hn => (by cases hn),
        fun _ => ⟨rfl, by rw [hread]; rfl⟩, fun next hnext => ?_⟩
      rw [hread, if_pos (List.length_pos_iff.mpr hnext)]
    · have hmore := h _ hrest (by rw [List.length_drop]; omega)
      have hall : (fun next => readPaste process s (pasteBuffer ++ next)) = fun next =>
          ((process {} (pasteBuffer.drop (endIndex + BRACKETED_PASTE_END.length) ++ next)).1,
            [.paste (pasteBuffer.take endIndex)] ++ (process {}
              (pasteBuffer.drop (endIndex + BRACKETED_PASTE_END.length) ++ next)).2) := by
        funext next
        rw [hread, if_pos (List.length_pos_iff.mpr (List.append_ne_nil_of_left_ne_nil hrest _))]
      rw [hall]
      exact hmore.prepend _

/-- The buffer may be read again with what follows it. -/
theorem process_buffer (h : Settled s) (hmode : s.pasteMode = false) {str : Text}
    (hidle : s.buffer ++ str ≠ []) :
    s.process str =
      process { pendingKittyPrintableCodepoint := s.pendingKittyPrintableCodepoint }
        (s.buffer ++ str) := by
  cases hstart : indexOf BRACKETED_PASTE_START (s.buffer ++ str) with
  | none =>
    have hnot : ¬ (str = [] ∧ s.buffer = []) := fun hnil => hidle (by rw [hnil.1, hnil.2]; rfl)
    rw [process_text hidle hstart, process_eq s str hnot, hstart, if_neg (by rw [hmode]; decide)]
    simp only [readText, hmode, (h.reading hmode).1]
  | some i =>
    have hagain : process { pendingKittyPrintableCodepoint := s.pendingKittyPrintableCodepoint }
        (s.buffer ++ str) = _ := process_start rfl (s.buffer ++ str) hstart
    rw [process_start hmode str hstart, hagain]
    rfl

/-- Behind every chunk reading goes on where it ends. -/
theorem process_resumes (s : StdinBuffer) (str : Text) (h : Settled s)
    (hidle : ¬ (str = [] ∧ s.buffer = [])) :
    Resumes (fun next => s.process (str ++ next)) (s.lastText str) := by
  induction hsize : s.size str using Nat.strong_induction_on generalizing s str with
  | _ size ih =>
    have hrest : ∀ (text : Text), text.length ≤ size → ∀ (rest : Text), rest ≠ [] →
        rest.length + BRACKETED_PASTE_END.length ≤ text.length →
        Resumes (fun next => process {} (rest ++ next)) (openText rest) := by
      intro text htext rest hne hlen
      have hmarker : BRACKETED_PASTE_END.length = 6 := rfl
      exact ih rest.length (by omega) {} rest settled_init (fun hnil => hne hnil.1)
        (by simp [StdinBuffer.size])
    cases hmode : s.pasteMode with
    | true =>
      have hbuffer := (h.pasting hmode).1
      have hsome : str ≠ [] := fun hnil => hidle ⟨hnil, hbuffer⟩
      have hall : (fun next => s.process (str ++ next)) =
          fun next => readPaste process s (s.pasteBuffer ++ str ++ next) := by
        funext next
        rw [process_eq s _ fun hnil => hsome (List.append_eq_nil_iff.mp hnil.1).1, if_pos hmode,
          hbuffer, List.nil_append, List.append_assoc]
      rw [hall, lastText, if_pos hmode]
      refine readPaste_resumes s _ (hrest _ ?_)
      simp only [← hsize, StdinBuffer.size, List.length_append]
      omega
    | false =>
      rw [lastText, hmode, if_neg Bool.false_ne_true]
      have hsome : s.buffer ++ str ≠ [] := fun hnil =>
        hidle ⟨(List.append_eq_nil_iff.mp hnil).2, (List.append_eq_nil_iff.mp hnil).1⟩
      cases hstart : indexOf BRACKETED_PASTE_START (s.buffer ++ str) with
      | none =>
        rw [openText_none hstart]
        refine ⟨fun hnone => (by cases hnone), fun text htext => ?_⟩
        obtain rfl := Option.some.inj htext
        refine ⟨hstart, [], s.pendingKittyPrintableCodepoint, h.printable,
          fun hnil => absurd hnil hsome, fun next hnext => ?_⟩
        rw [List.append_assoc] at hnext ⊢
        rw [process_buffer h hmode hnext, List.nil_append]
      | some i =>
        have hle := EditTool.indexOf_le hstart
        have hall : (fun next => s.process (str ++ next)) = fun next =>
            ((readPaste process {} ((s.buffer ++ str).drop
                (i + BRACKETED_PASTE_START.length) ++ next)).1,
              s.beforePaste ((s.buffer ++ str).take i) ++ (readPaste process {}
                ((s.buffer ++ str).drop (i + BRACKETED_PASTE_START.length) ++ next)).2) := by
          funext next
          have hmore := indexOf_append hstart next
          rw [List.append_assoc] at hmore
          rw [process_start hmode (str ++ next) hmore, ← List.append_assoc,
            List.drop_append_of_le_length hle, List.take_append_of_le_length (by omega)]
        rw [hall, openText_some hstart]
        refine Resumes.prepend (readPaste_resumes {} _ (hrest _ ?_)) _
        simp only [← hsize, StdinBuffer.size, List.length_append, List.length_drop]
        omega

/-! ## Two chunks -/

/-- The boundary between a chunk and what follows it lies in a double ESC or
a paste start. -/
def CutsChunk (s : StdinBuffer) (str next : Text) : Prop :=
  ∃ text, s.lastText str = some text ∧ CutsAt text next

section Chunk

variable {s : StdinBuffer} {str next : Text}

theorem process_append (h : Settled s) (hidle : ¬ (str = [] ∧ s.buffer = [])) (hnext : next ≠ [])
    (hcut : ¬ s.CutsChunk str next) :
    s.process (str ++ next) = andThen (s.process str) next := by
  have hresumes := process_resumes s str h hidle
  have hfirst : s.process str = s.process (str ++ []) := by rw [List.append_nil]
  cases hlast : s.lastText str with
  | none =>
    rw [hfirst]
    exact hresumes.paste hlast next hnext
  | some text =>
    obtain ⟨hstart, items, pending, -, hempty, hread⟩ := hresumes.text text hlast
    rw [hread next (List.append_ne_nil_of_right_ne_nil text hnext), hfirst]
    by_cases hnil : text = []
    · obtain ⟨rfl, hdone⟩ := hempty hnil
      rw [hdone, hnil]
      rfl
    · rw [hread [] (List.append_ne_nil_of_left_ne_nil hnil []), List.append_nil,
        process_text_append hnil hnext hstart fun hcuts => hcut ⟨text, hlast, hcuts⟩]
      simp only [andThen, List.append_assoc]

theorem process_cut (h : Settled s) (hidle : ¬ (str = [] ∧ s.buffer = []))
    (hcut : s.CutsChunk str next) :
    ¬ events (s.process str).2 <+: events (s.process (str ++ next)).2 := by
  obtain ⟨text, hlast, hcuts⟩ := hcut
  have hfirst : s.process str = s.process (str ++ []) := by rw [List.append_nil]
  obtain ⟨hstart, items, pending, hprintable, -, hread⟩ :=
    (process_resumes s str h hidle).text text hlast
  have hsome : text ≠ [] := by
    rintro rfl
    rcases hcuts with ⟨-, hlast, -⟩ | ⟨i, -, hin, -⟩
    · cases hlast
    · cases hin
  rw [hfirst, hread [] (List.append_ne_nil_of_left_ne_nil hsome []),
    hread next (List.append_ne_nil_of_left_ne_nil hsome next), List.append_nil, events_append,
    events_append, List.prefix_append_right_inj]
  exact process_text_cut hprintable hsome hstart hcuts

/-- Nothing follows: nothing is cut. -/
theorem not_cutsChunk_nil (h : Settled s) (hidle : ¬ (str = [] ∧ s.buffer = [])) :
    ¬ s.CutsChunk str [] := by
  rintro ⟨text, hlast, hcuts⟩
  obtain ⟨hstart, -⟩ := (process_resumes s str h hidle).text text hlast
  rcases hcuts with ⟨-, -, hbegins⟩ | ⟨i, hi, -, -⟩
  · cases hbegins
  · rw [List.append_nil, hstart] at hi
    cases hi

/-- An empty chunk behind an incomplete sequence changes nothing. -/
theorem process_nil (h : Settled s) (hbuffer : s.buffer ≠ []) : s.process [] = (s, []) := by
  have hmode : s.pasteMode = false := by
    by_contra hpaste
    rw [Bool.not_eq_false] at hpaste
    exact hbuffer (h.pasting hpaste).1
  obtain ⟨-, hheld, hstart⟩ := h.reading hmode
  have hread := scan_held_append hheld []
  rw [List.append_nil] at hread
  rw [process_eq s [] fun hidle => hbuffer hidle.2, List.append_nil, hstart,
    if_neg (by rw [hmode]; decide)]
  simp only [readText, hread]
  rfl

end Chunk

/-! ## Empty chunks -/

theorem emitAll_nonempty {sequences : List Text} (h : ∀ sequence ∈ sequences, sequence ≠ []) :
    ∀ {pending : Option Nat}, Item.data [] ∉ (emitAll pending sequences).2 := by
  induction sequences with
  | nil => exact fun hmem => by cases hmem
  | cons sequence rest ih =>
    intro pending hmem
    rcases List.mem_cons.mp hmem with heq | hmem
    · have htext := emitDataSequence_text pending sequence
      have heq' : Item.data [] = (emitDataSequence pending sequence).2 := heq
      rw [← heq'] at htext
      exact h sequence List.mem_cons_self htext.symm
    · exact ih (fun other hother => h other (List.mem_cons_of_mem _ hother)) hmem

theorem readPaste_nonempty {pasteBuffer : Text}
    (h : ∀ rest, rest ≠ [] → rest.length + BRACKETED_PASTE_END.length ≤ pasteBuffer.length →
      Item.data [] ∉ (process {} rest).2) :
    Item.data [] ∉ (readPaste process s pasteBuffer).2 := by
  unfold readPaste
  cases hend : indexOf BRACKETED_PASTE_END pasteBuffer with
  | none => exact List.not_mem_nil
  | some endIndex =>
    have hle := EditTool.indexOf_le hend
    dsimp only
    split
    · rename_i hmore
      have hrest := h _ (List.ne_nil_of_length_pos hmore) (by rw [List.length_drop]; omega)
      simpa using hrest
    · simp

/-- Only a call with nothing to read emits the empty text. -/
theorem process_nonempty (s : StdinBuffer) (str : Text) (hidle : ¬ (str = [] ∧ s.buffer = [])) :
    Item.data [] ∉ (s.process str).2 := by
  induction hsize : s.size str using Nat.strong_induction_on generalizing s str with
  | _ size ih =>
    have hrest : ∀ (text : Text), text.length ≤ size → ∀ (rest : Text), rest ≠ [] →
        rest.length + BRACKETED_PASTE_END.length ≤ text.length →
        Item.data [] ∉ (process {} rest).2 := by
      intro text htext rest hne hlen
      have hmarker : BRACKETED_PASTE_END.length = 6 := rfl
      exact ih rest.length (by omega) {} rest (fun hnil => hne hnil.1)
        (by simp [StdinBuffer.size])
    rw [process_eq s str hidle]
    split
    · refine readPaste_nonempty (hrest _ ?_)
      simp only [← hsize, StdinBuffer.size, List.length_append]
      omega
    · cases hstart : indexOf BRACKETED_PASTE_START (s.buffer ++ str) with
      | some i =>
        refine fun hmem => (List.mem_append.mp hmem).elim
          (emitAll_nonempty (scan_nonempty _ [])) (readPaste_nonempty (hrest _ ?_))
        simp only [← hsize, StdinBuffer.size, List.length_append, List.length_drop]
        omega
      | none => exact emitAll_nonempty (scan_nonempty _ [])

/-! ## All chunks -/

/-- No chunk is empty while nothing is buffered, and no boundary cuts a
double ESC or a paste start. -/
def Independent : StdinBuffer → List Text → Prop
  | _, [] => True
  | s, str :: rest =>
      ¬ (str = [] ∧ s.buffer = []) ∧ ¬ s.CutsChunk str rest.flatten ∧
        Independent (s.process str).1 rest

/-- The items of chunks fed one after another. -/
def feed (s : StdinBuffer) (chunks : List Text) : List Item :=
  (s.run (chunks.map InputAction.chunk)).2

theorem feed_cons (s : StdinBuffer) (str : Text) (rest : List Text) :
    s.feed (str :: rest) = (s.process str).2 ++ (s.process str).1.feed rest := rfl

theorem feed_singleton (s : StdinBuffer) (str : Text) : s.feed [str] = (s.process str).2 := by
  rw [feed_cons]
  exact List.append_nil _

theorem process_idle_events (hbuffer : s.buffer = []) :
    events (s.process []).2 = [.data []] := by
  rw [process_idle hbuffer]
  rfl

variable {chunks : List Text}

theorem feed_empty_iff (hempty : chunks.flatten = []) :
    ∀ {s : StdinBuffer}, Settled s → (events (s.feed chunks) = [] ↔ Independent s chunks) := by
  induction chunks with
  | nil => exact fun _ => ⟨fun _ => trivial, fun _ => rfl⟩
  | cons str rest ih =>
    intro s h
    obtain ⟨rfl, hrest⟩ := List.append_eq_nil_iff.mp hempty
    rw [feed_cons, Independent, hrest, events_append]
    by_cases hbuffer : s.buffer = []
    · rw [process_idle_events hbuffer]
      exact ⟨fun hnil => (by cases hnil), fun hall => absurd ⟨rfl, hbuffer⟩ hall.1⟩
    · have hidle : ¬ (([] : Text) = [] ∧ s.buffer = []) := fun hnil => hbuffer hnil.2
      have hcut := not_cutsChunk_nil h hidle
      rw [process_nil h hbuffer]
      exact (ih hrest h).trans ⟨fun hall => ⟨hidle, hcut, hall⟩, fun hall => hall.2.2⟩

theorem feed_idle (hempty : chunks.flatten = []) :
    ∀ {s : StdinBuffer}, s.buffer = [] →
      events (s.feed chunks) = List.replicate chunks.length (.data []) := by
  induction chunks with
  | nil => exact fun _ => rfl
  | cons str rest ih =>
    intro s hbuffer
    obtain ⟨rfl, hrest⟩ := List.append_eq_nil_iff.mp hempty
    have hlater := ih hrest (show (s.process []).1.buffer = [] by
      rw [process_idle hbuffer]
      exact hbuffer)
    rw [feed_cons, events_append, hlater, process_idle_events hbuffer, List.length_cons,
      List.replicate_succ]
    rfl

theorem feed_iff (hsome : chunks.flatten ≠ []) :
    ∀ {s : StdinBuffer}, Settled s →
      (events (s.feed chunks) = events (s.process chunks.flatten).2 ↔ Independent s chunks) := by
  induction chunks with
  | nil => exact absurd rfl hsome
  | cons str rest ih =>
    intro s h
    rw [feed_cons, Independent, List.flatten_cons, events_append]
    by_cases hidle : str = [] ∧ s.buffer = []
    · -- the empty text is emitted first, and never for text that is read
      refine ⟨fun heq => ?_, fun hall => absurd hidle hall.1⟩
      obtain ⟨rfl, hbuffer⟩ := hidle
      have hread := process_nonempty s rest.flatten fun hnil => hsome hnil.1
      rw [process_idle_events hbuffer, List.nil_append] at heq
      have hmem : Item.data [] ∈ events (s.process rest.flatten).2 := by
        rw [← heq]
        exact List.mem_cons_self
      exact absurd (List.mem_of_mem_filter hmem) hread
    · by_cases hcut : s.CutsChunk str rest.flatten
      · refine ⟨fun heq => ?_, fun hall => absurd hcut hall.2.1⟩
        exact absurd ⟨_, heq⟩ (process_cut h hidle hcut)
      · have hsettled := process_settled s str h
        have hdrop : ∀ P : Prop, (¬ (str = [] ∧ s.buffer = []) ∧
            ¬ s.CutsChunk str rest.flatten ∧ P) ↔ P :=
          fun P => ⟨fun hall => hall.2.2, fun hp => ⟨hidle, hcut, hp⟩⟩
        rw [hdrop]
        by_cases hrest : rest.flatten = []
        · rw [hrest, List.append_nil, ← feed_empty_iff hrest hsettled]
          exact List.append_right_eq_self
        · rw [process_append h hidle hrest hcut, andThen, events_append,
            List.append_cancel_left_eq]
          exact ih hrest hsettled

end StdinBuffer

/-- The events do not depend on how the input is cut into chunks exactly
when no chunk but the input itself is empty while nothing is buffered, and
no chunk ends inside a double ESC or a paste start that is read otherwise
there. -/
theorem chunks_independent_iff (chunks : List Text) :
    events (StdinBuffer.feed {} chunks) = events (StdinBuffer.feed {} [chunks.flatten]) ↔
      chunks = [[]] ∨ (chunks.flatten ≠ [] ∧ StdinBuffer.Independent {} chunks) := by
  rw [StdinBuffer.feed_singleton]
  by_cases hflat : chunks.flatten = []
  · rw [StdinBuffer.feed_idle hflat rfl, hflat, StdinBuffer.process_idle_events rfl]
    refine ⟨fun heq => .inl ?_, fun hall => ?_⟩
    · have hlength := congrArg List.length heq
      rw [List.length_replicate] at hlength
      obtain ⟨str, rfl⟩ := List.length_eq_one_iff.mp hlength
      rw [List.flatten_singleton] at hflat
      rw [hflat]
    · rcases hall with rfl | ⟨hsome, -⟩
      · rfl
      · exact absurd rfl hsome
  · rw [StdinBuffer.feed_iff hflat StdinBuffer.settled_init]
    refine ⟨fun hall => .inr ⟨hflat, hall⟩, fun hall => ?_⟩
    rcases hall with rfl | ⟨-, hall⟩
    · exact absurd rfl hflat
    · exact hall

/-- An Escape key and an arrow key: cut between the double ESC and the
bracket they are emitted as three other sequences, and nothing is left. -/
theorem escape_arrow_cut :
    let chunks : List Text := [[esc, esc], [openBracket, 0x41]]
    (StdinBuffer.run {} (chunks.map InputAction.chunk)).1.buffer = [] ∧
      StdinBuffer.feed {} chunks = [.data [esc, esc], .data [openBracket], .data [0x41]] ∧
      StdinBuffer.feed {} [chunks.flatten] = [.data [esc], .data [esc, openBracket, 0x41]] ∧
      events (StdinBuffer.feed {} chunks) ≠ events (StdinBuffer.feed {} [chunks.flatten]) := by
  decide

end Tui

end Eagent
