import Eagent.InputScan

/-!
# No input is lost

Every unit that arrives is emitted, suppressed, flushed or still held,
except for an incomplete sequence that stands before a paste start: its
text is dropped. What a run has produced and holds is the input exactly when
no chunk completes a paste start behind such a sequence
(`inputAccounted_iff`).
-/

namespace Eagent

namespace Tui

open EditTool (indexOf)

/-! ## Texts -/

/-- The input an item stands for. -/
def Item.text : Item → Text
  | .data sequence => sequence
  | .suppressed unit => [unit]
  | .paste content => BRACKETED_PASTE_START ++ content ++ BRACKETED_PASTE_END
  | .flushed sequence => sequence

def itemsText (items : List Item) : Text := items.flatMap Item.text

@[simp] theorem itemsText_append (as bs : List Item) :
    itemsText (as ++ bs) = itemsText as ++ itemsText bs := List.flatMap_append

@[simp] theorem itemsText_cons (item : Item) (items : List Item) :
    itemsText (item :: items) = item.text ++ itemsText items := rfl

def StdinBuffer.held (s : StdinBuffer) : Text :=
  (if s.pasteMode then BRACKETED_PASTE_START ++ s.pasteBuffer else []) ++ s.buffer

def InputAction.text : InputAction → Text
  | .chunk str => str
  | .flush | .timeout => []

/-! ## Dropped sequences -/

/-- Text outside a paste in which a paste start stands behind an incomplete
sequence. -/
def CutsSequence (text : Text) : Prop :=
  match _hstart : indexOf BRACKETED_PASTE_START text with
  | none => False
  | some i =>
      (extractCompleteSequences (text.take i)).remainder ≠ [] ∨
        let pasteBuffer := text.drop (i + BRACKETED_PASTE_START.length)
        match indexOf BRACKETED_PASTE_END pasteBuffer with
        | none => False
        | some endIndex => CutsSequence (pasteBuffer.drop (endIndex + BRACKETED_PASTE_END.length))
termination_by text.length
decreasing_by
  have hle := EditTool.indexOf_le _hstart
  have hmarker : BRACKETED_PASTE_START.length = 6 := rfl
  simp only [List.length_drop]
  omega

def CutsBehindPaste (pasteBuffer : Text) : Prop :=
  match indexOf BRACKETED_PASTE_END pasteBuffer with
  | none => False
  | some endIndex => CutsSequence (pasteBuffer.drop (endIndex + BRACKETED_PASTE_END.length))

theorem cutsSequence_iff (text : Text) :
    CutsSequence text ↔ ∃ i, indexOf BRACKETED_PASTE_START text = some i ∧
      ((extractCompleteSequences (text.take i)).remainder ≠ [] ∨
        CutsBehindPaste (text.drop (i + BRACKETED_PASTE_START.length))) := by
  rw [CutsSequence]
  split
  · rename_i hstart
    simp [hstart]
  · rename_i i hstart
    simp only [hstart, Option.some.injEq, exists_eq_left']
    rfl

def StdinBuffer.Cuts (s : StdinBuffer) (str : Text) : Prop :=
  if s.pasteMode then CutsBehindPaste (s.pasteBuffer ++ str) else CutsSequence (s.buffer ++ str)

/-! ## One call -/

/-- A call accounts for the text it reads, or has lost some of it. -/
structure Accounts (before : Text) (cuts : Prop) (result : StdinBuffer × List Item) : Prop where
  kept : ¬ cuts → itemsText result.2 ++ result.1.held = before
  lost : cuts → (itemsText result.2 ++ result.1.held).length < before.length

theorem emitDataSequence_text (pending : Option Nat) (sequence : Text) :
    (emitDataSequence pending sequence).2.text = sequence := by
  unfold emitDataSequence
  split
  · rename_i u hraw
    have hsequence : sequence = [u] := by
      unfold rawCodepoint at hraw
      split at hraw
      · rw [Option.some.inj hraw]
      · cases hraw
    split
    · exact hsequence.symm
    · rfl
  · rfl

theorem emitAll_text (sequences : List Text) :
    ∀ pending, itemsText (emitAll pending sequences).2 = sequences.flatten := by
  induction sequences with
  | nil => exact fun _ => rfl
  | cons sequence rest ih =>
    intro pending
    rw [emitAll, itemsText_cons, emitDataSequence_text, ih, List.flatten_cons]

/-- The marker that is found, and what stands around it. -/
theorem indexOf_split {pattern text : Text} {i : Nat} (h : indexOf pattern text = some i) :
    text = text.take i ++ pattern ++ text.drop (i + pattern.length) := by
  obtain ⟨tail, htail⟩ := (EditTool.indexOf_some h).2
  have hdrop : text.drop (i + pattern.length) = tail := by
    rw [← List.drop_drop, ← htail, List.drop_left]
  rw [hdrop, List.append_assoc, htail, List.take_append_drop]

namespace StdinBuffer

variable {s : StdinBuffer}

theorem readText_accounts (hmode : s.pasteMode = false) {text : Text} :
    itemsText (s.readText text).2 ++ (s.readText text).1.held = text := by
  have hflat := scan_flatten text []
  rw [readText, held, emitAll_text]
  simpa [hmode] using hflat

theorem readPaste_accounts {pasteBuffer : Text}
    (h : ∀ rest, rest ≠ [] → rest.length + BRACKETED_PASTE_END.length ≤ pasteBuffer.length →
      Accounts rest (CutsSequence rest) (process {} rest)) :
    Accounts (BRACKETED_PASTE_START ++ pasteBuffer) (CutsBehindPaste pasteBuffer)
      (readPaste process s pasteBuffer) := by
  unfold readPaste CutsBehindPaste
  cases hend : indexOf BRACKETED_PASTE_END pasteBuffer with
  | none => exact ⟨fun _ => by simp [itemsText, held], fun hcuts => hcuts.elim⟩
  | some endIndex =>
    have hle := EditTool.indexOf_le hend
    have hsplit := indexOf_split hend
    dsimp only
    split
    · rename_i hmore
      have hrest := h _ (List.ne_nil_of_length_pos hmore) (by rw [List.length_drop]; omega)
      refine ⟨fun hcuts => ?_, fun hcuts => ?_⟩
      · rw [itemsText_cons, List.append_assoc, hrest.kept hcuts, Item.text, List.append_assoc,
          List.append_assoc, ← List.append_assoc (pasteBuffer.take endIndex), ← hsplit]
      · have hlost := hrest.lost hcuts
        have hlength := congrArg List.length hsplit
        simp only [List.length_append] at hlength hlost
        simp only [itemsText_cons, Item.text, List.length_append]
        omega
    · rename_i hdone
      have hrest : pasteBuffer.drop (endIndex + BRACKETED_PASTE_END.length) = [] :=
        List.length_eq_zero_iff.mp (Nat.eq_zero_of_not_pos hdone)
      rw [hrest] at hsplit ⊢
      refine ⟨fun _ => ?_, fun hcuts => ?_⟩
      · conv_rhs => rw [hsplit]
        simp [itemsText, Item.text, held]
      · rw [cutsSequence_iff] at hcuts
        obtain ⟨i, hi, -⟩ := hcuts
        cases hi

theorem readPaste_behind_accounts {text : Text} {i : Nat} {pasted : StdinBuffer × List Item}
    (hstart : indexOf BRACKETED_PASTE_START text = some i)
    (h : Accounts (BRACKETED_PASTE_START ++ text.drop (i + BRACKETED_PASTE_START.length))
      (CutsBehindPaste (text.drop (i + BRACKETED_PASTE_START.length))) pasted) :
    Accounts text (CutsSequence text) (pasted.1, s.beforePaste (text.take i) ++ pasted.2) := by
  have hflat : (scan [] (text.take i)).sequences.flatten ++ (scan [] (text.take i)).remainder =
      text.take i := scan_flatten (text.take i) []
  have hsplit := indexOf_split hstart
  rw [List.append_assoc] at hsplit
  have hcuts_iff : CutsSequence text ↔ (scan [] (text.take i)).remainder ≠ [] ∨
      CutsBehindPaste (text.drop (i + BRACKETED_PASTE_START.length)) := by
    rw [cutsSequence_iff, hstart]
    simp only [Option.some.injEq, exists_eq_left', extractCompleteSequences_eq_scan]
  refine ⟨fun hcuts => ?_, fun hcuts => ?_⟩
  · rw [hcuts_iff, not_or, not_not] at hcuts
    rw [hcuts.1, List.append_nil] at hflat
    rw [itemsText_append, beforePaste, emitAll_text, hflat, List.append_assoc, h.kept hcuts.2,
      ← hsplit]
  · have hlength := congrArg List.length hsplit
    have hbefore := congrArg List.length hflat
    have hshort : (itemsText pasted.2 ++ pasted.1.held).length ≤
        (BRACKETED_PASTE_START ++ text.drop (i + BRACKETED_PASTE_START.length)).length := by
      by_cases hlost : CutsBehindPaste (text.drop (i + BRACKETED_PASTE_START.length))
      · exact Nat.le_of_lt (h.lost hlost)
      · exact Nat.le_of_eq (congrArg List.length (h.kept hlost))
    rw [List.length_append] at hlength hbefore hshort
    rw [itemsText_append, beforePaste, emitAll_text, List.append_assoc, List.length_append]
    rcases hcuts_iff.mp hcuts with hrem | hlost
    · have hpos : 0 < (scan [] (text.take i)).remainder.length := List.length_pos_iff.mpr hrem
      simp only [List.length_append] at hlength hbefore hshort ⊢
      omega
    · have hlost := h.lost hlost
      simp only [List.length_append] at hlength hbefore hshort hlost ⊢
      omega

theorem not_cutsSequence_nil : ¬ CutsSequence [] := by
  rw [cutsSequence_iff]
  rintro ⟨i, hi, -⟩
  cases hi

/-- A call with nothing to read emits the empty text. -/
theorem process_idle (hbuffer : s.buffer = []) :
    s.process [] = ({ s with pendingKittyPrintableCodepoint := none }, [.data []]) := by
  rw [process, processLoop, if_pos (by simp [hbuffer])]
  rfl

/-- One chunk: what is held and the chunk are what it produces and then
holds. -/
theorem process_accounts (s : StdinBuffer) (str : Text) (h : Settled s) :
    Accounts (s.held ++ str) (s.Cuts str) (s.process str) := by
  induction hsize : s.size str using Nat.strong_induction_on generalizing s str with
  | _ size ih =>
    by_cases hidle : str = [] ∧ s.buffer = []
    · obtain ⟨rfl, hbuffer⟩ := hidle
      have huncut : ¬ s.Cuts [] := by
        rw [Cuts, CutsBehindPaste]
        split
        · rename_i hmode
          rw [List.append_nil, (h.pasting hmode).2]
          exact id
        · rw [hbuffer]
          exact not_cutsSequence_nil
      rw [process_idle hbuffer]
      exact ⟨fun _ => by simp [itemsText, Item.text, held], fun hcuts => (huncut hcuts).elim⟩
    · have hrest : ∀ (text rest : Text), text.length ≤ size → rest ≠ [] →
          rest.length + BRACKETED_PASTE_END.length ≤ text.length →
          Accounts rest (CutsSequence rest) (process {} rest) := by
        intro text rest htext hne hlen
        have hmarker : BRACKETED_PASTE_END.length = 6 := rfl
        exact ih rest.length (by omega) {} rest settled_init (by simp [StdinBuffer.size])
      rw [process_eq s str hidle]
      split
      · rename_i hmode
        have hbuffer := (h.pasting hmode).1
        have hpasted : Accounts (BRACKETED_PASTE_START ++ (s.pasteBuffer ++ str))
            (CutsBehindPaste (s.pasteBuffer ++ str))
            (readPaste process s (s.pasteBuffer ++ str)) := by
          refine readPaste_accounts fun rest hne hlen => hrest _ rest ?_ hne hlen
          simp only [← hsize, StdinBuffer.size, List.length_append]
          omega
        rw [hbuffer, List.nil_append, Cuts, if_pos hmode, held, if_pos hmode, hbuffer,
          List.append_nil, List.append_assoc]
        exact hpasted
      · rename_i hmode
        rw [Bool.not_eq_true] at hmode
        have hheld : s.held ++ str = s.buffer ++ str := by simp [held, hmode]
        rw [Cuts, hheld, hmode, if_neg Bool.false_ne_true]
        generalize htext : s.buffer ++ str = text
        cases hstart : indexOf BRACKETED_PASTE_START text with
        | none =>
          refine ⟨fun _ => readText_accounts hmode, fun hcuts => ?_⟩
          obtain ⟨i, hi, -⟩ := (cutsSequence_iff text).mp hcuts
          rw [hstart] at hi
          cases hi
        | some i =>
          have hpasted : Accounts
              (BRACKETED_PASTE_START ++ text.drop (i + BRACKETED_PASTE_START.length))
              (CutsBehindPaste (text.drop (i + BRACKETED_PASTE_START.length)))
              (readPaste process { s with pendingKittyPrintableCodepoint := none }
                (text.drop (i + BRACKETED_PASTE_START.length))) := by
            refine readPaste_accounts fun rest hne hlen => hrest _ rest ?_ hne hlen
            simp only [← hsize, ← htext, StdinBuffer.size, List.length_append, List.length_drop]
            omega
          exact readPaste_behind_accounts hstart hpasted

theorem flush_accounts (s : StdinBuffer) (h : Settled s) :
    s.flush.2.flatten ++ s.flush.1.held = s.held := by
  unfold flush
  split
  · rfl
  · rename_i hbuffer
    have hmode : s.pasteMode = false := by
      by_contra hpaste
      rw [Bool.not_eq_false] at hpaste
      rw [(h.pasting hpaste).1] at hbuffer
      exact hbuffer rfl
    simp [held, hmode]

/-! ## A run -/

/-- No chunk of the run completes a paste start behind an incomplete
sequence. -/
def NeverCuts : StdinBuffer → List InputAction → Prop
  | _, [] => True
  | s, action :: rest =>
      (∀ str, action = .chunk str → ¬ s.Cuts str) ∧ NeverCuts (s.act action).1 rest

theorem act_accounts (h : Settled s) (action : InputAction) :
    Accounts (s.held ++ action.text) (∃ str, action = .chunk str ∧ s.Cuts str) (s.act action) := by
  cases action with
  | chunk str =>
    have hchunk := process_accounts s str h
    refine ⟨fun hcuts => hchunk.kept fun hcut => hcuts ⟨str, rfl, hcut⟩, ?_⟩
    rintro ⟨_, hchunk', hcut⟩
    cases hchunk'
    exact hchunk.lost hcut
  | flush =>
    have hflush := flush_accounts s h
    refine ⟨fun _ => ?_, by rintro ⟨_, hchunk, -⟩; cases hchunk⟩
    have htext : itemsText (s.flush.2.map Item.flushed) = s.flush.2.flatten := by
      rw [itemsText, List.flatMap_map]
      exact List.flatMap_id
    rw [act, htext, hflush, InputAction.text, List.append_nil]
  | timeout =>
    have hflush := flush_accounts s h
    refine ⟨fun _ => ?_, by rintro ⟨_, hchunk, -⟩; cases hchunk⟩
    rw [act, timeout, emitAll_text, InputAction.text, List.append_nil]
    exact hflush

theorem run_accounts (actions : List InputAction) :
    ∀ {s : StdinBuffer}, Settled s →
      Accounts (s.held ++ actions.flatMap InputAction.text) (¬ NeverCuts s actions)
        (s.run actions) := by
  induction actions with
  | nil => exact fun _ => ⟨fun _ => by simp [run, itemsText], fun hcuts => (hcuts trivial).elim⟩
  | cons action rest ih =>
    intro s h
    have hstep := act_accounts h action
    have hrest := ih (act_settled h action)
    have htext : s.held ++ (action :: rest).flatMap InputAction.text =
        (s.held ++ action.text) ++ rest.flatMap InputAction.text := by
      rw [List.flatMap_cons, List.append_assoc]
    have hcuts_iff : ¬ NeverCuts s (action :: rest) ↔
        (∃ str, action = .chunk str ∧ s.Cuts str) ∨ ¬ NeverCuts (s.act action).1 rest := by
      rw [NeverCuts, not_and_or]
      simp only [not_forall, not_not, exists_prop]
    rw [htext]
    refine ⟨fun hnever => ?_, fun hcuts => ?_⟩
    · rw [hcuts_iff, not_or] at hnever
      rw [run, itemsText_append, List.append_assoc, hrest.kept hnever.2, ← List.append_assoc,
        hstep.kept hnever.1]
    · rw [run, itemsText_append]
      have hstep' : (itemsText (s.act action).2 ++ (s.act action).1.held).length ≤
          (s.held ++ action.text).length := by
        by_cases hcut : ∃ str, action = .chunk str ∧ s.Cuts str
        · exact Nat.le_of_lt (hstep.lost hcut)
        · exact Nat.le_of_eq (congrArg List.length (hstep.kept hcut))
      by_cases hlater : NeverCuts (s.act action).1 rest
      · have hnow := (hcuts_iff.mp hcuts).resolve_right (not_not.mpr hlater)
        have hkept := congrArg List.length (hrest.kept (not_not.mpr hlater))
        have hlost := hstep.lost hnow
        simp only [List.length_append] at hkept hlost ⊢
        omega
      · have hlost := hrest.lost hlater
        simp only [List.length_append] at hstep' hlost ⊢
        omega

end StdinBuffer

/-! ## Suppressed units -/

/-- Every suppressed unit directly follows the key it repeats. -/
def Justified (items : List Item) : Prop :=
  ∀ before unit after, items = before ++ .suppressed unit :: after →
    ∃ sequence, before.getLast? = some (.data sequence) ∧
      parseUnmodifiedKittyPrintableCodepoint sequence = some unit.toNat

/-- What has been produced, and the key that is remembered: the one emitted
last. -/
structure Traced (trace : List Item) (pending : Option Nat) : Prop where
  justified : Justified trace
  key : ∀ n, pending = some n → ∃ sequence, trace.getLast? = some (.data sequence) ∧
    parseUnmodifiedKittyPrintableCodepoint sequence = some n

theorem Justified.push {trace : List Item} (h : Justified trace) {item : Item}
    (hitem : ∀ unit, item = .suppressed unit →
      ∃ sequence, trace.getLast? = some (.data sequence) ∧
        parseUnmodifiedKittyPrintableCodepoint sequence = some unit.toNat) :
    Justified (trace ++ [item]) := by
  intro before unit after heq
  rcases List.eq_nil_or_concat after with rfl | ⟨rest, last, rfl⟩
  · obtain ⟨rfl, hlast⟩ := List.append_inj' heq rfl
    exact hitem unit (List.singleton_inj.mp hlast)
  · have heq' : trace ++ [item] = (before ++ .suppressed unit :: rest) ++ [last] := by
      rw [heq]
      simp
    exact h before unit rest (List.append_inj' heq' rfl).1

namespace Traced

variable {trace : List Item} {pending : Option Nat}

theorem forget (h : Traced trace pending) : Traced trace none :=
  ⟨h.justified, fun n hn => by cases hn⟩

theorem push (h : Traced trace pending) {item : Item} (hitem : ∀ unit, item ≠ .suppressed unit) :
    Traced (trace ++ [item]) none :=
  ⟨h.justified.push fun unit hunit => absurd hunit (hitem unit), fun n hn => by cases hn⟩

theorem emit (h : Traced trace pending) (sequence : Text) :
    Traced (trace ++ [(emitDataSequence pending sequence).2])
      (emitDataSequence pending sequence).1 := by
  have hdata : Traced (trace ++ [.data sequence])
      (parseUnmodifiedKittyPrintableCodepoint sequence) :=
    ⟨h.justified.push fun unit hunit => (by cases hunit),
      fun n hn => ⟨sequence, List.getLast?_concat, hn⟩⟩
  unfold emitDataSequence
  split
  · split
    · rename_i u _ hpending
      refine ⟨h.justified.push fun unit hunit => ?_, fun n hn => by cases hn⟩
      cases hunit
      exact h.key _ hpending
    · exact hdata
  · exact hdata

theorem emitAll (sequences : List Text) :
    ∀ {trace : List Item} {pending : Option Nat}, Traced trace pending →
      Traced (trace ++ (emitAll pending sequences).2) (Tui.emitAll pending sequences).1 := by
  induction sequences with
  | nil =>
    intro trace pending h
    rw [Tui.emitAll, List.append_nil]
    exact h
  | cons sequence rest ih =>
    intro trace pending h
    have hrest := ih (h.emit sequence)
    rw [List.append_assoc] at hrest
    exact hrest

end Traced

namespace StdinBuffer

variable {trace : List Item}

theorem readPaste_traced {s : StdinBuffer} {pasteBuffer : Text}
    (htrace : Traced trace s.pendingKittyPrintableCodepoint)
    (h : ∀ trace rest, rest.length + BRACKETED_PASTE_END.length ≤ pasteBuffer.length →
      Traced trace none →
      Traced (trace ++ (process {} rest).2) (process {} rest).1.pendingKittyPrintableCodepoint) :
    Traced (trace ++ (readPaste process s pasteBuffer).2)
      (readPaste process s pasteBuffer).1.pendingKittyPrintableCodepoint := by
  unfold readPaste
  cases hend : indexOf BRACKETED_PASTE_END pasteBuffer with
  | none => simpa using htrace
  | some endIndex =>
    have hle := EditTool.indexOf_le hend
    have hpaste : Traced (trace ++ [.paste (pasteBuffer.take endIndex)]) none :=
      htrace.push fun unit hunit => by cases hunit
    dsimp only
    split
    · have hrest := h _ (pasteBuffer.drop (endIndex + BRACKETED_PASTE_END.length))
        (by rw [List.length_drop]; omega) hpaste
      rw [List.append_assoc] at hrest
      exact hrest
    · exact hpaste

theorem process_traced (s : StdinBuffer) (str : Text)
    (h : Traced trace s.pendingKittyPrintableCodepoint) :
    Traced (trace ++ (s.process str).2) (s.process str).1.pendingKittyPrintableCodepoint := by
  induction hsize : s.size str using Nat.strong_induction_on generalizing s str trace with
  | _ size ih =>
    by_cases hidle : str = [] ∧ s.buffer = []
    · obtain ⟨rfl, hbuffer⟩ := hidle
      rw [process_idle hbuffer]
      exact h.push fun unit hunit => by cases hunit
    · have hrest : ∀ (text : Text), text.length ≤ size → ∀ (trace : List Item) (rest : Text),
          rest.length + BRACKETED_PASTE_END.length ≤ text.length → Traced trace none →
          Traced (trace ++ (process {} rest).2)
            (process {} rest).1.pendingKittyPrintableCodepoint := by
        intro text htext trace rest hlen htrace
        have hmarker : BRACKETED_PASTE_END.length = 6 := rfl
        exact ih rest.length (by omega) {} rest htrace (by simp [StdinBuffer.size])
      rw [process_eq s str hidle]
      split
      · refine readPaste_traced h (hrest _ ?_)
        simp only [← hsize, StdinBuffer.size, List.length_append]
        omega
      · cases hstart : indexOf BRACKETED_PASTE_START (s.buffer ++ str) with
        | some i =>
          have hbefore : Traced (trace ++ s.beforePaste ((s.buffer ++ str).take i)) none :=
            (h.emitAll _).forget
          have hpasted := readPaste_traced (s := { s with
            pendingKittyPrintableCodepoint := none }) hbefore (hrest
            ((s.buffer ++ str).drop (i + BRACKETED_PASTE_START.length)) ?_)
          · rw [List.append_assoc] at hpasted
            exact hpasted
          · simp only [← hsize, StdinBuffer.size, List.length_append, List.length_drop]
            omega
        | none => exact h.emitAll _

theorem act_traced (s : StdinBuffer) (action : InputAction)
    (h : Traced trace s.pendingKittyPrintableCodepoint) :
    Traced (trace ++ (s.act action).2) (s.act action).1.pendingKittyPrintableCodepoint := by
  cases action with
  | chunk str => exact process_traced s str h
  | flush =>
    unfold act flush
    dsimp only
    split
    · simpa using h
    · exact h.push fun unit hunit => by cases hunit
  | timeout =>
    unfold act timeout flush
    dsimp only
    split
    · simpa [Tui.emitAll] using h
    · exact h.forget.emitAll _

theorem run_traced (actions : List InputAction) :
    ∀ {s : StdinBuffer} {trace : List Item}, Traced trace s.pendingKittyPrintableCodepoint →
      Traced (trace ++ (s.run actions).2) (s.run actions).1.pendingKittyPrintableCodepoint := by
  induction actions with
  | nil => exact fun h => by simpa [run] using h
  | cons action rest ih =>
    intro s trace h
    have hrest := ih (act_traced s action h)
    rw [List.append_assoc] at hrest
    exact hrest

end StdinBuffer

/-- What a run has produced and holds is what arrived, and it suppresses
only units that repeat the key just emitted. -/
structure InputAccounted (actions : List InputAction) : Prop where
  text : itemsText (StdinBuffer.run {} actions).2 ++ (StdinBuffer.run {} actions).1.held =
    actions.flatMap InputAction.text
  suppressed : Justified (StdinBuffer.run {} actions).2

/-- No input is lost exactly when no chunk completes a paste start behind an
incomplete sequence. -/
theorem inputAccounted_iff (actions : List InputAction) :
    InputAccounted actions ↔ StdinBuffer.NeverCuts {} actions := by
  have hrun := StdinBuffer.run_accounts actions StdinBuffer.settled_init
  have htrace : Traced [] none :=
    ⟨fun before unit after h => by simp at h, fun n hn => by cases hn⟩
  have hjustified := (StdinBuffer.run_traced actions (s := {}) htrace).justified
  constructor
  · intro h
    by_contra hcuts
    have hlost := hrun.lost hcuts
    rw [h.text] at hlost
    exact Nat.lt_irrefl _ hlost
  · exact fun h => ⟨hrun.kept (not_not.mpr h), hjustified⟩

/-- The end of an operating system command has not arrived when a paste
begins. -/
theorem osc_before_paste_lost :
    let actions := [InputAction.chunk ([esc, 0x5d, 0x30] ++ BRACKETED_PASTE_START ++ [0x61] ++
      BRACKETED_PASTE_END)]
    (StdinBuffer.run {} actions).2 = [.paste [0x61]] ∧ ¬ InputAccounted actions := by
  refine ⟨by decide, fun h => ?_⟩
  have htext := h.text
  revert htext
  decide

end Tui

end Eagent
