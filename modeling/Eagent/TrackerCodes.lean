import Eagent.AnsiTracker

/-!
# The codes of a tracker

The codes that a tracker writes out for its state are codes, and reading them
brings the state about (`track_getActiveCodes`).
-/

namespace Eagent

namespace Tui

/-! ## Writing and reading back -/

theorem throughFinal_params {params : Text} (h : params.all isParamUnit = true) (rest : Text) :
    throughFinal (params ++ 0x6d :: rest) = some (params ++ [0x6d]) := by
  induction params with
  | nil => rfl
  | cons u params ih =>
    rw [List.all_cons, Bool.and_eq_true] at h
    have hu : isControlFinal u ≠ true := by
      intro hfinal
      rw [isControlFinal, decide_eq_true_eq] at hfinal
      obtain ⟨hparam, -⟩ := h
      simp only [List.mem_cons, List.not_mem_nil, or_false] at hfinal
      rcases hfinal with rfl | rfl | rfl | rfl | rfl <;> exact absurd hparam (by decide)
    rw [List.cons_append, throughFinal, if_neg hu, ih h.2]
    rfl

theorem isCode_sgrCode {params : Text} (h : params.all isParamUnit = true) :
    IsCode (AnsiCodeTracker.sgrCode params) := by
  intro rest
  have hthrough := throughFinal_params h rest
  have heq : AnsiCodeTracker.sgrCode params ++ rest =
      esc :: openBracket :: (params ++ 0x6d :: rest) := by
    rw [AnsiCodeTracker.sgrCode, List.append_assoc, List.append_assoc]
    rfl
  rw [heq, extractAnsiCode, if_neg (by decide), if_pos rfl, hthrough]
  rfl

theorem isCode_formatOsc8Close {terminator : Text}
    (h : terminator = [bel] ∨ terminator = stringTerminator) :
    IsCode (formatOsc8Close terminator) := by
  intro rest
  rcases h with rfl | rfl <;> rfl

namespace AnsiCodeTracker

variable {t : AnsiCodeTracker}

theorem process_sgrCode (t : AnsiCodeTracker) {params : Text}
    (h : params.all isParamUnit = true) (hne : params ≠ []) (hzero : params ≠ unitsOf "0") :
    t.process (sgrCode params) = processParts 0 t (params.splitOn semicolon) := by
  have hlink : parseOsc8Hyperlink (sgrCode params) = none := rfl
  have hlast : (sgrCode params).getLast? = some 0x6d := List.getLast?_concat
  have hparams : ∀ u ∈ params, isParamUnit u = true := List.all_eq_true.mp h
  have hmatch : matchSgr (sgrCode params) = some params := by
    have hdropped : (params ++ [0x6d]).dropWhile isParamUnit = [0x6d] :=
      List.dropWhile_append_of_pos hparams
    have htaken : (params ++ [0x6d]).takeWhile isParamUnit = params := by
      rw [List.takeWhile_append_of_pos hparams]
      exact List.append_nil params
    have heq : sgrCode params = esc :: openBracket :: (params ++ [0x6d]) := rfl
    rw [heq, matchSgr, sgrParams, hdropped, if_pos ⟨rfl, rfl, rfl⟩, htaken]
    rfl
  unfold process
  rw [hlink]
  dsimp only
  rw [if_neg (not_not_intro hlast), hmatch]
  dsimp only
  rw [if_neg]
  rintro (hnil | h0)
  · exact hne hnil
  · exact hzero h0

theorem processParts_flag {set : AnsiCodeTracker → AnsiCodeTracker} {code : Text}
    (h : Paints set code) (b : Bool) (t : AnsiCodeTracker) (rest : List Text) :
    processParts 0 t ((if b then [code] else []).flatMap (·.splitOn semicolon) ++ rest) =
      processParts 0 (if b then set t else t) rest := by
  cases b with
  | false => rfl
  | true =>
    rw [if_pos rfl, if_pos rfl, List.flatMap_singleton]
    exact h.process t rest

theorem processParts_option {set : Text → AnsiCodeTracker → AnsiCodeTracker} {o : Option Text}
    (h : ∀ c ∈ o, Paints (set c) c) (t : AnsiCodeTracker) (rest : List Text) :
    processParts 0 t (o.toList.flatMap (·.splitOn semicolon) ++ rest) =
      processParts 0 (o.elim t fun c => set c t) rest := by
  cases o with
  | none => rfl
  | some c =>
    rw [Option.toList_some, List.flatMap_singleton]
    exact (h c rfl).process t rest

theorem paints_flag {n : Nat} {code : Text} (hn : parseInt code = some n)
    (hcode : (n ≠ 38 ∧ n ≠ 48) ∧ n ≠ 0 ∧ code.all isParamUnit = true ∧ semicolon ∉ code) :
    Paints (·.standardCode n) code := paints_standard hn hcode.1 hcode.2.1 hcode.2.2

theorem Paints.mem_activeParams (h : t.Faithful) : ∀ c ∈ t.activeParams,
    c ≠ [] ∧ c ≠ unitsOf "0" ∧ c.all isParamUnit = true := by
  have hflag {b : Bool} {code : Text} (hcode : code ≠ [] ∧ code ≠ unitsOf "0" ∧
      code.all isParamUnit = true) : ∀ c ∈ (if b then [code] else []), c ≠ [] ∧
      c ≠ unitsOf "0" ∧ c.all isParamUnit = true := by
    intro c hc
    cases b with
    | false => cases hc
    | true =>
      obtain rfl := List.mem_singleton.mp hc
      exact hcode
  intro c hc
  simp only [activeParams, List.mem_append, Option.mem_toList] at hc
  rcases hc with ((((((((hc | hc) | hc) | hc) | hc) | hc) | hc) | hc) | hc) | hc
  · exact hflag (by decide) c hc
  · exact hflag (by decide) c hc
  · exact hflag (by decide) c hc
  · exact hflag (by decide) c hc
  · exact hflag (by decide) c hc
  · exact hflag (by decide) c hc
  · exact hflag (by decide) c hc
  · exact hflag (by decide) c hc
  · exact ⟨(h.fgColor c hc).nonempty, (h.fgColor c hc).nonzero, (h.fgColor c hc).units⟩
  · exact ⟨(h.bgColor c hc).nonempty, (h.bgColor c hc).nonzero, (h.bgColor c hc).units⟩

end AnsiCodeTracker

theorem joinParams_ne {parts : List Text} {text : Text} (htext : semicolon ∉ text)
    (hne : parts ≠ []) (h : ∀ c ∈ parts, c ≠ text) : joinParams parts ≠ text := by
  intro heq
  have hsplit := splitOn_joinParams parts hne
  rw [heq, List.splitOn_eq_singleton htext] at hsplit
  obtain ⟨c, rest, rfl⟩ := List.exists_cons_of_ne_nil hne
  rw [List.flatMap_cons] at hsplit
  obtain ⟨first, others, hfirst⟩ := List.exists_cons_of_ne_nil (List.splitOn_ne_nil semicolon c)
  rw [hfirst, List.cons_append] at hsplit
  obtain ⟨rfl, hnil⟩ := List.cons.inj hsplit
  have hothers := (List.append_eq_nil_iff.mp hnil.symm).1
  have hjoin : joinParams (c.splitOn semicolon) = c := List.intercalate_splitOn semicolon
  rw [hfirst, hothers, joinParams, List.intercalate_singleton] at hjoin
  exact h c List.mem_cons_self hjoin.symm

namespace AnsiCodeTracker

variable {t : AnsiCodeTracker}

theorem flag_eq (n : Nat) (set : AnsiCodeTracker → Bool → AnsiCodeTracker)
    (hfalse : ∀ s, set s false = s) (htrue : ∀ s, set s true = s.standardCode n)
    (s : AnsiCodeTracker) (b : Bool) : (if b then s.standardCode n else s) = set s b := by
  cases b with
  | false => exact (hfalse s).symm
  | true => exact (htrue s).symm

theorem processParts_activeParams (h : t.Faithful) :
    processParts 0 {} (t.activeParams.flatMap (·.splitOn semicolon)) =
      { t with activeHyperlink := none } := by
  have hbold := flag_eq 1 (fun s b => { s with bold := b || s.bold })
    (fun _ => rfl) (fun _ => rfl)
  have hdim := flag_eq 2 (fun s b => { s with dim := b || s.dim })
    (fun _ => rfl) (fun _ => rfl)
  have hitalic := flag_eq 3 (fun s b => { s with italic := b || s.italic })
    (fun _ => rfl) (fun _ => rfl)
  have hunderline := flag_eq 4 (fun s b => { s with underline := b || s.underline })
    (fun _ => rfl) (fun _ => rfl)
  have hblink := flag_eq 5 (fun s b => { s with blink := b || s.blink })
    (fun _ => rfl) (fun _ => rfl)
  have hinverse := flag_eq 7 (fun s b => { s with inverse := b || s.inverse })
    (fun _ => rfl) (fun _ => rfl)
  have hhidden := flag_eq 8 (fun s b => { s with hidden := b || s.hidden })
    (fun _ => rfl) (fun _ => rfl)
  have hstrikethrough := flag_eq 9 (fun s b => { s with strikethrough := b || s.strikethrough })
    (fun _ => rfl) (fun _ => rfl)
  unfold activeParams
  rw [← List.append_nil (List.flatMap _ _)]
  simp only [List.flatMap_append, List.append_assoc]
  rw [processParts_flag (paints_flag (n := 1) rfl (by decide)),
    processParts_flag (paints_flag (n := 2) rfl (by decide)),
    processParts_flag (paints_flag (n := 3) rfl (by decide)),
    processParts_flag (paints_flag (n := 4) rfl (by decide)),
    processParts_flag (paints_flag (n := 5) rfl (by decide)),
    processParts_flag (paints_flag (n := 7) rfl (by decide)),
    processParts_flag (paints_flag (n := 8) rfl (by decide)),
    processParts_flag (paints_flag (n := 9) rfl (by decide)),
    processParts_option h.fgColor, processParts_option h.bgColor, hbold, hdim, hitalic,
    hunderline, hblink, hinverse, hhidden, hstrikethrough]
  cases t with
  | mk bold dim italic underline blink inverse hidden strikethrough fgColor bgColor link =>
    simp only [Bool.or_false]
    cases fgColor with
    | none => cases bgColor <;> rfl
    | some fg => cases bgColor <;> rfl

theorem track_nil (t : AnsiCodeTracker) : t.track [] = t := rfl

theorem track_code (t : AnsiCodeTracker) (c : Text) (ps : List Piece) :
    t.track (.code c :: ps) = (t.process c).track ps := rfl

theorem track_append (t : AnsiCodeTracker) (ps ps' : List Piece) :
    t.track (ps ++ ps') = (t.track ps).track ps' := List.foldl_append

theorem isCode_activeParams (h : t.Faithful) : IsCode (sgrCode (joinParams t.activeParams)) :=
  isCode_sgrCode (all_joinParams fun c hc => (Paints.mem_activeParams h c hc).2.2)

theorem track_attributes (h : t.Faithful) :
    ∃ codes : List Text, (if t.activeParams = [] then [] else sgrCode (joinParams t.activeParams)) =
        codes.flatten ∧ (∀ c ∈ codes, IsCode c) ∧
      track {} (codes.map .code) = { t with activeHyperlink := none } := by
  have hparts := processParts_activeParams h
  have hcodes := Paints.mem_activeParams h
  have hcode := isCode_activeParams h
  split
  · rename_i hnil
    rw [hnil] at hparts
    exact ⟨[], rfl, List.forall_mem_nil _, hparts⟩
  · rename_i hne
    refine ⟨[_], (List.append_nil _).symm, List.forall_mem_singleton.mpr hcode, ?_⟩
    have hprocess := process_sgrCode {} (all_joinParams fun c hc => (hcodes c hc).2.2)
      (joinParams_ne List.not_mem_nil hne fun c hc => (hcodes c hc).1)
      (joinParams_ne (by decide) hne fun c hc => (hcodes c hc).2.1)
    rw [List.map_singleton, track_code, track_nil, hprocess, splitOn_joinParams _ hne, hparts]

theorem track_codes (h : t.Faithful) :
    ∃ codes : List Text, t.getActiveCodes = codes.flatten ∧ (∀ c ∈ codes, IsCode c) ∧
      track {} (codes.map .code) = t := by
  obtain ⟨codes, hflatten, hcodes, htrack⟩ := track_attributes h
  unfold getActiveCodes
  rw [hflatten]
  cases hlink : t.activeHyperlink with
  | none =>
    refine ⟨codes, List.append_nil _, hcodes, htrack.trans ?_⟩
    rw [← hlink]
  | some link =>
    obtain ⟨hcode, hparse, -⟩ := h.activeHyperlink link hlink
    refine ⟨codes ++ [formatOsc8Hyperlink link], ?_, ?_, ?_⟩
    · rw [List.flatten_append, List.flatten_singleton]
      rfl
    · exact List.forall_mem_append.mpr ⟨hcodes, List.forall_mem_singleton.mpr hcode⟩
    · rw [List.map_append, track_append, htrack, List.map_singleton, track_code, track_nil,
        process, hparse, ← hlink]

theorem lineEnd_codes (h : t.Faithful) :
    ∃ codes : List Text, t.getLineEndReset = codes.flatten ∧ ∀ c ∈ codes, IsCode c := by
  have hunderline : ∃ codes : List Text, (if t.underline then sgrCode (unitsOf "24") else []) =
      codes.flatten ∧ ∀ c ∈ codes, IsCode c := by
    split
    · exact ⟨[_], (List.append_nil _).symm,
        List.forall_mem_singleton.mpr (isCode_sgrCode (by decide))⟩
    · exact ⟨[], rfl, List.forall_mem_nil _⟩
  obtain ⟨codes, hflatten, hcodes⟩ := hunderline
  unfold getLineEndReset
  rw [hflatten]
  cases hlink : t.activeHyperlink with
  | none => exact ⟨codes, List.append_nil _, hcodes⟩
  | some link =>
    refine ⟨codes ++ [formatOsc8Close link.terminator], ?_, ?_⟩
    · rw [List.flatten_append, List.flatten_singleton]
      rfl
    · exact List.forall_mem_append.mpr ⟨hcodes, List.forall_mem_singleton.mpr
        (isCode_formatOsc8Close (h.activeHyperlink link hlink).2.2)⟩

end AnsiCodeTracker

theorem pieces_codes {codes : List Text} (h : ∀ c ∈ codes, IsCode c) :
    pieces codes.flatten = codes.map .code := by
  induction codes with
  | nil => rfl
  | cons c codes ih =>
    obtain ⟨hc, hcodes⟩ := List.forall_mem_cons.mp h
    rw [List.flatten_cons, pieces_code hc, ih hcodes, List.map_cons]

/-- What is written out for a state is read back as the state. -/
theorem track_getActiveCodes {t : AnsiCodeTracker} (h : t.Faithful) :
    updateTrackerFromText t.getActiveCodes {} = t := by
  obtain ⟨codes, hflatten, hcodes, htrack⟩ := AnsiCodeTracker.track_codes h
  rw [updateTrackerFromText, hflatten, pieces_codes hcodes, htrack]

end Tui

end Eagent
