import Eagent.AnsiText
import Eagent.TextBlocks

/-!
# The tracker of escape sequences

`AnsiCodeTracker`: the attributes, colours and the hyperlink that are active
after some codes. What it stores can be written out and read back (`Faithful`).
-/

namespace Eagent

namespace Tui

/-- `;` -/
def semicolon : UInt16 := 0x3b

/-! ## Hyperlinks -/

structure ActiveHyperlink where
  params : Text
  url : Text
  terminator : Text
deriving DecidableEq

/-- `\x1b]8;` -/
def osc8Start : Text := [esc, 0x5d, 0x38, semicolon]

/-- No OSC 8 sequence is `none`, the end of a hyperlink `some none`. -/
def parseOsc8Hyperlink (ansiCode : Text) : Option (Option ActiveHyperlink) :=
  match ansiCode.dropPrefix? osc8Start with
  | none => none
  | some rest =>
      let terminator := if ansiCode.getLast? = some bel then [bel] else stringTerminator
      let body := rest.take (rest.length - terminator.length)
      if semicolon ∉ body then none
      else
        let params := body.takeWhile (· ≠ semicolon)
        let url := body.drop (params.length + 1)
        some (if url = [] then none else some ⟨params, url, terminator⟩)

def formatOsc8Hyperlink (hyperlink : ActiveHyperlink) : Text :=
  osc8Start ++ hyperlink.params ++ [semicolon] ++ hyperlink.url ++ hyperlink.terminator

def formatOsc8Close (terminator : Text) : Text := osc8Start ++ [semicolon] ++ terminator

/-! ## Parameters -/

/-- `[\d;]` -/
def isParamUnit (u : UInt16) : Bool := isDigitUnit u || u = semicolon

/-- The parameters of `/\x1b\[([\d;]*)m/` at the start of a text. -/
def sgrParams : Text → Option Text
  | u :: next :: rest =>
      if u = esc ∧ next = openBracket ∧ (rest.dropWhile isParamUnit).head? = some 0x6d then
        some (rest.takeWhile isParamUnit)
      else none
  | _ => none

def matchSgr : Text → Option Text
  | [] => none
  | u :: rest => sgrParams (u :: rest) <|> matchSgr rest

/-- `Number.parseInt(part, 10)` of a run of digits -/
def parseInt (part : Text) : Option Nat := if part = [] then none else some (numberOf part)

/-- The parameters of a colour behind the 38 or 48 it begins with. -/
def colorParams : List Text → Option (List Text)
  | mode :: rest =>
      if mode = unitsOf "5" ∧ 1 ≤ rest.length then some (mode :: rest.take 1)
      else if mode = unitsOf "2" ∧ 3 ≤ rest.length then some (mode :: rest.take 3)
      else none
  | [] => none

def joinParams (parts : List Text) : Text := [semicolon].intercalate parts

/-! ## The tracker -/

structure AnsiCodeTracker where
  bold : Bool := false
  dim : Bool := false
  italic : Bool := false
  underline : Bool := false
  blink : Bool := false
  inverse : Bool := false
  hidden : Bool := false
  strikethrough : Bool := false
  fgColor : Option Text := none
  bgColor : Option Text := none
  activeHyperlink : Option ActiveHyperlink := none
deriving DecidableEq

namespace AnsiCodeTracker

variable (t : AnsiCodeTracker)

def reset : AnsiCodeTracker := { activeHyperlink := t.activeHyperlink }

/-- The default of the switch. -/
def standardColor (code : Nat) : AnsiCodeTracker :=
  if 30 ≤ code ∧ code ≤ 37 ∨ 90 ≤ code ∧ code ≤ 97 then
    { t with fgColor := some (unitsOf (toString code)) }
  else if 40 ≤ code ∧ code ≤ 47 ∨ 100 ≤ code ∧ code ≤ 107 then
    { t with bgColor := some (unitsOf (toString code)) }
  else t

def standardCode (code : Nat) : AnsiCodeTracker :=
  match code with
  | 0 => t.reset
  | 1 => { t with bold := true }
  | 2 => { t with dim := true }
  | 3 => { t with italic := true }
  | 4 => { t with underline := true }
  | 5 => { t with blink := true }
  | 7 => { t with inverse := true }
  | 8 => { t with hidden := true }
  | 9 => { t with strikethrough := true }
  | 21 => { t with bold := false }
  | 22 => { t with bold := false, dim := false }
  | 23 => { t with italic := false }
  | 24 => { t with underline := false }
  | 25 => { t with blink := false }
  | 27 => { t with inverse := false }
  | 28 => { t with hidden := false }
  | 29 => { t with strikethrough := false }
  | 39 => { t with fgColor := none }
  | 49 => { t with bgColor := none }
  | code => t.standardColor code

/-- What a 38 or 48 with the parameters behind it sets. -/
def setColor (code : Option Nat) (color : Text) : AnsiCodeTracker :=
  if code = some 38 then { t with fgColor := some color } else { t with bgColor := some color }

/-- The loop over the parameters; the first `skip` belong to the last colour. -/
def processParts : Nat → AnsiCodeTracker → List Text → AnsiCodeTracker
  | _, t, [] => t
  | skip + 1, t, _ :: rest => processParts skip t rest
  | 0, t, part :: rest =>
      let code := parseInt part
      match if code = some 38 ∨ code = some 48 then colorParams rest else none with
      | some params =>
          processParts params.length (t.setColor code (joinParams (part :: params))) rest
      | none => processParts 0 (code.elim t t.standardCode) rest

def process (ansiCode : Text) : AnsiCodeTracker :=
  match parseOsc8Hyperlink ansiCode with
  | some hyperlink => { t with activeHyperlink := hyperlink }
  | none =>
      if ansiCode.getLast? ≠ some 0x6d then t
      else
        match matchSgr ansiCode with
        | none => t
        | some params =>
            if params = [] ∨ params = unitsOf "0" then t.reset
            else processParts 0 t (params.splitOn semicolon)

/-- The codes of `getActiveCodes`. -/
def activeParams : List Text :=
  (if t.bold then [unitsOf "1"] else []) ++ (if t.dim then [unitsOf "2"] else []) ++
  (if t.italic then [unitsOf "3"] else []) ++ (if t.underline then [unitsOf "4"] else []) ++
  (if t.blink then [unitsOf "5"] else []) ++ (if t.inverse then [unitsOf "7"] else []) ++
  (if t.hidden then [unitsOf "8"] else []) ++ (if t.strikethrough then [unitsOf "9"] else []) ++
  t.fgColor.toList ++ t.bgColor.toList

/-- `\x1b[` … `m` -/
def sgrCode (params : Text) : Text := [esc, openBracket] ++ params ++ [0x6d]

def getActiveCodes : Text :=
  (if t.activeParams = [] then [] else sgrCode (joinParams t.activeParams)) ++
    t.activeHyperlink.elim [] formatOsc8Hyperlink

def getLineEndReset : Text :=
  (if t.underline then sgrCode (unitsOf "24") else []) ++
    t.activeHyperlink.elim [] fun hyperlink => formatOsc8Close hyperlink.terminator

/-- The state after some pieces. -/
def track (ps : List Piece) : AnsiCodeTracker :=
  ps.foldl (fun t p => match p with
    | .code c => t.process c
    | .unit _ => t) t

end AnsiCodeTracker

def updateTrackerFromText (text : Text) (tracker : AnsiCodeTracker) : AnsiCodeTracker :=
  tracker.track (pieces text)

example : updateTrackerFromText (unitsOf "\u001b[1;38;5;9mred\u001b[22;4m") {} =
    { underline := true, fgColor := some (unitsOf "38;5;9") } := by decide

/-! ## Parameters -/

theorem splitOn_joinParams (parts : List Text) (hne : parts ≠ []) :
    (joinParams parts).splitOn semicolon = parts.flatMap (·.splitOn semicolon) := by
  induction parts with
  | nil => exact absurd rfl hne
  | cons part rest ih =>
    cases rest with
    | nil =>
      rw [joinParams, List.intercalate_singleton, List.flatMap_cons, List.flatMap_nil,
        List.append_nil]
    | cons next rest =>
      rw [joinParams, List.intercalate_cons_cons, List.append_assoc, List.singleton_append,
        List.splitOn_append_cons_self, ← joinParams, ih (List.cons_ne_nil _ _)]
      rfl

theorem splitOn_joinParams_of_notMem {parts : List Text} (hne : parts ≠ [])
    (h : ∀ part ∈ parts, semicolon ∉ part) : (joinParams parts).splitOn semicolon = parts :=
  List.splitOn_intercalate semicolon h hne

theorem all_joinParams {parts : List Text} (h : ∀ part ∈ parts, part.all isParamUnit = true) :
    (joinParams parts).all isParamUnit = true := by
  induction parts with
  | nil => rfl
  | cons part rest ih =>
    obtain ⟨hpart, hrest⟩ := List.forall_mem_cons.mp h
    cases rest with
    | nil => rwa [joinParams, List.intercalate_singleton]
    | cons next rest =>
      rw [joinParams, List.intercalate_cons_cons, List.all_append, List.all_append,
        ← joinParams, hpart, ih hrest]
      rfl

namespace AnsiCodeTracker

variable {t : AnsiCodeTracker}

theorem processParts_skip (t : AnsiCodeTracker) (before rest : List Text) :
    processParts before.length t (before ++ rest) = processParts 0 t rest := by
  induction before with
  | nil => rfl
  | cons part before ih => exact ih

/-- A parameter text that does no more than `set`, whatever follows it. -/
structure Paints (set : AnsiCodeTracker → AnsiCodeTracker) (code : Text) : Prop where
  nonempty : code ≠ []
  nonzero : code ≠ unitsOf "0"
  units : code.all isParamUnit = true
  process : ∀ t rest, processParts 0 t (code.splitOn semicolon ++ rest) =
    processParts 0 (set t) rest

theorem colorParams_prefix {parts params : List Text} (h : colorParams parts = some params) :
    ∃ rest, parts = params ++ rest := by
  unfold colorParams at h
  split at h
  · rename_i mode rest
    split at h
    · obtain rfl := Option.some.inj h
      exact ⟨rest.drop 1, by rw [List.cons_append, List.take_append_drop]⟩
    · split at h
      · obtain rfl := Option.some.inj h
        exact ⟨rest.drop 3, by rw [List.cons_append, List.take_append_drop]⟩
      · cases h
  · cases h

theorem colorParams_append {parts params : List Text} (h : colorParams parts = some params)
    (rest : List Text) : colorParams (params ++ rest) = some params := by
  unfold colorParams at h
  split at h
  · rename_i mode after
    split at h
    · rename_i hmode
      obtain rfl := Option.some.inj h
      have hlength : (after.take 1).length = 1 := List.length_take_of_le hmode.2
      rw [List.cons_append, colorParams, if_pos ⟨hmode.1, by
        rw [List.length_append, hlength]
        exact Nat.le_add_right _ _⟩, List.take_append_of_le_length hlength.ge,
        List.take_of_length_le hlength.le]
    · rename_i hfive
      split at h
      · rename_i hmode
        obtain rfl := Option.some.inj h
        have hlength : (after.take 3).length = 3 := List.length_take_of_le hmode.2
        have hne : ¬ (mode = unitsOf "5" ∧ 1 ≤ (after.take 3 ++ rest).length) := by
          rintro ⟨heq, -⟩
          exact absurd (heq.symm.trans hmode.1) (by decide)
        rw [List.cons_append, colorParams, if_neg hne, if_pos ⟨hmode.1, by
          rw [List.length_append, hlength]
          exact Nat.le_add_right _ _⟩, List.take_append_of_le_length hlength.ge,
          List.take_of_length_le hlength.le]
      · cases h
  · cases h

theorem paints_color {part : Text} {parts params : List Text}
    (hcode : parseInt part = some 38 ∨ parseInt part = some 48)
    (hparams : colorParams parts = some params)
    (hunits : ∀ p ∈ part :: params, p.all isParamUnit = true ∧ semicolon ∉ p) :
    Paints (fun t => t.setColor (parseInt part) (joinParams (part :: params)))
      (joinParams (part :: params)) := by
  have hsplit := splitOn_joinParams_of_notMem (List.cons_ne_nil part params)
    fun p hp => (hunits p hp).2
  have hne : params ≠ [] := by
    rintro rfl
    have h := colorParams_append hparams []
    cases h
  refine ⟨?_, ?_, all_joinParams fun p hp => (hunits p hp).1, fun t rest => ?_⟩
  · intro hnil
    rw [hnil] at hsplit
    have hparts : [] = params := (List.cons.inj hsplit).2
    exact hne hparts.symm
  · intro hzero
    rw [hzero] at hsplit
    have hparts : [] = params := (List.cons.inj hsplit).2
    exact hne hparts.symm
  · rw [hsplit, List.cons_append, processParts, if_pos hcode, colorParams_append hparams]
    exact processParts_skip _ params rest

theorem paints_standard {part : Text} {n : Nat} (hn : parseInt part = some n)
    (hcolor : n ≠ 38 ∧ n ≠ 48) (hzero : n ≠ 0)
    (hunits : part.all isParamUnit = true ∧ semicolon ∉ part) :
    Paints (·.standardCode n) part := by
  refine ⟨?_, ?_, hunits.1, fun t rest => ?_⟩
  · rintro rfl
    cases hn
  · rintro rfl
    exact hzero (Option.some.inj (hn.symm.trans (by decide : parseInt (unitsOf "0") = some 0)))
  · have hnot : ¬ (parseInt part = some 38 ∨ parseInt part = some 48) := by
      rw [hn]
      rintro (h | h)
      · exact hcolor.1 (Option.some.inj h)
      · exact hcolor.2 (Option.some.inj h)
    rw [List.splitOn_eq_singleton hunits.2, List.singleton_append, processParts,
      if_neg hnot, hn]
    rfl

theorem parseInt_toString : ∀ n < 108, 30 ≤ n → parseInt (unitsOf (toString n)) = some n ∧
    (unitsOf (toString n)).all isParamUnit = true ∧ semicolon ∉ unitsOf (toString n) := by
  decide

theorem standardCode_eq (t : AnsiCodeTracker) {n : Nat} (h : 30 ≤ n) (hfg : n ≠ 39)
    (hbg : n ≠ 49) : t.standardCode n = t.standardColor n := by
  unfold standardCode
  split
  all_goals first
    | rfl
    | omega

theorem standardCode_fgColor (t : AnsiCodeTracker) {n : Nat}
    (h : 30 ≤ n ∧ n ≤ 37 ∨ 90 ≤ n ∧ n ≤ 97) :
    t.standardCode n = { t with fgColor := some (unitsOf (toString n)) } := by
  rw [standardCode_eq t (by omega) (by omega) (by omega), standardColor, if_pos h]

theorem standardCode_bgColor (t : AnsiCodeTracker) {n : Nat}
    (h : 40 ≤ n ∧ n ≤ 47 ∨ 100 ≤ n ∧ n ≤ 107) :
    t.standardCode n = { t with bgColor := some (unitsOf (toString n)) } := by
  have hfg : ¬ (30 ≤ n ∧ n ≤ 37 ∨ 90 ≤ n ∧ n ≤ 97) := by omega
  rw [standardCode_eq t (by omega) (by omega) (by omega), standardColor, if_neg hfg, if_pos h]

/-! ## Faithful states -/

/-- What is stored can be written out and read back. -/
structure Faithful (t : AnsiCodeTracker) : Prop where
  fgColor : ∀ c ∈ t.fgColor, Paints (fun t => { t with fgColor := some c }) c
  bgColor : ∀ c ∈ t.bgColor, Paints (fun t => { t with bgColor := some c }) c
  activeHyperlink : ∀ h ∈ t.activeHyperlink, IsCode (formatOsc8Hyperlink h) ∧
    parseOsc8Hyperlink (formatOsc8Hyperlink h) = some (some h) ∧
    (h.terminator = [bel] ∨ h.terminator = stringTerminator)

theorem forall_none {α : Type} {p : α → Prop} : ∀ a ∈ (none : Option α), p a := by
  intro a h
  cases h

theorem faithful_start : ({} : AnsiCodeTracker).Faithful := ⟨forall_none, forall_none, forall_none⟩

namespace Faithful

theorem reset (h : t.Faithful) : t.reset.Faithful :=
  ⟨forall_none, forall_none, h.activeHyperlink⟩

theorem setForeground (h : t.Faithful) {c : Text}
    (hc : Paints (fun t => { t with fgColor := some c }) c) :
    Faithful { t with fgColor := some c } := by
  refine ⟨fun c' hc' => ?_, h.bgColor, h.activeHyperlink⟩
  obtain rfl := Option.some.inj hc'
  exact hc

theorem setBackground (h : t.Faithful) {c : Text}
    (hc : Paints (fun t => { t with bgColor := some c }) c) :
    Faithful { t with bgColor := some c } := by
  refine ⟨h.fgColor, fun c' hc' => ?_, h.activeHyperlink⟩
  obtain rfl := Option.some.inj hc'
  exact hc

theorem standardCode (h : t.Faithful) (n : Nat) : (t.standardCode n).Faithful := by
  by_cases hfg : 30 ≤ n ∧ n ≤ 37 ∨ 90 ≤ n ∧ n ≤ 97
  · obtain ⟨hint, hunits⟩ := parseInt_toString n (by omega) (by omega)
    rw [standardCode_fgColor t hfg]
    refine h.setForeground ?_
    have hpaints := paints_standard hint (by omega) (by omega) hunits
    rwa [funext fun t => standardCode_fgColor t hfg] at hpaints
  · by_cases hbg : 40 ≤ n ∧ n ≤ 47 ∨ 100 ≤ n ∧ n ≤ 107
    · obtain ⟨hint, hunits⟩ := parseInt_toString n (by omega) (by omega)
      rw [standardCode_bgColor t hbg]
      refine h.setBackground ?_
      have hpaints := paints_standard hint (by omega) (by omega) hunits
      rwa [funext fun t => standardCode_bgColor t hbg] at hpaints
    · unfold AnsiCodeTracker.standardCode
      split
      all_goals first
        | exact ⟨h.fgColor, h.bgColor, h.activeHyperlink⟩
        | exact ⟨forall_none, h.bgColor, h.activeHyperlink⟩
        | exact ⟨h.fgColor, forall_none, h.activeHyperlink⟩
        | exact h.reset
        | rw [standardColor, if_neg hfg, if_neg hbg]; exact h

theorem processParts (h : t.Faithful) {parts : List Text}
    (hparts : ∀ p ∈ parts, p.all isParamUnit = true ∧ semicolon ∉ p) (skip : Nat) :
    (AnsiCodeTracker.processParts skip t parts).Faithful := by
  induction parts generalizing t skip with
  | nil => cases skip <;> exact h
  | cons part rest ih =>
    obtain ⟨hpart, hrest⟩ := List.forall_mem_cons.mp hparts
    cases skip with
    | succ skip => exact ih h hrest skip
    | zero =>
      unfold AnsiCodeTracker.processParts
      dsimp only
      split
      · rename_i params hparams
        refine ih ?_ hrest _
        split at hparams
        · rename_i hcode
          obtain ⟨after, rfl⟩ := colorParams_prefix hparams
          have hpaints := paints_color hcode hparams (List.forall_mem_cons.mpr ⟨hpart,
            fun p hp => hrest p (List.mem_append_left _ hp)⟩)
          by_cases hfg : parseInt part = some 38
          · simp only [setColor, if_pos hfg] at hpaints ⊢
            exact h.setForeground hpaints
          · simp only [setColor, if_neg hfg] at hpaints ⊢
            exact h.setBackground hpaints
        · cases hparams
      · refine ih ?_ hrest _
        cases parseInt part with
        | none => exact h
        | some n => exact h.standardCode n

end Faithful

end AnsiCodeTracker

/-! ## Hyperlinks -/

theorem throughTerminator_last {text code : Text} (h : throughTerminator text = some code) :
    ∃ before, code = before ++ [bel] ∨ code = before ++ stringTerminator := by
  induction text generalizing code with
  | nil => cases h
  | cons u rest ih =>
    unfold throughTerminator at h
    split at h
    · rename_i hbel
      obtain rfl := Option.some.inj h
      exact ⟨[], .inl (by rw [hbel]; rfl)⟩
    · split at h
      · rename_i hst
        obtain rfl := Option.some.inj h
        exact ⟨[], .inr (by rw [hst.1]; rfl)⟩
      · obtain ⟨code', hcode, rfl⟩ := Option.map_eq_some_iff.mp h
        obtain ⟨before, hlast | hlast⟩ := ih hcode
        · exact ⟨u :: before, .inl (by rw [hlast]; rfl)⟩
        · exact ⟨u :: before, .inr (by rw [hlast]; rfl)⟩

theorem osc8_terminated {rest : Text} (h : IsCode (osc8Start ++ rest)) :
    ∃ body, rest = body ++
      (if (osc8Start ++ rest).getLast? = some bel then [bel] else stringTerminator) := by
  have hcode := h []
  rw [List.append_nil] at hcode
  have hthrough : throughTerminator (0x38 :: semicolon :: rest) =
      some (0x38 :: semicolon :: rest) := by
    obtain ⟨body, hbody, heq⟩ := Option.map_eq_some_iff.mp hcode
    have hbody' : throughTerminator (0x38 :: semicolon :: rest) = some body := hbody
    rw [hbody']
    exact congrArg some (List.append_cancel_left heq)
  obtain ⟨before, hlast | hlast⟩ := throughTerminator_last hthrough
  · rcases before with _ | ⟨a, _ | ⟨b, body⟩⟩
    · exact absurd (List.cons.inj hlast).1 (by decide)
    · exact absurd (List.cons.inj (List.cons.inj hlast).2).1 (by decide)
    · obtain rfl : rest = body ++ [bel] := (List.cons.inj (List.cons.inj hlast).2).2
      refine ⟨body, ?_⟩
      rw [← List.append_assoc, List.getLast?_concat, if_pos rfl]
  · rcases before with _ | ⟨a, _ | ⟨b, body⟩⟩
    · exact absurd (List.cons.inj hlast).1 (by decide)
    · exact absurd (List.cons.inj (List.cons.inj hlast).2).1 (by decide)
    · obtain rfl : rest = body ++ stringTerminator := (List.cons.inj (List.cons.inj hlast).2).2
      have hend : (osc8Start ++ (body ++ stringTerminator)).getLast? = some backslash := by
        rw [← List.append_assoc, List.getLast?_append]
        rfl
      refine ⟨body, ?_⟩
      rw [hend, if_neg (by decide)]

theorem formatOsc8Hyperlink_parse {code : Text} (h : IsCode code) {hyperlink : ActiveHyperlink}
    (hparse : parseOsc8Hyperlink code = some (some hyperlink)) :
    formatOsc8Hyperlink hyperlink = code ∧
      (hyperlink.terminator = [bel] ∨ hyperlink.terminator = stringTerminator) := by
  unfold parseOsc8Hyperlink at hparse
  split at hparse
  · cases hparse
  · rename_i rest hrest
    obtain ⟨start, rfl, hstart⟩ := List.dropPrefix?_eq_some_iff.mp hrest
    obtain rfl : start = osc8Start := beq_iff_eq.mp hstart
    obtain ⟨body, hbody⟩ := osc8_terminated h
    dsimp only at hparse
    generalize hterm : (if (osc8Start ++ rest).getLast? = some bel then [bel]
      else stringTerminator) = terminator at hparse hbody
    have hterminator : terminator = [bel] ∨ terminator = stringTerminator := by
      rw [← hterm]
      split
      · exact .inl rfl
      · exact .inr rfl
    have htake : rest.take (rest.length - terminator.length) = body := by
      rw [hbody, List.length_append, Nat.add_sub_cancel, List.take_left]
    rw [htake] at hparse
    split at hparse
    · cases hparse
    · rename_i hsep
      split at hparse
      · cases hparse
      · obtain rfl := Option.some.inj (Option.some.inj hparse)
        refine ⟨?_, hterminator⟩
        obtain ⟨params, url, hsplit, hparams⟩ :=
          List.eq_append_cons_of_mem (Decidable.not_not.mp hsep)
        have htaken : body.takeWhile (· ≠ semicolon) = params := by
          rw [hsplit, List.takeWhile_append_of_pos]
          · rw [List.takeWhile_cons_of_neg (by decide), List.append_nil]
          · intro u hu
            exact decide_eq_true fun heq => hparams (heq ▸ hu)
        have hdropped : body.drop (params.length + 1) = url := by
          rw [hsplit, List.drop_append, List.drop_of_length_le (Nat.le_succ _),
            Nat.add_sub_cancel_left]
          rfl
        rw [formatOsc8Hyperlink, htaken, hdropped, hbody, hsplit]
        simp only [List.append_assoc]
        rfl

/-! ## What a code leaves -/

theorem all_matchSgr {text params : Text} (h : matchSgr text = some params) :
    params.all isParamUnit = true := by
  induction text with
  | nil => cases h
  | cons u rest ih =>
    unfold matchSgr at h
    cases hhere : sgrParams (u :: rest) with
    | none =>
      rw [hhere] at h
      exact ih h
    | some found =>
      rw [hhere] at h
      obtain rfl : found = params := Option.some.inj h
      unfold sgrParams at hhere
      split at hhere
      · split at hhere
        · obtain rfl := Option.some.inj hhere
          exact List.all_takeWhile
        · cases hhere
      · cases hhere

namespace AnsiCodeTracker

theorem Faithful.process {t : AnsiCodeTracker} (h : t.Faithful) {code : Text}
    (hcode : IsCode code) : (t.process code).Faithful := by
  unfold AnsiCodeTracker.process
  split
  · rename_i hyperlink hparse
    refine ⟨h.fgColor, h.bgColor, fun link hlink => ?_⟩
    obtain rfl : hyperlink = some link := hlink
    obtain ⟨hformat, hterminator⟩ := formatOsc8Hyperlink_parse hcode hparse
    rw [hformat]
    exact ⟨hcode, hparse, hterminator⟩
  · split
    · exact h
    · split
      · exact h
      · rename_i params hparams
        split
        · exact h.reset
        · refine h.processParts (fun part hpart => ?_) 0
          obtain ⟨hnot, hsubset⟩ := TextBlocks.mem_splitOn params part hpart
          refine ⟨List.all_eq_true.mpr fun u hu => ?_, hnot⟩
          exact List.all_eq_true.mp (all_matchSgr hparams) u (hsubset hu)

theorem Faithful.track {t : AnsiCodeTracker} (h : t.Faithful) {ps : List Piece}
    (hps : ∀ c, .code c ∈ ps → IsCode c) : (t.track ps).Faithful := by
  induction ps generalizing t with
  | nil => exact h
  | cons p ps ih =>
    have hrest : ∀ c, .code c ∈ ps → IsCode c := fun c hc => hps c (List.mem_cons_of_mem _ hc)
    cases p with
    | code c => exact ih (h.process (hps c List.mem_cons_self)) hrest
    | unit u => exact ih h hrest

end AnsiCodeTracker

end Tui

end Eagent
