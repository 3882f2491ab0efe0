import Eagent.WordWrap

/-!
# Texts with escape sequences

What `utils.ts` reads off a text: its escape sequences (`pieces`), the
graphemes between them (`items`), its width. A text in which every escape
begins a sequence (`Complete`) is read piece by piece, whatever follows it.
The segmenter, the width of a cluster and the class of the CJK characters are
parameters (`Glyphs`).
-/

namespace Eagent

namespace Tui

/-! ## Escape sequences -/

def bel : UInt16 := 0x07

/-- `\` -/
def backslash : UInt16 := 0x5c

def tab : UInt16 := 0x09

def space : UInt16 := 0x20

/-- `/[mGKHJ]/` -/
def isControlFinal (u : UInt16) : Bool := u ∈ [0x6d, 0x47, 0x4b, 0x48, 0x4a]

/-- Up to the first final unit. -/
def throughFinal : Text → Option Text
  | [] => none
  | u :: rest => if isControlFinal u then some [u] else (throughFinal rest).map (u :: ·)

/-- Up to the first BEL or ST. -/
def throughTerminator : Text → Option Text
  | [] => none
  | u :: rest =>
      if u = bel then some [u]
      else if u = esc ∧ rest.head? = some backslash then some [u, backslash]
      else (throughTerminator rest).map (u :: ·)

/-- The escape sequence that a text begins with. -/
def extractAnsiCode : Text → Option Text
  | u :: next :: rest =>
      if u ≠ esc then none
      else if next = openBracket then (throughFinal rest).map ([u, next] ++ ·)
      else if next = 0x5d ∨ next = 0x5f then (throughTerminator rest).map ([u, next] ++ ·)
      else none
  | _ => none

example : extractAnsiCode (unitsOf "\u001b[31mred") = some (unitsOf "\u001b[31m") := by decide

/-- An escape sequence, or a unit outside of one. -/
inductive Piece where
  | code (code : Text)
  | unit (u : UInt16)
deriving DecidableEq

/-- The pieces of a text; `skip` units of the last code are still to be passed
over. -/
def piecesFrom : Nat → Text → List Piece
  | _, [] => []
  | skip + 1, _ :: rest => piecesFrom skip rest
  | 0, u :: rest =>
      match extractAnsiCode (u :: rest) with
      | some code => .code code :: piecesFrom (code.length - 1) rest
      | none => .unit u :: piecesFrom 0 rest

def pieces (text : Text) : List Piece := piecesFrom 0 text

def Piece.unit? : Piece → Option UInt16
  | .code _ => none
  | .unit u => some u

/-- A text without its escape sequences. -/
def stripped (text : Text) : Text := (pieces text).filterMap Piece.unit?

/-! ## Graphemes -/

/-- The segmenter of graphemes, the widths of the clusters other than a tab
and `cjkBreakRegex`. -/
structure Glyphs where
  graphemes : Text → List Text
  clusterWidth : Text → Nat
  isCjk : Text → Bool

/-- An escape sequence or a grapheme. -/
inductive AnsiItem where
  | ansi (code : Text)
  | grapheme (segment : Text)
deriving DecidableEq

def AnsiItem.text : AnsiItem → Text
  | .ansi code => code
  | .grapheme segment => segment

/-- The codes, and the segments of what is between them; `run` is what has been
read since the last code. -/
def itemsFrom (segment : Text → List Text) (run : Text) : List Piece → List AnsiItem
  | [] => (segment run).map .grapheme
  | .code code :: rest => (segment run).map .grapheme ++ .ansi code :: itemsFrom segment [] rest
  | .unit u :: rest => itemsFrom segment (run ++ [u]) rest

def AnsiItem.segment? : AnsiItem → Option Text
  | .ansi _ => none
  | .grapheme segment => some segment

def render (items : List AnsiItem) : Text := items.flatMap AnsiItem.text

/-- `clean.replace(/\t/g, "   ")` -/
def expandTabs (text : Text) : Text :=
  text.flatMap fun u => if u = tab then [space, space, space] else [u]

namespace Glyphs

variable (g : Glyphs)

def graphemeWidth (segment : Text) : Nat := if segment = [tab] then 3 else g.clusterWidth segment

def widthOf (segments : List Text) : Nat := (segments.map g.graphemeWidth).sum

def visibleWidth (str : Text) : Nat :=
  if str.all isPrintableUnit then str.length
  else g.widthOf (g.graphemes (stripped (expandTabs str)))

/-- The items of the loops that read a text from code to code. -/
def items (text : Text) : List AnsiItem := itemsFrom g.graphemes [] (pieces text)

end Glyphs

/-! ## Codes -/

/-- What is read as one code, whatever follows it. -/
def IsCode (code : Text) : Prop := ∀ rest, extractAnsiCode (code ++ rest) = some code

theorem throughFinal_some {text code : Text} (h : throughFinal text = some code) :
    (∃ rest, text = code ++ rest) ∧ ∀ rest, throughFinal (code ++ rest) = some code := by
  induction text generalizing code with
  | nil => cases h
  | cons u text ih =>
    unfold throughFinal at h
    split at h
    · rename_i hfinal
      obtain rfl := Option.some.inj h
      refine ⟨⟨text, rfl⟩, fun rest => ?_⟩
      rw [List.singleton_append, throughFinal, if_pos hfinal]
    · rename_i hfinal
      obtain ⟨code', hcode, rfl⟩ := Option.map_eq_some_iff.mp h
      obtain ⟨⟨rest, rfl⟩, hall⟩ := ih hcode
      refine ⟨⟨rest, rfl⟩, fun rest => ?_⟩
      rw [List.cons_append, throughFinal, if_neg hfinal, hall, Option.map_some]

theorem throughTerminator_some {text code : Text} (h : throughTerminator text = some code) :
    (∃ rest, text = code ++ rest) ∧ ∀ rest, throughTerminator (code ++ rest) = some code := by
  induction text generalizing code with
  | nil => cases h
  | cons u text ih =>
    unfold throughTerminator at h
    split at h
    · rename_i hbel
      obtain rfl := Option.some.inj h
      refine ⟨⟨text, rfl⟩, fun rest => ?_⟩
      rw [List.singleton_append, throughTerminator, if_pos hbel]
    · rename_i hbel
      split at h
      · rename_i hst
        obtain rfl := Option.some.inj h
        obtain ⟨hesc, hhead⟩ := hst
        obtain ⟨rest, rfl⟩ := List.head?_eq_some_iff.mp hhead
        refine ⟨⟨rest, rfl⟩, fun rest => ?_⟩
        rw [List.cons_append, throughTerminator, if_neg hbel, if_pos ⟨hesc, rfl⟩]
      · rename_i hst
        obtain ⟨code', hcode, rfl⟩ := Option.map_eq_some_iff.mp h
        obtain ⟨⟨rest, rfl⟩, hall⟩ := ih hcode
        have hne : code' ≠ [] := by
          rintro rfl
          cases hall []
        obtain ⟨v, code'', rfl⟩ := List.exists_cons_of_ne_nil hne
        refine ⟨⟨rest, rfl⟩, fun rest => ?_⟩
        rw [List.cons_append, throughTerminator, if_neg hbel, hall, Option.map_some]
        exact if_neg hst

theorem extractAnsiCode_some {text code : Text} (h : extractAnsiCode text = some code) :
    IsCode code ∧ ∃ rest, text = code ++ rest := by
  unfold extractAnsiCode at h
  split at h
  · rename_i u next rest
    split at h
    · cases h
    · rename_i hesc
      split at h
      · rename_i hcsi
        obtain ⟨body, hbody, rfl⟩ := Option.map_eq_some_iff.mp h
        obtain ⟨⟨after, rfl⟩, hall⟩ := throughFinal_some hbody
        refine ⟨fun rest => ?_, after, rfl⟩
        change extractAnsiCode (u :: next :: (body ++ rest)) = _
        rw [extractAnsiCode, if_neg hesc, if_pos hcsi, hall, Option.map_some]
      · rename_i hcsi
        split at h
        · rename_i hosc
          obtain ⟨body, hbody, rfl⟩ := Option.map_eq_some_iff.mp h
          obtain ⟨⟨after, rfl⟩, hall⟩ := throughTerminator_some hbody
          refine ⟨fun rest => ?_, after, rfl⟩
          change extractAnsiCode (u :: next :: (body ++ rest)) = _
          rw [extractAnsiCode, if_neg hesc, if_neg hcsi, if_pos hosc, hall, Option.map_some]
        · cases h
  · cases h

variable {u : UInt16}

theorem extractAnsiCode_none (h : u ≠ esc) (rest : Text) :
    extractAnsiCode (u :: rest) = none := by
  cases rest with
  | nil => rfl
  | cons next rest => exact if_pos h

namespace IsCode

variable {code : Text}

theorem exists_cons (h : IsCode code) : ∃ rest, code = esc :: rest := by
  have hcode := h []
  cases code with
  | nil => cases hcode
  | cons u rest =>
    by_cases hesc : u = esc
    · exact ⟨rest, by rw [hesc]⟩
    · rw [List.append_nil, extractAnsiCode_none hesc] at hcode
      cases hcode

end IsCode

/-! ## Pieces -/

def Piece.text : Piece → Text
  | .code c => c
  | .unit u => [u]

theorem piecesFrom_skip (before rest : Text) :
    piecesFrom before.length (before ++ rest) = pieces rest := by
  induction before with
  | nil => rfl
  | cons u before ih =>
    rw [List.length_cons, List.cons_append, piecesFrom]
    exact ih

variable {code : Text}

theorem pieces_code (h : IsCode code) (rest : Text) :
    pieces (code ++ rest) = .code code :: pieces rest := by
  obtain ⟨after, hcons⟩ := h.exists_cons
  have hextract := h rest
  rw [hcons, List.cons_append] at hextract ⊢
  rw [pieces, piecesFrom, hextract]
  dsimp only
  rw [List.length_cons, Nat.add_sub_cancel, piecesFrom_skip]

theorem pieces_cons {rest : Text} (h : extractAnsiCode (u :: rest) = none) :
    pieces (u :: rest) = .unit u :: pieces rest := by
  rw [pieces, piecesFrom, h]
  rfl

theorem pieces_induction {motive : Text → Prop} (nil : motive [])
    (code : ∀ code rest, IsCode code → motive rest → motive (code ++ rest))
    (unit : ∀ u rest, extractAnsiCode (u :: rest) = none → motive rest → motive (u :: rest))
    (text : Text) : motive text := by
  induction hn : text.length using Nat.strong_induction_on generalizing text with
  | h n ih =>
    cases text with
    | nil => exact nil
    | cons u rest =>
      cases hextract : extractAnsiCode (u :: rest) with
      | none => exact unit u rest hextract (ih rest.length (by rw [← hn]; simp) rest rfl)
      | some c =>
        obtain ⟨hcode, after, hafter⟩ := extractAnsiCode_some hextract
        obtain ⟨tail, hcons⟩ := hcode.exists_cons
        rw [hafter]
        refine code c after hcode (ih after.length ?_ after rfl)
        rw [← hn, hafter, hcons, List.length_append, List.length_cons]
        omega

theorem flatMap_text_pieces (text : Text) : (pieces text).flatMap Piece.text = text := by
  induction text using pieces_induction with
  | nil => rfl
  | code code rest hcode ih => rw [pieces_code hcode, List.flatMap_cons, ih, Piece.text]
  | unit u rest hnone ih => rw [pieces_cons hnone, List.flatMap_cons, ih]; rfl

theorem isCode_of_mem_pieces {text code : Text} (h : .code code ∈ pieces text) : IsCode code := by
  induction text using pieces_induction with
  | nil => cases h
  | code c rest hcode ih =>
    rw [pieces_code hcode] at h
    rcases List.mem_cons.mp h with heq | hmem
    · obtain rfl := Piece.code.inj heq
      exact hcode
    · exact ih hmem
  | unit u rest hnone ih =>
    rw [pieces_cons hnone] at h
    rcases List.mem_cons.mp h with heq | hmem
    · cases heq
    · exact ih hmem

/-- Every escape begins a code. -/
def Complete (text : Text) : Prop := .unit esc ∉ pieces text

instance (text : Text) : Decidable (Complete text) := inferInstanceAs (Decidable (¬ _))

theorem IsCode.pieces (h : IsCode code) : Tui.pieces code = [.code code] := by
  have hpieces := pieces_code h []
  rw [List.append_nil] at hpieces
  exact hpieces

theorem complete_nil : Complete [] := List.not_mem_nil

theorem complete_code (h : IsCode code) (rest : Text) :
    Complete (code ++ rest) ↔ Complete rest := by
  rw [Complete, pieces_code h, List.mem_cons, not_or]
  exact and_iff_right Piece.noConfusion

theorem complete_cons {rest : Text} :
    extractAnsiCode (u :: rest) = none → (Complete (u :: rest) ↔ u ≠ esc ∧ Complete rest) := by
  intro hnone
  rw [Complete, pieces_cons hnone, List.mem_cons, not_or]
  refine and_congr_left fun _ => not_congr ⟨fun h => (Piece.unit.inj h).symm, fun h => by rw [h]⟩

theorem Complete.pieces_append {text : Text} (h : Complete text) (rest : Text) :
    pieces (text ++ rest) = pieces text ++ pieces rest := by
  induction text using pieces_induction with
  | nil => rfl
  | code code after hcode ih =>
    rw [complete_code hcode] at h
    rw [List.append_assoc, pieces_code hcode, pieces_code hcode, ih h, List.cons_append]
  | unit u after hnone ih =>
    obtain ⟨hu, hafter⟩ := (complete_cons hnone).mp h
    rw [List.cons_append, pieces_cons (extractAnsiCode_none hu _), pieces_cons hnone, ih hafter,
      List.cons_append]

theorem Complete.append {text rest : Text} (h : Complete text) (h' : Complete rest) :
    Complete (text ++ rest) := by
  rw [Complete, h.pieces_append, List.mem_append, not_or]
  exact ⟨h, h'⟩

theorem Complete.stripped_append {text : Text} (h : Complete text) (rest : Text) :
    stripped (text ++ rest) = stripped text ++ stripped rest := by
  rw [stripped, h.pieces_append, List.filterMap_append]
  rfl

theorem pieces_units {text : Text} (h : esc ∉ text) : pieces text = text.map .unit := by
  induction text with
  | nil => rfl
  | cons u rest ih =>
    obtain ⟨hu, hrest⟩ := List.ne_and_not_mem_of_not_mem_cons h
    rw [pieces_cons (extractAnsiCode_none hu.symm rest), ih hrest, List.map_cons]

theorem stripped_units {text : Text} (h : esc ∉ text) : stripped text = text := by
  rw [stripped, pieces_units h, List.filterMap_map]
  exact List.filterMap_some

/-! ## Items -/

namespace AnsiItem

def pieces : AnsiItem → List Piece
  | .ansi c => [.code c]
  | .grapheme segment => segment.map .unit

def Valid : AnsiItem → Prop
  | .ansi c => IsCode c
  | .grapheme segment => esc ∉ segment

theorem flatMap_text (item : AnsiItem) : item.pieces.flatMap Piece.text = item.text := by
  cases item with
  | ansi c => exact List.append_nil c
  | grapheme segment =>
    rw [pieces, List.flatMap_map]
    exact List.flatMap_singleton' segment

theorem Valid.pieces_append {item : AnsiItem} (h : item.Valid) (rest : Text) :
    Tui.pieces (item.text ++ rest) = item.pieces ++ Tui.pieces rest := by
  cases item with
  | ansi c => exact pieces_code h rest
  | grapheme segment =>
    have hpieces := pieces_units h
    have hcomplete : Complete segment := by
      rw [Complete, hpieces, List.mem_map]
      rintro ⟨u, hu, heq⟩
      obtain rfl := Piece.unit.inj heq
      exact h hu
    rw [text, hcomplete.pieces_append, hpieces, pieces]

end AnsiItem

theorem flatMap_text_flatMap_pieces (items : List AnsiItem) :
    (items.flatMap AnsiItem.pieces).flatMap Piece.text = render items := by
  rw [List.flatMap_assoc, render]
  exact congrArg (List.flatMap · items) (funext AnsiItem.flatMap_text)

section Items

variable {items : List AnsiItem} (hvalid : ∀ item ∈ items, item.Valid)

include hvalid

theorem pieces_render_append (rest : Text) :
    pieces (render items ++ rest) = items.flatMap AnsiItem.pieces ++ pieces rest := by
  induction items with
  | nil => rfl
  | cons item items ih =>
    have hitem := hvalid item List.mem_cons_self
    have hitems := ih fun item h => hvalid item (List.mem_cons_of_mem _ h)
    rw [render, List.flatMap_cons, List.append_assoc, hitem.pieces_append, ← render, hitems,
      List.flatMap_cons, List.append_assoc]

theorem pieces_render : pieces (render items) = items.flatMap AnsiItem.pieces := by
  have h := pieces_render_append hvalid []
  rw [List.append_nil] at h
  exact h.trans (List.append_nil _)

theorem complete_render : Complete (render items) := by
  rw [Complete, pieces_render hvalid, List.mem_flatMap]
  rintro ⟨item, hitem, hmem⟩
  have h := hvalid item hitem
  cases item with
  | ansi c =>
    rw [AnsiItem.pieces, List.mem_singleton] at hmem
    cases hmem
  | grapheme segment =>
    obtain ⟨u, hu, heq⟩ := List.mem_map.mp hmem
    obtain rfl := Piece.unit.inj heq
    exact h hu

theorem stripped_render :
    stripped (render items) = (items.filterMap AnsiItem.segment?).flatten := by
  rw [stripped, pieces_render hvalid]
  clear hvalid
  induction items with
  | nil => rfl
  | cons item items ih =>
    rw [List.flatMap_cons, List.filterMap_append, ih]
    cases item with
    | ansi c => rfl
    | grapheme segment =>
      rw [AnsiItem.pieces, List.filterMap_map]
      exact congrArg (· ++ _) List.filterMap_some

end Items

section ItemsFrom

variable {segment : Text → List Text} (hflatten : ∀ run, (segment run).flatten = run)

include hflatten

theorem flatMap_pieces_itemsFrom (run : Text) (ps : List Piece) :
    (itemsFrom segment run ps).flatMap AnsiItem.pieces = run.map .unit ++ ps := by
  have hrun (run : Text) :
      ((segment run).map AnsiItem.grapheme).flatMap AnsiItem.pieces = run.map .unit := by
    rw [List.flatMap_map]
    conv_rhs => rw [← hflatten run, List.map_flatten]
    rfl
  induction ps generalizing run with
  | nil => rw [itemsFrom, hrun, List.append_nil]
  | cons p ps ih =>
    cases p with
    | code c => rw [itemsFrom, List.flatMap_append, hrun, List.flatMap_cons, ih]; rfl
    | unit u => rw [itemsFrom, ih, List.map_append, List.append_assoc]; rfl

theorem render_itemsFrom (text : Text) : render (itemsFrom segment [] (pieces text)) = text := by
  rw [← flatMap_text_flatMap_pieces, flatMap_pieces_itemsFrom hflatten, List.map_nil,
    List.nil_append, flatMap_text_pieces]

theorem valid_itemsFrom {text : Text} (h : Complete text) :
    ∀ item ∈ itemsFrom segment [] (pieces text), item.Valid := by
  have hpieces := flatMap_pieces_itemsFrom hflatten [] (pieces text)
  rw [List.map_nil, List.nil_append] at hpieces
  intro item hitem
  cases item with
  | ansi c =>
    have hmem : .code c ∈ pieces text := by
      rw [← hpieces]
      exact List.mem_flatMap.mpr ⟨_, hitem, List.mem_singleton_self _⟩
    exact isCode_of_mem_pieces hmem
  | grapheme segment =>
    intro hesc
    refine h ?_
    rw [← hpieces]
    exact List.mem_flatMap.mpr ⟨_, hitem, List.mem_map_of_mem hesc⟩

end ItemsFrom

/-! ## Tabs -/

theorem expandTabs_append (text rest : Text) :
    expandTabs (text ++ rest) = expandTabs text ++ expandTabs rest := List.flatMap_append

theorem expandTabs_tab (rest : Text) :
    expandTabs (tab :: rest) = space :: space :: space :: expandTabs rest := rfl

theorem expandTabs_cons (h : u ≠ tab) (rest : Text) :
    expandTabs (u :: rest) = u :: expandTabs rest := by
  rw [expandTabs, List.flatMap_cons, if_neg h]
  rfl

theorem expandTabs_eq {text : Text} (h : tab ∉ text) : expandTabs text = text := by
  induction text with
  | nil => rfl
  | cons u rest ih =>
    obtain ⟨hu, hrest⟩ := List.ne_and_not_mem_of_not_mem_cons h
    rw [expandTabs_cons hu.symm, ih hrest]

theorem throughFinal_expandTabs {text code : Text} (h : throughFinal text = some code) :
    throughFinal (expandTabs text) = some (expandTabs code) := by
  induction text generalizing code with
  | nil => cases h
  | cons u rest ih =>
    unfold throughFinal at h
    split at h
    · rename_i hfinal
      obtain rfl := Option.some.inj h
      have hu : u ≠ tab := by
        rintro rfl
        exact absurd hfinal (by decide)
      rw [expandTabs_cons hu, expandTabs_cons hu, throughFinal, if_pos hfinal]
      rfl
    · rename_i hfinal
      obtain ⟨code', hcode, rfl⟩ := Option.map_eq_some_iff.mp h
      have hrest := ih hcode
      by_cases hu : u = tab
      · rw [hu, expandTabs_tab, expandTabs_tab, throughFinal, if_neg (by decide), throughFinal,
          if_neg (by decide), throughFinal, if_neg (by decide), hrest]
        rfl
      · rw [expandTabs_cons hu, expandTabs_cons hu, throughFinal, if_neg hfinal, hrest]
        rfl

theorem throughTerminator_space (text : Text) :
    throughTerminator (space :: text) = (throughTerminator text).map (space :: ·) := by
  rw [throughTerminator, if_neg (by decide), if_neg]
  exact fun h => absurd h.1 (by decide)

theorem throughTerminator_expandTabs {text code : Text} (h : throughTerminator text = some code) :
    throughTerminator (expandTabs text) = some (expandTabs code) := by
  induction text generalizing code with
  | nil => cases h
  | cons u rest ih =>
    unfold throughTerminator at h
    split at h
    · rename_i hbel
      obtain rfl := Option.some.inj h
      have hu : u ≠ tab := by
        rintro rfl
        exact absurd hbel (by decide)
      rw [expandTabs_cons hu, expandTabs_cons hu, throughTerminator, if_pos hbel]
      rfl
    · rename_i hbel
      split at h
      · rename_i hst
        obtain rfl := Option.some.inj h
        obtain ⟨rfl, hhead⟩ := hst
        obtain ⟨after, rfl⟩ := List.head?_eq_some_iff.mp hhead
        rw [expandTabs_cons (by decide), expandTabs_cons (by decide), throughTerminator,
          if_neg hbel, if_pos ⟨rfl, rfl⟩]
        rfl
      · rename_i hst
        obtain ⟨code', hcode, rfl⟩ := Option.map_eq_some_iff.mp h
        have hrest := ih hcode
        by_cases hu : u = tab
        · rw [hu, expandTabs_tab, expandTabs_tab, throughTerminator_space,
            throughTerminator_space, throughTerminator_space, hrest]
          rfl
        · have hst' : ¬ (u = esc ∧ (expandTabs rest).head? = some backslash) := by
            rintro ⟨hesc, hhead⟩
            refine hst ⟨hesc, ?_⟩
            cases rest with
            | nil => cases hhead
            | cons v rest =>
              by_cases hv : v = tab
              · rw [hv, expandTabs_tab] at hhead
                exact absurd (Option.some.inj hhead) (by decide)
              · rwa [expandTabs_cons hv] at hhead
          rw [expandTabs_cons hu, expandTabs_cons hu, throughTerminator, if_neg hbel,
            if_neg hst', hrest]
          rfl

theorem IsCode.expandTabs (h : IsCode code) : IsCode (expandTabs code) := by
  have hcode := h []
  rw [List.append_nil] at hcode
  suffices hextract : extractAnsiCode (Tui.expandTabs code) = some (Tui.expandTabs code) from
    (extractAnsiCode_some hextract).1
  unfold extractAnsiCode at hcode
  split at hcode
  · rename_i u next rest
    split at hcode
    · cases hcode
    · rename_i hesc
      have hu : u ≠ tab := by
        rintro rfl
        exact hesc (by decide)
      split at hcode
      · rename_i hcsi
        obtain ⟨body, hbody, hbody'⟩ := Option.map_eq_some_iff.mp hcode
        obtain rfl : body = rest := List.append_cancel_left hbody'
        have hnext : next ≠ tab := by
          rw [hcsi]
          decide
        rw [expandTabs_cons hu, expandTabs_cons hnext, extractAnsiCode, if_neg hesc, if_pos hcsi,
          throughFinal_expandTabs hbody]
        rfl
      · rename_i hcsi
        split at hcode
        · rename_i hosc
          obtain ⟨body, hbody, hbody'⟩ := Option.map_eq_some_iff.mp hcode
          obtain rfl : body = rest := List.append_cancel_left hbody'
          have hnext : next ≠ tab := by
            rintro rfl
            exact absurd hosc (by decide)
          rw [expandTabs_cons hu, expandTabs_cons hnext, extractAnsiCode, if_neg hesc,
            if_neg hcsi, if_pos hosc, throughTerminator_expandTabs hbody]
          rfl
        · cases hcode
  · cases hcode

theorem Complete.stripped_expandTabs {text : Text} (h : Complete text) :
    stripped (expandTabs text) = expandTabs (stripped text) := by
  induction text using pieces_induction with
  | nil => rfl
  | code code rest hcode ih =>
    rw [complete_code hcode] at h
    rw [expandTabs_append, stripped, pieces_code hcode.expandTabs, stripped, pieces_code hcode]
    exact ih h
  | unit u rest hnone ih =>
    obtain ⟨hu, h⟩ := (complete_cons hnone).mp h
    have hrest : stripped (u :: rest) = u :: stripped rest := by
      rw [stripped, pieces_cons hnone]
      rfl
    by_cases htab : u = tab
    · have hspaces : esc ∉ [space, space, space] := by decide
      rw [hrest, htab, expandTabs_tab, expandTabs_tab, ← ih h]
      change stripped ([space, space, space] ++ expandTabs rest) = _
      rw [Complete.stripped_append (by decide), stripped_units hspaces]
      rfl
    · rw [hrest, expandTabs_cons htab, expandTabs_cons htab, ← ih h, stripped,
        pieces_cons (extractAnsiCode_none hu _)]
      rfl

/-! ## Widths -/

/-- What is known of the segmenter and of the widths. -/
structure Glyphs.Lawful (g : Glyphs) : Prop where
  flatten : ∀ text, (g.graphemes text).flatten = text
  nonempty : ∀ text, [] ∉ g.graphemes text
  /-- graphemes that follow one another are those of their text -/
  infix_graphemes : ∀ text parts, parts <:+: g.graphemes text → g.graphemes parts.flatten = parts
  printable : ∀ text : Text, text.all isPrintableUnit = true → g.graphemes text = text.map ([·])
  width_printable : ∀ u, isPrintableUnit u = true → g.clusterWidth [u] = 1

namespace Glyphs

variable {g : Glyphs}

theorem widthOf_append (xs ys : List Text) :
    g.widthOf (xs ++ ys) = g.widthOf xs + g.widthOf ys := by
  rw [widthOf, List.map_append, List.sum_append]
  rfl

theorem widthOf_cons (segment : Text) (rest : List Text) :
    g.widthOf (segment :: rest) = g.graphemeWidth segment + g.widthOf rest := List.sum_cons

namespace Lawful

variable (hg : g.Lawful)

include hg

theorem graphemeWidth_printable {u : UInt16} (h : isPrintableUnit u = true) :
    g.graphemeWidth [u] = 1 := by
  have htab : [u] ≠ [tab] := by
    rintro heq
    rw [List.singleton_inj.mp heq] at h
    exact absurd h (by decide)
  rw [graphemeWidth, if_neg htab, hg.width_printable u h]

theorem widthOf_printable {text : Text} (h : text.all isPrintableUnit = true) :
    g.widthOf (text.map ([·])) = text.length := by
  induction text with
  | nil => rfl
  | cons u rest ih =>
    rw [List.all_cons, Bool.and_eq_true] at h
    rw [List.map_cons, widthOf_cons, hg.graphemeWidth_printable h.1, ih h.2, List.length_cons,
      Nat.add_comm]

theorem visibleWidth_eq (text : Text) :
    g.visibleWidth text = g.widthOf (g.graphemes (stripped (expandTabs text))) := by
  unfold visibleWidth
  split
  · rename_i hprintable
    have hall := List.all_eq_true.mp hprintable
    have htab : tab ∉ text := fun hmem => absurd (hall tab hmem) (by decide)
    have hesc : esc ∉ text := fun hmem => absurd (hall esc hmem) (by decide)
    rw [expandTabs_eq htab, stripped_units hesc, hg.printable text hprintable,
      hg.widthOf_printable hprintable]
  · rfl

end Lawful

end Glyphs

/-! ## Glyphs of one unit -/

def unitGlyphs : Glyphs where
  graphemes text := text.map ([·])
  clusterWidth segment :=
    (segment.map fun u => if u < 0x20 then 0 else if u < 0x1100 then 1 else 2).sum
  isCjk segment := segment.any (0x1100 ≤ ·)

theorem lawful_unitGlyphs : unitGlyphs.Lawful where
  flatten text := by
    rw [unitGlyphs, ← List.flatMap_def, List.flatMap_singleton']
  nonempty text h := by
    obtain ⟨u, -, heq⟩ := List.mem_map.mp h
    cases heq
  infix_graphemes text parts h := by
    have hsingle : ∀ part ∈ parts, ∃ u, part = [u] := fun part hpart => by
      obtain ⟨u, -, rfl⟩ := List.mem_map.mp (h.subset hpart)
      exact ⟨u, rfl⟩
    clear h
    induction parts with
    | nil => rfl
    | cons part parts ih =>
      obtain ⟨⟨u, rfl⟩, hparts⟩ := List.forall_mem_cons.mp hsingle
      exact congrArg ([u] :: ·) (ih hparts)
  printable _ _ := rfl
  width_printable u h := by
    rw [isPrintableUnit, Bool.and_eq_true, decide_eq_true_eq, decide_eq_true_eq] at h
    have hlow : ¬ u < 0x20 := UInt16.not_lt.mpr h.1
    have hhigh : u < 0x1100 := UInt16.lt_of_le_of_lt h.2 (by decide)
    rw [unitGlyphs]
    dsimp only
    rw [List.map_singleton, List.sum_singleton, if_neg hlow, if_pos hhigh]

end Tui

end Eagent
