import Eagent.WrapAnsi

/-!
# The styles of wrapped lines

Each line is read from the start, with no style and no hyperlink, and still
gives every unit that is not white space the style it has in the whole text
(`wrapTextWithAnsi_styles`): behind what has been put on the current line the
style is the one of the tracker (`Carried`).
-/

namespace Eagent

namespace Tui

open EditTool (isWhitespace lf)

/-! ## Styles -/

/-- The units of some pieces, each with the state it is shown in. -/
def styled (t : AnsiCodeTracker) : List Piece → List (UInt16 × AnsiCodeTracker)
  | [] => []
  | .code c :: rest => styled (t.process c) rest
  | .unit u :: rest => (u, t) :: styled t rest

/-- What is shown of a text that is read from a state on; a grapheme is between
two codes, so all of it has one style. -/
def visibleStyles (t : AnsiCodeTracker) (text : Text) : List (UInt16 × AnsiCodeTracker) :=
  (styled t (pieces text)).filter fun p => !isWhitespace p.1

theorem styled_append (t : AnsiCodeTracker) (ps ps' : List Piece) :
    styled t (ps ++ ps') = styled t ps ++ styled (t.track ps) ps' := by
  induction ps generalizing t with
  | nil => rfl
  | cons p ps ih =>
    cases p with
    | code c => exact ih (t.process c)
    | unit u => exact congrArg ((u, t) :: ·) (ih t)

section Append

variable {text : Text} (h : Complete text)

include h

theorem visibleStyles_append (t : AnsiCodeTracker) (rest : Text) :
    visibleStyles t (text ++ rest) =
      visibleStyles t text ++ visibleStyles (updateTrackerFromText text t) rest := by
  rw [visibleStyles, h.pieces_append, styled_append, List.filter_append]
  rfl

theorem updateTracker_append (t : AnsiCodeTracker) (rest : Text) :
    updateTrackerFromText (text ++ rest) t =
      updateTrackerFromText rest (updateTrackerFromText text t) := by
  rw [updateTrackerFromText, h.pieces_append, AnsiCodeTracker.track_append]
  rfl

end Append

theorem styled_codes (t : AnsiCodeTracker) (codes : List Text) :
    styled t (codes.map .code) = [] := by
  induction codes generalizing t with
  | nil => rfl
  | cons c codes ih => exact ih (t.process c)

theorem styled_units (t : AnsiCodeTracker) (text : Text) :
    styled t (text.map .unit) = text.map (·, t) ∧ t.track (text.map .unit) = t := by
  induction text with
  | nil => exact ⟨rfl, rfl⟩
  | cons u rest ih => exact ⟨congrArg ((u, t) :: ·) ih.1, ih.2⟩

theorem visibleStyles_codes {codes : List Text} (h : ∀ c ∈ codes, IsCode c) :
    Complete codes.flatten ∧ ∀ t, visibleStyles t codes.flatten = [] := by
  have hpieces := pieces_codes h
  refine ⟨?_, fun t => ?_⟩
  · rw [Complete, hpieces]
    intro hmem
    obtain ⟨c, -, heq⟩ := List.mem_map.mp hmem
    cases heq
  · rw [visibleStyles, hpieces, styled_codes]
    rfl

variable {text : Text}

theorem complete_units (h : esc ∉ text) : Complete text := by
  rw [Complete, pieces_units h]
  intro hmem
  obtain ⟨u, hu, heq⟩ := List.mem_map.mp hmem
  obtain rfl := Piece.unit.inj heq
  exact h hu

theorem updateTracker_units (h : esc ∉ text) (t : AnsiCodeTracker) :
    updateTrackerFromText text t = t := by
  rw [updateTrackerFromText, pieces_units h]
  exact (styled_units t text).2

theorem esc_notMem_blank (h : text.all isWhitespace = true) : esc ∉ text :=
  fun hmem => absurd (List.all_eq_true.mp h esc hmem) (by decide)

theorem visibleStyles_blank (h : text.all isWhitespace = true) (t : AnsiCodeTracker) :
    visibleStyles t text = [] := by
  rw [visibleStyles, pieces_units (esc_notMem_blank h), (styled_units t text).1,
    List.filter_eq_nil_iff]
  intro p hp
  obtain ⟨u, hu, rfl⟩ := List.mem_map.mp hp
  rw [List.all_eq_true.mp h u hu]
  exact Bool.false_ne_true

theorem updateTracker_code {code : Text} (h : IsCode code) (t : AnsiCodeTracker) :
    updateTrackerFromText code t = t.process code := by
  have hpieces := pieces_code h []
  rw [List.append_nil] at hpieces
  rw [updateTrackerFromText, hpieces]
  rfl

/-! ## Trimming -/

theorem throughFinal_last {text code : Text} (h : throughFinal text = some code) :
    ∃ before u, code = before ++ [u] ∧ isWhitespace u = false := by
  induction text generalizing code with
  | nil => cases h
  | cons u rest ih =>
    unfold throughFinal at h
    split at h
    · rename_i hfinal
      obtain rfl := Option.some.inj h
      refine ⟨[], u, rfl, ?_⟩
      rw [isControlFinal, decide_eq_true_eq] at hfinal
      simp only [List.mem_cons, List.not_mem_nil, or_false] at hfinal
      rcases hfinal with rfl | rfl | rfl | rfl | rfl <;> decide
    · obtain ⟨code', hcode, rfl⟩ := Option.map_eq_some_iff.mp h
      obtain ⟨before, v, rfl, hv⟩ := ih hcode
      exact ⟨u :: before, v, rfl, hv⟩

theorem IsCode.last {code : Text} (h : IsCode code) :
    ∃ before u, code = before ++ [u] ∧ isWhitespace u = false := by
  have hcode := h []
  rw [List.append_nil] at hcode
  unfold extractAnsiCode at hcode
  split at hcode
  · rename_i u next rest
    split at hcode
    · cases hcode
    · split at hcode
      · obtain ⟨body, hbody, heq⟩ := Option.map_eq_some_iff.mp hcode
        obtain ⟨before, v, rfl, hv⟩ := throughFinal_last hbody
        exact ⟨u :: next :: before, v, heq.symm, hv⟩
      · split at hcode
        · obtain ⟨body, hbody, heq⟩ := Option.map_eq_some_iff.mp hcode
          obtain ⟨before, rfl | rfl⟩ := throughTerminator_last hbody
          · exact ⟨u :: next :: before, bel, heq.symm, by decide⟩
          · exact ⟨u :: next :: before ++ [esc], backslash, by
              rw [← heq, List.append_assoc]
              rfl, by decide⟩
        · cases hcode
  · cases hcode

theorem complete_of_concat {u : UInt16} (hu : isWhitespace u = true) (h : Complete (text ++ [u])) :
    Complete text := by
  generalize hall : text ++ [u] = all at h
  induction all using pieces_induction generalizing text with
  | nil => exact absurd hall (List.concat_ne_nil u text)
  | code code rest hcode ih =>
    rcases List.eq_nil_or_concat rest with rfl | ⟨rest, v, rfl⟩
    · obtain ⟨before, v, rfl, hv⟩ := hcode.last
      rw [List.append_nil] at hall
      obtain ⟨-, heq⟩ := List.append_inj' hall rfl
      rw [List.singleton_inj.mp heq, hv] at hu
      cases hu
    · rw [List.concat_eq_append, ← List.append_assoc] at hall
      obtain ⟨rfl, heq⟩ := List.append_inj' hall rfl
      rw [List.concat_eq_append, complete_code hcode] at h
      rw [complete_code hcode]
      rw [← List.concat_eq_append] at h
      exact ih (by rw [heq, List.concat_eq_append]) h
  | unit v rest hnone ih =>
    obtain ⟨hv, hrest⟩ := (complete_cons hnone).mp h
    cases text with
    | nil => exact complete_nil
    | cons w text =>
      obtain ⟨rfl, hall'⟩ := List.cons.inj hall
      rw [complete_cons (extractAnsiCode_none hv text)]
      exact ⟨hv, ih hall' hrest⟩

theorem complete_trimEnd (h : Complete text) : Complete (trimEnd text) := by
  induction text using List.reverseRecOn with
  | nil => exact h
  | append_singleton text u ih =>
    rw [trimEnd, List.rdropWhile_concat]
    split
    · rename_i hu
      exact ih (complete_of_concat hu h)
    · exact h

theorem visibleStyles_trimEnd (h : Complete text) (t : AnsiCodeTracker) :
    visibleStyles t (trimEnd text) = visibleStyles t text := by
  have hblank : (text.rtakeWhile isWhitespace).all isWhitespace = true :=
    List.all_eq_true.mpr fun u hu => List.mem_rtakeWhile_imp hu
  have hsplit : trimEnd text ++ text.rtakeWhile isWhitespace = text :=
    List.rdropWhile_append_rtakeWhile
  conv_rhs => rw [← hsplit]
  rw [visibleStyles_append (complete_trimEnd h), visibleStyles_blank hblank, List.append_nil]

/-! ## Tokens -/

/-- The tokens and what is pending are the text that has been read. -/
structure TokenState.Holds (s : TokenState) (text : Text) : Prop where
  flatten : s.tokens.flatten ++ s.current ++ s.pendingAnsi = text
  tokens : ∀ token ∈ s.tokens, Complete token
  current : Complete s.current
  pendingAnsi : Complete s.pendingAnsi

namespace TokenState.Holds

variable {s : TokenState} {text : Text}

theorem flushCurrent (h : s.Holds text) : s.flushCurrent.Holds text := by
  unfold TokenState.flushCurrent
  split
  · exact h
  · refine ⟨?_, List.forall_mem_append.mpr ⟨h.tokens, List.forall_mem_singleton.mpr h.current⟩,
      complete_nil, h.pendingAnsi⟩
    rw [List.flatten_append, List.flatten_singleton, List.append_nil]
    exact h.flatten

theorem current_flushCurrent (s : TokenState) : s.flushCurrent.current = [] := by
  unfold TokenState.flushCurrent
  split
  · rename_i hnil
    exact hnil
  · rfl

theorem pushCjk (h : s.Holds text) {segment : Text} (hsegment : Complete segment) :
    (s.pushCjk segment).Holds (text ++ segment) := by
  have hflush := h.flushCurrent
  have hnil := current_flushCurrent s
  unfold TokenState.pushCjk
  dsimp only
  refine ⟨?_, List.forall_mem_append.mpr ⟨hflush.tokens, List.forall_mem_singleton.mpr
    (hflush.pendingAnsi.append hsegment)⟩, hflush.current, complete_nil⟩
  have hflatten := hflush.flatten
  rw [hnil, List.append_nil] at hflatten ⊢
  rw [List.flatten_append, List.flatten_singleton, List.append_nil, ← List.append_assoc, hflatten]

theorem extend (h : s.Holds text) {segment : Text} (hsegment : Complete segment) (isSpace : Bool) :
    (s.extend isSpace segment).Holds (text ++ segment) := by
  obtain ⟨s', hs', h'⟩ : ∃ s', (if s.current ≠ [] ∧ s.isSpace ≠ some isSpace then s.flushCurrent
      else s) = s' ∧ s'.Holds text := by
    refine ⟨_, rfl, ?_⟩
    split
    · exact h.flushCurrent
    · exact h
  unfold TokenState.extend
  dsimp only
  rw [hs']
  refine ⟨?_, h'.tokens, (h'.current.append h'.pendingAnsi).append hsegment, complete_nil⟩
  rw [List.append_nil, ← h'.flatten]
  simp only [List.append_assoc]

theorem attachPending (h : s.Holds text) :
    s.attachPending.tokens.flatten ++ s.attachPending.current = text ∧
      (∀ token ∈ s.attachPending.tokens, Complete token) ∧ Complete s.attachPending.current := by
  have hflatten := h.flatten
  unfold TokenState.attachPending
  split
  · rename_i hnil
    rw [hnil, List.append_nil] at hflatten
    exact ⟨hflatten, h.tokens, h.current⟩
  · split
    · rw [List.append_assoc] at hflatten
      exact ⟨hflatten, h.tokens, h.current.append h.pendingAnsi⟩
    · rename_i hcurrent
      rw [Decidable.not_not.mp hcurrent, List.append_nil] at hflatten
      split
      · rename_i last hlast
        obtain ⟨before, hbefore⟩ := List.getLast?_eq_some_iff.mp hlast
        have htokens := h.tokens
        rw [hbefore] at hflatten htokens ⊢
        obtain ⟨hinit, hlastComplete⟩ := List.forall_mem_append.mp htokens
        rw [List.dropLast_concat]
        refine ⟨?_, List.forall_mem_append.mpr ⟨hinit, List.forall_mem_singleton.mpr
          ((List.forall_mem_singleton.mp hlastComplete).append h.pendingAnsi)⟩, h.current⟩
        rw [Decidable.not_not.mp hcurrent, List.append_nil, ← hflatten, List.flatten_append,
          List.flatten_append, List.flatten_singleton, List.flatten_singleton, List.append_assoc]
      · exact ⟨hflatten, h.tokens, h.pendingAnsi⟩

theorem finish (h : s.Holds text) :
    s.finish.flatten = text ∧ ∀ token ∈ s.finish, Complete token := by
  obtain ⟨hflatten, htokens, hcurrent⟩ := h.attachPending
  unfold TokenState.finish
  dsimp only
  split
  · rename_i hnil
    rw [hnil, List.append_nil] at hflatten
    exact ⟨hflatten, htokens⟩
  · refine ⟨?_, List.forall_mem_append.mpr ⟨htokens, List.forall_mem_singleton.mpr hcurrent⟩⟩
    rw [List.flatten_append, List.flatten_singleton, hflatten]

end TokenState.Holds

variable {g : Glyphs}

variable {item : AnsiItem}

theorem AnsiItem.Valid.complete (h : item.Valid) : Complete item.text := by
  cases item with
  | ansi c =>
    rw [AnsiItem.text, Complete, IsCode.pieces h, List.mem_singleton]
    exact Piece.noConfusion
  | grapheme segment => exact complete_units h

theorem holds_tokenStep {s : TokenState} (h : s.Holds text) (hitem : item.Valid) :
    (g.tokenStep s item).Holds (text ++ item.text) := by
  cases item with
  | ansi c =>
    refine ⟨?_, h.tokens, h.current, h.pendingAnsi.append hitem.complete⟩
    rw [← h.flatten]
    exact (List.append_assoc _ _ _).symm
  | grapheme segment =>
    unfold Glyphs.tokenStep
    dsimp only
    split
    · exact h.pushCjk hitem.complete
    · exact h.extend hitem.complete _

theorem holds_tokenSteps {items : List AnsiItem} (hitems : ∀ item ∈ items, item.Valid)
    {s : TokenState} (h : s.Holds text) :
    (items.foldl g.tokenStep s).Holds (text ++ render items) := by
  induction items generalizing s text with
  | nil => rwa [render, List.flatMap_nil, List.append_nil]
  | cons item items ih =>
    obtain ⟨hitem, hrest⟩ := List.forall_mem_cons.mp hitems
    have hstep := ih hrest (holds_tokenStep (g := g) h hitem)
    rw [List.append_assoc] at hstep
    exact hstep

theorem Glyphs.Lawful.render_items (hg : g.Lawful) (text : Text) : render (g.items text) = text :=
  render_itemsFrom hg.flatten text

theorem Glyphs.Lawful.valid_items (hg : g.Lawful) (h : Complete text) :
    ∀ item ∈ g.items text, item.Valid := valid_itemsFrom hg.flatten h

theorem flatten_splitIntoTokens (hg : g.Lawful) (h : Complete text) :
    (g.splitIntoTokensWithAnsi text).flatten = text ∧
      ∀ token ∈ g.splitIntoTokensWithAnsi text, Complete token := by
  have hstart : TokenState.Holds {} [] := ⟨rfl, List.forall_mem_nil _, complete_nil, complete_nil⟩
  have hitems := holds_tokenSteps (g := g) (hg.valid_items h) hstart
  rw [List.nil_append, hg.render_items] at hitems
  exact hitems.finish

/-! ## Lines -/

/-- What has been put on lines shows `out`, and behind it is the state of the
tracker. -/
structure Carried (s : WrapLines) (out : List (UInt16 × AnsiCodeTracker)) : Prop where
  faithful : s.tracker.Faithful
  lines : ∀ line ∈ s.lines, Complete line
  currentLine : Complete s.currentLine
  tracked : updateTrackerFromText s.currentLine {} = s.tracker
  styles : s.lines.flatMap (visibleStyles {}) ++ visibleStyles {} s.currentLine = out

namespace Carried

variable {s : WrapLines} {out : List (UInt16 × AnsiCodeTracker)}

theorem complete_getActiveCodes {t : AnsiCodeTracker} (h : t.Faithful) :
    Complete t.getActiveCodes ∧ visibleStyles {} t.getActiveCodes = [] := by
  obtain ⟨codes, hflatten, hcodes, -⟩ := AnsiCodeTracker.track_codes h
  rw [hflatten]
  exact ⟨(visibleStyles_codes hcodes).1, (visibleStyles_codes hcodes).2 _⟩

theorem nextLine (h : Carried s out) {line : Text} (hline : Complete line)
    (hstyles : visibleStyles {} line = visibleStyles {} s.currentLine) :
    Carried (s.nextLine line) out := by
  obtain ⟨codes, hflatten, hcodes⟩ := AnsiCodeTracker.lineEnd_codes h.faithful
  obtain ⟨hcomplete, hnone⟩ := visibleStyles_codes hcodes
  obtain ⟨hactive, hactiveStyles⟩ := complete_getActiveCodes h.faithful
  rw [← hflatten] at hcomplete hnone
  refine ⟨h.faithful, List.forall_mem_append.mpr ⟨h.lines, List.forall_mem_singleton.mpr
    (hline.append hcomplete)⟩, hactive, track_getActiveCodes h.faithful, ?_⟩
  change (s.lines ++ [line ++ s.tracker.getLineEndReset]).flatMap (visibleStyles {}) ++
    visibleStyles {} s.tracker.getActiveCodes = out
  rw [hactiveStyles, List.append_nil, List.flatMap_append, List.flatMap_singleton,
    visibleStyles_append hline, hnone, List.append_nil, hstyles]
  exact h.styles

theorem append (h : Carried s out) {text : Text} (htext : Complete text) (width : Nat) :
    Carried { s.append text width with tracker := updateTrackerFromText text s.tracker }
      (out ++ visibleStyles s.tracker text) := by
  have hcodes (c : Text) (hc : .code c ∈ pieces text) : IsCode c := isCode_of_mem_pieces hc
  refine ⟨h.faithful.track hcodes, h.lines, h.currentLine.append htext, ?_, ?_⟩
  · change updateTrackerFromText (s.currentLine ++ text) {} = _
    rw [updateTracker_append h.currentLine, h.tracked]
  · change s.lines.flatMap (visibleStyles {}) ++ visibleStyles {} (s.currentLine ++ text) = _
    rw [visibleStyles_append h.currentLine, h.tracked, ← List.append_assoc, h.styles]

end Carried

variable {out : List (UInt16 × AnsiCodeTracker)} {s : WrapLines}

theorem carried_breakStep {width : Nat} (h : Carried s out)
    (hne : s.lines ≠ [] → s.currentLine ≠ []) (hitem : item.Valid) :
    Carried (g.breakStep width s item) (out ++ visibleStyles s.tracker item.text) ∧
      (g.breakStep width s item).tracker = updateTrackerFromText item.text s.tracker ∧
      ((g.breakStep width s item).lines ≠ [] → (g.breakStep width s item).currentLine ≠ []) := by
  cases item with
  | ansi c =>
    have hcode : IsCode c := hitem
    have hcarried := h.append hitem.complete 0
    rw [AnsiItem.text, updateTracker_code hcode] at hcarried
    refine ⟨hcarried, (updateTracker_code hcode _).symm, fun hlines => ?_⟩
    exact List.append_ne_nil_of_left_ne_nil (hne hlines) c
  | grapheme segment =>
    have hesc : esc ∉ segment := hitem
    unfold Glyphs.breakStep
    dsimp only
    split
    · rename_i hnil
      rw [hnil]
      refine ⟨?_, rfl, hne⟩
      rw [AnsiItem.text, visibleStyles_blank rfl, List.append_nil]
      exact h
    · rename_i hsegment
      obtain ⟨s', hs', hcarried', htracker'⟩ : ∃ s',
          (if width < s.visibleLength + g.visibleWidth segment then s.nextLine s.currentLine
            else s) = s' ∧ Carried s' out ∧ s'.tracker = s.tracker := by
        refine ⟨_, rfl, ?_⟩
        split
        · exact ⟨h.nextLine h.currentLine rfl, rfl⟩
        · exact ⟨h, rfl⟩
      rw [hs']
      have hcarried := hcarried'.append hitem.complete (g.visibleWidth segment)
      rw [AnsiItem.text, updateTracker_units hesc, htracker'] at hcarried
      refine ⟨?_, ?_, fun _ => List.append_ne_nil_of_right_ne_nil _ hsegment⟩
      · rw [← htracker'] at hcarried ⊢
        exact hcarried
      · rw [AnsiItem.text, updateTracker_units hesc]
        exact htracker'

theorem carried_breakSteps (width : Nat) {items : List AnsiItem}
    (hitems : ∀ item ∈ items, item.Valid) (h : Carried s out)
    (hne : s.lines ≠ [] → s.currentLine ≠ []) :
    Carried (items.foldl (g.breakStep width) s) (out ++ visibleStyles s.tracker (render items)) ∧
      (items.foldl (g.breakStep width) s).tracker =
        updateTrackerFromText (render items) s.tracker ∧
      ((items.foldl (g.breakStep width) s).lines ≠ [] →
        (items.foldl (g.breakStep width) s).currentLine ≠ []) := by
  induction items generalizing s out with
  | nil =>
    refine ⟨?_, rfl, hne⟩
    rw [render, List.flatMap_nil, visibleStyles_blank rfl, List.append_nil]
    exact h
  | cons item items ih =>
    obtain ⟨hitem, hrest⟩ := List.forall_mem_cons.mp hitems
    obtain ⟨hcarried, htracker, hne'⟩ := carried_breakStep (g := g) h hne hitem
    obtain ⟨hcarried', htracker', hne''⟩ := ih hrest hcarried hne'
    have hcomplete := hitem.complete
    have hrender : render (item :: items) = item.text ++ render items := List.flatMap_cons
    rw [hrender, visibleStyles_append hcomplete, updateTracker_append hcomplete,
      ← List.append_assoc, ← htracker]
    exact ⟨hcarried', htracker', hne''⟩

theorem broken_lines {b : WrapLines} (hne : b.lines ≠ [] → b.currentLine ≠ []) :
    ∃ broken, (if (if b.currentLine = [] then b.lines else b.lines ++ [b.currentLine]) = []
      then [[]]
      else if b.currentLine = [] then b.lines else b.lines ++ [b.currentLine]) = broken ∧
      broken.dropLast = b.lines ∧ broken.getLastD [] = b.currentLine := by
  refine ⟨_, rfl, ?_⟩
  by_cases hcurrent : b.currentLine = []
  · have hnone : b.lines = [] := Decidable.byContradiction fun hlines => hne hlines hcurrent
    rw [if_pos hcurrent, hnone, hcurrent, if_pos rfl]
    exact ⟨rfl, rfl⟩
  · rw [if_neg hcurrent, if_neg (List.append_ne_nil_of_right_ne_nil _ (List.cons_ne_nil _ _)),
      List.dropLast_concat, List.getLastD_concat]
    exact ⟨rfl, rfl⟩

/-- A long word is put on lines of its own, the last of which is the current one. -/
theorem carried_pushLongToken (hg : g.Lawful) (width : Nat) (h : Carried s out) {token : Text}
    (htoken : Complete token) :
    Carried (g.pushLongToken width s token) (out ++ visibleStyles s.tracker token) ∧
      (g.pushLongToken width s token).tracker = updateTrackerFromText token s.tracker := by
  obtain ⟨hactive, hactiveStyles⟩ := Carried.complete_getActiveCodes h.faithful
  have hstart : Carried { currentLine := s.tracker.getActiveCodes, tracker := s.tracker } [] :=
    ⟨h.faithful, List.forall_mem_nil _, hactive, track_getActiveCodes h.faithful,
      (List.nil_append _).trans hactiveStyles⟩
  obtain ⟨hbroken, htracker, hne⟩ := carried_breakSteps (g := g) width
    (hg.valid_items htoken) hstart fun hlines => absurd rfl hlines
  rw [hg.render_items] at hbroken htracker
  rw [List.nil_append] at hbroken
  obtain ⟨hlines, hstyles⟩ : (∀ line ∈ (if s.currentLine = [] then s.lines
      else s.lines ++ [s.currentLine ++ s.tracker.getLineEndReset]), Complete line) ∧
      (if s.currentLine = [] then s.lines
        else s.lines ++ [s.currentLine ++ s.tracker.getLineEndReset]).flatMap (visibleStyles {}) =
        out := by
    split
    · rename_i hnil
      have hout := h.styles
      rw [hnil, visibleStyles_blank rfl, List.append_nil] at hout
      exact ⟨h.lines, hout⟩
    · have hnext := h.nextLine h.currentLine rfl
      have hout := hnext.styles
      have hcurrent : (s.nextLine s.currentLine).currentLine = s.tracker.getActiveCodes := rfl
      rw [hcurrent, hactiveStyles, List.append_nil] at hout
      exact ⟨hnext.lines, hout⟩
  unfold Glyphs.pushLongToken Glyphs.breakLongWord
  dsimp only
  generalize (g.items token).foldl (g.breakStep width)
    { currentLine := s.tracker.getActiveCodes, tracker := s.tracker } = b at hbroken htracker hne ⊢
  obtain ⟨broken, hbroken', hinit, hlast⟩ := broken_lines hne
  rw [hbroken']
  rw [hinit, hlast]
  generalize g.visibleWidth b.currentLine = width'
  generalize (if s.currentLine = [] then s.lines
    else s.lines ++ [s.currentLine ++ s.tracker.getLineEndReset]) = before at hlines hstyles ⊢
  have hcarried : Carried ⟨before ++ b.lines, b.currentLine, width', b.tracker⟩
      (out ++ visibleStyles s.tracker token) := by
    refine ⟨hbroken.faithful, List.forall_mem_append.mpr ⟨hlines, hbroken.lines⟩,
      hbroken.currentLine, hbroken.tracked, ?_⟩
    rw [List.flatMap_append, hstyles, List.append_assoc, hbroken.styles]
  exact ⟨hcarried, htracker⟩

theorem carried_wrapStep (hg : g.Lawful) (width : Nat) (h : Carried s out) {token : Text}
    (htoken : Complete token) :
    Carried (g.wrapStep width s token) (out ++ visibleStyles s.tracker token) ∧
      (g.wrapStep width s token).tracker = updateTrackerFromText token s.tracker := by
  unfold Glyphs.wrapStep
  dsimp only
  split
  · exact carried_pushLongToken hg width h htoken
  · split
    · have hnext := h.nextLine (complete_trimEnd h.currentLine)
        (visibleStyles_trimEnd h.currentLine _)
      split
      · -- white space where the line ends is left out
        rename_i hblank
        have htracker : updateTrackerFromText token s.tracker = s.tracker :=
          updateTracker_units (esc_notMem_blank hblank) _
        refine ⟨?_, rfl⟩
        rw [visibleStyles_blank hblank, List.append_nil]
        change Carried { s.nextLine (trimEnd s.currentLine) with
          tracker := updateTrackerFromText token s.tracker } out
        rw [htracker]
        exact hnext
      · exact ⟨hnext.append htoken _, rfl⟩
    · exact ⟨h.append htoken _, rfl⟩

theorem carried_wrapSteps (hg : g.Lawful) (width : Nat) {tokens : List Text}
    (htokens : ∀ token ∈ tokens, Complete token) (h : Carried s out) :
    Carried (tokens.foldl (g.wrapStep width) s)
      (out ++ visibleStyles s.tracker tokens.flatten) := by
  induction tokens generalizing s out with
  | nil =>
    rw [List.flatten_nil, visibleStyles_blank rfl, List.append_nil]
    exact h
  | cons token tokens ih =>
    obtain ⟨htoken, hrest⟩ := List.forall_mem_cons.mp htokens
    obtain ⟨hcarried, htracker⟩ := carried_wrapStep hg width h htoken
    have hall := ih hrest hcarried
    rw [htracker, List.append_assoc, ← visibleStyles_append htoken] at hall
    exact hall

theorem visibleStyles_wrapSingleLine (hg : g.Lawful) {line : Text} (h : Complete line)
    (width : Nat) :
    (g.wrapSingleLine line width).flatMap (visibleStyles {}) = visibleStyles {} line := by
  unfold Glyphs.wrapSingleLine
  split
  · rename_i hnil
    rw [hnil]
    rfl
  · split
    · exact List.flatMap_singleton _ _
    · obtain ⟨hflatten, htokens⟩ := flatten_splitIntoTokens hg h
      have hstart : Carried {} [] :=
        ⟨AnsiCodeTracker.faithful_start, List.forall_mem_nil _, complete_nil, rfl, rfl⟩
      have hcarried := carried_wrapSteps hg width htokens hstart
      rw [hflatten, List.nil_append] at hcarried
      dsimp only
      generalize (g.splitIntoTokensWithAnsi line).foldl (g.wrapStep width) {} = s at hcarried ⊢
      obtain ⟨wrapped, hwrapped, hcomplete, hstyles⟩ : ∃ wrapped,
          (if s.currentLine = [] then s.lines else s.lines ++ [s.currentLine]) = wrapped ∧
          (∀ line ∈ wrapped, Complete line) ∧
          wrapped.flatMap (visibleStyles {}) = visibleStyles {} line := by
        have hout := hcarried.styles
        refine ⟨_, rfl, ?_⟩
        split
        · rename_i hnil
          rw [hnil, visibleStyles_blank rfl, List.append_nil] at hout
          exact ⟨hcarried.lines, hout⟩
        · refine ⟨List.forall_mem_append.mpr ⟨hcarried.lines,
            List.forall_mem_singleton.mpr hcarried.currentLine⟩, ?_⟩
          rw [List.flatMap_append, List.flatMap_singleton]
          exact hout
      rw [hwrapped]
      split
      · rename_i hnil
        rw [hnil] at hstyles
        exact hstyles
      · rw [List.flatMap_map, ← hstyles]
        refine List.flatMap_congr fun line hline => ?_
        exact visibleStyles_trimEnd (hcomplete line hline) {}

theorem wrapSingleLine_ne_nil (line : Text) (width : Nat) : g.wrapSingleLine line width ≠ [] := by
  unfold Glyphs.wrapSingleLine
  split
  · exact List.cons_ne_nil _ _
  · split
    · exact List.cons_ne_nil _ _
    · dsimp only
      generalize (if ((g.splitIntoTokensWithAnsi line).foldl (g.wrapStep width) {}).currentLine = []
        then ((g.splitIntoTokensWithAnsi line).foldl (g.wrapStep width) {}).lines
        else _) = wrapped
      split
      · exact List.cons_ne_nil _ _
      · rename_i hne
        exact fun hnil => hne (List.map_eq_nil_iff.mp hnil)

/-! ## Texts -/

/-- What the lines of a text show, each read behind the ones before it. -/
def threadStyles (t : AnsiCodeTracker) : List Text → List (UInt16 × AnsiCodeTracker)
  | [] => []
  | line :: rest => visibleStyles t line ++ threadStyles (updateTrackerFromText line t) rest

theorem visibleStyles_intercalate {lines : List Text} (h : ∀ line ∈ lines, Complete line)
    (t : AnsiCodeTracker) : visibleStyles t ([lf].intercalate lines) = threadStyles t lines := by
  induction lines generalizing t with
  | nil => rfl
  | cons line lines ih =>
    obtain ⟨hline, hrest⟩ := List.forall_mem_cons.mp h
    cases lines with
    | nil =>
      rw [List.intercalate_singleton, threadStyles, threadStyles, List.append_nil]
    | cons next lines =>
      have hlf : esc ∉ [lf] := by decide
      have hblank (t : AnsiCodeTracker) : visibleStyles t [lf] = [] := visibleStyles_blank rfl t
      rw [List.intercalate_cons_cons, List.append_assoc, visibleStyles_append hline,
        visibleStyles_append (complete_units hlf), hblank,
        updateTracker_units hlf, List.nil_append, ih hrest]
      rfl

def Piece.code? : Piece → Option Text
  | .code c => some c
  | .unit _ => none

def codesOf (text : Text) : List Text := (pieces text).filterMap Piece.code?

theorem complete_splitOn (h : Complete text) (hcodes : ∀ c ∈ codesOf text, lf ∉ c) :
    ∀ line ∈ text.splitOn lf, Complete line := by
  induction text using pieces_induction with
  | nil =>
    intro line hline
    obtain rfl := List.mem_singleton.mp hline
    exact complete_nil
  | code code rest hcode ih =>
    rw [complete_code hcode] at h
    rw [codesOf, pieces_code hcode] at hcodes
    have hlf := hcodes code List.mem_cons_self
    have hrest := ih h fun c hc => hcodes c (List.mem_cons_of_mem _ hc)
    obtain ⟨first, lines, hlines⟩ := List.exists_cons_of_ne_nil (List.splitOn_ne_nil lf rest)
    have hsplit : (code ++ rest).splitOn lf = (code ++ first) :: lines := by
      clear hcode ih hcodes hrest
      induction code with
      | nil => exact hlines
      | cons u code ih =>
        obtain ⟨hu, hcode⟩ := List.ne_and_not_mem_of_not_mem_cons hlf
        rw [List.cons_append, List.splitOn_cons_eq_if_modifyHead,
          if_neg (fun heq => hu (beq_iff_eq.mp heq).symm), ih hcode]
        rfl
    rw [hlines] at hrest
    obtain ⟨hfirst, hothers⟩ := List.forall_mem_cons.mp hrest
    rw [hsplit]
    exact List.forall_mem_cons.mpr ⟨(complete_code hcode first).mpr hfirst, hothers⟩
  | unit u rest hnone ih =>
    obtain ⟨hu, h⟩ := (complete_cons hnone).mp h
    rw [codesOf, pieces_cons hnone] at hcodes
    have hrest := ih h hcodes
    rw [List.splitOn_cons_eq_if_modifyHead]
    split
    · exact List.forall_mem_cons.mpr ⟨complete_nil, hrest⟩
    · obtain ⟨first, lines, hlines⟩ := List.exists_cons_of_ne_nil (List.splitOn_ne_nil lf rest)
      rw [hlines] at hrest ⊢
      obtain ⟨hfirst, hothers⟩ := List.forall_mem_cons.mp hrest
      refine List.forall_mem_cons.mpr ⟨?_, hothers⟩
      exact (complete_cons (extractAnsiCode_none hu first)).mpr ⟨hu, hfirst⟩

theorem styles_wrapInputLines (hg : g.Lawful) (width : Nat) {lines : List Text}
    (hlines : ∀ line ∈ lines, Complete line) {s : List Text × AnsiCodeTracker}
    (hs : s.1 = [] → s.2 = {}) (hfaithful : s.2.Faithful) :
    (lines.foldl (g.wrapInputLine width) s).1.flatMap (visibleStyles {}) =
      s.1.flatMap (visibleStyles {}) ++ threadStyles s.2 lines := by
  induction lines generalizing s with
  | nil => exact (List.append_nil _).symm
  | cons line lines ih =>
    obtain ⟨hline, hrest⟩ := List.forall_mem_cons.mp hlines
    obtain ⟨opening, hopening, hcomplete, hnone, htracker⟩ : ∃ opening,
        (if s.1 = [] then [] else s.2.getActiveCodes) = opening ∧ Complete opening ∧
        visibleStyles {} opening = [] ∧ updateTrackerFromText opening {} = s.2 := by
      refine ⟨_, rfl, ?_⟩
      split
      · rename_i hnil
        exact ⟨complete_nil, rfl, (hs hnil).symm⟩
      · obtain ⟨hactive, hactiveStyles⟩ := Carried.complete_getActiveCodes hfaithful
        exact ⟨hactive, hactiveStyles, track_getActiveCodes hfaithful⟩
    have hcodes (c : Text) (hc : .code c ∈ pieces line) : IsCode c := isCode_of_mem_pieces hc
    rw [List.foldl_cons, ih hrest
      (fun hnil => absurd (List.append_eq_nil_iff.mp hnil).2 (wrapSingleLine_ne_nil _ _))
      (hfaithful.track hcodes)]
    unfold Glyphs.wrapInputLine
    dsimp only
    rw [hopening, List.flatMap_append,
      visibleStyles_wrapSingleLine hg (hcomplete.append hline), visibleStyles_append hcomplete,
      hnone, htracker, List.nil_append, List.append_assoc, threadStyles]

end Tui

end Eagent
