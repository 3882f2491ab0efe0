import Eagent.OverlayFocus

/-!
# Input goes to a visible component

A component is shown when no overlay with it is removed or invisible. Every
overlay remembers what had the focus before it, an overlay below it
(`TUI.Linked`), and removing one keeps these links alive. Four things break
it: focusing the component of a removed overlay, taking back `setHidden` of a
removed overlay, a target of `unfocus` that goes away before it is used, and
two invisible overlays in a row, as `handleInput` follows one link only.
-/

namespace Eagent

/-! ## Runs -/

inductive OverlayAction (C : Type) where
  | setFocus (component : Option C)
  | showOverlay (component : C) (nonCapturing : Bool)
  | hide (overlay : OverlayId)
  | setHidden (overlay : OverlayId) (hidden : Bool)
  | focus (overlay : OverlayId)
  | unfocus (overlay : OverlayId) (unfocusOptions : Option (Option C))
  | hideOverlay
  | input (isKeyRelease : Bool)
  /-- `options.visible` of the overlays answers otherwise -/
  | conditions (visible : OverlayId → Bool)
  | mount (isComponentMounted : C → Bool)

namespace TUI

variable {C : Type} (s : TUI C)

def start (kind : C → ComponentKind) (visible : OverlayId → Bool)
    (isComponentMounted : C → Bool) : TUI C where
  kind
  visible
  isComponentMounted

def step [DecidableEq C] (s : TUI C) : OverlayAction C → Option (TUI C)
  | .setFocus component => some (s.setFocus component)
  | .showOverlay component nonCapturing => some (s.showOverlay component nonCapturing)
  | .hide overlay => (s.entryOf overlay).map s.hide
  | .setHidden overlay hidden => (s.entryOf overlay).map (s.setHidden · hidden)
  | .focus overlay => (s.entryOf overlay).map s.focus
  | .unfocus overlay unfocusOptions => (s.entryOf overlay).map (s.unfocus · unfocusOptions)
  | .hideOverlay => some s.hideOverlay
  | .input isKeyRelease => some (s.handleInput isKeyRelease).1
  | .conditions visible => some { s with visible }
  | .mount isComponentMounted => some { s with isComponentMounted }

/-! ## What components may do -/

def Alive (c : C) : Prop :=
  ∀ e ∈ s.overlays, e.component = c → e.removed = false

def Shown (c : C) : Prop :=
  ∀ e ∈ s.overlays, e.component = c → e.removed = false ∧ s.isOverlayVisible e = true

/-- The target of an `unfocus` that waits for its overlay's turn. -/
def Awaits (overlay : OverlayId) (c : C) : Prop :=
  ∃ blockedBy, s.overlayFocusRestore = .blocked overlay blockedBy (.focusTarget (some c))

/-- No overlay has this component yet, and nothing is about to focus it. -/
structure Unused (c : C) : Prop where
  component : ∀ e ∈ s.overlays, e.component ≠ c
  focused : s.focusedComponent ≠ some c
  preFocus : ∀ e ∈ s.overlays, e.preFocus ≠ some c
  target : ∀ overlay, ¬ s.Awaits overlay c

def UsesOnce (s : TUI C) : OverlayAction C → Prop
  | .showOverlay component _ => s.Unused component
  | _ => True

/-- Behind a focused overlay that is invisible is no other one, and so with
the target of an `unfocus`. -/
structure InputReady : Prop where
  behind : s.getTopmostVisibleOverlay = none → ∀ e ∈ s.overlayStack,
    s.focusedComponent = some e.component → s.isOverlayVisible e = false →
    ∀ c, e.preFocus = some c → s.Shown c
  target : (∀ e ∈ s.overlayStack, s.focusedComponent = some e.component →
      s.isOverlayVisible e = false) →
    ∀ overlay c, s.Awaits overlay c → s.Shown c

/-- Components of removed overlays are not focused, and a removed overlay is
neither awaited nor taken back; there is a shown component to give the input
to. -/
def KeepsLinks (s : TUI C) : OverlayAction C → Prop
  | .setFocus component => ∀ c, component = some c → s.Alive c
  | .showOverlay component _ => s.Unused component
  | .hide overlay => ∀ e, s.entryOf overlay = some e → e.removed = false →
      ∀ other, s.Awaits other e.component → other = overlay
  | .setHidden overlay hidden => hidden = false → ∀ e, s.entryOf overlay = some e →
      e.hidden = true → e.removed = true → e.nonCapturing = true ∨ s.visible overlay = false
  | .unfocus _ unfocusOptions => ∀ c, unfocusOptions = some (some c) → s.Alive c
  | .hideOverlay => ∀ e, s.overlayStack.getLast? = some e →
      ∀ other, s.Awaits other e.component → other = e.id
  | .input _ => s.InputReady
  | .focus _ | .conditions _ | .mount _ => True

/-- The component whose `focused` is set is the one with the focus. -/
def FocusedExactly : Prop :=
  ∀ c, s.focused c = true ↔ s.focusedComponent = some c ∧ (s.kind c).isFocusable = true

/-- Entries in the order of their handles, of different components; what had
the focus before an overlay, or is the target of an `unfocus`, was not
removed. -/
structure Linked : Prop where
  ids : ∀ (i : Nat) (e : OverlayStackEntry C), s.overlays[i]? = some e → e.id = i
  distinct : ∀ e ∈ s.overlays, ∀ e' ∈ s.overlays, e.component = e'.component → e = e'
  below : ∀ e ∈ s.overlays, e.removed = false → ∀ e' ∈ s.overlays,
    e.preFocus = some e'.component → e'.removed = false ∧ e'.id < e.id
  target : ∀ overlay c, s.Awaits overlay c → s.Alive c

/-- What holds between the calls. -/
structure FocusInv : Prop where
  linked : s.Linked
  focus : ∀ c, s.focusedComponent = some c → s.Alive c

variable {s}

/-! ## Overlays of the stack -/

variable {e : OverlayStackEntry C}

theorem mem_overlayStack :
    e ∈ s.overlayStack ↔ e ∈ s.overlays ∧ e.removed = false := by
  rw [overlayStack, List.mem_filter, Bool.not_eq_true']

variable {overlay : OverlayId}

theorem mem_of_entryOf (h : s.entryOf overlay = some e) : e ∈ s.overlays ∧ e.id = overlay := by
  refine ⟨List.mem_of_find?_eq_some h, ?_⟩
  have hid := List.find?_some h
  rwa [decide_eq_true_eq] at hid

theorem Linked.eq_of_id (h : s.Linked) {e e' : OverlayStackEntry C} (he : e ∈ s.overlays)
    (he' : e' ∈ s.overlays) (hid : e.id = e'.id) : e = e' := by
  obtain ⟨i, hi⟩ := List.mem_iff_getElem?.mp he
  obtain ⟨j, hj⟩ := List.mem_iff_getElem?.mp he'
  have hij : i = j := by rw [← h.ids i e hi, ← h.ids j e' hj, hid]
  subst hij
  exact Option.some.inj (hi.symm.trans hj)

theorem Linked.entryOf_of_mem (h : s.Linked) (he : e ∈ s.overlays) :
    s.entryOf e.id = some e := by
  obtain ⟨e', he'⟩ : ∃ e', s.entryOf e.id = some e' :=
    Option.isSome_iff_exists.mp (List.find?_isSome.mpr ⟨e, he, decide_eq_true rfl⟩)
  rw [he', h.eq_of_id (mem_of_entryOf he').1 he (mem_of_entryOf he').2]

theorem Linked.alive (h : s.Linked) (he : e ∈ s.overlayStack) :
    s.Alive e.component := by
  obtain ⟨hmem, hremoved⟩ := mem_overlayStack.mp he
  intro e' he' hsame
  rw [h.distinct e' he' e hmem hsame]
  exact hremoved

theorem Linked.shown (h : s.Linked) (he : e ∈ s.overlayStack)
    (hvisible : s.isOverlayVisible e = true) : s.Shown e.component := by
  obtain ⟨hmem, hremoved⟩ := mem_overlayStack.mp he
  intro e' he' hsame
  rw [h.distinct e' he' e hmem hsame]
  exact ⟨hremoved, hvisible⟩

variable {c : C}

theorem Alive.shown_of_not_overlay (h : s.Alive c) (hnone : ∀ e ∈ s.overlayStack, e.component ≠ c) :
    s.Shown c := by
  intro e he hsame
  exact absurd hsame (hnone e (mem_overlayStack.mpr ⟨he, h e he hsame⟩))

theorem getTopmostVisibleOverlay_mem {top : OverlayStackEntry C}
    (h : s.getTopmostVisibleOverlay = some top) :
    top ∈ s.overlayStack ∧ s.isOverlayVisible top = true := by
  have hfold : ∀ e, s.getTopmostVisibleOverlay = some e →
      e ∈ s.overlayStack ∧ s.isOverlayVisible e = true := by
    unfold getTopmostVisibleOverlay
    refine List.foldlRecOn
      (motive := fun topmost => ∀ e, topmost = some e →
        e ∈ s.overlayStack ∧ s.isOverlayVisible e = true)
      s.overlayStack _ (fun _ he => by cases he) ?_
    intro topmost htop overlay hoverlay e he
    split at he
    · exact htop e he
    · rename_i hcapturing
      have hvisible : s.isOverlayVisible overlay = true := by
        by_contra hinvisible
        exact hcapturing (by simp [hinvisible])
      split at he
      · obtain rfl := Option.some.inj he
        exact ⟨hoverlay, hvisible⟩
      · split at he
        · obtain rfl := Option.some.inj he
          exact ⟨hoverlay, hvisible⟩
        · exact htop e he
  exact hfold top h

/-! ## Moving the focus -/

theorem getVisible_blocked {blockedBy : C} {resume : OverlayBlockedFocusResume C}
    (h : s.getVisibleOverlayFocusRestore = .blocked overlay blockedBy resume) :
    s.overlayFocusRestore = .blocked overlay blockedBy resume ∧
      ∃ e ∈ s.overlayStack, e.id = overlay ∧ s.isOverlayVisible e = true := by
  unfold getVisibleOverlayFocusRestore at h
  split at h
  · cases h
  · split at h <;> cases h
  · rename_i hrestore
    split at h
    · rename_i hany
      cases h
      simpa [hrestore] using hany
    · cases h

theorem getVisible_eligible (h : s.getVisibleOverlayFocusRestore = .eligible overlay) :
    ∃ e ∈ s.overlayStack, e.id = overlay ∧ s.isOverlayVisible e = true := by
  unfold getVisibleOverlayFocusRestore at h
  split at h
  · cases h
  · split at h
    · rename_i hany
      cases h
      simpa using hany
    · cases h
  · split at h <;> cases h

theorem Linked.componentOf (h : s.Linked)
    (hvisible : ∃ e ∈ s.overlayStack, e.id = overlay ∧ s.isOverlayVisible e = true) :
    ∃ e ∈ s.overlayStack, s.componentOf overlay = some e.component ∧
      s.isOverlayVisible e = true := by
  obtain ⟨e, he, rfl, hvisible⟩ := hvisible
  refine ⟨e, he, ?_, hvisible⟩
  rw [TUI.componentOf, h.entryOf_of_mem (mem_overlayStack.mp he).1]
  rfl

variable [DecidableEq C]

/-- What is focused in place of a component: the component, a visible overlay
that waits, or the target of its `unfocus`. -/
theorem Linked.redirectFocus_cases (h : s.Linked) (component : Option C)
    (policy : OverlayFocusRestorePolicy) :
    (s.redirectFocus policy component).1 = component ∨
      (∃ e ∈ s.overlayStack, s.isOverlayVisible e = true ∧
        (s.redirectFocus policy component).1 = some e.component) ∨
      ∃ overlay blockedBy target,
        s.getVisibleOverlayFocusRestore = .blocked overlay blockedBy (.focusTarget target) ∧
          (s.redirectFocus policy component).1 = target := by
  have hresolve : ∀ overlay blockedBy resume,
      s.getVisibleOverlayFocusRestore = .blocked overlay blockedBy resume →
      (∃ e ∈ s.overlayStack, s.isOverlayVisible e = true ∧
        (s.resolveBlockedOverlayFocusResume overlay resume).1 = some e.component) ∨
      ∃ overlay' blockedBy' target,
        s.getVisibleOverlayFocusRestore = .blocked overlay' blockedBy' (.focusTarget target) ∧
          (s.resolveBlockedOverlayFocusResume overlay resume).1 = target := by
    intro overlay blockedBy resume hblocked
    cases resume with
    | restoreOverlay =>
      obtain ⟨e, he, hcomponent, hvisible⟩ := h.componentOf (getVisible_blocked hblocked).2
      exact .inl ⟨e, he, hvisible, hcomponent⟩
    | focusTarget target => exact .inr ⟨overlay, blockedBy, target, hblocked, rfl⟩
  cases component with
  | some nextFocus =>
    simp only [redirectFocus]
    split
    · exact .inl rfl
    · split
      · exact .inl rfl
      · exact .inl rfl
      · rename_i hblocked
        split
        · split
          · exact .inl rfl
          · exact .inr (hresolve _ _ _ hblocked)
        · exact .inl rfl
  | none =>
    simp only [redirectFocus]
    split
    · rename_i hblocked
      split
      · exact .inr (hresolve _ _ _ hblocked)
      · exact .inl rfl
    · exact .inl rfl

variable {policy : OverlayFocusRestorePolicy} {component : Option C}

/-- No target of an `unfocus` comes up anew. -/
theorem redirectFocus_target {blockedBy c : C}
    (h : (s.redirectFocus policy component).2 = .blocked overlay blockedBy (.focusTarget (some c))) :
    s.Awaits overlay c := by
  have hblock : ∀ overlay' next,
      s.blockRestore overlay' next = .blocked overlay blockedBy (.focusTarget (some c)) →
      s.Awaits overlay c := by
    intro overlay' next hblock
    unfold blockRestore at hblock
    split at hblock
    · split at hblock
      · cases hblock
      · exact ⟨_, hblock⟩
    · exact ⟨_, hblock⟩
  have hresolve : ∀ overlay' resume,
      (s.resolveBlockedOverlayFocusResume overlay' resume).2 =
        .blocked overlay blockedBy (.focusTarget (some c)) → s.Awaits overlay c := by
    intro overlay' resume hresume
    cases resume with
    | restoreOverlay => exact ⟨_, hresume⟩
    | focusTarget target => cases hresume
  cases component with
  | some nextFocus =>
    simp only [redirectFocus] at h
    split at h
    · exact ⟨_, h⟩
    · split at h
      · exact ⟨_, h⟩
      · exact hblock _ _ h
      · split at h
        · split at h
          · cases h
          · exact hresolve _ _ h
        · exact hblock _ _ h
  | none =>
    simp only [redirectFocus] at h
    cases policy with
    | clear =>
      split at h
      · split at h
        · exact hresolve _ _ h
        · cases h
      · cases h
    | preserve =>
      split at h
      · split at h
        · exact hresolve _ _ h
        · exact ⟨_, h⟩
      · exact ⟨_, h⟩

@[simp] theorem overlays_setFocusInternal (component : Option C)
    (policy : OverlayFocusRestorePolicy) :
    (s.setFocusInternal component policy).overlays = s.overlays := rfl

@[simp] theorem visible_setFocusInternal (component : Option C)
    (policy : OverlayFocusRestorePolicy) :
    (s.setFocusInternal component policy).visible = s.visible := rfl

theorem target_setFocusInternal (h : (s.setFocusInternal component policy).Awaits overlay c) :
    s.Awaits overlay c := by
  obtain ⟨blockedBy, h⟩ := h
  simp only [setFocusInternal] at h
  split at h
  · cases h
  · exact redirectFocus_target h

theorem Linked.setFocusInternal (h : s.Linked) (component : Option C)
    (policy : OverlayFocusRestorePolicy) : (s.setFocusInternal component policy).Linked :=
  { h with target := fun overlay c hawaits => h.target overlay c (target_setFocusInternal hawaits) }

theorem Linked.focusInv_setFocusInternal (h : s.Linked)
    (halive : ∀ c, component = some c → s.Alive c) (policy : OverlayFocusRestorePolicy) :
    (s.setFocusInternal component policy).FocusInv where
  linked := h.setFocusInternal component policy
  focus c hc := by
    have hfocus : (s.redirectFocus policy component).1 = some c := hc
    obtain hsame | ⟨e, he, -, hcomponent⟩ | ⟨overlay, blockedBy, target, hblocked, htarget⟩ :=
      h.redirectFocus_cases component policy
    · exact halive c (hsame.symm.trans hfocus)
    · obtain rfl := Option.some.inj (hcomponent.symm.trans hfocus)
      exact h.alive he
    · obtain rfl : target = some c := htarget.symm.trans hfocus
      exact h.target overlay c ⟨blockedBy, (getVisible_blocked hblocked).1⟩

theorem setFocused_eq (component : Option C) (value : Bool) (c : C) :
    s.setFocused component value c =
      if component = some c ∧ (s.kind c).isFocusable = true then value else s.focused c := by
  unfold setFocused
  cases component with
  | none => rfl
  | some c' =>
    by_cases hsame : c' = c
    · subst hsame
      by_cases hfocusable : (s.kind c').isFocusable = true
      · simp [hfocusable]
      · simp [hfocusable]
    · have hne : some c' ≠ some c := fun h => hsame (Option.some.inj h)
      rw [if_neg fun h => hne h.1]
      by_cases hfocusable : (s.kind c').isFocusable = true
      · simp [hfocusable, Function.update_of_ne (Ne.symm hsame)]
      · simp [hfocusable]

theorem focusedExactly_setFocusInternal (h : s.FocusedExactly) (component : Option C)
    (policy : OverlayFocusRestorePolicy) :
    (s.setFocusInternal component policy).FocusedExactly := by
  intro c
  have hfocused : (s.setFocusInternal component policy).focused c =
      if (s.redirectFocus policy component).1 = some c ∧ (s.kind c).isFocusable = true then true
      else if s.focusedComponent = some c ∧ (s.kind c).isFocusable = true then false
      else s.focused c := by
    rw [← setFocused_eq s.focusedComponent false c]
    exact setFocused_eq (s := { s with focused := s.setFocused s.focusedComponent false }) ..
  have hkind : (s.setFocusInternal component policy).kind = s.kind := rfl
  have hcomponent : (s.setFocusInternal component policy).focusedComponent =
      (s.redirectFocus policy component).1 := rfl
  rw [hfocused, hkind, hcomponent]
  constructor
  · intro htrue
    split at htrue
    · assumption
    · split at htrue
      · cases htrue
      · exact absurd ((h c).mp htrue) ‹_›
  · exact fun hnext => if_pos hnext

/-! ## The entries -/

variable {f : OverlayStackEntry C → OverlayStackEntry C}

omit [DecidableEq C] in
/-- A change of the entries that keeps what they are, and their links alive. -/
theorem Linked.map (h : s.Linked) {restore : OverlayFocusRestoreState C} {counter : Nat}
    (hsame : ∀ e, (f e).id = e.id ∧ (f e).component = e.component)
    (hbelow : ∀ e ∈ s.overlays, (f e).removed = false → ∀ e' ∈ s.overlays,
      (f e).preFocus = some e'.component → (f e').removed = false ∧ e'.id < e.id)
    (htarget : ∀ overlay blockedBy c,
      restore = .blocked overlay blockedBy (.focusTarget (some c)) →
      ∀ e ∈ s.overlays, e.component = c → (f e).removed = false) :
    Linked { s with
      overlays := s.overlays.map f
      overlayFocusRestore := restore
      focusOrderCounter := counter } where
  ids i e he := by
    rw [List.getElem?_map] at he
    obtain ⟨e₀, he₀, rfl⟩ := Option.map_eq_some_iff.mp he
    rw [(hsame e₀).1]
    exact h.ids i e₀ he₀
  distinct e he e' he' hcomponent := by
    obtain ⟨e₀, he₀, rfl⟩ := List.mem_map.mp he
    obtain ⟨e₁, he₁, rfl⟩ := List.mem_map.mp he'
    rw [(hsame e₀).2, (hsame e₁).2] at hcomponent
    rw [h.distinct e₀ he₀ e₁ he₁ hcomponent]
  below e he hremoved e' he' hfocus := by
    obtain ⟨e₀, he₀, rfl⟩ := List.mem_map.mp he
    obtain ⟨e₁, he₁, rfl⟩ := List.mem_map.mp he'
    rw [(hsame e₁).2] at hfocus
    rw [(hsame e₀).1, (hsame e₁).1]
    exact hbelow e₀ he₀ hremoved e₁ he₁ hfocus
  target overlay c hawaits e he hcomponent := by
    obtain ⟨e₀, he₀, rfl⟩ := List.mem_map.mp he
    obtain ⟨blockedBy, hrestore⟩ := hawaits
    rw [(hsame e₀).2] at hcomponent
    exact htarget overlay blockedBy c hrestore e₀ he₀ hcomponent

omit [DecidableEq C] in
/-- An entry changes only in what no link sees. -/
theorem kept_modify
    (hsame : ∀ e, (f e).id = e.id ∧ (f e).component = e.component ∧
      (f e).preFocus = e.preFocus ∧ (f e).removed = e.removed)
    (overlay : OverlayId) (e : OverlayStackEntry C) :
    let e' := if e.id = overlay then f e else e
    e'.id = e.id ∧ e'.component = e.component ∧ e'.preFocus = e.preFocus ∧
      e'.removed = e.removed := by
  dsimp only
  split
  · exact hsame e
  · exact ⟨rfl, rfl, rfl, rfl⟩

omit [DecidableEq C] in
theorem Alive.modifyEntry (h : s.Alive c) (overlay : OverlayId) (counter : Nat)
    (hsame : ∀ e, (f e).id = e.id ∧ (f e).component = e.component ∧
      (f e).preFocus = e.preFocus ∧ (f e).removed = e.removed) :
    Alive (TUI.modifyEntry { s with focusOrderCounter := counter } overlay f) c := by
  intro e he hcomponent
  obtain ⟨e₀, he₀, rfl⟩ := List.mem_map.mp he
  obtain ⟨-, hcomponent₀, -, hremoved⟩ := kept_modify hsame overlay e₀
  rw [hremoved]
  exact h e₀ he₀ (hcomponent₀.symm.trans hcomponent)

omit [DecidableEq C] in
theorem FocusInv.modifyEntry (h : s.FocusInv) (overlay : OverlayId) (counter : Nat)
    (hsame : ∀ e, (f e).id = e.id ∧ (f e).component = e.component ∧ (f e).preFocus = e.preFocus ∧
      (f e).removed = e.removed) :
    FocusInv (TUI.modifyEntry { s with focusOrderCounter := counter } overlay f) := by
  have hkept := kept_modify hsame overlay
  refine ⟨h.linked.map (fun e => ⟨(hkept e).1, (hkept e).2.1⟩) (fun e he hremoved e' he' hfocus => ?_)
    (fun overlay blockedBy c hrestore e he hcomponent => ?_),
    fun c hc => (h.focus c hc).modifyEntry overlay counter hsame⟩
  · rw [(hkept e).2.2.2] at hremoved
    rw [(hkept e).2.2.1] at hfocus
    rw [(hkept e').2.2.2]
    exact h.linked.below e he hremoved e' he' hfocus
  · rw [(hkept e).2.2.2]
    exact h.linked.target overlay c ⟨blockedBy, hrestore⟩ e he hcomponent

theorem FocusInv.setFocus (h : s.FocusInv) (halive : ∀ c, component = some c → s.Alive c) :
    (s.setFocus component).FocusInv :=
  h.linked.focusInv_setFocusInternal halive .clear

omit [DecidableEq C] in
theorem clearRestoreFor_eq (s : TUI C) (overlay : OverlayId) : ∃ restore,
    s.clearOverlayFocusRestoreFor overlay = { s with overlayFocusRestore := restore } ∧
      ∀ other blockedBy c, restore = .blocked other blockedBy (.focusTarget (some c)) →
        s.Awaits other c ∧ other ≠ overlay := by
  have hinactive : ∀ other blockedBy c,
      OverlayFocusRestoreState.inactive = .blocked other blockedBy (.focusTarget (some c)) →
        s.Awaits other c ∧ other ≠ overlay := by
    intro _ _ _ h
    cases h
  unfold clearOverlayFocusRestoreFor
  split
  · rename_i hrestore
    exact ⟨.inactive, by rw [← hrestore], hinactive⟩
  · rename_i other hrestore
    split
    · exact ⟨.inactive, rfl, hinactive⟩
    · refine ⟨.eligible other, by rw [← hrestore], fun _ _ _ h => ?_⟩
      cases h
  · rename_i other blockedBy resume hrestore
    split
    · exact ⟨.inactive, rfl, hinactive⟩
    · rename_i hne
      refine ⟨.blocked other blockedBy resume, by rw [← hrestore], fun _ blockedBy _ h => ?_⟩
      cases h
      exact ⟨⟨blockedBy, hrestore⟩, hne⟩

omit [DecidableEq C] in
theorem FocusInv.clearRestore (h : s.FocusInv) : s.clearOverlayFocusRestore.FocusInv where
  linked := { h.linked with target := by rintro overlay c ⟨blockedBy, hawaits⟩; cases hawaits }
  focus := h.focus

omit [DecidableEq C] in
theorem FocusInv.clearRestoreFor (h : s.FocusInv) (overlay : OverlayId) :
    (s.clearOverlayFocusRestoreFor overlay).FocusInv := by
  obtain ⟨restore, hclear, htarget⟩ := clearRestoreFor_eq s overlay
  rw [hclear]
  refine ⟨{ h.linked with target := ?_ }, h.focus⟩
  rintro other c ⟨blockedBy, hawaits⟩
  exact h.linked.target other c (htarget other blockedBy c hawaits).1

theorem FocusInv.raise (h : s.FocusInv) (halive : s.Alive e.component) :
    (s.raise e).FocusInv := by
  have hsame : ∀ e : OverlayStackEntry C,
      let e' := { e with focusOrder := s.focusOrderCounter + 1 }
      e'.id = e.id ∧ e'.component = e.component ∧ e'.preFocus = e.preFocus ∧
        e'.removed = e.removed := fun _ => ⟨rfl, rfl, rfl, rfl⟩
  refine (h.modifyEntry e.id (s.focusOrderCounter + 1) hsame).setFocus fun c hc => ?_
  obtain rfl := Option.some.inj hc
  exact halive.modifyEntry _ _ hsame

theorem Linked.focusBehind (h : s.Linked) (hlink : ∀ c, e.preFocus = some c → s.Alive c) :
    (s.focusBehind e).FocusInv := by
  refine h.focusInv_setFocusInternal (fun c hc => ?_) .clear
  cases htop : s.getTopmostVisibleOverlay with
  | some top =>
    rw [htop] at hc
    obtain rfl := Option.some.inj hc
    exact h.alive (getTopmostVisibleOverlay_mem htop).1
  | none =>
    rw [htop] at hc
    exact hlink c hc

/-! ## Removing an overlay -/

/-- What removing `entry` makes of an entry. -/
def afterRemoval (entry overlay : OverlayStackEntry C) : OverlayStackEntry C :=
  let overlay :=
    if !overlay.removed && overlay.id ≠ entry.id && overlay.preFocus = some entry.component then
      { overlay with preFocus := entry.preFocus }
    else overlay
  if overlay.id = entry.id then { overlay with removed := true } else overlay

section Removal

variable (entry overlay : OverlayStackEntry C)

theorem afterRemoval_same :
    (afterRemoval entry overlay).id = overlay.id ∧
      (afterRemoval entry overlay).component = overlay.component := by
  unfold afterRemoval
  dsimp only
  split <;> split <;> exact ⟨rfl, rfl⟩

theorem afterRemoval_removed :
    (afterRemoval entry overlay).removed = false ↔
      overlay.removed = false ∧ overlay.id ≠ entry.id := by
  unfold afterRemoval
  dsimp only
  split <;> split <;> simp_all

theorem afterRemoval_preFocus (hremoved : overlay.removed = false) (hid : overlay.id ≠ entry.id) :
    (afterRemoval entry overlay).preFocus =
      if overlay.preFocus = some entry.component then entry.preFocus else overlay.preFocus := by
  unfold afterRemoval
  simp only [hremoved]
  split <;> simp_all

end Removal

theorem FocusInv.removeOverlay (h : s.FocusInv) (he : e ∈ s.overlays) (hremoved : e.removed = false)
    (hawaits : ∀ other, s.Awaits other e.component → other = e.id) :
    (s.removeOverlay e).FocusInv := by
  obtain ⟨restore, hclear, hrestore⟩ := clearRestoreFor_eq s e.id
  have hremoval : ((s.clearOverlayFocusRestoreFor e.id).retargetOverlayPreFocus e).modifyEntry e.id
      (fun entry => { entry with removed := true }) =
        { s with
          overlays := s.overlays.map (afterRemoval e)
          overlayFocusRestore := restore } := by
    rw [hclear]
    simp only [retargetOverlayPreFocus, TUI.modifyEntry, List.map_map]
    rfl
  have hlinked : Linked { s with
      overlays := s.overlays.map (afterRemoval e)
      overlayFocusRestore := restore } := by
    refine h.linked.map (afterRemoval_same e) (fun o ho hkept o' ho' hfocus => ?_)
      (fun overlay blockedBy c hblocked o ho hcomponent => ?_)
    · obtain ⟨hstays, hid⟩ := (afterRemoval_removed e o).mp hkept
      rw [afterRemoval_preFocus e o hstays hid] at hfocus
      split at hfocus
      · rename_i hbehind
        obtain ⟨hstays', hlt'⟩ := h.linked.below e he hremoved o' ho' hfocus
        have hlt := (h.linked.below o ho hstays e he hbehind).2
        exact ⟨(afterRemoval_removed e o').mpr ⟨hstays', Nat.ne_of_lt hlt'⟩, Nat.lt_trans hlt' hlt⟩
      · rename_i hother
        obtain ⟨hstays', hlt⟩ := h.linked.below o ho hstays o' ho' hfocus
        refine ⟨(afterRemoval_removed e o').mpr ⟨hstays', fun hsame => ?_⟩, hlt⟩
        rw [h.linked.eq_of_id ho' he hsame] at hfocus
        exact hother hfocus
    · obtain ⟨hawait, hne⟩ := hrestore overlay blockedBy c hblocked
      refine (afterRemoval_removed e o).mpr
        ⟨h.linked.target overlay c hawait o ho hcomponent, fun hsame => ?_⟩
      rw [← hcomponent, h.linked.eq_of_id ho he hsame] at hawait
      exact hne (hawaits overlay hawait)
  have halive : ∀ c, (∀ o ∈ s.overlays, o.component = c → o.removed = false ∧ o.id ≠ e.id) →
      Alive { s with
        overlays := s.overlays.map (afterRemoval e)
        overlayFocusRestore := restore } c := by
    intro c hc o ho hcomponent
    obtain ⟨o₀, ho₀, rfl⟩ := List.mem_map.mp ho
    exact (afterRemoval_removed e o₀).mpr
      (hc o₀ ho₀ ((afterRemoval_same e o₀).2.symm.trans hcomponent))
  simp only [TUI.removeOverlay, hremoval]
  split
  · refine hlinked.focusBehind fun c hc => halive c fun o ho hcomponent => ?_
    obtain ⟨hstays, hlt⟩ := h.linked.below e he hremoved o ho (hcomponent ▸ hc)
    exact ⟨hstays, Nat.ne_of_lt hlt⟩
  · rename_i hfocus
    refine ⟨hlinked, fun c hc => halive c fun o ho hcomponent => ?_⟩
    refine ⟨h.focus c hc o ho hcomponent, fun hsame => hfocus ?_⟩
    rw [← h.linked.eq_of_id ho he hsame, hcomponent]
    exact hc

/-! ## Calls -/

omit [DecidableEq C] in
theorem Linked.alive_preFocus (h : s.Linked) (he : e ∈ s.overlays) (hremoved : e.removed = false)
    (c : C) (hc : e.preFocus = some c) : s.Alive c := by
  intro o ho hcomponent
  exact (h.below e he hremoved o ho (hcomponent ▸ hc)).1

omit [DecidableEq C] in
theorem FocusInv.pushed (h : s.FocusInv) (entry : OverlayStackEntry C) (counter : Nat)
    (hid : entry.id = s.overlays.length) (hfocus : entry.preFocus = s.focusedComponent)
    (hkept : entry.removed = false) (hunused : s.Unused entry.component) :
    FocusInv { s with
      overlays := s.overlays ++ [entry]
      focusOrderCounter := counter } := by
  have hmem : ∀ e, e ∈ s.overlays ++ [entry] ↔ e ∈ s.overlays ∨ e = entry := by
    intro e
    rw [List.mem_append, List.mem_singleton]
  have halive : ∀ c, s.Alive c → ∀ e ∈ s.overlays ++ [entry], e.component = c →
      e.removed = false := by
    intro c hc e he hcomponent
    rcases (hmem e).mp he with he | rfl
    · exact hc e he hcomponent
    · exact hkept
  refine ⟨⟨fun i e he => ?_, fun e he e' he' hsame => ?_, fun e he hremoved e' he' hlink => ?_,
    fun overlay c hawaits => halive c (h.linked.target overlay c hawaits)⟩,
    fun c hc => halive c (h.focus c hc)⟩
  · rcases Nat.lt_or_ge i s.overlays.length with hlt | hge
    · rw [List.getElem?_append_left hlt] at he
      exact h.linked.ids i e he
    · rw [List.getElem?_append_right hge, List.getElem?_singleton] at he
      obtain ⟨hzero, hentry⟩ := Option.ite_none_right_eq_some.mp he
      obtain rfl := Option.some.inj hentry
      rw [hid]
      exact Nat.le_antisymm hge (Nat.sub_eq_zero_iff_le.mp hzero)
  · rcases (hmem e).mp he with hold | rfl <;> rcases (hmem e').mp he' with hold' | rfl
    · exact h.linked.distinct e hold e' hold' hsame
    · exact absurd hsame (hunused.component e hold)
    · exact absurd hsame.symm (hunused.component e' hold')
    · rfl
  · rcases (hmem e).mp he with hold | rfl <;> rcases (hmem e').mp he' with hold' | rfl
    · exact h.linked.below e hold hremoved e' hold' hlink
    · exact absurd hlink (hunused.preFocus e hold)
    · refine ⟨h.focus _ (hfocus.symm.trans hlink) e' hold' rfl, ?_⟩
      obtain ⟨i, hi⟩ := List.mem_iff_getElem?.mp hold'
      rw [h.linked.ids i e' hi, hid]
      exact (List.getElem?_eq_some_iff.mp hi).1
    · exact absurd (hfocus.symm.trans hlink) hunused.focused

theorem FocusInv.showOverlay (h : s.FocusInv) (hunused : s.Unused c) (nonCapturing : Bool) :
    (s.showOverlay c nonCapturing).FocusInv := by
  have hpushed := h.pushed
    { id := s.overlays.length
      component := c
      nonCapturing
      preFocus := s.focusedComponent
      focusOrder := s.focusOrderCounter + 1 } (s.focusOrderCounter + 1) rfl rfl rfl hunused
  simp only [TUI.showOverlay]
  split
  · refine hpushed.setFocus fun c' hc' => ?_
    obtain rfl := Option.some.inj hc'
    exact hpushed.linked.alive
      (mem_overlayStack.mpr ⟨List.mem_append_right _ (List.mem_singleton.mpr rfl), rfl⟩)
  · exact hpushed

theorem FocusInv.setHidden (h : s.FocusInv) (he : e ∈ s.overlays) {hidden : Bool}
    (hok : hidden = false → e.hidden = true → e.removed = true →
      e.nonCapturing = true ∨ s.visible e.id = false) :
    (s.setHidden e hidden).FocusInv := by
  have hsame : ∀ e : OverlayStackEntry C, let e' := { e with hidden := hidden }
      e'.id = e.id ∧ e'.component = e.component ∧ e'.preFocus = e.preFocus ∧
        e'.removed = e.removed := fun _ => ⟨rfl, rfl, rfl, rfl⟩
  have hmodify := h.modifyEntry e.id s.focusOrderCounter hsame
  have halive : ∀ c, s.Alive c → Alive (s.modifyEntry e.id fun e => { e with hidden }) c :=
    fun c hc => hc.modifyEntry e.id s.focusOrderCounter hsame
  unfold TUI.setHidden
  split
  · exact h
  · rename_i hchanged
    dsimp only
    split
    · have hclear := hmodify.clearRestoreFor e.id
      split
      · rename_i hfocused
        obtain ⟨restore, hcleared, -⟩ :=
          clearRestoreFor_eq (s.modifyEntry e.id fun e => { e with hidden }) e.id
        rw [hcleared] at hclear hfocused ⊢
        have hlink := h.linked.alive_preFocus he (h.focus _ hfocused e he rfl)
        exact hclear.linked.focusBehind fun c hc => halive c (hlink c hc)
      · exact hclear
    · rename_i hfalse
      split
      · rename_i hcapturing
        simp only [Bool.and_eq_true, Bool.not_eq_true'] at hcapturing
        refine hmodify.raise (halive _ fun o ho hcomponent => ?_)
        rw [h.linked.distinct o ho e he hcomponent]
        by_contra hremoved
        rw [Bool.not_eq_false] at hremoved
        have hhidden : e.hidden = true := by
          rw [Bool.not_eq_true] at hfalse
          rwa [hfalse, Bool.not_eq_false] at hchanged
        rcases hok (Bool.not_eq_true _ ▸ hfalse) hhidden hremoved with hnon | hinvisible
        · exact absurd (hnon.symm.trans hcapturing.1) (by decide)
        · exact absurd (hinvisible.symm.trans hcapturing.2) (by decide)
      · exact hmodify

theorem FocusInv.releaseFocus (h : s.FocusInv) (he : e ∈ s.overlays)
    {unfocusOptions : Option (Option C)}
    (halive : ∀ c, unfocusOptions = some (some c) → s.Alive c) :
    (s.releaseFocus e unfocusOptions).FocusInv := by
  obtain ⟨restore, hclear, -⟩ := clearRestoreFor_eq s e.id
  have hcleared := h.clearRestoreFor e.id
  have hlink : s.focusedComponent = some e.component → ∀ c, e.preFocus = some c → s.Alive c :=
    fun hfocused => h.linked.alive_preFocus he (h.focus _ hfocused e he rfl)
  rw [hclear] at hcleared
  simp only [TUI.releaseFocus, hclear]
  split
  · rename_i target
    refine hcleared.setFocus fun c hc => ?_
    subst hc
    exact halive c rfl
  · split
    · rename_i hfocused
      split
      · rename_i top htop
        refine hcleared.setFocus fun c hc => ?_
        split at hc
        · exact hlink hfocused c hc
        · obtain rfl := Option.some.inj hc
          exact hcleared.linked.alive (getTopmostVisibleOverlay_mem htop).1
      · exact hcleared.setFocus (hlink hfocused)
    · exact hcleared

theorem FocusInv.unfocus (h : s.FocusInv) (he : e ∈ s.overlays) {unfocusOptions : Option (Option C)}
    (halive : ∀ c, unfocusOptions = some (some c) → s.Alive c) :
    (s.unfocus e unfocusOptions).FocusInv := by
  unfold TUI.unfocus
  split
  · exact h
  · split
    · split
      · split
        · rename_i target
          refine ⟨{ h.linked with target := ?_ }, h.focus⟩
          rintro other c ⟨_, hawaits⟩
          cases hawaits
          exact halive c rfl
        · exact h.clearRestore
      · exact h.releaseFocus he halive
    · exact h.releaseFocus he halive

theorem FocusInv.leaveInvisibleOverlay (h : s.FocusInv) : s.leaveInvisibleOverlay.FocusInv := by
  unfold TUI.leaveInvisibleOverlay
  split
  · rename_i focusedOverlay hfocused
    have hmem := mem_overlayStack.mp (List.mem_of_find?_eq_some hfocused)
    split
    · exact h
    · split
      · rename_i top htop
        refine h.setFocus fun c hc => ?_
        obtain rfl := Option.some.inj hc
        exact h.linked.alive (getTopmostVisibleOverlay_mem htop).1
      · exact h.linked.focusInv_setFocusInternal
          (h.linked.alive_preFocus hmem.1 hmem.2) .preserve
  · exact h

theorem FocusInv.restoreOverlayFocus (h : s.FocusInv) : s.restoreOverlayFocus.FocusInv := by
  have hwaiting : ∀ overlay,
      (∃ e ∈ s.overlayStack, e.id = overlay ∧ s.isOverlayVisible e = true) →
      (s.setFocus (s.componentOf overlay)).FocusInv := by
    intro overlay hvisible
    obtain ⟨e, he, hcomponent, -⟩ := h.linked.componentOf hvisible
    refine h.setFocus fun c hc => ?_
    obtain rfl := Option.some.inj (hcomponent.symm.trans hc)
    exact h.linked.alive he
  unfold TUI.restoreOverlayFocus
  split
  · exact h
  · split
    · exact h
    · rename_i heligible
      exact hwaiting _ (getVisible_eligible heligible)
    · rename_i overlay blockedBy resume hblocked
      obtain ⟨hrestore, hvisible⟩ := getVisible_blocked hblocked
      split
      · exact h
      · split
        · exact hwaiting _ hvisible
        · refine h.clearRestore.setFocus fun c hc => ?_
          subst hc
          exact h.linked.target overlay c ⟨blockedBy, hrestore⟩

/-! ## Runs -/

omit [DecidableEq C] in
theorem focusInv_start (kind : C → ComponentKind) (visible : OverlayId → Bool)
    (isComponentMounted : C → Bool) : (start kind visible isComponentMounted).FocusInv where
  linked :=
    { ids := fun _ _ h => by cases h
      distinct := fun _ h => absurd h List.not_mem_nil
      below := fun _ h => absurd h List.not_mem_nil
      target := by rintro _ _ ⟨_, h⟩; cases h }
  focus _ h := by cases h

/-- One call. -/
theorem FocusInv.step (h : s.FocusInv) {a : OverlayAction C} (hok : s.KeepsLinks a) {s' : TUI C}
    (hstep : s.step a = some s') : s'.FocusInv := by
  cases a with
  | setFocus component =>
    obtain rfl := Option.some.inj hstep
    exact h.setFocus hok
  | showOverlay component nonCapturing =>
    obtain rfl := Option.some.inj hstep
    exact h.showOverlay hok nonCapturing
  | hide overlay =>
    obtain ⟨e, hentry, rfl⟩ := Option.map_eq_some_iff.mp hstep
    obtain ⟨he, rfl⟩ := mem_of_entryOf hentry
    unfold TUI.hide
    split
    · exact h
    · rename_i hremoved
      rw [Bool.not_eq_true] at hremoved
      exact h.removeOverlay he hremoved (hok e hentry hremoved)
  | setHidden overlay hidden =>
    obtain ⟨e, hentry, rfl⟩ := Option.map_eq_some_iff.mp hstep
    obtain ⟨he, rfl⟩ := mem_of_entryOf hentry
    exact h.setHidden he fun hfalse => hok hfalse e hentry
  | focus overlay =>
    obtain ⟨e, hentry, rfl⟩ := Option.map_eq_some_iff.mp hstep
    unfold TUI.focus
    split
    · exact h
    · rename_i hshown
      rw [Bool.or_eq_true, not_or, Bool.not_eq_true] at hshown
      exact h.raise (h.linked.alive (mem_overlayStack.mpr ⟨(mem_of_entryOf hentry).1, hshown.1⟩))
  | unfocus overlay unfocusOptions =>
    obtain ⟨e, hentry, rfl⟩ := Option.map_eq_some_iff.mp hstep
    exact h.unfocus (mem_of_entryOf hentry).1 hok
  | hideOverlay =>
    obtain rfl := Option.some.inj hstep
    unfold TUI.hideOverlay
    split
    · rename_i e hlast
      obtain ⟨he, hremoved⟩ := mem_overlayStack.mp (List.mem_of_getLast? hlast)
      exact h.removeOverlay he hremoved (hok e hlast)
    · exact h
  | input isKeyRelease =>
    obtain rfl := Option.some.inj hstep
    exact h.leaveInvisibleOverlay.restoreOverlayFocus
  | conditions visible =>
    obtain rfl := Option.some.inj hstep
    exact ⟨{ h.linked with }, h.focus⟩
  | mount isComponentMounted =>
    obtain rfl := Option.some.inj hstep
    exact ⟨{ h.linked with }, h.focus⟩

/-! ## The focused component -/

section FocusedExactly

variable (h : s.FocusedExactly)
include h

theorem FocusedExactly.setFocus (component : Option C) : (s.setFocus component).FocusedExactly :=
  focusedExactly_setFocusInternal h component .clear

section

variable (e)

theorem FocusedExactly.removeOverlay :
    (s.removeOverlay e).FocusedExactly := by
  obtain ⟨restore, hclear, -⟩ := clearRestoreFor_eq s e.id
  simp only [TUI.removeOverlay, hclear]
  split
  · exact FocusedExactly.setFocus (by exact h) _
  · exact h

theorem FocusedExactly.setHidden (hidden : Bool) :
    (s.setHidden e hidden).FocusedExactly := by
  obtain ⟨restore, hclear, -⟩ :=
    clearRestoreFor_eq (s.modifyEntry e.id fun e => { e with hidden }) e.id
  unfold TUI.setHidden
  split
  · exact h
  · dsimp only
    split
    · rw [hclear]
      split
      · exact FocusedExactly.setFocus (by exact h) _
      · exact h
    · split
      · exact FocusedExactly.setFocus (by exact h) _
      · exact h

theorem FocusedExactly.releaseFocus (unfocusOptions : Option (Option C)) :
    (s.releaseFocus e unfocusOptions).FocusedExactly := by
  obtain ⟨restore, hclear, -⟩ := clearRestoreFor_eq s e.id
  simp only [TUI.releaseFocus, hclear]
  split
  · exact FocusedExactly.setFocus (by exact h) _
  · split
    · split <;> exact FocusedExactly.setFocus (by exact h) _
    · exact h

theorem FocusedExactly.unfocus (unfocusOptions : Option (Option C)) :
    (s.unfocus e unfocusOptions).FocusedExactly := by
  unfold TUI.unfocus
  split
  · exact h
  · split
    · split
      · split <;> exact h
      · exact h.releaseFocus e unfocusOptions
    · exact h.releaseFocus e unfocusOptions

end

theorem FocusedExactly.leaveInvisibleOverlay : s.leaveInvisibleOverlay.FocusedExactly := by
  unfold TUI.leaveInvisibleOverlay
  split
  · split
    · exact h
    · split
      · exact h.setFocus _
      · exact focusedExactly_setFocusInternal h _ .preserve
  · exact h

theorem FocusedExactly.restoreOverlayFocus : s.restoreOverlayFocus.FocusedExactly := by
  unfold TUI.restoreOverlayFocus
  split
  · exact h
  · split
    · exact h
    · exact h.setFocus _
    · split
      · exact h
      · split
        · exact h.setFocus _
        · exact FocusedExactly.setFocus (by exact h) _

/-- Every call keeps the `focused` fields right. -/
theorem FocusedExactly.step {a : OverlayAction C} {s' : TUI C} (hstep : s.step a = some s') :
    s'.FocusedExactly := by
  cases a with
  | setFocus component =>
    obtain rfl := Option.some.inj hstep
    exact h.setFocus component
  | showOverlay component nonCapturing =>
    obtain rfl := Option.some.inj hstep
    simp only [TUI.showOverlay]
    split
    · exact FocusedExactly.setFocus (by exact h) _
    · exact h
  | hide overlay =>
    obtain ⟨e, -, rfl⟩ := Option.map_eq_some_iff.mp hstep
    unfold TUI.hide
    split
    · exact h
    · exact h.removeOverlay e
  | setHidden overlay hidden =>
    obtain ⟨e, -, rfl⟩ := Option.map_eq_some_iff.mp hstep
    exact h.setHidden e hidden
  | focus overlay =>
    obtain ⟨e, -, rfl⟩ := Option.map_eq_some_iff.mp hstep
    unfold TUI.focus
    split
    · exact h
    · exact FocusedExactly.setFocus (by exact h) _
  | unfocus overlay unfocusOptions =>
    obtain ⟨e, -, rfl⟩ := Option.map_eq_some_iff.mp hstep
    exact h.unfocus e unfocusOptions
  | hideOverlay =>
    obtain rfl := Option.some.inj hstep
    unfold TUI.hideOverlay
    split
    · exact h.removeOverlay _
    · exact h
  | input isKeyRelease =>
    obtain rfl := Option.some.inj hstep
    exact h.leaveInvisibleOverlay.restoreOverlayFocus
  | conditions visible =>
    obtain rfl := Option.some.inj hstep
    exact h
  | mount isComponentMounted =>
    obtain rfl := Option.some.inj hstep
    exact h

end FocusedExactly

/-! ## Input -/

theorem Linked.shown_setFocusInternal (h : s.Linked)
    (hcomponent : ∀ c, component = some c → s.Shown c)
    (htarget : ∀ overlay blockedBy c,
      s.getVisibleOverlayFocusRestore = .blocked overlay blockedBy (.focusTarget (some c)) →
        s.Shown c)
    (c : C) (hc : (s.setFocusInternal component policy).focusedComponent = some c) :
    s.Shown c := by
  have hfocus : (s.redirectFocus policy component).1 = some c := hc
  obtain hsame | ⟨e, he, hvisible, hsome⟩ | ⟨overlay, blockedBy, target, hblocked, hresume⟩ :=
    h.redirectFocus_cases component policy
  · exact hcomponent c (hsame.symm.trans hfocus)
  · obtain rfl := Option.some.inj (hsome.symm.trans hfocus)
    exact h.shown he hvisible
  · obtain rfl : target = some c := hresume.symm.trans hfocus
    exact htarget overlay blockedBy c hblocked

theorem leaveInvisibleOverlay_same (s : TUI C) :
    s.leaveInvisibleOverlay.overlays = s.overlays ∧
      s.leaveInvisibleOverlay.visible = s.visible ∧
      ∀ overlay c, s.leaveInvisibleOverlay.Awaits overlay c → s.Awaits overlay c := by
  unfold leaveInvisibleOverlay
  split
  · split
    · exact ⟨rfl, rfl, fun _ _ h => h⟩
    · split <;> exact ⟨rfl, rfl, fun _ _ h => target_setFocusInternal h⟩
  · exact ⟨rfl, rfl, fun _ _ h => h⟩

theorem shown_leaveInvisibleOverlay : s.leaveInvisibleOverlay.Shown c ↔ s.Shown c := by
  obtain ⟨hoverlays, hvisible, -⟩ := leaveInvisibleOverlay_same s
  simp only [Shown, isOverlayVisible, hoverlays, hvisible]

theorem Linked.leave_of_visible (h : s.Linked) (he : e ∈ s.overlayStack)
    (hfocused : s.focusedComponent = some e.component) (hvisible : s.isOverlayVisible e = true) :
    s.leaveInvisibleOverlay = s := by
  unfold TUI.leaveInvisibleOverlay
  split
  · rename_i o ho
    have hsame : s.focusedComponent = some o.component := by
      have hfound := List.find?_some ho
      rwa [decide_eq_true_eq] at hfound
    have hmem := (mem_overlayStack.mp (List.mem_of_find?_eq_some ho)).1
    rw [h.distinct o hmem e (mem_overlayStack.mp he).1
      (Option.some.inj (hsame.symm.trans hfocused)), if_pos hvisible]
  · rfl

theorem FocusInv.shown_leave (h : s.FocusInv) (hready : s.InputReady) (c : C)
    (hc : s.leaveInvisibleOverlay.focusedComponent = some c) : s.Shown c := by
  unfold TUI.leaveInvisibleOverlay at hc
  split at hc
  · rename_i o ho
    have hfocused : s.focusedComponent = some o.component := by
      have hfound := List.find?_some ho
      rwa [decide_eq_true_eq] at hfound
    have hstack := List.mem_of_find?_eq_some ho
    split at hc
    · rename_i hvisible
      obtain rfl := Option.some.inj (hfocused.symm.trans hc)
      exact h.linked.shown hstack hvisible
    · rename_i hinvisible
      rw [Bool.not_eq_true] at hinvisible
      have htarget : ∀ overlay blockedBy c,
          s.getVisibleOverlayFocusRestore = .blocked overlay blockedBy (.focusTarget (some c)) →
            s.Shown c := by
        intro overlay blockedBy c hblocked
        refine hready.target (fun e he hsame => ?_) overlay c
          ⟨blockedBy, (getVisible_blocked hblocked).1⟩
        rw [h.linked.distinct e (mem_overlayStack.mp he).1 o (mem_overlayStack.mp hstack).1
          (Option.some.inj (hsame.symm.trans hfocused))]
        exact hinvisible
      split at hc
      · rename_i top htop
        refine h.linked.shown_setFocusInternal (fun c' hc' => ?_) htarget c hc
        obtain rfl := Option.some.inj hc'
        obtain ⟨hmem, hvisible⟩ := getTopmostVisibleOverlay_mem htop
        exact h.linked.shown hmem hvisible
      · rename_i hnone
        exact h.linked.shown_setFocusInternal
          (hready.behind hnone o hstack hfocused hinvisible) htarget c hc
  · rename_i hnone
    refine (h.focus c hc).shown_of_not_overlay fun e he hcomponent => ?_
    have hne := List.find?_eq_none.mp hnone e he
    rw [decide_eq_true_eq] at hne
    exact hne (hcomponent ▸ hc)

theorem FocusInv.shown_handleInput (h : s.FocusInv) (hready : s.InputReady) {isKeyRelease : Bool}
    (hc : (s.handleInput isKeyRelease).2 = some c) : s.Shown c := by
  obtain ⟨hc, -⟩ := Option.filter_eq_some_iff.mp hc
  have hleft := h.leaveInvisibleOverlay.linked
  have hstays := h.shown_leave hready
  unfold TUI.restoreOverlayFocus at hc
  split at hc
  · exact hstays c hc
  · rename_i hnotOverlay
    split at hc
    · exact hstays c hc
    · rename_i overlay heligible
      obtain ⟨e, he, hcomponent, hvisible⟩ := hleft.componentOf (getVisible_eligible heligible)
      refine shown_leaveInvisibleOverlay.mp (hleft.shown_setFocusInternal (fun c' hc' => ?_)
        (fun _ _ _ hblocked => ?_) c hc)
      · obtain rfl := Option.some.inj (hcomponent.symm.trans hc')
        exact hleft.shown he hvisible
      · rw [heligible] at hblocked
        cases hblocked
    · rename_i overlay blockedBy resume hblocked
      obtain ⟨hrestore, hwaits⟩ := getVisible_blocked hblocked
      split at hc
      · exact hstays c hc
      · split at hc
        · obtain ⟨e, he, hcomponent, hvisible⟩ := hleft.componentOf hwaits
          refine shown_leaveInvisibleOverlay.mp (hleft.shown_setFocusInternal (fun c' hc' => ?_)
            (fun _ _ _ hblocked' => ?_) c hc)
          · obtain rfl := Option.some.inj (hcomponent.symm.trans hc')
            exact hleft.shown he hvisible
          · rw [hblocked] at hblocked'
            cases hblocked'
        · rename_i target
          have hcleared := h.leaveInvisibleOverlay.clearRestore.linked
          refine shown_leaveInvisibleOverlay.mp (hcleared.shown_setFocusInternal
            (fun c' hc' => ?_) (fun _ _ _ hblocked' => by cases hblocked') c hc)
          subst hc'
          refine shown_leaveInvisibleOverlay.mpr (hready.target (fun e he hfocused => ?_) overlay c'
            ((leaveInvisibleOverlay_same s).2.2 overlay c' ⟨blockedBy, hrestore⟩))
          by_contra hvisible
          rw [Bool.not_eq_false] at hvisible
          rw [h.linked.leave_of_visible he hfocused hvisible, List.any_eq_true] at hnotOverlay
          exact hnotOverlay ⟨e, he, decide_eq_true hfocused⟩

/-- In every run that keeps the links of the overlays, the component with
`focused` set is the focused one, and input goes to no component of an overlay
that was removed or is invisible. -/
theorem input_shown {kind : C → ComponentKind} {visible : OverlayId → Bool}
    {isComponentMounted : C → Bool}
    (h : Machine.Reaches step KeepsLinks (start kind visible isComponentMounted) s) :
    s.FocusedExactly ∧ ∀ isKeyRelease c, s.KeepsLinks (.input isKeyRelease) →
      (s.handleInput isKeyRelease).2 = some c → s.Shown c := by
  have hinv : s.FocusInv := h.invariant (focusInv_start kind visible isComponentMounted)
    fun _ _ _ hinv hok hstep => hinv.step hok hstep
  have hexactly : s.FocusedExactly := by
    refine h.invariant (fun c => ?_) fun _ _ _ hexactly _ hstep => hexactly.step hstep
    exact ⟨fun hfalse => (by cases hfalse), fun hnone => (by cases hnone.1)⟩
  exact ⟨hexactly, fun isKeyRelease c hready hc => hinv.shown_handleInput hready hc⟩

def plainKind (_ : String) : ComponentKind where
  isFocusable := true
  handlesInput := true
  wantsKeyRelease := false

/-- An overlay is hidden, and the one below it gets the input. -/
theorem input_shown_below : ∃ s : TUI String,
    Machine.Reaches step KeepsLinks (start plainKind (fun _ => true) fun _ => true) s ∧
      (s.handleInput false).2 = some "dialog" ∧ s.FocusedExactly ∧ s.Shown "dialog" := by
  have heditor : Machine.Reaches step KeepsLinks
      (start plainKind (fun _ => true) fun _ => true) _ :=
    Machine.Reaches.refl.tail (a := .setFocus (some "editor"))
      (by intro _ _ e he; cases he) rfl
  have hdialog := heditor.tail (a := .showOverlay "dialog" false)
    (by refine ⟨by decide, by decide, by decide, ?_⟩; rintro _ ⟨_, h⟩; cases h) rfl
  have hpicker := hdialog.tail (a := .showOverlay "picker" false)
    (by refine ⟨by decide, by decide, by decide, ?_⟩; rintro _ ⟨_, h⟩; cases h) rfl
  have hhidden := hpicker.tail (a := .setHidden 1 true) (by intro h; cases h) rfl
  obtain ⟨hexactly, hshown⟩ := input_shown hhidden
  refine ⟨_, hhidden, by decide, hexactly, hshown false _ ⟨fun h => (by cases h), ?_⟩ (by decide)⟩
  rintro _ _ _ ⟨_, h⟩
  cases h

/-- Two overlays become invisible: `handleInput` leaves the upper one for the
lower one. And a removed overlay is focused when `setHidden` is taken back. -/
theorem input_not_shown :
    (¬ ∀ s : TUI String, Machine.Reaches step UsesOnce
        (start plainKind (fun _ => true) fun _ => true) s →
      ∀ c, (s.handleInput false).2 = some c → s.Shown c) ∧
    ∃ s : TUI String, Machine.Reaches step UsesOnce
        (start plainKind (fun _ => true) fun _ => true) s ∧
      (s.handleInput false).2 = some "dialog" ∧ ¬ s.Alive "dialog" := by
  have heditor : Machine.Reaches step UsesOnce
      (start plainKind (fun _ => true) fun _ => true) _ :=
    Machine.Reaches.refl.tail (a := .setFocus (some "editor")) (by exact trivial) rfl
  have hdialog := heditor.tail (a := .showOverlay "dialog" false)
    (by refine ⟨by decide, by decide, by decide, ?_⟩; rintro _ ⟨_, h⟩; cases h) rfl
  constructor
  · have hpicker := hdialog.tail (a := .showOverlay "picker" false)
      (by refine ⟨by decide, by decide, by decide, ?_⟩; rintro _ ⟨_, h⟩; cases h) rfl
    have hinvisible := hpicker.tail (a := .conditions fun _ => false) (by exact trivial) rfl
    intro h
    have hshown := h _ hinvisible "dialog" (by decide)
    exact absurd (hshown _ List.mem_cons_self rfl).2 (by decide)
  · have hhidden := hdialog.tail (a := .setHidden 0 true) (by exact trivial) rfl
    have hremoved := hhidden.tail (a := .hide 0) (by exact trivial) rfl
    have hback := hremoved.tail (a := .setHidden 0 false) (by exact trivial) rfl
    refine ⟨_, hback, by decide, fun h => ?_⟩
    exact absurd (h _ List.mem_cons_self rfl) (by decide)

end TUI

end Eagent
