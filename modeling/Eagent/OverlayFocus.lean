import Mathlib.Data.List.Basic
import Mathlib.Logic.Function.Basic
import Eagent.Machine

/-!
# Focus and overlays

The focus of `TUI`: which component gets the input, and how showing, hiding
and removing overlays moves the focus. A handle keeps its entry after the
overlay was removed, so every entry that was ever shown is kept, in the order
of the stack.

Whether an overlay's `options.visible` holds and which components are mounted
may change between two calls; both are part of the state.
-/

namespace Eagent

/-- What the code asks of a component. -/
structure ComponentKind where
  /-- it has a `focused` field -/
  isFocusable : Bool
  handlesInput : Bool
  wantsKeyRelease : Bool

abbrev OverlayId := Nat

structure OverlayStackEntry (C : Type) where
  id : OverlayId
  component : C
  nonCapturing : Bool
  preFocus : Option C
  hidden : Bool := false
  focusOrder : Nat
  /-- no longer in `overlayStack` -/
  removed : Bool := false

inductive OverlayBlockedFocusResume (C : Type) where
  | restoreOverlay
  | focusTarget (target : Option C)

inductive OverlayFocusRestoreState (C : Type) where
  | inactive
  | eligible (overlay : OverlayId)
  | blocked (overlay : OverlayId) (blockedBy : C) (resume : OverlayBlockedFocusResume C)

inductive OverlayFocusRestorePolicy where
  | clear
  | preserve
deriving DecidableEq

/-- `focused` holds the `focused` fields of the components. -/
structure TUI (C : Type) where
  kind : C → ComponentKind
  focusedComponent : Option C := none
  focused : C → Bool := fun _ => false
  focusOrderCounter : Nat := 0
  overlays : List (OverlayStackEntry C) := []
  overlayFocusRestore : OverlayFocusRestoreState C := .inactive
  /-- what the `options.visible` of an overlay answers, `true` without one -/
  visible : OverlayId → Bool := fun _ => true
  isComponentMounted : C → Bool := fun _ => true

namespace TUI

variable {C : Type} [DecidableEq C] (s : TUI C)

/-! ## Overlays -/

def overlayStack : List (OverlayStackEntry C) :=
  s.overlays.filter (!·.removed)

def isOverlayVisible (entry : OverlayStackEntry C) : Bool :=
  !entry.hidden && s.visible entry.id

def entryOf (overlay : OverlayId) : Option (OverlayStackEntry C) :=
  s.overlays.find? (·.id = overlay)

def componentOf (overlay : OverlayId) : Option C :=
  (s.entryOf overlay).map OverlayStackEntry.component

def isOverlay (component : C) : Bool :=
  s.overlayStack.any (·.component = component)

def visibleOverlayOf (component : C) : Option (OverlayStackEntry C) :=
  s.overlayStack.find? fun entry => entry.component = component && s.isOverlayVisible entry

def getTopmostVisibleOverlay : Option (OverlayStackEntry C) :=
  s.overlayStack.foldl
    (fun topmost overlay =>
      if overlay.nonCapturing || !s.isOverlayVisible overlay then topmost
      else match topmost with
        | none => some overlay
        | some top => if overlay.focusOrder > top.focusOrder then some overlay else some top)
    none

def modifyEntry (overlay : OverlayId) (f : OverlayStackEntry C → OverlayStackEntry C) : TUI C :=
  { s with overlays := s.overlays.map fun entry => if entry.id = overlay then f entry else entry }

/-- The steps of `isOverlayFocusAncestor` from `current`. Every step but the
last visits another overlay of the stack. -/
def isAncestorFrom (component : C) : Nat → List C → Option C → Bool
  | 0, _, _ => false
  | _, _, none => false
  | fuel + 1, visited, some current =>
      if current ∈ visited then false
      else if current = component then true
      else isAncestorFrom component fuel (current :: visited)
        ((s.overlayStack.find? (·.component = current)).bind OverlayStackEntry.preFocus)

def isOverlayFocusAncestor (entry : OverlayStackEntry C) (component : C) : Bool :=
  s.isAncestorFrom component (s.overlayStack.length + 1) [] entry.preFocus

/-! ## Moving the focus -/

def clearOverlayFocusRestore : TUI C :=
  { s with overlayFocusRestore := .inactive }

def clearOverlayFocusRestoreFor (overlay : OverlayId) : TUI C :=
  match s.overlayFocusRestore with
  | .inactive => s
  | .eligible overlay' | .blocked overlay' _ _ =>
      if overlay' = overlay then s.clearOverlayFocusRestore else s

def getVisibleOverlayFocusRestore : OverlayFocusRestoreState C :=
  match s.overlayFocusRestore with
  | .inactive => .inactive
  | .eligible overlay =>
      if s.overlayStack.any fun entry => entry.id = overlay && s.isOverlayVisible entry then
        .eligible overlay
      else .inactive
  | .blocked overlay blockedBy resume =>
      if s.overlayStack.any fun entry => entry.id = overlay && s.isOverlayVisible entry then
        .blocked overlay blockedBy resume
      else .inactive

def resolveBlockedOverlayFocusResume (overlay : OverlayId) :
    OverlayBlockedFocusResume C → Option C × OverlayFocusRestoreState C
  | .restoreOverlay => (s.componentOf overlay, s.overlayFocusRestore)
  | .focusTarget target => (target, .inactive)

/-- The focus leaves an overlay that may be restored, for a component that it
did not come from. -/
def blockRestore (overlay : OverlayId) (nextFocus : C) : OverlayFocusRestoreState C :=
  match s.focusedComponent.bind s.visibleOverlayOf with
  | some previousFocusedOverlay =>
      if overlay = previousFocusedOverlay.id
          && !s.isOverlayFocusAncestor previousFocusedOverlay nextFocus then
        .blocked overlay nextFocus .restoreOverlay
      else s.overlayFocusRestore
  | none => s.overlayFocusRestore

/-- The first half of `setFocusInternal`: what to focus in place of a
component, and the restore state. -/
def redirectFocus (overlayFocusRestore : OverlayFocusRestorePolicy) :
    Option C → Option C × OverlayFocusRestoreState C
  | some nextFocus =>
      if s.isOverlay nextFocus then (some nextFocus, s.overlayFocusRestore)
      else match s.getVisibleOverlayFocusRestore with
        | .inactive => (some nextFocus, s.overlayFocusRestore)
        | .eligible overlay => (some nextFocus, s.blockRestore overlay nextFocus)
        | .blocked overlay blockedBy resume =>
            if s.focusedComponent = some blockedBy then
              match resume, s.isComponentMounted blockedBy with
              | .restoreOverlay, true =>
                  (some nextFocus, .blocked overlay nextFocus .restoreOverlay)
              | _, _ => s.resolveBlockedOverlayFocusResume overlay resume
            else (some nextFocus, s.blockRestore overlay nextFocus)
  | none =>
      let cleared := match overlayFocusRestore with
        | .clear => .inactive
        | .preserve => s.overlayFocusRestore
      match s.getVisibleOverlayFocusRestore with
      | .blocked overlay blockedBy resume =>
          if s.focusedComponent = some blockedBy then
            s.resolveBlockedOverlayFocusResume overlay resume
          else (none, cleared)
      | _ => (none, cleared)

/-- A component's `focused` field, where it has one. -/
def setFocused (component : Option C) (value : Bool) : C → Bool :=
  match component with
  | some c => if (s.kind c).isFocusable then Function.update s.focused c value else s.focused
  | none => s.focused

def setFocusInternal (component : Option C) (overlayFocusRestore : OverlayFocusRestorePolicy) :
    TUI C :=
  let next := s.redirectFocus overlayFocusRestore component
  let left := { s with focused := s.setFocused s.focusedComponent false }
  { s with
    focusedComponent := next.1
    focused := left.setFocused next.1 true
    overlayFocusRestore := match next.1.bind s.visibleOverlayOf with
      | some overlay => .eligible overlay.id
      | none => next.2 }

def setFocus (component : Option C) : TUI C :=
  s.setFocusInternal component .clear

/-- Focus the topmost overlay, or what had the focus before `entry`. -/
def focusBehind (entry : OverlayStackEntry C) : TUI C :=
  s.setFocus ((s.getTopmostVisibleOverlay.map OverlayStackEntry.component).or entry.preFocus)

/-! ## Overlays come and go -/

def showOverlay (component : C) (nonCapturing : Bool) : TUI C :=
  let entry : OverlayStackEntry C :=
    { id := s.overlays.length
      component
      nonCapturing
      preFocus := s.focusedComponent
      focusOrder := s.focusOrderCounter + 1 }
  let s := { s with
    overlays := s.overlays ++ [entry]
    focusOrderCounter := s.focusOrderCounter + 1 }
  if !nonCapturing && s.isOverlayVisible entry then s.setFocus (some component) else s

/-- What had the focus before `removed` is what had it before the overlays on
top of it. -/
def retargetOverlayPreFocus (removed : OverlayStackEntry C) : TUI C :=
  { s with overlays := s.overlays.map fun overlay =>
      if !overlay.removed && overlay.id ≠ removed.id && overlay.preFocus = some removed.component then
        { overlay with preFocus := removed.preFocus }
      else overlay }

def removeOverlay (entry : OverlayStackEntry C) : TUI C :=
  let s := (s.clearOverlayFocusRestoreFor entry.id).retargetOverlayPreFocus entry
  let s := s.modifyEntry entry.id fun entry => { entry with removed := true }
  if s.focusedComponent = some entry.component then s.focusBehind entry else s

/-- The handle's `hide`. -/
def hide (entry : OverlayStackEntry C) : TUI C :=
  if entry.removed then s else s.removeOverlay entry

def hideOverlay : TUI C :=
  match s.overlayStack.getLast? with
  | some overlay => s.removeOverlay overlay
  | none => s

def raise (entry : OverlayStackEntry C) : TUI C :=
  let s := { s with focusOrderCounter := s.focusOrderCounter + 1 }
  (s.modifyEntry entry.id fun entry => { entry with focusOrder := s.focusOrderCounter }).setFocus
    (some entry.component)

/-- The handle's `setHidden`, which does not look whether the overlay is still
in the stack. -/
def setHidden (entry : OverlayStackEntry C) (hidden : Bool) : TUI C :=
  if entry.hidden = hidden then s
  else
    let s := s.modifyEntry entry.id fun entry => { entry with hidden }
    if hidden then
      let s := s.clearOverlayFocusRestoreFor entry.id
      if s.focusedComponent = some entry.component then s.focusBehind entry else s
    else if !entry.nonCapturing && s.visible entry.id then s.raise entry
    else s

/-- The handle's `focus`. -/
def focus (entry : OverlayStackEntry C) : TUI C :=
  if entry.removed || !s.isOverlayVisible entry then s else s.raise entry

def hasPendingRestore (overlay : OverlayId) : Bool :=
  match s.overlayFocusRestore with
  | .inactive => false
  | .eligible overlay' | .blocked overlay' _ _ => overlay' = overlay

/-- The end of `unfocus`: the focus goes to the target, or behind the overlay. -/
def releaseFocus (entry : OverlayStackEntry C) (unfocusOptions : Option (Option C)) : TUI C :=
  let s := s.clearOverlayFocusRestoreFor entry.id
  match unfocusOptions with
  | some target => s.setFocus target
  | none =>
      if s.focusedComponent = some entry.component then
        match s.getTopmostVisibleOverlay with
        | some top => s.setFocus (if top.id = entry.id then entry.preFocus else some top.component)
        | none => s.setFocus entry.preFocus
      else s

/-- The handle's `unfocus`, with the target of its options. -/
def unfocus (entry : OverlayStackEntry C) (unfocusOptions : Option (Option C)) : TUI C :=
  if s.focusedComponent ≠ some entry.component && !s.hasPendingRestore entry.id then s
  else match s.overlayFocusRestore with
    | .blocked overlay blockedBy _ =>
        if overlay = entry.id && s.focusedComponent = some blockedBy then
          match unfocusOptions with
          | some target =>
              { s with overlayFocusRestore := .blocked overlay blockedBy (.focusTarget target) }
          | none => s.clearOverlayFocusRestore
        else s.releaseFocus entry unfocusOptions
    | _ => s.releaseFocus entry unfocusOptions

/-! ## Input -/

def leaveInvisibleOverlay : TUI C :=
  match s.overlayStack.find? fun o => s.focusedComponent = some o.component with
  | some focusedOverlay =>
      if s.isOverlayVisible focusedOverlay then s
      else match s.getTopmostVisibleOverlay with
        | some topVisible => s.setFocus (some topVisible.component)
        | none => s.setFocusInternal focusedOverlay.preFocus .preserve
  | none => s

def restoreOverlayFocus : TUI C :=
  if s.overlayStack.any fun o => s.focusedComponent = some o.component then s
  else match s.getVisibleOverlayFocusRestore with
    | .inactive => s
    | .eligible overlay => s.setFocus (s.componentOf overlay)
    | .blocked overlay blockedBy resume =>
        if s.focusedComponent = some blockedBy then s
        else match resume with
          | .restoreOverlay => s.setFocus (s.componentOf overlay)
          | .focusTarget target => s.clearOverlayFocusRestore.setFocus target

/-- `handleInput` of what no listener and no terminal reply consumes, with the
component that gets it. -/
def handleInput (isKeyRelease : Bool) : TUI C × Option C :=
  let s := s.leaveInvisibleOverlay.restoreOverlayFocus
  (s, s.focusedComponent.filter fun c =>
    (s.kind c).handlesInput && !(isKeyRelease && !(s.kind c).wantsKeyRelease))

end TUI

end Eagent
