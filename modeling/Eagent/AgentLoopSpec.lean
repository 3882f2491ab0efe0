import Eagent.AgentLoop

/-!
# What each function of the loop does

One specification per function of `AgentLoop`: how it extends the log, the
transcript and `newMessages`. The assertion `AtConvert` travels along: at
every `convertToLlm` the context is the messages before the run and those
whose `message_end` was emitted.
-/

namespace Eagent

open Interaction

/-! ## Events and messages of a log -/

def Observation.event? : Observation → Option AgentEvent
  | .event e => some e
  | _ => none

def Observation.appended? : Observation → Option AgentMessage
  | .append m => some m
  | _ => none

def Observation.polled? : Observation → Option (List AgentMessage)
  | .polled ms => some ms
  | _ => none

def eventsOf (log : List Observation) : List AgentEvent := log.filterMap Observation.event?

def appended (log : List Observation) : List AgentMessage := log.filterMap Observation.appended?

/-- The messages taken at the polls. -/
def polled (log : List Observation) : List AgentMessage :=
  (log.filterMap Observation.polled?).flatten

@[simp] theorem eventsOf_nil : eventsOf [] = [] := rfl

@[simp] theorem eventsOf_append (as bs : List Observation) :
    eventsOf (as ++ bs) = eventsOf as ++ eventsOf bs := List.filterMap_append

@[simp] theorem eventsOf_event (e : AgentEvent) (log : List Observation) :
    eventsOf (.event e :: log) = e :: eventsOf log := rfl

@[simp] theorem eventsOf_aborted (log : List Observation) :
    eventsOf (.aborted :: log) = eventsOf log := rfl

@[simp] theorem eventsOf_pushed (m : AgentMessage) (log : List Observation) :
    eventsOf (.append m :: log) = eventsOf log := rfl

@[simp] theorem eventsOf_polled (ms : List AgentMessage) (log : List Observation) :
    eventsOf (.polled ms :: log) = eventsOf log := rfl

@[simp] theorem eventsOf_map_event (es : List AgentEvent) :
    eventsOf (es.map .event) = es := by
  induction es with
  | nil => rfl
  | cons e es ih => rw [List.map_cons, eventsOf_event, ih]

@[simp] theorem appended_nil : appended [] = [] := rfl

@[simp] theorem appended_append (as bs : List Observation) :
    appended (as ++ bs) = appended as ++ appended bs := List.filterMap_append

@[simp] theorem appended_event (e : AgentEvent) (log : List Observation) :
    appended (.event e :: log) = appended log := rfl

@[simp] theorem appended_aborted (log : List Observation) :
    appended (.aborted :: log) = appended log := rfl

@[simp] theorem appended_pushed (m : AgentMessage) (log : List Observation) :
    appended (.append m :: log) = m :: appended log := rfl

@[simp] theorem appended_polled (ms : List AgentMessage) (log : List Observation) :
    appended (.polled ms :: log) = appended log := rfl

@[simp] theorem appended_map_event (es : List AgentEvent) : appended (es.map .event) = [] := by
  induction es with
  | nil => rfl
  | cons e es ih => rw [List.map_cons, appended_event, ih]

@[simp] theorem polled_nil : polled [] = [] := rfl

@[simp] theorem polled_append (as bs : List Observation) :
    polled (as ++ bs) = polled as ++ polled bs := by
  simp [polled, List.filterMap_append]

@[simp] theorem polled_event (e : AgentEvent) (log : List Observation) :
    polled (.event e :: log) = polled log := rfl

@[simp] theorem polled_aborted (log : List Observation) :
    polled (.aborted :: log) = polled log := rfl

@[simp] theorem polled_pushed (m : AgentMessage) (log : List Observation) :
    polled (.append m :: log) = polled log := rfl

@[simp] theorem polled_polled (ms : List AgentMessage) (log : List Observation) :
    polled (.polled ms :: log) = ms ++ polled log := rfl

@[simp] theorem polled_map_event (es : List AgentEvent) : polled (es.map .event) = [] := by
  induction es with
  | nil => rfl
  | cons e es ih => rw [List.map_cons, polled_event, ih]

@[simp] theorem eventsOf_map_append (ms : List AgentMessage) :
    eventsOf (ms.map .append) = [] := by
  induction ms with
  | nil => rfl
  | cons m ms ih => rw [List.map_cons, eventsOf_pushed, ih]

@[simp] theorem appended_map_append (ms : List AgentMessage) :
    appended (ms.map .append) = ms := by
  induction ms with
  | nil => rfl
  | cons m ms ih => rw [List.map_cons, appended_pushed, ih]

@[simp] theorem eventsOf_map_polled (mss : List (List AgentMessage)) :
    eventsOf (mss.map .polled) = [] := by
  induction mss with
  | nil => rfl
  | cons ms mss ih => rw [List.map_cons, eventsOf_polled, ih]

@[simp] theorem appended_map_polled (mss : List (List AgentMessage)) :
    appended (mss.map .polled) = [] := by
  induction mss with
  | nil => rfl
  | cons ms mss ih => rw [List.map_cons, appended_polled, ih]

@[simp] theorem polled_map_polled (mss : List (List AgentMessage)) :
    polled (mss.map .polled) = mss.flatten := by
  induction mss with
  | nil => rfl
  | cons ms mss ih => rw [List.map_cons, polled_polled, ih, List.flatten_cons]

@[simp] theorem eventsOf_replicate_aborted (n : Nat) :
    eventsOf (List.replicate n .aborted) = [] := by
  induction n with
  | zero => rfl
  | succ n ih => rw [List.replicate_succ, eventsOf_aborted, ih]

@[simp] theorem appended_replicate_aborted (n : Nat) :
    appended (List.replicate n .aborted) = [] := by
  induction n with
  | zero => rfl
  | succ n ih => rw [List.replicate_succ, appended_aborted, ih]

@[simp] theorem polled_replicate_aborted (n : Nat) :
    polled (List.replicate n .aborted) = [] := by
  induction n with
  | zero => rfl
  | succ n ih => rw [List.replicate_succ, polled_aborted, ih]

namespace AgentEvent

def ended? : AgentEvent → Option AgentMessage
  | .messageEnd m => some m
  | _ => none

def isMessage : AgentEvent → Bool
  | .messageStart _ | .messageUpdate .. | .messageEnd _ => true
  | _ => false

def isMessageUpdate : AgentEvent → Bool
  | .messageUpdate .. => true
  | _ => false

def toolCallId? : AgentEvent → Option String
  | .toolExecutionStart id _ _ => some id
  | .toolExecutionUpdate id _ _ _ => some id
  | .toolExecutionEnd id _ _ _ => some id
  | _ => none

def isToolStart : AgentEvent → Bool
  | .toolExecutionStart .. => true
  | _ => false

def isToolUpdate : AgentEvent → Bool
  | .toolExecutionUpdate .. => true
  | _ => false

def isToolEnd : AgentEvent → Bool
  | .toolExecutionEnd .. => true
  | _ => false

end AgentEvent

/-- The messages of the `message_end` events. -/
def endedMessages (es : List AgentEvent) : List AgentMessage := es.filterMap AgentEvent.ended?

@[simp] theorem endedMessages_append (as bs : List AgentEvent) :
    endedMessages (as ++ bs) = endedMessages as ++ endedMessages bs := List.filterMap_append

@[simp] theorem endedMessages_nil : endedMessages [] = [] := rfl

theorem endedMessages_filter (es : List AgentEvent) :
    endedMessages (es.filter AgentEvent.isMessage) = endedMessages es := by
  induction es with
  | nil => rfl
  | cons e es ih =>
    cases e with
    | messageEnd m =>
      show m :: endedMessages (es.filter AgentEvent.isMessage) = m :: endedMessages es
      rw [ih]
    | messageStart m => exact ih
    | messageUpdate m kind => exact ih
    | _ => exact ih

/-! ## Extending a world -/

namespace LoopWorld

/-- `w'` is `w` with more in the log and, accordingly, in `newMessages`;
what held of the environment at `w'` held at `w`. -/
structure Extends (w w' : LoopWorld) (seg : List Observation) : Prop where
  log : w'.log = w.log ++ seg
  newMessages : w'.newMessages = w.newMessages ++ appended seg
  startsOnce : w'.startsOnce = true → w.startsOnce = true
  contextKept : w'.contextKept = true → w.contextKept = true

theorem Extends.refl (w : LoopWorld) : Extends w w [] :=
  ⟨(List.append_nil _).symm, (List.append_nil _).symm, id, id⟩

theorem Extends.trans {w₁ w₂ w₃ : LoopWorld} {s t : List Observation} (h₁ : Extends w₁ w₂ s)
    (h₂ : Extends w₂ w₃ t) : Extends w₁ w₃ (s ++ t) :=
  ⟨by rw [h₂.log, h₁.log, List.append_assoc],
   by rw [h₂.newMessages, h₁.newMessages, appended_append, List.append_assoc],
   fun h => h₁.startsOnce (h₂.startsOnce h), fun h => h₁.contextKept (h₂.contextKept h)⟩

theorem extends_event (w : LoopWorld) (e : AgentEvent) :
    Extends w (w.record (.event e)) [.event e] :=
  ⟨rfl, (List.append_nil _).symm, id, id⟩

theorem extends_setMessages (w : LoopWorld) (ms : List AgentMessage) :
    Extends w (w.setMessages ms) [] :=
  ⟨(List.append_nil _).symm, (List.append_nil _).symm, id, id⟩

def events (w : LoopWorld) : List AgentEvent := eventsOf w.log

end LoopWorld

/-! ## Specifications -/

/-- The context is the messages before the run and those ended since, as
long as every stream started once and the context was not replaced. -/
def Agrees (base : List AgentMessage) (w : LoopWorld) : Prop :=
  w.startsOnce = true → w.contextKept = true →
    w.context.messages = base ++ endedMessages w.events

def AtConvert (base : List AgentMessage) (w : LoopWorld) : LoopEffect → Prop
  | .convertToLlm _ => Agrees base w
  | _ => True

/-- Specifications of loop functions. -/
def Spec (base : List AgentMessage) {α : Type} (p : LoopM α) (w : LoopWorld)
    (Q : α → LoopWorld → Prop) (thrown : LoopWorld → Prop) : Prop :=
  Act.Holds LoopWorld.Env (AtConvert base) p w Q thrown

namespace Spec

variable {base : List AgentMessage} {α β : Type} {w : LoopWorld}
  {Q : α → LoopWorld → Prop} {thrown : LoopWorld → Prop}

theorem mono {p : LoopM α} {Q' : α → LoopWorld → Prop} {thrown' : LoopWorld → Prop}
    (h : Spec base p w Q thrown) (hok : ∀ a w', Q a w' → Q' a w')
    (hthrown : ∀ w', thrown w' → thrown' w') : Spec base p w Q' thrown' :=
  Act.Holds.mono h hok hthrown

theorem bind {p : LoopM α} {f : α → LoopM β} {Q' : β → LoopWorld → Prop}
    (h : Spec base p w Q thrown) (hf : ∀ a w', Q a w' → Spec base (f a) w' Q' thrown) :
    Spec base (p >>= f) w Q' thrown := Act.Holds.bind h hf

theorem pure {a : α} (h : Q a w) : Spec base (Pure.pure a : LoopM α) w Q thrown := h

theorem outOfFuel : Spec base (Act.outOfFuel : LoopM α) w Q thrown := trivial

theorem throw {message : String} (h : thrown w) :
    Spec base (Act.throw message : LoopM α) w Q thrown := h

theorem ofExcept {x : Except String α} (hok : ∀ a, x = .ok a → Q a w) (hthrown : thrown w) :
    Spec base (Act.ofExcept x) w Q thrown :=
  Act.Holds.ofExcept hok fun _ _ => hthrown

theorem tryCatch {p : LoopM α} {handler : String → LoopM α} {thrown' : LoopWorld → Prop}
    (h : Spec base p w Q thrown')
    (hcatch : ∀ message w', thrown' w' → Spec base (handler message) w' Q thrown) :
    Spec base (Act.tryCatch p handler) w Q thrown := Act.Holds.tryCatch h hcatch

theorem attempt {e : LoopEffect} {answer : LoopAnswer e → Except String α}
    (hinv : AtConvert base w e) (hafter : ∀ a, w.after e a = w) (hok : ∀ a, Q a w)
    (hthrown : thrown w) : Spec base (Eagent.attempt e answer) w Q thrown := by
  refine Act.Sat.bind (M := fun r w' => ∃ a, r = .ok a ∧ w' = w) ⟨hinv, ?_⟩ ?_ ?_
  · rintro a w' ⟨-, rfl⟩
    exact ⟨a, rfl, hafter a⟩
  · rintro a w' ⟨b, hb, rfl⟩
    exact ofExcept (fun a _ => hok a) hthrown
  · rintro e w' ⟨b, hb, -⟩
    cases hb

theorem emit {e : AgentEvent} {Q : Unit → LoopWorld → Prop}
    (h : Q () (w.record (.event e))) : Spec base (emit e) w Q thrown := by
  refine Act.Sat.perform trivial ?_
  rintro a w' ⟨-, rfl⟩
  exact h

theorem readContext {Q : AgentContext → LoopWorld → Prop} (h : Q w.context w) :
    Spec base readContext w Q thrown := by
  refine Act.Sat.perform trivial ?_
  rintro a w' ⟨hlegal, hafter⟩
  have ha : a = w.context := hlegal
  have hw : w' = w := hafter
  rw [ha, hw]
  exact h

theorem readNewMessages {Q : List AgentMessage → LoopWorld → Prop} (h : Q w.newMessages w) :
    Spec base readNewMessages w Q thrown := by
  refine Act.Sat.perform trivial ?_
  rintro a w' ⟨hlegal, hafter⟩
  have ha : a = w.newMessages := hlegal
  have hw : w' = w := hafter
  rw [ha, hw]
  exact h

variable {m : AgentMessage}

theorem pushContext {Q : Unit → LoopWorld → Prop}
    (h : Q () (w.setMessages (w.context.messages ++ [m]))) :
    Spec base (pushContext m) w Q thrown := by
  refine Act.Sat.perform trivial ?_
  rintro a w' ⟨-, rfl⟩
  exact h

theorem replaceLastContext {Q : Unit → LoopWorld → Prop}
    (h : Q () (w.setMessages (w.context.messages.dropLast ++ [m]))) :
    Spec base (replaceLastContext m) w Q thrown := by
  refine Act.Sat.perform trivial ?_
  rintro a w' ⟨-, rfl⟩
  exact h

theorem setContext {context : AgentContext} {Q : Unit → LoopWorld → Prop}
    (h : Q () { w with context }) : Spec base (setContext context) w Q thrown := by
  refine Act.Sat.perform trivial ?_
  rintro a w' ⟨-, rfl⟩
  exact h

theorem pushNewMessage {Q : Unit → LoopWorld → Prop}
    (h : Q () { w.record (.append m) with newMessages := w.newMessages ++ [m] }) :
    Spec base (pushNewMessage m) w Q thrown := by
  refine Act.Sat.perform trivial ?_
  rintro a w' ⟨-, rfl⟩
  exact h

theorem isAborted {Q : Bool → LoopWorld → Prop}
    (hset : Q true { w.record .aborted with aborted := true }) (hunset : Q false w) :
    Spec base isAborted w Q thrown := by
  refine Act.Sat.perform trivial ?_
  rintro (a : Bool) w' ⟨-, rfl⟩
  cases a with
  | true => exact hset
  | false => exact hunset

theorem getSteeringMessages {Q : List AgentMessage → LoopWorld → Prop}
    (hok : ∀ ms, Q ms (w.record (.polled ms))) (hthrown : thrown w) :
    Spec base getSteeringMessages w Q thrown := by
  refine ⟨trivial, ?_⟩
  rintro (a : Except String (List AgentMessage)) w' ⟨-, rfl⟩
  cases a with
  | ok ms => exact hok ms
  | error message => exact hthrown

theorem getFollowUpMessages {Q : List AgentMessage → LoopWorld → Prop}
    (hok : ∀ ms, Q ms (w.record (.polled ms))) (hthrown : thrown w) :
    Spec base getFollowUpMessages w Q thrown := by
  refine ⟨trivial, ?_⟩
  rintro (a : Except String (List AgentMessage)) w' ⟨-, rfl⟩
  cases a with
  | ok ms => exact hok ms
  | error message => exact hthrown

theorem dateNow {Q : Nat → LoopWorld → Prop} (h : ∀ t, Q t w) :
    Spec base dateNow w Q thrown := by
  refine Act.Sat.perform trivial ?_
  rintro a w' ⟨-, rfl⟩
  exact h a

end Spec

end Eagent
