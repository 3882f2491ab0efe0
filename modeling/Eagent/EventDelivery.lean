import Eagent.Machine

/-!
# The event stream of a response

`EventStream`: a producer pushes events and ends the stream, one consumer
iterates over it. An event goes through the queue, or directly to the
promise on which the iteration waits; a step of the iteration runs up to
its next `await` or `yield`.
-/

namespace Eagent.Ai

open Machine

variable {τ ρ : Type}

/-! ## The stream and its iteration -/

structure EventStream (τ ρ : Type) where
  queue : List τ := []
  /-- the promises whose resolvers wait -/
  waiting : List Nat := []
  done : Bool := false
  finalResult : Option ρ := none

/-- Where the generator is. A promise is fulfilled with an event, or with
`none`, which says that the stream is over. -/
inductive IterationPoint (τ : Type) where
  | suspended
  | awaiting (promise : Nat) (result : Option (Option τ))
  | returned
deriving DecidableEq

inductive ProducerCall (τ ρ : Type) where
  | push (event : τ)
  | finish (result : Option ρ)

/-- `requests` are the calls of `next` without an answer, `answers` what the
others resolved to; `calls` and `nexts` say what has been called. -/
structure EventExchange (τ ρ : Type) where
  stream : EventStream τ ρ := {}
  point : IterationPoint τ := .suspended
  requests : Nat := 0
  answers : List (Option τ) := []
  nextPromise : Nat := 0
  calls : List (ProducerCall τ ρ) := []
  nexts : Nat := 0

inductive ExchangeAction (τ ρ : Type) where
  | produce (call : ProducerCall τ ρ)
  | next
  /-- the generator goes on -/
  | advance

def IterationPoint.fulfil (point : IterationPoint τ) (promise : Nat) (result : Option τ) :
    IterationPoint τ :=
  match point with
  | .awaiting p none => if p = promise then .awaiting p (some result) else point
  | _ => point

namespace EventStream

/-- `resolveFinalResult`, which does nothing the second time. -/
def resolve (s : EventStream τ ρ) (result : ρ) : EventStream τ ρ :=
  { s with finalResult := s.finalResult.or (some result) }

def accept (isComplete : τ → Bool) (extractResult : τ → ρ) (s : EventStream τ ρ) (event : τ) :
    EventStream τ ρ :=
  if isComplete event then { s with done := true }.resolve (extractResult event) else s

section Accept

variable (isComplete : τ → Bool) (extractResult : τ → ρ) (s : EventStream τ ρ) (event : τ)

@[simp] theorem accept_queue :
    (s.accept isComplete extractResult event).queue = s.queue := by
  unfold accept
  split <;> rfl

@[simp] theorem accept_waiting :
    (s.accept isComplete extractResult event).waiting = s.waiting := by
  unfold accept
  split <;> rfl

@[simp] theorem accept_done :
    (s.accept isComplete extractResult event).done = (isComplete event || s.done) := by
  unfold accept
  split
  · rename_i hcomplete
    rw [hcomplete]
    rfl
  · rename_i hcomplete
    rw [Bool.not_eq_true] at hcomplete
    rw [hcomplete, Bool.false_or]

theorem accept_finalResult (hnone : s.finalResult = none) :
    (s.accept isComplete extractResult event).finalResult =
      if isComplete event then some (extractResult event) else none := by
  unfold accept
  split
  · rw [resolve, hnone]
    rfl
  · exact hnone

end Accept

end EventStream

namespace EventExchange

section Source

variable (isComplete : τ → Bool) (extractResult : τ → ρ) (s : EventExchange τ ρ)

def push (event : τ) : EventExchange τ ρ :=
  if s.stream.done then s
  else
    let stream := s.stream.accept isComplete extractResult event
    match stream.waiting with
    | promise :: waiting =>
        { s with
          stream := { stream with waiting }
          point := s.point.fulfil promise (some event) }
    | [] => { s with stream := { stream with queue := stream.queue ++ [event] } }

/-- `end` -/
def finish (result : Option ρ) : EventExchange τ ρ :=
  let stream := { s.stream with done := true }
  let stream := match result with
    | some result => stream.resolve result
    | none => stream
  { s with
    stream := { stream with waiting := [] }
    point := stream.waiting.foldl (fun point promise => point.fulfil promise none) s.point }

def answer (result : Option τ) (point : IterationPoint τ) : EventExchange τ ρ :=
  { s with requests := s.requests - 1, answers := s.answers ++ [result], point }

/-- The generator up to its next `await` or `yield`. -/
def advance : Option (EventExchange τ ρ) :=
  match s.point with
  | .suspended =>
      if s.requests = 0 then none
      else match s.stream.queue with
        | event :: queue =>
            some ({ s with stream := { s.stream with queue } }.answer (some event) .suspended)
        | [] =>
            if s.stream.done then some (s.answer none .returned)
            else some { s with
              stream := { s.stream with waiting := s.stream.waiting ++ [s.nextPromise] }
              point := .awaiting s.nextPromise none
              nextPromise := s.nextPromise + 1 }
  | .awaiting _ none => none
  | .awaiting _ (some none) => some (s.answer none .returned)
  | .awaiting _ (some (some event)) => some (s.answer (some event) .suspended)
  | .returned => if s.requests = 0 then none else some (s.answer none .returned)

def step : ExchangeAction τ ρ → Option (EventExchange τ ρ)
  | .produce call =>
      let next := match call with
        | .push event => s.push isComplete extractResult event
        | .finish result => s.finish result
      some { next with calls := s.calls ++ [call] }
  | .next => some { s with requests := s.requests + 1, nexts := s.nexts + 1 }
  | .advance => s.advance

end Source

/-! ## What is to be delivered -/

section Spec

variable (isComplete : τ → Bool) (extractResult : τ → ρ)

/-- The events pushed before the end, up to and including the first that
completes the stream. -/
def delivered : List (ProducerCall τ ρ) → List τ
  | [] => []
  | .push event :: rest => if isComplete event then [event] else event :: delivered rest
  | .finish _ :: _ => []

/-- The stream has been ended or completed. -/
def isOver : List (ProducerCall τ ρ) → Bool
  | [] => false
  | .push event :: rest => isComplete event || isOver rest
  | .finish _ :: _ => true

end Spec

variable {isComplete : τ → Bool} {extractResult : τ → ρ} {s s' : EventExchange τ ρ}

theorem delivered_append (calls : List (ProducerCall τ ρ)) (call : ProducerCall τ ρ) :
    delivered isComplete (calls ++ [call]) = delivered isComplete calls ++
      if isOver isComplete calls then [] else delivered isComplete [call] := by
  induction calls with
  | nil => rfl
  | cons c calls ih =>
    cases c with
    | finish result => rfl
    | push event =>
      rw [List.cons_append, delivered, delivered, isOver]
      cases hcomplete : isComplete event with
      | true => rfl
      | false => simp [ih]

theorem isOver_append (calls : List (ProducerCall τ ρ)) (call : ProducerCall τ ρ) :
    isOver isComplete (calls ++ [call]) = (isOver isComplete calls || isOver isComplete [call]) := by
  induction calls with
  | nil => rfl
  | cons c calls ih =>
    cases c with
    | finish result => rfl
    | push event => rw [List.cons_append, isOver, isOver, ih, Bool.or_assoc]

theorem completes_last (calls : List (ProducerCall τ ρ)) :
    ∀ e ∈ (delivered isComplete calls).dropLast, isComplete e = false := by
  induction calls with
  | nil => nofun
  | cons c calls ih =>
    cases c with
    | finish result => nofun
    | push event =>
      rw [delivered]
      cases hcomplete : isComplete event with
      | true => nofun
      | false =>
        intro e he
        rw [if_neg (by decide)] at he
        cases hrest : delivered isComplete calls with
        | nil =>
          rw [hrest] at he
          cases he
        | cons e' rest =>
          rw [hrest, List.dropLast_cons_cons] at he
          rcases List.mem_cons.mp he with rfl | he
          · exact hcomplete
          · exact ih e (hrest ▸ he)

/-! ## The invariant -/

/-- An event on its way to the consumer, past the queue. -/
def inFlight : IterationPoint τ → List τ
  | .awaiting _ (some (some event)) => [event]
  | _ => []

/-- The stream is over for the generator. -/
def sawEnd : IterationPoint τ → Bool
  | .awaiting _ (some none) | .returned => true
  | _ => false

/-- The generator waits, and the promise is not fulfilled. -/
def parkedOn : IterationPoint τ → List Nat
  | .awaiting promise none => [promise]
  | _ => []

def isAwaiting : IterationPoint τ → Bool
  | .awaiting _ _ => true
  | _ => false

/-- What was answered, what is on its way and what is queued are the events to
be delivered; a promise is open only while there is nothing to deliver, and
the end comes after all events. -/
structure StreamInv (isComplete : τ → Bool) (extractResult : τ → ρ) (s : EventExchange τ ρ) :
    Prop where
  answers : ∃ received ended, s.answers = received.map some ++ List.replicate ended none ∧
    delivered isComplete s.calls = received ++ inFlight s.point ++ s.stream.queue ∧
    (0 < ended → s.point = .returned)
  done : s.stream.done = isOver isComplete s.calls
  waiting : s.stream.waiting = parkedOn s.point
  parked : parkedOn s.point ≠ [] → s.stream.queue = [] ∧ s.stream.done = false
  ended : sawEnd s.point = true → s.stream.queue = [] ∧ s.stream.done = true
  requests : s.answers.length + s.requests = s.nexts
  awaited : isAwaiting s.point = true → 0 < s.requests
  result : ∀ e ∈ delivered isComplete s.calls, isComplete e = true →
    s.stream.finalResult = some (extractResult e)
  unresolved : s.stream.done = false → s.stream.finalResult = none

namespace StreamInv

theorem start : StreamInv isComplete extractResult {} where
  answers := ⟨[], 0, rfl, rfl, fun h => absurd h (Nat.lt_irrefl 0)⟩
  done := rfl
  waiting := rfl
  parked h := absurd rfl h
  ended := nofun
  requests := rfl
  awaited := nofun
  result := nofun
  unresolved _ := rfl

/-- A push or an end after the end of the stream changes nothing to be
delivered. -/
theorem calls_isOver (hover : isOver isComplete s.calls = true) (call : ProducerCall τ ρ) :
    delivered isComplete (s.calls ++ [call]) = delivered isComplete s.calls ∧
      isOver isComplete (s.calls ++ [call]) = true := by
  rw [delivered_append, isOver_append, hover]
  exact ⟨List.append_nil _, rfl⟩

/-- What a push before the end adds, and what it resolves. -/
theorem calls_push (hover : isOver isComplete s.calls = false) (event : τ) :
    delivered isComplete (s.calls ++ [.push event]) = delivered isComplete s.calls ++ [event] ∧
      isOver isComplete (s.calls ++ [.push event]) = isComplete event := by
  rw [delivered_append, isOver_append, hover]
  refine ⟨?_, ?_⟩
  · rw [if_neg Bool.false_ne_true, delivered]
    cases isComplete event <;> rfl
  · rw [isOver, isOver, Bool.false_or, Bool.or_false]

theorem push_cases (h : StreamInv isComplete extractResult s) (hdone : s.stream.done = false)
    (event : τ) :
    (∃ promise, s.point = .awaiting promise none ∧ s.push isComplete extractResult event =
      { s with
        stream := { s.stream.accept isComplete extractResult event with waiting := [] }
        point := .awaiting promise (some (some event)) }) ∨
    (parkedOn s.point = [] ∧ s.push isComplete extractResult event =
      { s with stream := { s.stream.accept isComplete extractResult event with
        queue := s.stream.queue ++ [event] } }) := by
  have hwaiting := h.waiting
  unfold EventExchange.push
  rw [if_neg (by rw [hdone]; exact Bool.false_ne_true)]
  dsimp only
  rw [EventStream.accept_waiting, hwaiting]
  cases hpoint : s.point with
  | awaiting promise result =>
    cases result with
    | none =>
      refine .inl ⟨promise, rfl, ?_⟩
      simp only [parkedOn, IterationPoint.fulfil, if_true]
    | some result =>
      refine .inr ⟨rfl, ?_⟩
      simp only [parkedOn, EventStream.accept_queue]
  | suspended =>
    refine .inr ⟨rfl, ?_⟩
    simp only [parkedOn, EventStream.accept_queue]
  | returned =>
    refine .inr ⟨rfl, ?_⟩
    simp only [parkedOn, EventStream.accept_queue]

theorem push (h : StreamInv isComplete extractResult s) (event : τ) :
    StreamInv isComplete extractResult
      { s.push isComplete extractResult event with calls := s.calls ++ [.push event] } := by
  obtain ⟨received, ended, hanswers, hsplit, hended⟩ := h.answers
  cases hdone : s.stream.done with
  | true =>
    obtain ⟨hdelivered, hover⟩ := calls_isOver (h.done.symm.trans hdone) (.push event)
    rw [EventExchange.push, if_pos hdone]
    exact
      { h with
        answers := ⟨received, ended, hanswers, hdelivered.trans hsplit, hended⟩
        done := hdone.trans hover.symm
        result := fun e he => h.result e (hdelivered ▸ he) }
  | false =>
    obtain ⟨hdelivered, hover⟩ := calls_push (h.done.symm.trans hdone) event
    have hnone := h.unresolved hdone
    have hresult := EventStream.accept_finalResult isComplete extractResult s.stream event hnone
    have hflag : (s.stream.accept isComplete extractResult event).done = isComplete event := by
      rw [EventStream.accept_done, hdone, Bool.or_false]
    have hnotEnded : sawEnd s.point = false := by
      by_contra hsaw
      have hover := (h.ended (by simpa using hsaw)).2
      rw [hdone] at hover
      cases hover
    have hresults (e : τ) (he : e ∈ delivered isComplete (s.calls ++ [.push event]))
        (hcomplete : isComplete e = true) :
        (s.stream.accept isComplete extractResult event).finalResult =
          some (extractResult e) := by
      rw [hdelivered] at he
      rcases List.mem_append.mp he with he | he
      · have hearlier := h.result e he hcomplete
        rw [hnone] at hearlier
        cases hearlier
      · obtain rfl := List.mem_singleton.mp he
        rw [hresult, if_pos hcomplete]
    have hunresolved (hfalse : (s.stream.accept isComplete extractResult event).done = false) :
        (s.stream.accept isComplete extractResult event).finalResult = none := by
      rw [hresult, if_neg]
      rw [← hflag, hfalse]
      exact Bool.false_ne_true
    have hnoneEnded : ended = 0 := by
      by_contra hne
      rw [hended (Nat.pos_of_ne_zero hne)] at hnotEnded
      cases hnotEnded
    subst hnoneEnded
    rcases h.push_cases hdone event with ⟨promise, hpoint, heq⟩ | ⟨hopen, heq⟩
    · obtain ⟨hempty, -⟩ := h.parked (by rw [hpoint]; nofun)
      rw [heq]
      refine ⟨⟨received, 0, hanswers, ?_, fun hpos => absurd hpos (Nat.lt_irrefl 0)⟩,
        hflag.trans hover.symm, rfl, (fun hne => absurd rfl hne), nofun, h.requests,
        fun _ => h.awaited (by rw [hpoint]; rfl), hresults, hunresolved⟩
      rw [hdelivered, hsplit, hpoint, hempty]
      simp [inFlight, hempty]
    · rw [heq]
      refine ⟨⟨received, 0, hanswers, ?_, fun hpos => absurd hpos (Nat.lt_irrefl 0)⟩,
        hflag.trans hover.symm, ?_, fun hne => absurd hopen hne, ?_, h.requests, h.awaited,
        hresults, hunresolved⟩
      · rw [hdelivered, hsplit, List.append_assoc]
      · exact (EventStream.accept_waiting ..).trans h.waiting
      · intro hsaw
        rw [show sawEnd s.point = true from hsaw] at hnotEnded
        cases hnotEnded

def endPoint : IterationPoint τ → IterationPoint τ
  | .awaiting promise none => .awaiting promise (some none)
  | point => point

theorem finish_eq (h : StreamInv isComplete extractResult s) (result : Option ρ) :
    s.finish result =
      { s with
        stream := { s.stream with
          waiting := [], done := true, finalResult := s.stream.finalResult.or result }
        point := endPoint s.point } := by
  have hpoint : s.stream.waiting.foldl (fun point promise => point.fulfil promise none) s.point =
      endPoint s.point := by
    rw [h.waiting]
    match s.point with
    | .awaiting promise none => simp [parkedOn, IterationPoint.fulfil, endPoint]
    | .awaiting promise (some result) => rfl
    | .suspended => rfl
    | .returned => rfl
  unfold EventExchange.finish
  cases result with
  | none =>
    dsimp only
    rw [hpoint, Option.or_none]
  | some result =>
    dsimp only [EventStream.resolve]
    rw [hpoint]

theorem inFlight_endPoint (point : IterationPoint τ) :
    inFlight (endPoint point) = inFlight point := by
  match point with
  | .awaiting _ none | .awaiting _ (some _) | .suspended | .returned => rfl

theorem parkedOn_endPoint (point : IterationPoint τ) : parkedOn (endPoint point) = [] := by
  match point with
  | .awaiting _ none | .awaiting _ (some _) | .suspended | .returned => rfl

theorem isAwaiting_endPoint (point : IterationPoint τ) :
    isAwaiting (endPoint point) = isAwaiting point := by
  match point with
  | .awaiting _ none | .awaiting _ (some _) | .suspended | .returned => rfl

theorem sawEnd_endPoint {point : IterationPoint τ} (h : sawEnd (endPoint point) = true) :
    sawEnd point = true ∨ parkedOn point ≠ [] := by
  match point with
  | .awaiting promise none => exact .inr nofun
  | .awaiting _ (some _) => exact .inl h
  | .suspended => exact .inl h
  | .returned => exact .inl h

section

variable (h : StreamInv isComplete extractResult s)
include h

theorem finish (result : Option ρ) :
    StreamInv isComplete extractResult
      { s.finish result with calls := s.calls ++ [.finish result] } := by
  obtain ⟨received, ended, hanswers, hsplit, hended⟩ := h.answers
  have hdelivered : delivered isComplete (s.calls ++ [.finish result]) =
      delivered isComplete s.calls := by
    rw [delivered_append]
    split
    · exact List.append_nil _
    · exact List.append_nil _
  rw [h.finish_eq result]
  refine ⟨⟨received, ended, hanswers, ?_, fun hpos => ?_⟩, ?_, (parkedOn_endPoint _).symm,
    fun hne => absurd (parkedOn_endPoint _) hne, fun hsaw => ⟨?_, rfl⟩, h.requests, ?_, ?_, nofun⟩
  · rw [hdelivered, hsplit, inFlight_endPoint]
  · rw [hended hpos]
    rfl
  · rw [isOver_append]
    exact (Bool.or_true _).symm
  · rcases sawEnd_endPoint hsaw with hsaw | hne
    · exact (h.ended hsaw).1
    · exact (h.parked hne).1
  · rw [isAwaiting_endPoint]
    exact h.awaited
  · intro e he hcomplete
    rw [hdelivered] at he
    dsimp only
    rw [h.result e he hcomplete, Option.some_or]

/-- The generator answers with an event, or with the end. -/
theorem advance (hs : s.advance = some s') :
    StreamInv isComplete extractResult s' := by
  obtain ⟨received, ended, hanswers, hsplit, hended⟩ := h.answers
  have hrequests := h.requests
  unfold EventExchange.advance at hs
  cases hpoint : s.point with
  | suspended =>
    rw [hpoint] at hs hsplit hended
    obtain rfl : ended = 0 := by
      by_contra hne
      cases hended (Nat.pos_of_ne_zero hne)
    rw [List.replicate_zero, List.append_nil] at hanswers
    dsimp only at hs
    split at hs
    · cases hs
    · rename_i hpos
      split at hs
      · rename_i event queue hqueue
        cases hs
        refine ⟨⟨received ++ [event], 0, ?_, ?_, fun hpos => absurd hpos (Nat.lt_irrefl 0)⟩,
          h.done, ?_, fun hne => absurd rfl hne, nofun, ?_, nofun, h.result, h.unresolved⟩
        · simp [answer, hanswers]
        · simp only [answer, inFlight]
          rw [hsplit, hqueue]
          simp [inFlight]
        · have hwaiting := h.waiting
          rw [hpoint] at hwaiting
          exact hwaiting
        · simp only [answer, List.length_append, List.length_singleton]
          omega
      · rename_i hqueue
        split at hs
        · rename_i hdone
          cases hs
          refine ⟨⟨received, 1, ?_, hsplit, fun _ => rfl⟩, h.done, ?_, fun hne => absurd rfl hne,
            fun _ => ⟨hqueue, hdone⟩, ?_, nofun, h.result, h.unresolved⟩
          · simp [answer, hanswers]
          · have hwaiting := h.waiting
            rw [hpoint] at hwaiting
            exact hwaiting
          · simp only [answer, List.length_append, List.length_singleton]
            omega
        · rename_i hdone
          cases hs
          refine ⟨⟨received, 0, by simp [hanswers], hsplit, fun hp => absurd hp (Nat.lt_irrefl 0)⟩,
            h.done, ?_, fun _ => ⟨hqueue, by simpa using hdone⟩, nofun, hrequests,
            fun _ => Nat.pos_of_ne_zero hpos, h.result, h.unresolved⟩
          have hwaiting := h.waiting
          rw [hpoint] at hwaiting
          simp [hwaiting, parkedOn]
  | awaiting promise result =>
    have hpos := h.awaited (by rw [hpoint]; rfl)
    rw [hpoint] at hs hsplit hended
    obtain rfl : ended = 0 := by
      by_contra hne
      cases hended (Nat.pos_of_ne_zero hne)
    rw [List.replicate_zero, List.append_nil] at hanswers
    have hwaiting := h.waiting
    rw [hpoint] at hwaiting
    match result with
    | none => cases hs
    | some none =>
      obtain ⟨hqueue, hdone⟩ := h.ended (by rw [hpoint]; rfl)
      cases hs
      refine ⟨⟨received, 1, ?_, hsplit, fun _ => rfl⟩, h.done, hwaiting,
        fun hne => absurd rfl hne, fun _ => ⟨hqueue, hdone⟩, ?_, nofun, h.result,
        h.unresolved⟩
      · simp [answer, hanswers]
      · simp only [answer, List.length_append, List.length_singleton]
        omega
    | some (some event) =>
      cases hs
      refine ⟨⟨received ++ [event], 0, ?_, ?_, fun hp => absurd hp (Nat.lt_irrefl 0)⟩,
        h.done, hwaiting, fun hne => absurd rfl hne, nofun, ?_, nofun, h.result, h.unresolved⟩
      · simp [answer, hanswers]
      · refine hsplit.trans ?_
        simp [answer, inFlight]
      · simp only [answer, List.length_append, List.length_singleton]
        omega
  | returned =>
    rw [hpoint] at hs hsplit
    dsimp only at hs
    split at hs
    · cases hs
    · cases hs
      refine ⟨⟨received, ended + 1, ?_, hsplit, fun _ => rfl⟩, h.done, ?_,
        fun hne => absurd rfl hne, fun _ => h.ended (by rw [hpoint]; rfl), ?_, nofun, h.result,
        h.unresolved⟩
      · simp [answer, hanswers, List.replicate_succ']
      · have hwaiting := h.waiting
        rw [hpoint] at hwaiting
        exact hwaiting
      · simp only [answer, List.length_append, List.length_singleton]
        omega

theorem step {a : ExchangeAction τ ρ} (hs : s.step isComplete extractResult a = some s') :
    StreamInv isComplete extractResult s' := by
  cases a with
  | produce call =>
    cases hs
    cases call with
    | push event => exact h.push event
    | finish result => exact h.finish result
  | next =>
    cases hs
    have hrequests := h.requests
    refine { h with requests := ?_, awaited := fun _ => Nat.succ_pos _ }
    dsimp only
    omega
  | advance => exact h.advance hs

end

end StreamInv

/-! ## Every run -/

/-- The generator has nothing to do until the producer or the consumer calls
again. -/
def Quiescent (s : EventExchange τ ρ) : Prop := s.advance = none

/-- The answers are the events to be delivered, in order, and after all of
them the end, once the stream is over; where the generator has come to rest,
every call of `next` has its answer, but one that waits for an event that is
not pushed yet. -/
structure Delivers (isComplete : τ → Bool) (extractResult : τ → ρ) (s : EventExchange τ ρ) :
    Prop where
  received : ∃ received ended, s.answers = received.map some ++ List.replicate ended none ∧
    received <+: delivered isComplete s.calls ∧
    (0 < ended → received = delivered isComplete s.calls ∧ isOver isComplete s.calls = true)
  last : ∀ e ∈ (delivered isComplete s.calls).dropLast, isComplete e = false
  result : ∀ e ∈ delivered isComplete s.calls, isComplete e = true →
    s.stream.finalResult = some (extractResult e)
  rests : s.Quiescent → s.answers =
    ((delivered isComplete s.calls).map some ++
      if isOver isComplete s.calls then List.replicate s.nexts none else []).take s.nexts
  settles : ∃ t, Reaches (EventExchange.step isComplete extractResult) (fun _ a => a = .advance) s t ∧
    t.Quiescent

namespace StreamInv

section

variable (h : StreamInv isComplete extractResult s)
include h

/-- Each step answers a request, or parks the generator. -/
theorem advance_rests (hs : s.advance = some s') :
    s'.requests < s.requests ∨ s'.Quiescent := by
  have hawaited := h.awaited
  unfold EventExchange.advance at hs
  cases hpoint : s.point with
  | suspended =>
    rw [hpoint] at hs
    dsimp only at hs
    split at hs
    · cases hs
    · rename_i hpos
      have hless : s.requests - 1 < s.requests := Nat.sub_one_lt hpos
      split at hs
      · cases hs
        exact .inl hless
      · split at hs
        · cases hs
          exact .inl hless
        · cases hs
          exact .inr rfl
  | awaiting promise result =>
    have hless : s.requests - 1 < s.requests := by
      have := hawaited (by rw [hpoint]; rfl)
      omega
    rw [hpoint] at hs
    match result with
    | none => cases hs
    | some none => cases hs; exact .inl hless
    | some (some event) => cases hs; exact .inl hless
  | returned =>
    rw [hpoint] at hs
    dsimp only at hs
    split at hs
    · cases hs
    · rename_i hpos
      cases hs
      exact .inl (Nat.sub_one_lt hpos)

theorem settles :
    ∃ t, Reaches (EventExchange.step isComplete extractResult) (fun _ a => a = .advance) s t ∧
      t.Quiescent := by
  induction hn : s.requests using Nat.strongRecOn generalizing s with
  | _ n ih =>
    subst hn
    cases hs : s.advance with
    | none => exact ⟨s, .refl, hs⟩
    | some s' =>
      have hfirst : Reaches (EventExchange.step isComplete extractResult)
          (fun _ a => a = .advance) s s' := Reaches.refl.tail (a := .advance) rfl hs
      rcases h.advance_rests hs with hless | hrest
      · obtain ⟨t, hreach, hrest⟩ := ih _ hless (h.advance hs) rfl
        exact ⟨t, hfirst.trans hreach, hrest⟩
      · exact ⟨s', hfirst, hrest⟩

theorem rests (hq : s.Quiescent) :
    s.answers = ((delivered isComplete s.calls).map some ++
      if isOver isComplete s.calls then List.replicate s.nexts none else []).take s.nexts := by
  obtain ⟨received, ended, hanswers, hsplit, hended⟩ := h.answers
  have hrequests := h.requests
  rw [hanswers] at hrequests
  simp only [List.length_append, List.length_map, List.length_replicate] at hrequests
  unfold Quiescent EventExchange.advance at hq
  cases hpoint : s.point with
  | suspended =>
    rw [hpoint] at hq hsplit hended
    obtain rfl : ended = 0 := by
      by_contra hne
      cases hended (Nat.pos_of_ne_zero hne)
    have hnone : s.requests = 0 := by
      by_contra hne
      dsimp only at hq
      rw [if_neg hne] at hq
      split at hq
      · cases hq
      · split at hq <;> cases hq
    have hlen : s.nexts = (received.map (some : τ → Option τ)).length := by
      rw [List.length_map]
      omega
    have hnothing : inFlight (.suspended : IterationPoint τ) = [] := rfl
    rw [hanswers, hsplit, hlen, hnothing, List.append_nil, List.map_append, List.append_assoc,
      List.take_left, List.replicate_zero, List.append_nil]
  | awaiting promise result =>
    rw [hpoint] at hq hsplit hended
    obtain rfl : ended = 0 := by
      by_contra hne
      cases hended (Nat.pos_of_ne_zero hne)
    match result with
    | some none => cases hq
    | some (some event) => cases hq
    | none =>
      obtain ⟨hqueue, hdone⟩ := h.parked (by rw [hpoint]; nofun)
      have hall : delivered isComplete s.calls = received := by
        rw [hsplit, hqueue]
        simp [inFlight]
      rw [hanswers, hall, ← h.done, hdone, if_neg Bool.false_ne_true, List.replicate_zero,
        List.take_of_length_le]
      simp only [List.append_nil, List.length_map]
      omega
  | returned =>
    rw [hpoint] at hq hsplit
    obtain ⟨hqueue, hdone⟩ := h.ended (by rw [hpoint]; rfl)
    have hnone : s.requests = 0 := by
      by_contra hne
      dsimp only at hq
      rw [if_neg hne] at hq
      cases hq
    have hall : delivered isComplete s.calls = received := by
      rw [hsplit, hqueue]
      simp [inFlight]
    have hmin : min (s.nexts - received.length) s.nexts = ended := by omega
    have htake : (received.map (some : τ → Option τ)).take s.nexts = received.map some :=
      List.take_of_length_le (by rw [List.length_map]; omega)
    rw [hanswers, hall, ← h.done, hdone, if_pos rfl, List.take_append, htake, List.length_map,
      List.take_replicate, hmin]

theorem delivers :
    Delivers isComplete extractResult s where
  received := by
    obtain ⟨received, ended, hanswers, hsplit, hended⟩ := h.answers
    refine ⟨received, ended, hanswers, ?_, fun hpos => ?_⟩
    · rw [hsplit, List.append_assoc]
      exact List.prefix_append received _
    · have hpoint := hended hpos
      obtain ⟨hqueue, hdone⟩ := h.ended (by rw [hpoint]; rfl)
      rw [hsplit, hpoint, hqueue, ← h.done]
      exact ⟨by simp [inFlight], hdone⟩
  last := completes_last s.calls
  result := h.result
  rests := h.rests
  settles := h.settles

end

end StreamInv

/-- Whatever the order in which a producer pushes and ends, a consumer asks,
and the generator goes on. -/
theorem events_delivered
    (h : Reaches (EventExchange.step isComplete extractResult) (fun _ _ => True) {} s) :
    Delivers isComplete extractResult s :=
  (h.invariant StreamInv.start fun _ _ _ hi _ hs => hi.step hs).delivers

/-- One event through the queue and one, the completing one, directly to the
generator; then two more calls. -/
theorem events_delivered_both : ∃ s : EventExchange Nat Nat,
    Reaches (EventExchange.step (· == 9) (· + 1)) (fun _ _ => True) {} s ∧ s.Quiescent ∧
      s.answers = [some 1, some 9, none, none] ∧ s.stream.finalResult = some 10 ∧
      Delivers (· == 9) (· + 1) s := by
  have hrun : Machine.run (EventExchange.step (τ := Nat) (ρ := Nat) (· == 9) (· + 1))
      (fun _ _ => True) {}
      [.produce (.push 1), .next, .advance, .next, .advance, .produce (.push 9),
        .produce (.finish (some 3)), .produce (.push 2), .advance, .next, .next, .advance,
        .advance] = some _ := rfl
  have hreach := reaches_of_run hrun
  exact ⟨_, hreach, rfl, rfl, rfl, events_delivered hreach⟩

end EventExchange

end Eagent.Ai
