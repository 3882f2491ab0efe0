import Eagent.Machine

/-!
# Refreshing the models of a provider

`refreshModels` of a provider made by `createProvider`. Calls made while a
refresh is under way share its promise, and it goes by the options of the call
that started it. Reading and writing the store and fetching the models end
when and how the outside decides; a fetch is given up only when its signal is
aborted. A signal is its number.
-/

namespace Eagent

namespace ModelRefresh

variable {M : Type}

/-! ## The code -/

/-- What `createProvider` is given, of a type of models. -/
structure ProviderInput (M : Type) where
  id : String
  baselineModels : List M
  modelId : M → String
  modelProvider : M → String

/-- The options of a call. -/
structure RefreshContext where
  allowNetwork : Bool
  signal : Option Nat
deriving Repr, DecidableEq

inductive RefreshPhase where
  /-- `context.store.read()` -/
  | reading
  /-- `fetchModels(context)` -/
  | fetching
  /-- `context.store.write(…)` -/
  | writing
deriving Repr, DecidableEq

/-- A call that waits: its options, how many fetches had succeeded when it was
made, and whether that of the refresh it waits for was one of them. -/
structure RefreshCall where
  context : RefreshContext
  since : Nat
  late : Bool
deriving Repr, DecidableEq

/-- The refresh under way: the options it goes by, the models that were known
before, and the calls that share it. -/
structure Refresh (M : Type) where
  context : RefreshContext
  phase : RefreshPhase
  before : List M
  waiting : List RefreshCall
deriving Repr, DecidableEq

inductive RefreshOutcome where
  | resolved
  | rejected
  /-- rejected, because the fetch was given up -/
  | aborted
deriving Repr, DecidableEq

/-- A call that has returned, whether its own signal was aborted then, how many
fetches had succeeded, and whether the models of one were installed. -/
structure SettledCall where
  call : RefreshCall
  outcome : RefreshOutcome
  signalAborted : Bool
  fetched : Nat
  installed : Bool
deriving Repr, DecidableEq

/-- The variables of the provider, the signals aborted so far, and what has
happened: the fetches that succeeded, the calls that returned, and for each
fetch that failed the models known before the refresh and after it. -/
structure ProviderState (M : Type) where
  dynamicModels : List M := []
  inflightRefresh : Option (Refresh M) := none
  aborted : List Nat := []
  fetched : Nat := 0
  settled : List SettledCall := []
  failedFetches : List (List M × List M) := []
deriving Repr, DecidableEq

inductive FetchResult (M : Type) where
  | ok (models : List M)
  | failed
  | aborted
deriving Repr, DecidableEq

inductive RefreshAction (M : Type) where
  | call (context : RefreshContext)
  | abort (signal : Nat)
  /-- `store.read()` gives the stored models, if there are any, or throws -/
  | reads (stored : Except Unit (Option (List M)))
  | fetches (result : FetchResult M)
  /-- `store.write(…)` succeeds or throws -/
  | writes (ok : Bool)

def mergeModel (input : ProviderInput M) (merged : List M) (model : M) : List M :=
  match merged.findIdx? fun entry => input.modelId entry = input.modelId model with
  | some index => merged.set index model
  | none => merged ++ [model]

def currentModels (input : ProviderInput M) (dynamicModels : List M) : List M :=
  dynamicModels.foldl (mergeModel input) input.baselineModels

namespace ProviderState

variable (s : ProviderState M)

def isAborted (signal : Option Nat) : Bool := signal.any fun signal => s.aborted.contains signal

/-- The promise is settled, for all calls that share it. -/
def settle (r : Refresh M) (outcome : RefreshOutcome) (installed : Bool) : ProviderState M :=
  { s with
    inflightRefresh := none
    settled := s.settled ++ r.waiting.map fun call =>
      ⟨call, outcome, s.isAborted call.context.signal, s.fetched, installed⟩ }

def fail (input : ProviderInput M) (r : Refresh M) (outcome : RefreshOutcome) : ProviderState M :=
  { s with
    failedFetches := s.failedFetches ++ [(r.before, currentModels input s.dynamicModels)] }.settle r
      outcome false

/-- `inflightRefresh ??= …` -/
def call (input : ProviderInput M) (context : RefreshContext) : ProviderState M :=
  match s.inflightRefresh with
  | none =>
      { s with
        inflightRefresh := some
          { context, phase := .reading, before := currentModels input s.dynamicModels
            waiting := [⟨context, s.fetched, false⟩] } }
  | some r =>
      { s with
        inflightRefresh := some
          { r with waiting := r.waiting ++ [⟨context, s.fetched, r.phase = .writing⟩] } }

def afterRead (input : ProviderInput M) (r : Refresh M) (stored : Option (List M)) :
    ProviderState M :=
  let s :=
    match stored with
    | some models =>
        { s with dynamicModels := models.filter fun model => input.modelProvider model = input.id }
    | none => s
  if !r.context.allowNetwork || s.isAborted r.context.signal then s.settle r .resolved false
  else { s with inflightRefresh := some { r with phase := .fetching } }

def afterFetch (r : Refresh M) (models : List M) : ProviderState M :=
  let s := { s with fetched := s.fetched + 1 }
  if s.isAborted r.context.signal then s.settle r .resolved false
  else
    { s with dynamicModels := models, inflightRefresh := some { r with phase := .writing } }

def step (input : ProviderInput M) (s : ProviderState M) :
    RefreshAction M → Option (ProviderState M)
  | .call context => some (s.call input context)
  | .abort signal => some { s with aborted := s.aborted ++ [signal] }
  | .reads stored => do
      let r ← s.inflightRefresh.filter fun r => r.phase = .reading
      match stored with
      | .ok stored => some (s.afterRead input r stored)
      | .error _ => some (s.settle r .rejected false)
  | .fetches result => do
      let r ← s.inflightRefresh.filter fun r => r.phase = .fetching
      match result with
      | .ok models => some (s.afterFetch r models)
      | .failed => some (s.fail input r .rejected)
      | .aborted => if s.isAborted r.context.signal then some (s.fail input r .aborted) else none
  | .writes ok => do
      let r ← s.inflightRefresh.filter fun r => r.phase = .writing
      some (s.settle r (if ok then .resolved else .rejected) true)

end ProviderState

/-! ## What a call is promised -/

/-- A call that allows the network and returns normally, its own signal not
aborted, has had a fetch succeed after it was made, whose models were
installed; and a call is not given up by the signal of another. -/
structure SettledCall.Honoured (x : SettledCall) : Prop where
  fetches : x.call.context.allowNetwork = true → x.outcome = .resolved →
    x.signalAborted = false → x.call.since < x.fetched
  installs : x.call.context.allowNetwork = true → x.outcome = .resolved →
    x.signalAborted = false → x.installed = true
  kept : x.signalAborted = false → x.outcome ≠ .aborted

/-- The calls that returned were honoured, and no fetch that failed changed the
known models. -/
structure ProviderState.Honoured (s : ProviderState M) : Prop where
  calls : ∀ x ∈ s.settled, x.Honoured
  models : ∀ f ∈ s.failedFetches, f.2 = f.1

def ProviderState.Asks (s : ProviderState M) (c : RefreshCall) : Prop :=
  c.context.allowNetwork = true ∧ s.isAborted c.context.signal = false

/-- The refresh does not end in a way that a call sharing it has not asked for. -/
def ServesCalls (input : ProviderInput M) (s : ProviderState M) (r : Refresh M) :
    RefreshAction M → Prop
  | .reads (.ok _) => r.context.allowNetwork = false ∨ s.isAborted r.context.signal = true →
      ∀ c ∈ r.waiting, ¬ s.Asks c
  | .fetches (.ok _) => s.isAborted r.context.signal = true → ∀ c ∈ r.waiting, ¬ s.Asks c
  | .fetches .failed => currentModels input s.dynamicModels = r.before
  | .fetches .aborted => currentModels input s.dynamicModels = r.before ∧
      ∀ c ∈ r.waiting, s.isAborted c.context.signal = true
  | .writes true => ∀ c ∈ r.waiting, c.late = true → ¬ s.Asks c
  | _ => True

def Serves (input : ProviderInput M) (s : ProviderState M) (a : RefreshAction M) : Prop :=
  ∀ r, s.inflightRefresh = some r → ServesCalls input s r a

/-! ## Settling -/

variable {input : ProviderInput M} {s s' : ProviderState M} {r : Refresh M}

theorem honoured_settle (h : s.Honoured) (outcome : RefreshOutcome) (installed : Bool) :
    (s.settle r outcome installed).Honoured ↔ ∀ c ∈ r.waiting,
      (SettledCall.mk c outcome (s.isAborted c.context.signal) s.fetched installed).Honoured := by
  constructor
  · intro hsettled c hc
    exact hsettled.calls _ (List.mem_append_right _ (List.mem_map_of_mem hc))
  · intro hcalls
    refine ⟨fun x hx => ?_, h.models⟩
    obtain hx | hx := List.mem_append.mp hx
    · exact h.calls x hx
    · obtain ⟨c, hc, rfl⟩ := List.mem_map.mp hx
      exact hcalls c hc

/-- A refresh that installs nothing honours the calls that ask for nothing. -/
theorem honoured_uninstalled (h : s.Honoured) :
    (s.settle r .resolved false).Honoured ↔ ∀ c ∈ r.waiting, ¬ s.Asks c := by
  rw [honoured_settle h]
  constructor
  · rintro hcalls c hc ⟨hnetwork, hsignal⟩
    cases (hcalls c hc).installs hnetwork rfl hsignal
  · intro hasks c hc
    refine ⟨?_, ?_, ?_⟩
    · exact fun hnetwork _ hsignal => absurd ⟨hnetwork, hsignal⟩ (hasks c hc)
    · exact fun hnetwork _ hsignal => absurd ⟨hnetwork, hsignal⟩ (hasks c hc)
    · exact fun _ houtcome => by cases houtcome

/-- The store fails, which no signal does. -/
theorem honoured_rejected (h : s.Honoured) (installed : Bool) :
    (s.settle r .rejected installed).Honoured := by
  rw [honoured_settle h]
  intro c _
  refine ⟨?_, ?_, ?_⟩
  · exact fun _ houtcome => by cases houtcome
  · exact fun _ houtcome => by cases houtcome
  · exact fun _ houtcome => by cases houtcome

theorem honoured_aborted (h : s.Honoured) :
    (s.settle r .aborted false).Honoured ↔
      ∀ c ∈ r.waiting, s.isAborted c.context.signal = true := by
  rw [honoured_settle h]
  constructor
  · intro hcalls c hc
    by_contra hsignal
    exact (hcalls c hc).kept (Bool.eq_false_iff.mpr hsignal) rfl
  · intro haborted c hc
    refine ⟨?_, ?_, ?_⟩
    · exact fun _ houtcome => by cases houtcome
    · exact fun _ houtcome => by cases houtcome
    · exact fun hsignal => absurd (hsignal.symm.trans (haborted c hc)) (by decide)

/-- A fetch that fails must not have changed the known models. -/
theorem honoured_fail (h : s.Honoured) (outcome : RefreshOutcome) :
    (s.fail input r outcome).Honoured ↔
      currentModels input s.dynamicModels = r.before ∧
        (s.settle r outcome false).Honoured := by
  constructor
  · intro hfail
    refine ⟨?_, hfail.calls, h.models⟩
    exact hfail.models _ (List.mem_append_right _ (List.mem_singleton.mpr rfl))
  · rintro ⟨hmodels, hsettled⟩
    refine ⟨hsettled.calls, fun f hf => ?_⟩
    obtain hf | hf := List.mem_append.mp hf
    · exact h.models f hf
    · obtain rfl := List.mem_singleton.mp hf
      exact hmodels

/-! ## The counts -/

/-- Of the calls that share a refresh, the late ones were made after its fetch. -/
structure Counted (s : ProviderState M) : Prop where
  since : ∀ r, s.inflightRefresh = some r → ∀ c ∈ r.waiting, c.since ≤ s.fetched
  early : ∀ r, s.inflightRefresh = some r → r.phase ≠ .writing → ∀ c ∈ r.waiting, c.late = false
  late : ∀ r, s.inflightRefresh = some r → r.phase = .writing → ∀ c ∈ r.waiting,
    (c.late = true ↔ ¬ c.since < s.fetched)

theorem counted_idle (h : s.inflightRefresh = none) : Counted s := by
  refine ⟨?_, ?_, ?_⟩
  all_goals
    intro r hr
    rw [h] at hr
    cases hr

theorem counted_call (h : Counted s) (context : RefreshContext) :
    Counted (s.call input context) := by
  unfold ProviderState.call
  cases hinflight : s.inflightRefresh with
  | none =>
    refine ⟨?_, ?_, ?_⟩
    · intro r hr c hc
      obtain rfl := Option.some.inj hr
      obtain rfl := List.mem_singleton.mp hc
      exact Nat.le_refl _
    · intro r hr _ c hc
      obtain rfl := Option.some.inj hr
      obtain rfl := List.mem_singleton.mp hc
      rfl
    · intro r hr hphase
      obtain rfl := Option.some.inj hr
      cases hphase
  | some current =>
    refine ⟨?_, ?_, ?_⟩
    · intro r hr c hc
      obtain rfl := Option.some.inj hr
      obtain hc | hc := List.mem_append.mp hc
      · exact h.since current hinflight c hc
      · obtain rfl := List.mem_singleton.mp hc
        exact Nat.le_refl _
    · intro r hr hphase c hc
      obtain rfl := Option.some.inj hr
      obtain hc | hc := List.mem_append.mp hc
      · exact h.early current hinflight hphase c hc
      · obtain rfl := List.mem_singleton.mp hc
        exact decide_eq_false hphase
    · intro r hr hphase c hc
      obtain rfl := Option.some.inj hr
      obtain hc | hc := List.mem_append.mp hc
      · exact h.late current hinflight hphase c hc
      · obtain rfl := List.mem_singleton.mp hc
        exact iff_of_true (decide_eq_true hphase) (Nat.lt_irrefl _)

theorem counted_afterRead (h : Counted s) (hinflight : s.inflightRefresh = some r)
    (hphase : r.phase = .reading) (stored : Option (List M)) :
    Counted (s.afterRead input r stored) := by
  have hearly : ∀ c ∈ r.waiting, c.late = false := h.early r hinflight (by rw [hphase]; decide)
  have hfetching : ∀ dynamicModels, Counted
      { s with dynamicModels, inflightRefresh := some { r with phase := .fetching } } := by
    intro dynamicModels
    refine ⟨?_, ?_, ?_⟩
    · intro r' hr
      obtain rfl := Option.some.inj hr
      exact h.since r hinflight
    · intro r' hr _
      obtain rfl := Option.some.inj hr
      exact hearly
    · intro r' hr hwriting
      obtain rfl := Option.some.inj hr
      cases hwriting
  unfold ProviderState.afterRead
  dsimp only
  split
  · split
    · exact counted_idle rfl
    · exact hfetching _
  · split
    · exact counted_idle rfl
    · exact hfetching s.dynamicModels

theorem counted_afterFetch (h : Counted s) (hinflight : s.inflightRefresh = some r)
    (hphase : r.phase = .fetching) (models : List M) : Counted (s.afterFetch r models) := by
  unfold ProviderState.afterFetch
  dsimp only
  split
  · exact counted_idle rfl
  · refine ⟨?_, ?_, ?_⟩
    · intro r' hr c hc
      obtain rfl := Option.some.inj hr
      exact Nat.le_succ_of_le (h.since r hinflight c hc)
    · intro r' hr hwriting
      obtain rfl := Option.some.inj hr
      exact absurd rfl hwriting
    · intro r' hr _ c hc
      obtain rfl := Option.some.inj hr
      have hlate := h.early r hinflight (by rw [hphase]; decide) c hc
      have hsince := h.since r hinflight c hc
      rw [hlate]
      refine iff_of_false (by decide) (not_not.mpr ?_)
      exact Nat.lt_succ_of_le hsince

/-! ## Steps -/

theorem inflight_filter {phase : RefreshPhase}
    (h : s.inflightRefresh.filter (fun r => r.phase = phase) = some r) :
    s.inflightRefresh = some r ∧ r.phase = phase := by
  obtain ⟨hinflight, hphase⟩ := Option.filter_eq_some_iff.mp h
  exact ⟨hinflight, of_decide_eq_true hphase⟩

theorem serves_iff (hinflight : s.inflightRefresh = some r) (a : RefreshAction M) :
    Serves input s a ↔ ServesCalls input s r a := by
  constructor
  · exact fun h => h r hinflight
  · intro h r' hr
    obtain rfl := Option.some.inj (hinflight.symm.trans hr)
    exact h

theorem honoured_afterRead (h : s.Honoured) (stored : Option (List M)) :
    (s.afterRead input r stored).Honoured ↔
      (r.context.allowNetwork = false ∨ s.isAborted r.context.signal = true →
        ∀ c ∈ r.waiting, ¬ s.Asks c) := by
  obtain ⟨dynamicModels, hself⟩ : ∃ dynamicModels, s.afterRead input r stored =
      if !r.context.allowNetwork || s.isAborted r.context.signal then
        ProviderState.settle { s with dynamicModels } r .resolved false
      else { s with dynamicModels, inflightRefresh := some { r with phase := .fetching } } := by
    cases stored with
    | none => exact ⟨s.dynamicModels, rfl⟩
    | some models => exact ⟨_, rfl⟩
  have hsame : ({ s with dynamicModels } : ProviderState M).Honoured := ⟨h.calls, h.models⟩
  rw [hself]
  by_cases hends : r.context.allowNetwork = false ∨ s.isAborted r.context.signal = true
  · rw [if_pos (by simpa using hends)]
    exact (honoured_uninstalled hsame).trans ⟨fun hasks _ => hasks, fun hasks => hasks hends⟩
  · rw [if_neg (by simpa using hends)]
    exact iff_of_true ⟨h.calls, h.models⟩ fun hends' => absurd hends' hends

theorem honoured_afterFetch (h : s.Honoured) (models : List M) :
    (s.afterFetch r models).Honoured ↔
      (s.isAborted r.context.signal = true → ∀ c ∈ r.waiting, ¬ s.Asks c) := by
  have hsame : ({ s with fetched := s.fetched + 1 } : ProviderState M).Honoured :=
    ⟨h.calls, h.models⟩
  unfold ProviderState.afterFetch
  dsimp only
  by_cases haborted : s.isAborted r.context.signal = true
  · have hpos : ({ s with fetched := s.fetched + 1 } : ProviderState M).isAborted r.context.signal =
        true := haborted
    rw [if_pos hpos]
    exact (honoured_uninstalled hsame).trans ⟨fun hasks _ => hasks, fun hasks => hasks haborted⟩
  · have hneg : ¬ ({ s with fetched := s.fetched + 1 } : ProviderState M).isAborted
        r.context.signal = true := haborted
    rw [if_neg hneg]
    exact iff_of_true ⟨h.calls, h.models⟩ fun haborted' => absurd haborted' haborted

/-- The calls that came in time get the models of the fetch. -/
theorem honoured_written (h : s.Honoured) (hcounted : Counted s)
    (hinflight : s.inflightRefresh = some r) (hphase : r.phase = .writing) :
    (s.settle r .resolved true).Honoured ↔ ∀ c ∈ r.waiting, c.late = true → ¬ s.Asks c := by
  have hlate := hcounted.late r hinflight hphase
  rw [honoured_settle h]
  constructor
  · rintro hcalls c hc hislate ⟨hnetwork, hsignal⟩
    exact (hlate c hc).mp hislate ((hcalls c hc).fetches hnetwork rfl hsignal)
  · intro hasks c hc
    refine ⟨?_, ?_, ?_⟩
    · intro hnetwork _ hsignal
      by_contra hsince
      exact hasks c hc ((hlate c hc).mpr hsince) ⟨hnetwork, hsignal⟩
    · exact fun _ _ _ => rfl
    · exact fun _ houtcome => by cases houtcome

/-- From a state in which all is honoured, a step keeps it so if and only if it
serves the calls that share the refresh. -/
theorem honoured_step (h : s.Honoured) (hcounted : Counted s) {a : RefreshAction M}
    (hstep : s.step input a = some s') : s'.Honoured ↔ Serves input s a := by
  cases a with
  | call context =>
    obtain rfl := Option.some.inj hstep
    unfold ProviderState.call
    cases s.inflightRefresh with
    | none => exact iff_of_true ⟨h.calls, h.models⟩ fun _ _ => trivial
    | some r => exact iff_of_true ⟨h.calls, h.models⟩ fun _ _ => trivial
  | abort signal =>
    obtain rfl := Option.some.inj hstep
    exact iff_of_true ⟨h.calls, h.models⟩ fun _ _ => trivial
  | reads stored =>
    obtain ⟨r, hr, hstep⟩ := Option.bind_eq_some_iff.mp hstep
    rw [serves_iff (inflight_filter hr).1]
    cases stored with
    | ok stored =>
      obtain rfl := Option.some.inj hstep
      exact honoured_afterRead h stored
    | error _ =>
      obtain rfl := Option.some.inj hstep
      exact iff_of_true (honoured_rejected h false) trivial
  | fetches result =>
    obtain ⟨r, hr, hstep⟩ := Option.bind_eq_some_iff.mp hstep
    rw [serves_iff (inflight_filter hr).1]
    cases result with
    | ok models =>
      obtain rfl := Option.some.inj hstep
      exact honoured_afterFetch h models
    | failed =>
      obtain rfl := Option.some.inj hstep
      exact (honoured_fail h .rejected).trans (and_iff_left (honoured_rejected h false))
    | aborted =>
      dsimp only at hstep
      split at hstep
      · obtain rfl := Option.some.inj hstep
        exact (honoured_fail h .aborted).trans (and_congr_right fun _ => honoured_aborted h)
      · cases hstep
  | writes ok =>
    obtain ⟨r, hr, hstep⟩ := Option.bind_eq_some_iff.mp hstep
    obtain ⟨hinflight, hphase⟩ := inflight_filter hr
    obtain rfl := Option.some.inj hstep
    rw [serves_iff hinflight]
    cases ok with
    | true => exact honoured_written h hcounted hinflight hphase
    | false => exact iff_of_true (honoured_rejected h true) trivial

theorem counted_step (h : Counted s) {a : RefreshAction M}
    (hstep : s.step input a = some s') : Counted s' := by
  cases a with
  | call context =>
    obtain rfl := Option.some.inj hstep
    exact counted_call h context
  | abort signal =>
    obtain rfl := Option.some.inj hstep
    exact ⟨h.since, h.early, h.late⟩
  | reads stored =>
    obtain ⟨r, hr, hstep⟩ := Option.bind_eq_some_iff.mp hstep
    obtain ⟨hinflight, hphase⟩ := inflight_filter hr
    cases stored with
    | ok stored =>
      obtain rfl := Option.some.inj hstep
      exact counted_afterRead h hinflight hphase stored
    | error _ =>
      obtain rfl := Option.some.inj hstep
      exact counted_idle rfl
  | fetches result =>
    obtain ⟨r, hr, hstep⟩ := Option.bind_eq_some_iff.mp hstep
    obtain ⟨hinflight, hphase⟩ := inflight_filter hr
    cases result with
    | ok models =>
      obtain rfl := Option.some.inj hstep
      exact counted_afterFetch h hinflight hphase models
    | failed =>
      obtain rfl := Option.some.inj hstep
      exact counted_idle rfl
    | aborted =>
      dsimp only at hstep
      split at hstep
      · obtain rfl := Option.some.inj hstep
        exact counted_idle rfl
      · cases hstep
  | writes ok =>
    obtain ⟨r, hr, hstep⟩ := Option.bind_eq_some_iff.mp hstep
    obtain rfl := Option.some.inj hstep
    exact counted_idle rfl

/-- As long as every refresh serves the calls that share it, every call is
honoured; the first step that does not breaks it. -/
theorem refreshes_honoured (input : ProviderInput M) {s : ProviderState M}
    (hrun : Machine.Reaches (ProviderState.step input) (Serves input) {} s) :
    s.Honoured ∧ ∀ a s', s.step input a = some s' → (s'.Honoured ↔ Serves input s a) := by
  have hboth : s.Honoured ∧ Counted s := by
    refine hrun.invariant (I := fun s => s.Honoured ∧ Counted s) ⟨?_, counted_idle rfl⟩ ?_
    · exact ⟨fun x hx => absurd hx List.not_mem_nil, fun f hf => absurd hf List.not_mem_nil⟩
    · rintro s a s' ⟨h, hcounted⟩ hserves hstep
      exact ⟨(honoured_step h hcounted hstep).mpr hserves, counted_step hcounted hstep⟩
  exact ⟨hboth.1, fun a s' hstep => honoured_step hboth.1 hboth.2 hstep⟩

/-- A provider without baseline models, whose models are their ids. -/
def gateway : ProviderInput String := ⟨"gateway", [], id, fun _ => "gateway"⟩

theorem refreshes_honoured_gateway : ∃ s : ProviderState String,
    Machine.Reaches (ProviderState.step gateway) (Serves gateway) {} s ∧
      s.settled.map (·.outcome) = [.resolved] ∧ s.Honoured ∧
      ∀ a s', s.step gateway a = some s' → (s'.Honoured ↔ Serves gateway s a) := by
  have hstart : Machine.Reaches (ProviderState.step gateway) (Serves gateway) {} {} := .refl
  have hcalled := hstart.tail (a := .call ⟨true, none⟩) (by rintro r ⟨⟩) rfl
  have hread := hcalled.tail (a := .reads (.ok none)) (by
    rintro r ⟨⟩ hends
    exact absurd hends (by decide)) rfl
  have hfetched := hread.tail (a := .fetches (.ok ["large"])) (by
    rintro r ⟨⟩ haborted
    cases haborted) rfl
  have hwritten := hfetched.tail (a := .writes true) (by
    rintro r ⟨⟩ c hc hlate
    obtain rfl := List.mem_singleton.mp hc
    cases hlate) rfl
  exact ⟨_, hwritten, rfl, refreshes_honoured gateway hwritten⟩

/-- A call that allows the network joins one that does not, and returns without
a fetch. -/
theorem joined_call_not_fetched : ∃ s : ProviderState String,
    Machine.Reaches (ProviderState.step gateway) (fun _ _ => True) {} s ∧
      s.aborted = [] ∧ s.fetched = 0 ∧
      (∃ x ∈ s.settled, x.call.context.allowNetwork = true ∧ x.outcome = .resolved ∧
        x.signalAborted = false) ∧ ¬ s.Honoured := by
  have hstart : Machine.Reaches (ProviderState.step gateway) (fun _ _ => True) {} {} := .refl
  have hcalled := hstart.tail (a := .call ⟨false, none⟩) trivial rfl
  have hjoined := hcalled.tail (a := .call ⟨true, none⟩) trivial rfl
  have hread := hjoined.tail (a := .reads (.ok none)) trivial rfl
  refine ⟨_, hread, rfl, rfl, ⟨_, List.mem_cons_of_mem _ List.mem_cons_self, rfl, rfl, rfl⟩, ?_⟩
  intro h
  have hcall := h.calls _ (List.mem_cons_of_mem _ List.mem_cons_self)
  cases hcall.installs rfl rfl rfl

end ModelRefresh

end Eagent
