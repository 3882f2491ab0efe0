import Eagent.HarnessSteps

/-!
# Pending session writes

A write asked for while the harness is idle is made at once; one asked for
while it is busy is queued and made by a flush of the run. The writes reach
the session in the order in which they were asked for, each once, as long as
the phase is given up with nothing queued, flushes do not overlap and the
storage finishes appends in the order in which they began.
-/

namespace Eagent

open Machine

/-! ## The writes under way -/

def SessionWrite.requested? : SessionWrite → Option PendingSessionWrite
  | .requested write => some write
  | .own _ => none

namespace RunPoint

/-- The first pending write, which a flush is making or has made. -/
def held : RunPoint → List PendingSessionWrite
  | .appending write _ | .appended write _ => [write]
  | _ => []

def made : RunPoint → List PendingSessionWrite
  | .appended write _ => [write]
  | _ => []

/-- The run gives up the phase next and does not look at the queue again. -/
def PastFlush : RunPoint → Prop
  | .flushed (.agentEnd _) | .flushed (.cleanup true) | .turnSettled true => True
  | _ => False

instance : ∀ point : RunPoint, Decidable point.PastFlush
  | .flushed (.agentEnd _) | .flushed (.cleanup true) | .turnSettled true => .isTrue trivial
  | .flushed (.cleanup false) | .flushed (.turnEnd _ _) | .flushed .prepareNextTurn
  | .turnSettled false | .creating _ | .notifyingNextTurn _ _ | .startingHook _ _ | .running
  | .draining _ _ | .saving _ _ | .emitting _ | .emittingTurnEnd _ | .emittingAgentEnd _
  | .appending _ _ | .appended _ _ | .creatingNext | .returned => .isFalse id

instance (point : RunPoint) (outcome : Awaited) : Decidable (point.ThrowsEarly outcome) := by
  unfold ThrowsEarly
  split <;> infer_instance

instance (point : RunPoint) (outcome : Awaited) : Decidable (point.CallsFlush outcome) := by
  unfold CallsFlush
  split <;> infer_instance

end RunPoint

instance (point : EditPoint) (outcome : Awaited) : Decidable (point.Ends outcome) := by
  unfold EditPoint.Ends
  split <;> infer_instance

namespace Operation

def point? (op : Operation) : Option RunPoint :=
  match op.state with
  | .run r => some r.point
  | .edit _ => none

def held (op : Operation) : List PendingSessionWrite := op.point?.elim [] RunPoint.held

def made (op : Operation) : List PendingSessionWrite := op.point?.elim [] RunPoint.made

/-- The operation ends without a flush: it is a `compact` or
`navigateTree`, or a prompt that throws before its run has started. -/
def EndsUnflushed (op : Operation) (outcome : Awaited) : Prop :=
  match op.state with
  | .run r => r.point.ThrowsEarly outcome
  | .edit point => point.Ends outcome

instance (op : Operation) (outcome : Awaited) : Decidable (op.EndsUnflushed outcome) := by
  unfold EndsUnflushed
  split <;> infer_instance

end Operation

namespace HarnessState

def persisted (s : HarnessState) : List PendingSessionWrite :=
  s.harness.session.filterMap SessionWrite.requested?

def held (s : HarnessState) : List PendingSessionWrite := s.operations.flatMap Operation.held

def made (s : HarnessState) : List PendingSessionWrite := s.operations.flatMap Operation.made

/-- What is still to be made of the queue. -/
def unsaved (s : HarnessState) : List PendingSessionWrite :=
  s.harness.pendingSessionWrites.drop s.made.length

/-- The writes asked for are those in the session, those under way and those
queued, each once and in this order; in an idle harness none is queued. -/
structure WritesInOrder (s : HarnessState) : Prop where
  order : s.requested = s.persisted ++ s.writes.map (·.write) ++ s.unsaved
  idle : s.harness.phase = .idle → s.harness.pendingSessionWrites = []

/-! ## The branches that lose or reorder writes -/

/-- The step of `op` ends it without a flush only when nothing is queued,
begins a flush only when no other run is in one, and finishes an append only
when no append that began earlier is under way; the cleanup flush does not
fail. -/
def ResumesSafely (s : HarnessState) (index : Nat) (op : Operation) (outcome : Awaited) : Prop :=
  (op.EndsUnflushed outcome → s.harness.pendingSessionWrites = []) ∧
  ∀ point ∈ op.point?,
    (point.CallsFlush outcome → ∀ other ∈ replaceAt s.operations index none, other.held = []) ∧
    match point, outcome with
    | .appending _ _, .ok => s.writes = []
    | .appending _ (.cleanup _), .failed _ => False
    | _, _ => True

/-- The step takes no branch that loses or reorders a write. A write is not
asked for while a run is past its last flush and still busy; a write made at
once does not fail. -/
def Persists (s : HarnessState) : HarnessAction → Prop
  | .call (.request _) => s.harness.phase ≠ .idle →
      ∀ op ∈ s.operations, ∀ point ∈ op.point?, ¬ point.PastFlush
  | .resume index _ outcome => ∀ op ∈ s.operations[index]?, s.ResumesSafely index op outcome
  | .resumeWrite index done => index = 0 ∧ done = true
  | _ => True

instance (s : HarnessState) (index : Nat) (op : Operation) (outcome : Awaited) :
    Decidable (s.ResumesSafely index op outcome) := by
  have (point : RunPoint) : Decidable (match point, outcome with
      | .appending _ _, .ok => s.writes = []
      | .appending _ (.cleanup _), .failed _ => False
      | _, _ => True) := by split <;> infer_instance
  unfold ResumesSafely
  infer_instance

instance (s : HarnessState) (a : HarnessAction) : Decidable (s.Persists a) := by
  unfold Persists
  split <;> infer_instance

end HarnessState

/-! ## What an operation does to the queue -/

/-- A flush holds the first pending write, or has found nothing to hold. -/
structure AtHead (h : AgentHarness) (point : RunPoint) : Prop where
  made : point.made = []
  held : ∀ w ∈ point.held, h.pendingSessionWrites.head? = some w
  single : point.held.length ≤ 1
  past : point.PastFlush → h.pendingSessionWrites = []

theorem atHead_flush (h : AgentHarness) (caller : FlushCaller) :
    AtHead h (h.flushPendingSessionWrites caller) := by
  unfold AgentHarness.flushPendingSessionWrites
  split
  · rename_i hnil
    exact ⟨rfl, nofun, Nat.zero_le 1, fun _ => hnil⟩
  · rename_i w rest hcons
    refine ⟨rfl, fun w' hw => ?_, Nat.le_refl 1, nofun⟩
    obtain rfl := List.mem_singleton.mp hw
    rw [hcons, List.head?_cons]

/-- What a step of an operation does to the queue, when it waits at
`before` and goes on at `after`. -/
inductive Saves (h h' : AgentHarness) (before after : Option RunPoint) (outcome : Awaited) : Prop
  | rest (hpending : h'.pendingSessionWrites = h.pendingSessionWrites)
      (hsession : h'.session.filterMap SessionWrite.requested? =
        h.session.filterMap SessionWrite.requested?)
      (hphase : h'.phase = .idle → h.phase = .idle ∨ h.pendingSessionWrites = [])
      (hmade : before.elim [] RunPoint.made = [])
      (hhead : ∀ point, after = some point → AtHead h point)
      (hheld : ∀ point, after = some point → point.held ≠ [] →
        ∃ point, before = some point ∧ point.CallsFlush outcome)
  | wrote (w : PendingSessionWrite) (caller : FlushCaller)
      (hbefore : before = some (.appending w caller)) (hafter : after = some (.appended w caller))
      (hpending : h'.pendingSessionWrites = h.pendingSessionWrites)
      (hsession : h'.session = h.session ++ [.requested w]) (hphase : h'.phase = h.phase)
      (hout : outcome = .ok)
  | shifted (w : PendingSessionWrite) (caller : FlushCaller) (point : RunPoint)
      (hbefore : before = some (.appended w caller)) (hafter : after = some point)
      (hpending : h'.pendingSessionWrites = h.pendingSessionWrites.tail)
      (hsession : h'.session = h.session) (hphase : h'.phase = h.phase)
      (hhead : AtHead h' point)

theorem RunPoint.Working.made {point : RunPoint} (h : point.Working) : point.made = [] := by
  cases point <;> first | rfl | cases h

theorem RunPoint.Quiet.held {point : RunPoint} (h : point.Quiet) : point.held = [] := by
  cases point <;> first | rfl | cases h

theorem atHead_idle (h : AgentHarness) {point : RunPoint} (hheld : point.held = [])
    (hmade : point.made = []) (hpast : ¬ point.PastFlush) : AtHead h point where
  made := hmade
  held := by rw [hheld]; exact fun _ hw => nomatch hw
  single := by rw [hheld]; exact Nat.zero_le 1
  past := fun hp => absurd hp hpast

theorem RunPoint.Quiet.atHead {point : RunPoint} (hq : point.Quiet) (h : AgentHarness) :
    AtHead h point := by
  refine atHead_idle h hq.held ?_ ?_
  · cases point <;> first | rfl | cases hq
  · cases point <;> first | exact id | cases hq

theorem Run.Goes.saves {h h' : AgentHarness} {id : Nat} {r : Run} {outcome : Awaited}
    {next : Option Run} (hg : r.Goes h id outcome h' next)
    (hthrows : r.point.ThrowsEarly outcome → h.pendingSessionWrites = [])
    (hpast : r.point.PastFlush → h.pendingSessionWrites = [])
    (hcleanup : ∀ w threw error, r.point = .appending w (.cleanup threw) →
      outcome ≠ .failed error) :
    Saves h h' (some r.point) (next.map (·.point)) outcome := by
  have hsettled (hnil : h.pendingSessionWrites = []) : AtHead h (.turnSettled true) :=
    ⟨rfl, fun _ hw => (by cases hw), Nat.zero_le 1, fun _ => hnil⟩
  have hsome {point : RunPoint} (hat : AtHead h point) : ∀ p, some point = some p → AtHead h p := by
    rintro p ⟨⟩
    exact hat
  have hnone {point : RunPoint} (hm : point.held = []) : ∀ p, some point = some p →
      p.held ≠ [] → ∃ p, some r.point = some p ∧ p.CallsFlush outcome := by
    rintro p ⟨⟩ hne
    exact absurd hm hne
  cases hg with
  | refused invocation hp hout =>
    exact .rest rfl rfl (fun _ => .inr (hthrows hout)) (by rw [hp]; rfl)
      (fun _ h => nomatch h) (fun _ h => nomatch h)
  | skipped _ _ _ hp | took _ _ _ hp =>
    exact .rest rfl rfl .inl (by rw [hp]; rfl) (hsome (atHead_idle h rfl rfl fun hp => hp))
      (hnone rfl)
  | notified _ _ hp =>
    exact .rest rfl rfl .inl (by rw [hp]; rfl) (hsome (atHead_idle h rfl rfl fun hp => hp))
      (hnone rfl)
  | putBack _ _ _ hp hout | hookThrew _ _ _ hp hout =>
    have hnil := hthrows (by rw [hp, hout]; trivial)
    exact .rest rfl rfl .inl (by rw [hp]; rfl) (hsome (hsettled hnil)) (hnone rfl)
  | began _ _ _ hp | handedOn _ _ hp =>
    exact .rest rfl rfl .inl (by rw [hp]; rfl) (hsome (atHead_idle h rfl rfl fun hp => hp))
      (hnone rfl)
  | worked point model hp hnext =>
    exact .rest rfl rfl .inl hp.made (hsome (hnext.atHead h)) (hnone hnext.held)
  | flushes caller hp hcalls =>
    exact .rest rfl rfl .inl hp.made (hsome (atHead_flush h caller))
      fun _ _ _ => ⟨_, rfl, hcalls⟩
  | drained queue mode hp hq =>
    exact .rest rfl rfl .inl (by rw [hp]; rfl) (hsome (atHead_idle h rfl rfl fun hp => hp))
      (hnone rfl)
  | drainThrew _ _ _ point hp hout hnext =>
    exact .rest rfl rfl .inl (by rw [hp]; rfl) (hsome (hnext.atHead h))
      (hnone hnext.held)
  | saved message caller hp =>
    refine .rest rfl ?_ .inl (by rw [hp]; rfl) (hsome (atHead_idle h rfl rfl fun hp => hp))
      (hnone rfl)
    rw [List.filterMap_append]
    exact List.append_nil _
  | wrote w caller hp hout => exact .wrote w caller (by rw [hp]) rfl rfl rfl rfl hout
  | shifted w caller hp =>
    exact .shifted w caller _ (by rw [hp]) rfl rfl rfl rfl (atHead_flush _ caller)
  | released caller hp =>
    exact .rest rfl rfl (fun _ => .inr (hpast (by rw [hp]; trivial))) (by rw [hp]; rfl)
      (hsome (atHead_idle h rfl rfl fun hp => hp)) (hnone rfl)
  | cleaned threw hp =>
    refine .rest rfl rfl .inl (by rw [hp]; rfl) ?_ (hnone rfl)
    cases threw with
    | true => exact hsome (hsettled (hpast (by rw [hp]; trivial)))
    | false => exact hsome (atHead_idle h rfl rfl fun hp => hp)
  | cleanupThrew w threw error hp hout => exact absurd hout (hcleanup w threw error hp)
  | threw hp =>
    exact .rest rfl rfl (fun _ => .inr (hpast (by rw [hp]; trivial))) (by rw [hp]; rfl)
      (fun _ h => nomatch h) (fun _ h => nomatch h)
  | ended hp =>
    exact .rest rfl rfl .inl (by rw [hp]; rfl) (fun _ h => nomatch h) (fun _ h => nomatch h)

theorem Operation.Goes.saves {h h' : AgentHarness} {op : Operation} {outcome : Awaited}
    {next : Option Operation} (hg : op.Goes h outcome h' next)
    (hends : op.EndsUnflushed outcome → h.pendingSessionWrites = [])
    (hpast : ∀ point ∈ op.point?, point.PastFlush → h.pendingSessionWrites = [])
    (hcleanup : ∀ w threw error, op.point? = some (.appending w (.cleanup threw)) →
      outcome ≠ .failed error) :
    Saves h h' op.point? (next.bind Operation.point?) outcome := by
  cases hg with
  | run r hs h' next hg =>
    have hpoint : op.point? = some r.point := by rw [Operation.point?, hs]
    have hsaves := hg.saves (fun hthrows => hends (by rw [Operation.EndsUnflushed, hs]; exact hthrows))
      (hpast _ hpoint) (fun w threw error hp => hcleanup w threw error (by rw [hpoint, hp]))
    rw [hpoint]
    cases next with
    | none => exact hsaves
    | some r' => exact hsaves
  | edit point hs h' next hg =>
    have hpoint : op.point? = none := by rw [Operation.point?, hs]
    rw [hpoint]
    have hafter : (next.map fun point => (⟨op.id, .edit point⟩ : Operation)).bind
        Operation.point? = none := by cases next <;> rfl
    rw [hafter]
    cases hg with
    | worked next => exact .rest rfl rfl .inl rfl (fun _ h => nomatch h) fun _ h => nomatch h
    | saved entry next =>
      refine .rest rfl ?_ .inl rfl (fun _ h => nomatch h) fun _ h => nomatch h
      rw [List.filterMap_append]
      exact List.append_nil _
    | ended hout =>
      have hnil := hends (by rw [Operation.EndsUnflushed, hs]; exact hout)
      exact .rest rfl rfl (fun _ => .inr hnil) rfl (fun _ h => nomatch h) fun _ h => nomatch h

/-! ## Runs of the harness -/

namespace HarnessState

variable {s s' : HarnessState}

/-- The invariant: at most one run holds a pending write, it is the first
one, and past its last flush a run leaves nothing queued. -/
structure WriteInv (s : HarnessState) : Prop extends WritesInOrder s where
  single : s.held.length ≤ 1
  first : ∀ op ∈ s.operations, ∀ w ∈ op.held, s.harness.pendingSessionWrites.head? = some w
  past : ∀ op ∈ s.operations, ∀ point ∈ op.point?, point.PastFlush →
    s.harness.pendingSessionWrites = []

theorem WriteInv.new (config : HarnessConfig) (steeringMode followUpMode : QueueMode)
    (session : List TreeEntryBody) : (new config steeringMode followUpMode session).WriteInv where
  order := by
    have : (session.map SessionWrite.own).filterMap SessionWrite.requested? = [] := by
      rw [List.filterMap_map]
      exact List.filterMap_eq_nil_iff.mpr fun _ _ => rfl
    simp [HarnessState.new, persisted, unsaved, AgentHarness.new, this]
  idle := fun _ => rfl
  single := Nat.zero_le 1
  first := fun _ h => nomatch h
  past := fun _ h => nomatch h

theorem made_le_held (op : Operation) : op.made.length ≤ op.held.length := by
  unfold Operation.made Operation.held
  cases op.point? with
  | none => exact Nat.le_refl 0
  | some point => cases point <;> first | exact Nat.le_refl _ | exact Nat.zero_le _

theorem length_made_le (ops : List Operation) :
    (ops.flatMap Operation.made).length ≤ (ops.flatMap Operation.held).length := by
  induction ops with
  | nil => exact Nat.le_refl 0
  | cons op rest ih =>
    simp only [List.flatMap_cons, List.length_append]
    exact Nat.add_le_add (made_le_held op) ih

/-- While `op` holds a write, no other run does. -/
theorem WriteInv.others (hi : s.WriteInv) {index : Nat} {op : Operation}
    (hop : s.operations[index]? = some op) (hheld : op.held.length = 1) :
    ((replaceAt s.operations index none).flatMap Operation.held) = [] := by
  have hlength := length_flatMap_replaceAt Operation.held hop none
  have hsingle := hi.single
  unfold held at hsingle
  simp only [Option.toList, List.flatMap_nil, List.length_nil] at hlength
  exact List.eq_nil_of_length_eq_zero (by omega)

theorem held_eq_nil {ops : List Operation} (h : ops.flatMap Operation.held = []) {op : Operation}
    (hop : op ∈ ops) : op.held = [] :=
  List.flatMap_eq_nil_iff.mp h op hop

section Resume

variable {index : Nat} {op : Operation} {outcome : Awaited} {h' : AgentHarness}
  {next : Option Operation}

/-- A step that leaves the queue as it is, or begins a flush. -/
theorem WriteInv.resume_rest (hi : s.WriteInv) (hop : s.operations[index]? = some op)
    (hpending : h'.pendingSessionWrites = s.harness.pendingSessionWrites)
    (hsession : h'.session.filterMap SessionWrite.requested? = s.persisted)
    (hphase : h'.phase = .idle → s.harness.phase = .idle ∨ s.harness.pendingSessionWrites = [])
    (hmade : op.made = [])
    (hhead : ∀ point, next.bind Operation.point? = some point → AtHead s.harness point)
    (hheld : ∀ point, next.bind Operation.point? = some point → point.held ≠ [] →
      ∀ other ∈ replaceAt s.operations index none, other.held = []) :
    WriteInv { s with harness := h', operations := replaceAt s.operations index next } := by
  have hnext {op' : Operation} (h : next = some op') {point : RunPoint}
      (hp : point ∈ op'.point?) : next.bind Operation.point? = some point := by
    rw [h]
    exact hp
  have hnextMade : (next.toList.flatMap Operation.made).length = 0 := by
    cases hn : next with
    | none => rfl
    | some op' =>
      have : op'.made = [] := by
        unfold Operation.made
        cases hp : op'.point? with
        | none => rfl
        | some point => exact (hhead point (hnext hn hp)).made
      simp [this]
  refine ⟨⟨?_, ?_⟩, ?_, ?_, ?_⟩
  · have hlength := length_flatMap_replaceAt Operation.made hop next
    rw [hmade, hnextMade] at hlength
    have horder := hi.order
    unfold unsaved made persisted at horder ⊢
    simp only [hpending, hsession]
    rw [horder, show ((replaceAt s.operations index next).flatMap Operation.made).length =
      (s.operations.flatMap Operation.made).length from hlength]
    rfl
  · intro hidle
    rw [hpending]
    rcases hphase hidle with hidle | hnil
    · exact hi.idle hidle
    · exact hnil
  · have hlength := length_flatMap_replaceAt Operation.held hop next
    have hnone := length_flatMap_replaceAt Operation.held hop none
    have hsingle := hi.single
    unfold held at hsingle ⊢
    simp only [Option.toList, List.flatMap_nil, List.length_nil] at hnone
    cases hn : next with
    | none =>
      rw [hn] at hlength
      simp only [Option.toList, List.flatMap_nil, List.length_nil] at hlength
      dsimp only
      omega
    | some op' =>
      rw [hn] at hlength
      simp only [Option.toList, List.flatMap_cons, List.flatMap_nil, List.append_nil] at hlength
      dsimp only
      by_cases hnil : op'.held = []
      · rw [hnil, List.length_nil] at hlength
        omega
      · obtain ⟨point, hp, hpoint⟩ : ∃ point, op'.point? = some point ∧ op'.held = point.held := by
          unfold Operation.held at hnil ⊢
          cases hp : op'.point? with
          | none => rw [hp] at hnil; exact absurd rfl hnil
          | some point => exact ⟨point, rfl, rfl⟩
        have hbind := hnext hn hp
        have hother := List.flatMap_eq_nil_iff.mpr (hheld point hbind (by rwa [← hpoint]))
        have hone := (hhead point hbind).single
        rw [hother, List.length_nil] at hnone
        rw [hpoint] at hlength
        omega
  · intro op' hop' w hw
    rw [hpending]
    rcases mem_replaceAt.mp hop' with hother | hn
    · exact hi.first op' (mem_of_mem_replaceAt hother) w hw
    · unfold Operation.held at hw
      cases hp : op'.point? with
      | none => rw [hp] at hw; cases hw
      | some point =>
        rw [hp] at hw
        exact (hhead point (hnext hn hp)).held w hw
  · intro op' hop' point hp hpast
    rw [hpending]
    rcases mem_replaceAt.mp hop' with hother | hn
    · exact hi.past op' (mem_of_mem_replaceAt hother) point hp hpast
    · exact (hhead point (hnext hn hp)).past hpast

theorem WriteInv.resume_wrote (hi : s.WriteInv) (hop : s.operations[index]? = some op)
    {w : PendingSessionWrite} {caller : FlushCaller}
    (hbefore : op.point? = some (.appending w caller))
    (hafter : next.bind Operation.point? = some (.appended w caller))
    (hpending : h'.pendingSessionWrites = s.harness.pendingSessionWrites)
    (hsession : h'.session = s.harness.session ++ [.requested w])
    (hphase : h'.phase = s.harness.phase) (hwrites : s.writes = []) :
    WriteInv { s with harness := h', operations := replaceAt s.operations index next } := by
  obtain ⟨op', rfl, hp'⟩ := Option.bind_eq_some_iff.mp hafter
  have hheld : op.held = [w] := by rw [Operation.held, hbefore]; rfl
  have hheld' : op'.held = [w] := by rw [Operation.held, hp']; rfl
  have hmade : op.made = [] := by rw [Operation.made, hbefore]; rfl
  have hmade' : op'.made = [w] := by rw [Operation.made, hp']; rfl
  have hothers := hi.others hop (by rw [hheld]; rfl)
  have hmem := List.mem_of_getElem? hop
  have hfirst := hi.first op hmem w (by rw [hheld]; exact List.mem_singleton_self w)
  obtain ⟨rest, hrest⟩ := List.head?_eq_some_iff.mp hfirst
  have hmadeNone := length_flatMap_replaceAt Operation.made hop none
  have hmadeSome := length_flatMap_replaceAt Operation.made hop (some op')
  have hle := length_made_le (replaceAt s.operations index none)
  rw [hothers] at hle
  simp only [hmade, hmade', Option.toList, List.flatMap_cons, List.flatMap_nil, List.append_nil,
    List.length_nil, List.length_singleton] at hmadeNone hmadeSome hle
  refine ⟨⟨?_, ?_⟩, ?_, ?_, ?_⟩
  · have horder := hi.order
    unfold unsaved made persisted at horder ⊢
    simp only [hwrites, hsession, hpending, hrest, List.map_nil, List.append_nil,
      List.filterMap_append] at horder ⊢
    rw [horder, show (s.operations.flatMap Operation.made).length = 0 by omega,
      show ((replaceAt s.operations index (some op')).flatMap Operation.made).length = 1 by omega]
    exact List.append_cons _ w rest
  · intro hidle
    rw [hpending]
    exact hi.idle (hphase ▸ hidle)
  · have hlength := length_flatMap_replaceAt Operation.held hop (some op')
    have hsingle := hi.single
    unfold held at hsingle ⊢
    simp only [hheld, hheld', Option.toList, List.flatMap_cons, List.flatMap_nil, List.append_nil,
      List.length_singleton] at hlength
    dsimp only
    omega
  · intro op'' hop'' w' hw'
    rw [hpending]
    rcases mem_replaceAt.mp hop'' with hother | hn
    · exact hi.first op'' (mem_of_mem_replaceAt hother) w' hw'
    · obtain rfl := Option.some.inj hn
      rw [hheld'] at hw'
      rw [List.mem_singleton.mp hw']
      exact hfirst
  · intro op'' hop'' point hp hpast
    rw [hpending]
    rcases mem_replaceAt.mp hop'' with hother | hn
    · exact hi.past op'' (mem_of_mem_replaceAt hother) point hp hpast
    · obtain rfl := Option.some.inj hn
      rw [hp'] at hp
      obtain rfl := Option.some.inj hp
      exact hpast.elim

theorem WriteInv.resume_shifted (hi : s.WriteInv) (hop : s.operations[index]? = some op)
    {w : PendingSessionWrite} {caller : FlushCaller} {point : RunPoint}
    (hbefore : op.point? = some (.appended w caller))
    (hafter : next.bind Operation.point? = some point)
    (hpending : h'.pendingSessionWrites = s.harness.pendingSessionWrites.tail)
    (hsession : h'.session = s.harness.session) (hphase : h'.phase = s.harness.phase)
    (hhead : AtHead h' point) :
    WriteInv { s with harness := h', operations := replaceAt s.operations index next } := by
  obtain ⟨op', rfl, hp'⟩ := Option.bind_eq_some_iff.mp hafter
  have hheld : op.held = [w] := by rw [Operation.held, hbefore]; rfl
  have hheld' : op'.held = point.held := by rw [Operation.held, hp']; rfl
  have hmade : op.made = [w] := by rw [Operation.made, hbefore]; rfl
  have hmade' : op'.made = [] := by rw [Operation.made, hp']; exact hhead.made
  have hothers := hi.others hop (by rw [hheld]; rfl)
  have hmadeNone := length_flatMap_replaceAt Operation.made hop none
  have hmadeSome := length_flatMap_replaceAt Operation.made hop (some op')
  have hle := length_made_le (replaceAt s.operations index none)
  rw [hothers] at hle
  simp only [hmade, hmade', Option.toList, List.flatMap_cons, List.flatMap_nil, List.append_nil,
    List.length_nil, List.length_singleton] at hmadeNone hmadeSome hle
  refine ⟨⟨?_, ?_⟩, ?_, ?_, ?_⟩
  · have horder := hi.order
    unfold unsaved made persisted at horder ⊢
    simp only [hsession, hpending] at horder ⊢
    rw [horder, show (s.operations.flatMap Operation.made).length = 1 by omega,
      show ((replaceAt s.operations index (some op')).flatMap Operation.made).length = 0 by omega,
      List.drop_one]
    rfl
  · intro hidle
    rw [hpending, hi.idle (hphase ▸ hidle)]
    rfl
  · have hlength := length_flatMap_replaceAt Operation.held hop (some op')
    have hnone := length_flatMap_replaceAt Operation.held hop none
    have hone := hhead.single
    have hsingle := hi.single
    unfold held at hsingle ⊢
    rw [hothers] at hnone
    simp only [hheld, hheld', Option.toList, List.flatMap_cons, List.flatMap_nil, List.append_nil,
      List.length_singleton, List.length_nil] at hlength hnone
    dsimp only
    omega
  · intro op'' hop'' w' hw'
    rcases mem_replaceAt.mp hop'' with hother | hn
    · rw [held_eq_nil hothers hother] at hw'
      cases hw'
    · obtain rfl := Option.some.inj hn
      rw [hheld'] at hw'
      exact hhead.held w' hw'
  · intro op'' hop'' point' hp hpast
    rcases mem_replaceAt.mp hop'' with hother | hn
    · rw [hpending, hi.past op'' (mem_of_mem_replaceAt hother) point' hp hpast]
      rfl
    · obtain rfl := Option.some.inj hn
      rw [hp'] at hp
      obtain rfl := Option.some.inj hp
      exact hhead.past hpast

theorem WriteInv.resume (hi : s.WriteInv) (hop : s.operations[index]? = some op)
    (hg : op.Goes s.harness outcome h' next) (hsafe : s.ResumesSafely index op outcome) :
    WriteInv { s with harness := h', operations := replaceAt s.operations index next } := by
  obtain ⟨hends, hpoints⟩ := hsafe
  have hsaves := hg.saves hends (hi.past op (List.mem_of_getElem? hop)) fun w threw error hp hout => by
    have := (hpoints _ hp).2
    rw [hout] at this
    exact this
  cases hsaves with
  | rest hpending hsession hphase hmade hhead hheld =>
    exact hi.resume_rest hop hpending hsession hphase hmade hhead fun point hp hne => by
      obtain ⟨before, hbefore, hcalls⟩ := hheld point hp hne
      exact (hpoints before hbefore).1 hcalls
  | wrote w caller hbefore hafter hpending hsession hphase hout =>
    have hwrites := (hpoints _ hbefore).2
    rw [hout] at hwrites
    exact hi.resume_wrote hop hbefore hafter hpending hsession hphase hwrites
  | shifted w caller point hbefore hafter hpending hsession hphase hhead =>
    exact hi.resume_shifted hop hbefore hafter hpending hsession hphase hhead

end Resume

section

variable (hi : s.WriteInv)
include hi

theorem WriteInv.frame (hpending : s'.harness.pendingSessionWrites = s.harness.pendingSessionWrites)
    (hsession : s'.harness.session = s.harness.session)
    (hphase : s'.harness.phase = .idle → s.harness.phase = .idle)
    (hops : ∀ op ∈ s'.operations, op ∈ s.operations ∨ op.held = [] ∧ ∀ point ∈ op.point?, ¬ point.PastFlush)
    (hheld : s'.held = s.held) (hmade : s'.made = s.made) (hwrites : s'.writes = s.writes)
    (hrequested : s'.requested = s.requested) : s'.WriteInv where
  order := by
    have horder := hi.order
    unfold unsaved persisted at horder ⊢
    rw [hpending, hsession, hmade, hwrites, hrequested]
    exact horder
  idle := fun hidle => by rw [hpending]; exact hi.idle (hphase hidle)
  single := by rw [hheld]; exact hi.single
  first := fun op hop w hw => by
    rw [hpending]
    rcases hops op hop with hop | ⟨hnil, hpast⟩
    · exact hi.first op hop w hw
    · rw [hnil] at hw; cases hw
  past := fun op hop point hp hpast => by
    rw [hpending]
    rcases hops op hop with hop | ⟨hnil, hnot⟩
    · exact hi.past op hop point hp hpast
    · exact absurd hpast (hnot point hp)

theorem WriteInv.start {op : Operation} {h' : AgentHarness} {nextId : Nat}
    (hpending : h'.pendingSessionWrites = s.harness.pendingSessionWrites)
    (hsession : h'.session = s.harness.session) (hphase : h'.phase ≠ .idle) (hheld : op.held = [])
    (hmade : op.made = []) (hpast : ∀ point ∈ op.point?, ¬ point.PastFlush) :
    WriteInv { s with harness := h', operations := s.operations ++ [op], nextId } := by
  refine hi.frame hpending hsession (fun hidle => absurd hidle hphase) ?_ ?_ ?_ rfl rfl
  · intro op' hop'
    rcases List.mem_append.mp hop' with hop' | hop'
    · exact .inl hop'
    · rw [List.mem_singleton.mp hop']
      exact .inr ⟨hheld, hpast⟩
  · simp [held, hheld]
  · simp [made, hmade]

theorem WriteInv.write (hidle : s.harness.phase = .idle) (w : PendingSessionWrite)
    (update : ConfigUpdate) :
    WriteInv { s with requested := s.requested ++ [w], writes := s.writes ++ [⟨w, update⟩] } where
  order := by
    have horder := hi.order
    unfold unsaved persisted at horder ⊢
    simp only [hi.idle hidle, List.drop_nil, List.append_nil] at horder ⊢
    rw [horder, List.map_append, List.append_assoc]
    rfl
  idle := hi.idle
  single := hi.single
  first := hi.first
  past := hi.past

theorem WriteInv.pend (hbusy : s.harness.phase ≠ .idle)
    (hpast : ∀ op ∈ s.operations, ∀ point ∈ op.point?, ¬ point.PastFlush) (w : PendingSessionWrite)
    (update : ConfigUpdate) :
    WriteInv { s with
      requested := s.requested ++ [w]
      harness := { s.harness with
        pendingSessionWrites := s.harness.pendingSessionWrites ++ [w]
        config := s.harness.config.update update } } := by
  have hfirst (op : Operation) (hop : op ∈ s.operations) (w' : PendingSessionWrite)
      (hw' : w' ∈ op.held) : (s.harness.pendingSessionWrites ++ [w]).head? = some w' := by
    rw [List.head?_append, hi.first op hop w' hw']
    rfl
  have hle : s.made.length ≤ s.harness.pendingSessionWrites.length := by
    by_cases hnil : s.made = []
    · rw [hnil]; exact Nat.zero_le _
    · have hmade : s.made.length ≤ s.held.length := length_made_le s.operations
      have hsingle := hi.single
      obtain ⟨w', hw'⟩ := List.exists_mem_of_length_pos
        (Nat.lt_of_lt_of_le (List.length_pos_iff.mpr hnil) hmade)
      obtain ⟨op, hop, hw'⟩ := List.mem_flatMap.mp hw'
      obtain ⟨rest, hrest⟩ := List.head?_eq_some_iff.mp (hi.first op hop w' hw')
      rw [hrest, List.length_cons]
      omega
  refine ⟨⟨?_, fun hidle => absurd hidle hbusy⟩, hi.single, hfirst, fun op hop point hp hpoint =>
    absurd hpoint (hpast op hop point hp)⟩
  have horder := hi.order
  unfold unsaved persisted at horder ⊢
  unfold made at hle horder ⊢
  dsimp only
  rw [horder, List.drop_append_of_le_length hle]
  simp only [List.append_assoc]

theorem WriteInv.call {c : HarnessCall} (hc : s.Calls c s') (hsafe : s.Persists (.call c)) :
    s'.WriteInv := by
  have hops : ∀ op ∈ s.operations, op ∈ s.operations ∨
      op.held = [] ∧ ∀ point ∈ op.point?, ¬ point.PastFlush := fun _ hop => .inl hop
  cases hc with
  | run invocation hidle =>
    refine hi.start rfl rfl nofun rfl rfl fun point hp => ?_
    rw [← Option.some.inj hp]
    exact fun h => h
  | edit c phase hc hidle hphase =>
    refine hi.start rfl rfl ?_ rfl rfl (fun _ hp => nomatch hp)
    rcases hphase with rfl | rfl <;> nofun
  | push c queue message hq =>
    exact hi.frame rfl rfl (fun hidle => hidle) hops rfl rfl rfl rfl
  | nextTurn c message => exact hi.frame rfl rfl (fun hidle => hidle) hops rfl rfl rfl rfl
  | write request w update hidle => exact hi.write hidle w update
  | pend request w update hbusy => exact hi.pend hbusy (hsafe hbusy) w update
  | modes c steering followUp =>
    exact hi.frame rfl rfl (fun hidle => hidle) hops rfl rfl rfl rfl
  | abort => exact hi.frame rfl rfl (fun hidle => hidle) hops rfl rfl rfl rfl
  | wait => exact hi.frame rfl rfl (fun hidle => hidle) hops rfl rfl rfl rfl

/-- The oldest write made at once is done. -/
theorem WriteInv.wrote {w : DirectWrite} (hw : s.writes[0]? = some w) :
    (s.resumeWrite 0 w true).WriteInv where
  order := by
    obtain ⟨rest, hrest⟩ : ∃ rest, s.writes = w :: rest := by
      cases hwrites : s.writes with
      | nil => rw [hwrites] at hw; cases hw
      | cons w' rest =>
        rw [hwrites] at hw
        exact ⟨rest, by rw [Option.some.inj hw]⟩
    have horder := hi.order
    unfold unsaved persisted at horder ⊢
    simp only [resumeWrite, if_true, hrest, replaceAt, List.take_zero, Option.toList,
      List.drop_succ_cons, List.drop_zero, List.nil_append, List.filterMap_append] at horder ⊢
    rw [horder]
    simp [SessionWrite.requested?, made]
  idle := hi.idle
  single := hi.single
  first := hi.first
  past := hi.past

theorem WriteInv.step {a : HarnessAction} (hsafe : s.Persists a) (hstep : s.step a = some s') :
    s'.WriteInv := by
  cases steps_of_step hstep with
  | refused c => exact hi
  | called c s' hc => exact hi.call hc hsafe
  | resumed index now outcome op h' next hop hr =>
    exact hi.resume hop (Operation.goes_of_resume hr) (hsafe op hop)
  | wrote index w done hw =>
    obtain ⟨rfl, rfl⟩ := hsafe
    exact hi.wrote hw
  | aborting | aborted | waited =>
    exact hi.frame rfl rfl (fun hidle => hidle) (fun _ hop => .inl hop) rfl rfl rfl rfl

end

/-! ## Writes reach the session in order -/

def KeepsFailed (s : HarnessState) : Prop :=
  ∀ index now error s', s.step (.resume index now (.failed error)) = some s' →
    ∀ op ∈ s.operations[index]?, ∀ w caller, op.point? = some (.appending w caller) →
      s'.harness.pendingSessionWrites = s.harness.pendingSessionWrites ∧
        s.harness.pendingSessionWrites.head? = some w

theorem WriteInv.keepsFailed (hi : s.WriteInv) : s.KeepsFailed := by
  intro index now error s' hstep op hop w caller hpoint
  have hheld : op.held = [w] := by rw [Operation.held, hpoint]; rfl
  refine ⟨?_, hi.first op (List.mem_of_getElem? hop) w (by rw [hheld]; exact List.mem_singleton_self w)⟩
  obtain ⟨op', hop', hstep⟩ := Option.bind_eq_some_iff.mp hstep
  obtain rfl : op' = op := Option.some.inj (hop'.symm.trans hop)
  obtain ⟨⟨h', next⟩, hresume, hstep⟩ := Option.bind_eq_some_iff.mp hstep
  cases hstep
  obtain ⟨id, state⟩ := op'
  cases state with
  | edit point => cases hpoint
  | run r =>
    obtain ⟨⟨h₁, next₁⟩, hrun, heq⟩ := Option.map_eq_some_iff.mp hresume
    cases heq
    have hp : r.point = .appending w caller := Option.some.inj hpoint
    simp only [Run.resume, hp] at hrun
    cases hrun
    cases caller <;> rfl

/-- While no step loses or reorders a write, the writes asked for are in the
session or on their way to it, each once and in order; none is queued in an
idle harness, and one that fails stays queued. -/
theorem writes_in_order {config : HarnessConfig} {steeringMode followUpMode : QueueMode}
    {session : List TreeEntryBody}
    (h : Reaches step Persists (new config steeringMode followUpMode session) s) :
    s.WritesInOrder ∧ s.KeepsFailed := by
  have hi : s.WriteInv := h.invariant (WriteInv.new config steeringMode followUpMode session)
    fun _ _ _ hi hsafe hstep => hi.step hsafe hstep
  exact ⟨hi.toWritesInOrder, hi.keepsFailed⟩

/-- A prompt during which the model is set, up to the flush of `agent_end`. -/
def flushActions : List HarnessAction :=
  [.call (.invoke (.prompt "go" [])), .resume 0 2 (.created none), .resume 0 2 (.messages []),
    .call (.request (.setModel ⟨"anthropic", "haiku"⟩)), .call (.request (.setThinkingLevel "high")),
    .resume 0 2 (.emits (.agentEnd [])), .resume 0 2 .ok, .resume 0 2 .ok, .resume 0 2 .ok,
    .resume 0 2 .ok, .resume 0 2 .ok]

theorem writes_in_order_flushed : ∃ s, Reaches step Persists quietHarness s ∧
    s.harness.phase = .idle ∧ s.persisted.length = 2 ∧ s.WritesInOrder := by
  have hrun : (Machine.run step Persists quietHarness flushActions).any (fun s =>
      decide (s.harness.phase = .idle ∧ s.persisted.length = 2)) = true := by
    decide +kernel
  obtain ⟨s, hs, hfacts⟩ := (Option.any_eq_true ..).mp hrun
  obtain ⟨hphase, hlength⟩ := of_decide_eq_true hfacts
  have hreach := Machine.reaches_of_run hs
  exact ⟨s, hreach, hphase, hlength, (writes_in_order hreach).1⟩

/-- A model set during a compaction stays queued when the harness is idle
again, and a later write overtakes it. -/
theorem write_during_compaction_overtaken : ∃ s, Reaches step (fun _ _ => True) quietHarness s ∧
    s.harness.phase = .idle ∧ s.persisted = [.entry (.thinkingLevelChange "high")] ∧
    s.harness.pendingSessionWrites = [.entry (.modelChange "anthropic" "haiku")] ∧
    ¬ s.WritesInOrder := by
  have hrun : (Machine.run step (fun _ _ => True) quietHarness
      [.call .compact, .call (.request (.setModel ⟨"anthropic", "haiku"⟩)),
        .resume 0 1 (.entries [.entry (.compaction "summary" "a" 9 none none)]), .resume 0 1 .ok,
        .resume 0 1 .ok, .call (.request (.setThinkingLevel "high")),
        .resumeWrite 0 true]).any (fun s =>
      decide (s.harness.phase = .idle ∧ s.persisted = [.entry (.thinkingLevelChange "high")] ∧
        s.harness.pendingSessionWrites = [.entry (.modelChange "anthropic" "haiku")])) = true := by
    decide +kernel
  obtain ⟨s, hs, hfacts⟩ := (Option.any_eq_true ..).mp hrun
  obtain ⟨hphase, hpersisted, hpending⟩ := of_decide_eq_true hfacts
  refine ⟨s, Machine.reaches_of_run hs, hphase, hpersisted, hpending, fun h => ?_⟩
  rw [h.idle hphase] at hpending
  cases hpending

end HarnessState

end Eagent
