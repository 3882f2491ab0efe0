import Eagent.SessionTrace

/-!
# Nesting of the trace's spans

The events of a session trace, read as a log of spans, and what each call
does to it. The open spans of the log are the ones the active trace holds:
the root, the agent's run, its turn and the tool calls. The only call that
can end a span before its children is one that closes the agent's run
while no turn is open: the sweep of the tool spans belongs to the turn.
-/

namespace Eagent

open SpanLog

def TraceSpan.span (span : TraceSpan) : Span Nat :=
  { id := span.spanId, parent := span.parentSpanId }

def TraceEvent.spanEvent (event : TraceEvent) : Event Nat :=
  match event.phase with
  | .start => .start event.toTraceSpan.span
  | .update => .update event.spanId
  | .stop => .stop event.spanId

def SessionTrace.log (s : SessionTrace) : List (Event Nat) :=
  s.events.map TraceEvent.spanEvent

namespace ActiveTrace

/-- The spans below which others start. -/
def holders (a : ActiveTrace) : List TraceSpan :=
  a.root :: (a.agent.toList ++ a.turn.toList)

def spans (a : ActiveTrace) : List (Span Nat) :=
  (a.holders ++ a.tools.values).map TraceSpan.span

/-- Which of the open spans may be below which. -/
structure Shaped (a : ActiveTrace) : Prop where
  root : a.root.parentSpanId = none
  agent : ∀ g ∈ a.agent, g.parentSpanId = some a.root.spanId
  turn : ∀ t ∈ a.turn, ∃ p ∈ a.root :: a.agent.toList, t.parentSpanId = some p.spanId
  tools : ∀ t ∈ a.tools.values, ∀ u ∈ a.tools.values, t.parentSpanId ≠ some u.spanId

theorem spans_empty (a : ActiveTrace) :
    ({ a with tools := .empty } : ActiveTrace).spans = a.holders.map TraceSpan.span := by
  rw [spans]
  exact congrArg (List.map TraceSpan.span) (List.append_nil _)

theorem spans_closed (a : ActiveTrace) :
    ({ a with turn := none, tools := .empty } : ActiveTrace).spans =
      (a.root :: a.agent.toList).map TraceSpan.span := by
  refine (spans_empty { a with turn := none }).trans ?_
  exact congrArg (fun l => (a.root :: l).map TraceSpan.span) (List.append_nil _)

def turnClosed (a : ActiveTrace) : ActiveTrace :=
  match a.turn with
  | none => a
  | some _ => { a with turn := none, tools := .empty }

@[simp] theorem turnClosed_turn (a : ActiveTrace) : a.turnClosed.turn = none := by
  rw [turnClosed]
  split
  · assumption
  · rfl

@[simp] theorem turnClosed_agent (a : ActiveTrace) : a.turnClosed.agent = a.agent := by
  rw [turnClosed]
  split
  · rfl
  · rfl

@[simp] theorem turnClosed_root (a : ActiveTrace) : a.turnClosed.root = a.root := by
  rw [turnClosed]
  split
  · rfl
  · rfl

def agentClosed (a : ActiveTrace) : ActiveTrace :=
  match a.agent with
  | none => a
  | some _ => { a.turnClosed with agent := none }

/-- With nothing below it, only the root stays open. -/
theorem spans_agentClosed {a : ActiveTrace} (hturn : a.turn = none) (htools : a.tools = .empty) :
    a.agentClosed.spans = [a.root.span] := by
  rw [agentClosed, turnClosed, hturn]
  cases hagent : a.agent with
  | none =>
    rw [spans, holders, hagent, hturn, htools]
    rfl
  | some agent =>
    rw [spans, holders, hturn, htools]
    rfl

/-- Closing the agent's run leaves no tool call open below it: a turn is
open, and sweeps them all, or none has the run for its parent. -/
def AgentSwept (a : ActiveTrace) : Prop :=
  ∀ g ∈ a.agent, a.turn = none → ∀ t ∈ a.tools.values, t.parentSpanId ≠ some g.spanId

end ActiveTrace

/-- The open spans of a log whose ids were drawn from a counter. -/
structure Issued (log : List (Event Nat)) (uuids : Nat) (live : List (Span Nat)) : Prop where
  tracks : Tracks log live
  fresh : ∀ span ∈ started log, span.id < uuids

theorem Issued.perm {log : List (Event Nat)} {uuids : Nat} {live live' : List (Span Nat)}
    (h : Issued log uuids live) (hperm : live.Perm live') : Issued log uuids live' :=
  ⟨h.tracks.perm hperm, h.fresh⟩

theorem Issued.later {log : List (Event Nat)} {uuids : Nat} {live : List (Span Nat)}
    (h : Issued log uuids live) :
    Issued log (uuids + 1) live :=
  ⟨h.tracks, fun span hspan => Nat.lt_succ_of_lt (h.fresh span hspan)⟩

/-- No open span is below one still to start. -/
theorem Issued.parent_ne {log : List (Event Nat)} {uuids : Nat} {live : List (Span Nat)}
    (h : Issued log uuids live) :
    ∀ child ∈ live, child.parent ≠ some uuids := by
  intro child hchild hp
  have hstarted := ((h.tracks.mem_live child).mp hchild).1
  obtain ⟨q, hq, heq⟩ := List.mem_map.mp (parent_started h.tracks.under hstarted hp)
  exact absurd (h.fresh q hq) (heq ▸ Nat.lt_irrefl _)

namespace SessionTrace

variable {s : SessionTrace} {a : ActiveTrace} {span : TraceSpan} {live live' : List (Span Nat)}
  {f : ActiveTrace → ActiveTrace}

/-! ## One event -/

theorem log_publish {phase : TraceEventPhase} {status : Option TraceStatus} :
    (s.publish span phase status).log =
      s.log ++ [TraceEvent.spanEvent { span with sequence := s.sequence + 1, phase, status }] :=
  List.map_append

@[simp] theorem log_modifyActive : (s.modifyActive f).log = s.log := rfl

@[simp] theorem uuids_modifyActive : (s.modifyActive f).uuids = s.uuids := rfl

@[simp] theorem active_endSpan {status : TraceStatus} :
    (s.endSpan span status).active = s.active := rfl

@[simp] theorem uuids_endSpan {status : TraceStatus} :
    (s.endSpan span status).uuids = s.uuids := rfl

theorem issued_startSpan (traceId : Nat) (parent : Option Nat) (name : String)
    (kind : TraceSpanKind) (h : Issued s.log s.uuids live)
    (hparent : ∀ p, parent = some p → p ∈ live.map Span.id) :
    let r := s.startSpan traceId parent name kind
    Issued r.1.log r.1.uuids (r.2.span :: live) ∧ (Orderly r.1.log ↔ Orderly s.log) := by
  have hlog : (s.startSpan traceId parent name kind).1.log =
      s.log ++ [.start { id := s.uuids, parent }] := log_publish
  have hfresh : s.uuids ∉ (started s.log).map Span.id := by
    intro hmem
    obtain ⟨span, hspan, heq⟩ := List.mem_map.mp hmem
    exact absurd (h.fresh span hspan) (heq ▸ Nat.lt_irrefl _)
  refine ⟨⟨?_, ?_⟩, ?_⟩
  · rw [hlog]
    exact h.tracks.start hfresh hparent
  · rw [hlog, started_start]
    intro span hspan
    rcases List.mem_append.mp hspan with hspan | hspan
    · exact Nat.lt_succ_of_lt (h.fresh span hspan)
    · obtain rfl := List.mem_singleton.mp hspan
      exact Nat.lt_succ_self _
  · rw [hlog]
    exact orderly_start h.tracks hparent

theorem issued_updateSpan (h : Issued s.log s.uuids live) :
    Issued (s.updateSpan span).log (s.updateSpan span).uuids live ∧
      (Orderly (s.updateSpan span).log ↔ Orderly s.log) := by
  have hlog : (s.updateSpan span).log = s.log ++ [.update span.spanId] := log_publish
  rw [hlog]
  refine ⟨⟨h.tracks.update, ?_⟩, orderly_update⟩
  rw [started_update]
  exact h.fresh

theorem issued_endSpan (status : TraceStatus) (h : Issued s.log s.uuids (span.span :: live)) :
    Issued (s.endSpan span status).log (s.endSpan span status).uuids live ∧
      (Orderly (s.endSpan span status).log ↔
        Orderly s.log ∧ ∀ child ∈ live, child.parent ≠ some span.spanId) := by
  have hlog : (s.endSpan span status).log = s.log ++ [.stop span.spanId] := log_publish
  rw [hlog]
  refine ⟨⟨h.tracks.stop, ?_⟩, orderly_stop h.tracks⟩
  rw [started_stop]
  exact h.fresh

theorem issued_endAll (status : TraceStatus) {spans : List TraceSpan}
    (h : Issued s.log s.uuids (spans.map TraceSpan.span ++ live))
    (hchildless : ∀ span ∈ spans, ∀ child ∈ spans.map TraceSpan.span ++ live,
      child.parent ≠ some span.spanId) :
    let s' := spans.foldl (fun s span => s.endSpan span status) s
    s'.active = s.active ∧ Issued s'.log s'.uuids live ∧ (Orderly s'.log ↔ Orderly s.log) := by
  induction spans generalizing s with
  | nil => exact ⟨rfl, h, Iff.rfl⟩
  | cons span rest ih =>
    obtain ⟨hissued, horderly⟩ := issued_endSpan status h
    obtain ⟨hactive, hrest, hiff⟩ := ih (s := s.endSpan span status) hissued fun other hother
      child hchild => hchildless other (List.mem_cons_of_mem _ hother) child
        (List.mem_cons_of_mem _ hchild)
    refine ⟨hactive, hrest, hiff.trans (horderly.trans (and_iff_left ?_))⟩
    intro child hchild
    exact hchildless span List.mem_cons_self child (List.mem_cons_of_mem _ hchild)

/-! ## Closing -/

theorem holder_parent (h : a.Shaped) : ∀ c ∈ a.holders, ∀ p, c.parentSpanId = some p →
    ∃ q ∈ a.root :: a.agent.toList, p = q.spanId := by
  intro c hc p hp
  rcases List.mem_cons.mp hc with rfl | hc
  · rw [h.root] at hp
    cases hp
  rcases List.mem_append.mp hc with hc | hc
  · rw [h.agent c (Option.mem_toList.mp hc)] at hp
    exact ⟨a.root, List.mem_cons_self, (Option.some.inj hp).symm⟩
  · obtain ⟨q, hq, heq⟩ := h.turn c (Option.mem_toList.mp hc)
    exact ⟨q, hq, Option.some.inj (hp.symm.trans heq)⟩

theorem root_agent_subset : ∀ q ∈ a.root :: a.agent.toList, q ∈ a.holders := by
  intro q hq
  rcases List.mem_cons.mp hq with rfl | hq
  · exact List.mem_cons_self
  · exact List.mem_cons_of_mem _ (List.mem_append_left _ hq)

theorem holder_ne_tool {log : List (Event Nat)} {uuids : Nat} (h : Issued log uuids a.spans) :
    ∀ q ∈ a.holders, ∀ t ∈ a.tools.values, q.spanId ≠ t.spanId := by
  intro q hq t ht
  have hnodup := h.tracks.liveNodup
  rw [ActiveTrace.spans, List.map_map, List.map_append] at hnodup
  exact (List.nodup_append.mp hnodup).2.2 _ (List.mem_map_of_mem hq) _ (List.mem_map_of_mem ht)

/-- The trace is active, and its open spans are those of `a`. -/
structure Holding (s : SessionTrace) (a : ActiveTrace) : Prop where
  active : s.active = some a
  issued : Issued s.log s.uuids a.spans
  shaped : a.Shaped

theorem Holding.endTools (h : Holding s a) (status : TraceStatus) :
    Holding (s.endTools a status) { a with tools := .empty } ∧
      (Orderly (s.endTools a status).log ↔ Orderly s.log) := by
  have hissued : Issued s.log s.uuids
      (a.tools.values.map TraceSpan.span ++ a.holders.map TraceSpan.span) := by
    refine h.issued.perm ?_
    rw [ActiveTrace.spans, List.map_append]
    exact List.perm_append_comm
  obtain ⟨hactive, hlive, hiff⟩ := issued_endAll status hissued (by
    intro t ht child hchild hparent
    rcases List.mem_append.mp hchild with hchild | hchild
    · obtain ⟨u, hu, rfl⟩ := List.mem_map.mp hchild
      exact h.shaped.tools u hu t ht hparent
    · obtain ⟨c, hc, rfl⟩ := List.mem_map.mp hchild
      obtain ⟨q, hq, heq⟩ := holder_parent h.shaped c hc _ hparent
      exact holder_ne_tool h.issued q (root_agent_subset q hq) t ht heq.symm)
  refine ⟨⟨?_, ?_, ?_⟩, hiff⟩
  · rw [SessionTrace.endTools, modifyActive, hactive, h.active]
    rfl
  · rw [ActiveTrace.spans_empty]
    exact hlive
  · refine ⟨h.shaped.root, h.shaped.agent, h.shaped.turn, ?_⟩
    intro t ht
    cases ht

theorem closeTurn_of_none (hactive : s.active = some a) (hturn : a.turn = none)
    (status : TraceStatus) : s.closeTurn status = s := by
  rw [SessionTrace.closeTurn, hactive]
  simp only [hturn]

theorem closeAgent_of_none (hactive : s.active = some a) (hagent : a.agent = none)
    (status : TraceStatus) : s.closeAgent status = s := by
  rw [SessionTrace.closeAgent, hactive]
  simp only [hagent]

theorem Holding.closeTurn (h : Holding s a) (status : TraceStatus) :
    Holding (s.closeTurn status) a.turnClosed ∧
      (Orderly (s.closeTurn status).log ↔ Orderly s.log) := by
  cases hturn : a.turn with
  | none =>
    rw [closeTurn_of_none h.active hturn, ActiveTrace.turnClosed, hturn]
    exact ⟨h, Iff.rfl⟩
  | some turn =>
    have hs : s.closeTurn status = ((s.endTools a .aborted).endSpan turn status).modifyActive
        fun active => { active with turn := none } := by
      rw [SessionTrace.closeTurn, h.active]
      simp only [hturn]
    obtain ⟨hswept, hiff⟩ := h.endTools .aborted
    have hissued : Issued (s.endTools a .aborted).log (s.endTools a .aborted).uuids
        (turn.span :: (a.root :: a.agent.toList).map TraceSpan.span) := by
      refine hswept.issued.perm ?_
      rw [ActiveTrace.spans_empty, ActiveTrace.holders, hturn]
      exact (List.perm_append_singleton turn (a.root :: a.agent.toList)).map _
    obtain ⟨hlive, hstop⟩ := issued_endSpan status hissued
    have hne : ∀ q ∈ a.root :: a.agent.toList, q.spanId ≠ turn.spanId := by
      intro q hq heq
      exact (List.nodup_cons.mp hissued.tracks.liveNodup).1
        (List.mem_map.mpr ⟨q.span, List.mem_map_of_mem hq, heq⟩)
    rw [hs, ActiveTrace.turnClosed, hturn]
    refine ⟨⟨?_, ?_, ?_⟩, ?_⟩
    · rw [modifyActive, active_endSpan, hswept.active]
      rfl
    · rw [ActiveTrace.spans_closed]
      exact hlive
    · refine ⟨h.shaped.root, h.shaped.agent, ?_, ?_⟩
      · intro t ht
        cases ht
      · intro t ht
        cases ht
    · refine hstop.trans ((and_iff_left ?_).trans hiff)
      intro child hchild hparent
      obtain ⟨c, hc, rfl⟩ := List.mem_map.mp hchild
      obtain ⟨q, hq, heq⟩ := holder_parent h.shaped c (root_agent_subset c hc) _ hparent
      exact hne q hq heq.symm

theorem Holding.endAgent (h : Holding s a) {g : TraceSpan} (hagent : a.agent = some g)
    (hturn : a.turn = none) (status : TraceStatus) :
    let s' := (s.endSpan g status).modifyActive fun active => { active with agent := none }
    Holding s' { a with agent := none } ∧ (Orderly s'.log ↔
      Orderly s.log ∧ ∀ t ∈ a.tools.values, t.parentSpanId ≠ some g.spanId) := by
  have hissued : Issued s.log s.uuids
      (g.span :: (a.root :: a.tools.values).map TraceSpan.span) := by
    refine h.issued.perm ?_
    rw [ActiveTrace.spans, ActiveTrace.holders, hagent, hturn]
    exact List.Perm.swap _ _ _
  obtain ⟨hlive, hstop⟩ := issued_endSpan status hissued
  refine ⟨⟨?_, ?_, ?_⟩, hstop.trans (and_congr_right fun _ => ?_)⟩
  · rw [modifyActive, active_endSpan, h.active]
    rfl
  · rw [ActiveTrace.spans, ActiveTrace.holders, hturn]
    exact hlive
  · refine ⟨h.shaped.root, ?_, ?_, h.shaped.tools⟩
    · intro other hother
      cases hother
    · intro turn ht
      rw [hturn] at ht
      cases ht
  · constructor
    · intro hall t ht
      exact hall t.span (List.mem_map_of_mem (List.mem_cons_of_mem _ ht))
    · intro hall child hchild
      obtain ⟨c, hc, rfl⟩ := List.mem_map.mp hchild
      rcases List.mem_cons.mp hc with rfl | hc
      · intro hparent
        cases h.shaped.root.symm.trans hparent
      · exact hall c hc

theorem agentSwept_iff {g : TraceSpan} (hagent : a.agent = some g) :
    a.AgentSwept ↔ ∀ t ∈ a.turnClosed.tools.values, t.parentSpanId ≠ some g.spanId := by
  rw [ActiveTrace.turnClosed]
  cases hturn : a.turn with
  | none =>
    constructor
    · intro h
      exact h g hagent hturn
    · intro h other hother _
      obtain rfl := Option.some.inj (hagent.symm.trans hother)
      exact h
  | some turn =>
    constructor
    · intro _ t ht
      cases ht
    · intro _ other _ hnone
      rw [hturn] at hnone
      cases hnone

/-- The one closing that may leave a child open. -/
theorem Holding.closeAgent (h : Holding s a) (status : TraceStatus) :
    Holding (s.closeAgent status) a.agentClosed ∧
      (Orderly (s.closeAgent status).log ↔ Orderly s.log ∧ a.AgentSwept) := by
  cases hagent : a.agent with
  | none =>
    rw [closeAgent_of_none h.active hagent, ActiveTrace.agentClosed, hagent]
    refine ⟨h, (and_iff_left ?_).symm⟩
    intro g hg
    rw [hagent] at hg
    cases hg
  | some agent =>
    obtain ⟨hclosed, hiff⟩ := h.closeTurn status
    have hs : s.closeAgent status = ((s.closeTurn status).endSpan agent status).modifyActive
        fun active => { active with agent := none } := by
      rw [SessionTrace.closeAgent, h.active]
      simp only [hagent]
      cases hturn : a.turn with
      | none =>
        rw [closeTurn_of_none h.active hturn]
        rfl
      | some turn => rfl
    obtain ⟨hended, hstop⟩ := hclosed.endAgent (a.turnClosed_agent.trans hagent)
      a.turnClosed_turn status
    rw [hs, ActiveTrace.agentClosed, hagent]
    exact ⟨hended, hstop.trans (and_congr hiff (agentSwept_iff hagent).symm)⟩

theorem closeTurn_guarded (hactive : s.active = some a) (status : TraceStatus) :
    (if a.turn.isSome then s.closeTurn status else s) = s.closeTurn status := by
  cases hturn : a.turn with
  | none => exact (closeTurn_of_none hactive hturn status).symm
  | some turn => rfl

theorem closeAgent_guarded (hactive : s.active = some a) (status : TraceStatus) :
    (if a.agent.isSome then s.closeAgent status else s) = s.closeAgent status := by
  cases hagent : a.agent with
  | none => exact (closeAgent_of_none hactive hagent status).symm
  | some agent => rfl

/-- No trace is active and no span open, or the open spans are held. -/
inductive Traced (s : SessionTrace) : Prop
  | idle (hactive : s.active = none) (hissued : Issued s.log s.uuids [])
  | holding (a : ActiveTrace) (h : Holding s a)

/-- Once its tools are swept, a trace closes without leaving a child open. -/
theorem Holding.finishActive (h : Holding s a) (status : Option TraceStatus) :
    Traced (s.finishActive a status) ∧
      (Orderly (s.finishActive a status).log ↔ Orderly s.log) := by
  obtain ⟨hswept, hsweptIff⟩ := h.endTools (status.getD .aborted)
  obtain ⟨hturn, hturnIff⟩ := hswept.closeTurn (status.getD .aborted)
  obtain ⟨hagent, hagentIff⟩ := hturn.closeAgent (status.getD a.status)
  have hempty : ({ a with tools := .empty } : ActiveTrace).turnClosed.tools = .empty := by
    rw [ActiveTrace.turnClosed]
    split
    · rfl
    · rfl
  have hsweepable : ({ a with tools := .empty } : ActiveTrace).turnClosed.AgentSwept := by
    intro g _ _ t ht
    rw [hempty] at ht
    cases ht
  have hs : s.finishActive a status = { (((s.endTools a (status.getD .aborted)).closeTurn
      (status.getD .aborted)).closeAgent (status.getD a.status)).endSpan a.root a.status with
        active := none } := by
    have hturnGuard := closeTurn_guarded hswept.active (status.getD .aborted)
    have hagentGuard := closeAgent_guarded hturn.active (status.getD a.status)
    rw [ActiveTrace.turnClosed_agent] at hagentGuard
    dsimp only at hturnGuard hagentGuard
    simp only [SessionTrace.finishActive, hturnGuard, hagentGuard]
  have hroot := ActiveTrace.spans_agentClosed (ActiveTrace.turnClosed_turn _) hempty
  rw [ActiveTrace.turnClosed_root] at hroot
  obtain ⟨hlive, hstop⟩ := issued_endSpan a.status (hroot ▸ hagent.issued)
  rw [hs]
  refine ⟨.idle rfl hlive, hstop.trans ?_⟩
  rw [and_iff_left (fun child hchild => nomatch hchild), hagentIff, and_iff_left hsweepable,
    hturnIff, hsweptIff]

theorem Holding.markStatus (h : Holding s a) (status : TraceStatus) :
    ∃ status', Holding (s.markStatus status) { a with status := status' } ∧
      (s.markStatus status).log = s.log := by
  rw [SessionTrace.markStatus, h.active]
  dsimp only
  split
  · exact ⟨a.status, h, rfl⟩
  · refine ⟨status, ⟨?_, h.issued, ?_⟩, rfl⟩
    · rw [modifyActive, h.active]
      rfl
    · exact ⟨h.shaped.root, h.shaped.agent, h.shaped.turn, h.shaped.tools⟩

theorem traced_finish (h : Traced s) (status : Option TraceStatus) :
    Traced (s.finish status) ∧ (s.finish status).active = none ∧
      (Orderly (s.finish status).log ↔ Orderly s.log) := by
  cases h with
  | idle hactive hissued =>
    have hs : s.finish status = s := by
      have hmark : status.elim s s.markStatus = s := by
        cases status with
        | none => rfl
        | some status =>
          rw [Option.elim_some, SessionTrace.markStatus, hactive]
      simp only [SessionTrace.finish, hmark, hactive]
    rw [hs]
    exact ⟨.idle hactive hissued, hactive, Iff.rfl⟩
  | holding a h =>
    obtain ⟨status', hmarked, hlog⟩ : ∃ status',
        Holding (status.elim s s.markStatus) { a with status := status' } ∧
          (status.elim s s.markStatus).log = s.log := by
      cases status with
      | none => exact ⟨a.status, h, rfl⟩
      | some status => exact h.markStatus status
    obtain ⟨htraced, hiff⟩ := hmarked.finishActive status
    have hs : s.finish status =
        (status.elim s s.markStatus).finishActive { a with status := status' } status := by
      simp only [SessionTrace.finish, hmarked.active]
    rw [hs]
    exact ⟨htraced, rfl, hlog ▸ hiff⟩

/-! ## Starting -/

theorem traced_start (h : Traced s) :
    Traced s.start ∧ (Orderly s.start.log ↔ Orderly s.log) := by
  obtain ⟨idle, hidle, hactive, hissued, hiff⟩ : ∃ idle : SessionTrace,
      idle = (if s.active.isSome then s.finish (some .aborted) else s) ∧ idle.active = none ∧
        Issued idle.log idle.uuids [] ∧ (Orderly idle.log ↔ Orderly s.log) := by
    refine ⟨_, rfl, ?_⟩
    split
    · obtain ⟨htraced, hactive, hiff⟩ := traced_finish h (some .aborted)
      cases htraced with
      | idle _ hissued => exact ⟨hactive, hissued, hiff⟩
      | holding a h => cases hactive.symm.trans h.active
    · rename_i hnone
      cases h with
      | idle hactive hissued => exact ⟨hactive, hissued, Iff.rfl⟩
      | holding a h =>
        rw [h.active] at hnone
        exact absurd rfl hnone
  obtain ⟨hlive, hstart⟩ := issued_startSpan (s := idle.randomUUID.1) idle.randomUUID.2 none
    "agent.session.turn" .session (Issued.later hissued) nofun
  have hs : s.start = (fun root : SessionTrace × TraceSpan => { root.1 with
      active := some { root := root.2, tools := .empty, status := .ok } })
      (idle.randomUUID.1.startSpan idle.randomUUID.2 none "agent.session.turn" .session) := by
    rw [SessionTrace.start, ← hidle]
  rw [hs]
  refine ⟨.holding _ ⟨rfl, hlive, ?_⟩, hstart.trans hiff⟩
  refine ⟨rfl, ?_, ?_, ?_⟩
  · intro g hg
    cases hg
  · intro t ht
    cases ht
  · intro t ht
    cases ht

theorem holder_mem_spans {q : TraceSpan} (hq : q ∈ a.holders) :
    q.spanId ∈ a.spans.map Span.id := by
  rw [ActiveTrace.spans, List.map_append, List.map_append]
  exact List.mem_append_left _ (List.mem_map.mpr ⟨_, List.mem_map_of_mem hq, rfl⟩)

theorem issued_startBelow (h : Issued s.log s.uuids live) (traceId : Nat) {parent : Nat}
    (hparent : parent ∈ live.map Span.id) (name : String) (kind : TraceSpanKind) :
    let r := s.startSpan traceId (some parent) name kind
    Issued r.1.log r.1.uuids (r.2.span :: live) ∧ (Orderly r.1.log ↔ Orderly s.log) := by
  refine issued_startSpan traceId (some parent) name kind h ?_
  rintro _ ⟨⟩
  exact hparent

theorem Holding.instant (h : Holding s a) (traceId : Nat) {q : TraceSpan} (hq : q ∈ a.holders)
    (name : String) (kind : TraceSpanKind) (status : TraceStatus) :
    let r := s.startSpan traceId (some q.spanId) name kind
    Holding (r.1.endSpan r.2 status) a ∧
      (Orderly (r.1.endSpan r.2 status).log ↔ Orderly s.log) := by
  obtain ⟨hlive, hstart⟩ := issued_startBelow h.issued traceId (holder_mem_spans hq) name kind
  obtain ⟨hended, hstop⟩ := issued_endSpan status hlive
  exact ⟨⟨h.active, hended, h.shaped⟩,
    (hstop.trans (and_iff_left h.issued.parent_ne)).trans hstart⟩

theorem startHeld {f : TraceSpan → ActiveTrace → ActiveTrace} (hactive : s.active = some a)
    (h : Issued s.log s.uuids live) (traceId : Nat) {parent : Nat}
    (hparent : parent ∈ live.map Span.id) (name : String) (kind : TraceSpanKind)
    (hperm : ∀ span : TraceSpan, (span.span :: live).Perm (f span a).spans)
    (hshaped : ∀ span : TraceSpan, span.parentSpanId = some parent →
      span.spanId ∉ live.map Span.id → (∀ child ∈ live, child.parent ≠ some span.spanId) →
        (f span a).Shaped) :
    let r := s.startSpan traceId (some parent) name kind
    Traced (r.1.modifyActive (f r.2)) ∧
      (Orderly (r.1.modifyActive (f r.2)).log ↔ Orderly s.log) := by
  obtain ⟨hlive, hstart⟩ := issued_startBelow h traceId hparent name kind
  refine ⟨.holding (f _ a) ⟨?_, hlive.perm (hperm _), ?_⟩, hstart⟩
  · rw [modifyActive]
    exact congrArg (Option.map _) hactive
  · exact hshaped _ rfl (List.nodup_cons.mp hlive.tracks.liveNodup).1 h.parent_ne

theorem innermost_holds (a : ActiveTrace) : ∃ q ∈ a.holders, a.innermost = q.spanId := by
  rw [ActiveTrace.innermost, ActiveTrace.holders]
  cases hturn : a.turn with
  | some turn => exact ⟨turn, by simp, rfl⟩
  | none =>
    cases hagent : a.agent with
    | some agent => exact ⟨agent, by simp, rfl⟩
    | none => exact ⟨a.root, by simp, rfl⟩

theorem traced_recordPolicyDecision (h : Traced s) (decision : Option String) :
    Traced (s.recordPolicyDecision decision) ∧
      (Orderly (s.recordPolicyDecision decision).log ↔ Orderly s.log) := by
  cases h with
  | idle hactive hissued =>
    rw [SessionTrace.recordPolicyDecision, hactive]
    exact ⟨.idle hactive hissued, Iff.rfl⟩
  | holding a h =>
    rw [SessionTrace.recordPolicyDecision, h.active]
    obtain ⟨q, hq, hinnermost⟩ := innermost_holds a
    obtain ⟨hended, hiff⟩ := h.instant a.root.traceId hq "agent.policy.decision" .policy
      (if decision = some "block" then .aborted else .ok)
    rw [← hinnermost] at hended hiff
    exact ⟨.holding a hended, hiff⟩

theorem traced_traceSkill {ε α : Type} (h : Traced s) (operation : Except ε α) :
    Traced (s.traceSkill operation).1 ∧
      (Orderly (s.traceSkill operation).1.log ↔ Orderly s.log) := by
  cases h with
  | idle hactive hissued =>
    rw [SessionTrace.traceSkill, hactive]
    exact ⟨.idle hactive hissued, Iff.rfl⟩
  | holding a h =>
    have hroot : a.root ∈ a.holders := List.mem_cons_self
    rw [SessionTrace.traceSkill, h.active]
    cases operation with
    | ok result =>
      obtain ⟨hended, hiff⟩ := h.instant a.root.traceId hroot "agent.agent.skill" .skill .ok
      exact ⟨.holding a hended, hiff⟩
    | error e =>
      obtain ⟨hended, hiff⟩ :=
        h.instant a.root.traceId hroot "agent.agent.skill" .skill .error
      obtain ⟨status', hmarked, hlog⟩ := hended.markStatus .error
      refine ⟨.holding _ hmarked, ?_⟩
      exact hlog ▸ hiff

/-! ## Agent events -/

theorem agentClosed_root (a : ActiveTrace) : a.agentClosed.root = a.root := by
  rw [ActiveTrace.agentClosed]
  split
  · rfl
  · exact a.turnClosed_root

theorem agentClosed_agent (a : ActiveTrace) : a.agentClosed.agent = none := by
  rw [ActiveTrace.agentClosed]
  split
  · assumption
  · rfl

theorem traced_agentStart (h : Holding s a) :
    Traced (s.agentStart a) ∧ (Orderly (s.agentStart a).log ↔ Orderly s.log ∧ a.AgentSwept) := by
  obtain ⟨hclosed, hiff⟩ := h.closeAgent .aborted
  have hparent : a.root.spanId ∈ a.agentClosed.spans.map Span.id := by
    rw [← agentClosed_root a]
    exact holder_mem_spans List.mem_cons_self
  rw [SessionTrace.agentStart, closeAgent_guarded h.active]
  obtain ⟨htraced, hstart⟩ := startHeld (f := fun span a => { a with agent := some span })
    hclosed.active hclosed.issued a.root.traceId hparent "agent.agent.run" .agent
    (by
      intro span
      rw [ActiveTrace.spans, ActiveTrace.spans, ActiveTrace.holders, ActiveTrace.holders,
        agentClosed_agent]
      exact List.Perm.swap _ _ _)
    (by
      intro span hspan _ _
      refine ⟨hclosed.shaped.root, ?_, ?_, hclosed.shaped.tools⟩
      · rintro g ⟨⟩
        rw [hspan, agentClosed_root]
      · intro t ht
        obtain ⟨q, hq, heq⟩ := hclosed.shaped.turn t ht
        rw [agentClosed_agent] at hq
        obtain rfl := List.mem_singleton.mp hq
        exact ⟨_, List.mem_cons_self, heq⟩)
  exact ⟨htraced, hstart.trans hiff⟩

theorem traced_turnStart (h : Holding s a) :
    Traced (s.turnStart a) ∧ (Orderly (s.turnStart a).log ↔ Orderly s.log) := by
  obtain ⟨hclosed, hiff⟩ := h.closeTurn .aborted
  obtain ⟨q, hq, hbelow⟩ : ∃ q ∈ a.turnClosed.root :: a.turnClosed.agent.toList,
      (a.agent.map TraceSpan.spanId).getD a.root.spanId = q.spanId := by
    rw [ActiveTrace.turnClosed_root, ActiveTrace.turnClosed_agent]
    cases hagent : a.agent with
    | none => exact ⟨a.root, List.mem_cons_self, rfl⟩
    | some agent => exact ⟨agent, List.mem_cons_of_mem _ (List.mem_singleton_self _), rfl⟩
  rw [SessionTrace.turnStart, closeTurn_guarded h.active, hbelow]
  obtain ⟨htraced, hstart⟩ := startHeld (f := fun span a => { a with turn := some span })
    hclosed.active hclosed.issued a.root.traceId (holder_mem_spans (root_agent_subset q hq))
    "agent.agent.turn" .turn
    (by
      intro span
      have hmiddle := @List.perm_middle _ span (a.turnClosed.root :: a.turnClosed.agent.toList)
        a.turnClosed.tools.values
      rw [ActiveTrace.spans, ActiveTrace.spans, ActiveTrace.holders, ActiveTrace.holders,
        ActiveTrace.turnClosed_turn]
      refine @List.Perm.map _ _ TraceSpan.span (span :: _) _ ?_
      simpa using hmiddle.symm)
    (by
      intro span hspan _ _
      refine ⟨hclosed.shaped.root, hclosed.shaped.agent, ?_, hclosed.shaped.tools⟩
      rintro t ⟨⟩
      exact ⟨q, hq, hspan⟩)
  exact ⟨htraced, hstart.trans hiff⟩

theorem Holding.endTool (h : Holding s a) {toolCallId : String} {span : TraceSpan}
    (hspan : a.tools.get toolCallId = some span) (status : TraceStatus) :
    Issued (s.endSpan span status).log (s.endSpan span status).uuids
        ({ a with tools := a.tools.delete toolCallId } : ActiveTrace).spans ∧
      (Orderly (s.endSpan span status).log ↔ Orderly s.log) := by
  have hperm := OrdMap.values_perm_delete hspan
  have hissued : Issued s.log s.uuids (span.span ::
      ({ a with tools := a.tools.delete toolCallId } : ActiveTrace).spans) := by
    refine h.issued.perm ?_
    refine ((hperm.append_left a.holders).trans List.perm_middle).map TraceSpan.span
  have hmem : span ∈ a.tools.values := hperm.mem_iff.mpr List.mem_cons_self
  obtain ⟨hlive, hstop⟩ := issued_endSpan status hissued
  refine ⟨hlive, hstop.trans (and_iff_left ?_)⟩
  intro child hchild hparent
  obtain ⟨c, hc, rfl⟩ := List.mem_map.mp hchild
  rcases List.mem_append.mp hc with hc | hc
  · obtain ⟨q, hq, heq⟩ := holder_parent h.shaped c hc _ hparent
    exact holder_ne_tool h.issued q (root_agent_subset q hq) span hmem heq.symm
  · exact h.shaped.tools c (hperm.mem_iff.mpr (List.mem_cons_of_mem _ hc)) span hmem hparent

theorem shaped_delete (h : a.Shaped) (toolCallId : String) :
    ({ a with tools := a.tools.delete toolCallId } : ActiveTrace).Shaped := by
  have hsub : ∀ t ∈ (a.tools.delete toolCallId).values, t ∈ a.tools.values := by
    intro t ht
    obtain ⟨e, he, rfl⟩ := List.mem_map.mp ht
    exact List.mem_map_of_mem (OrdMap.mem_entries_delete.mp he).1
  exact ⟨h.root, h.agent, h.turn, fun t ht u hu => h.tools t (hsub t ht) u (hsub u hu)⟩

theorem traced_toolStart (h : Holding s a) (toolCallId : String) :
    Traced (s.toolStart a toolCallId) ∧
      (Orderly (s.toolStart a toolCallId).log ↔ Orderly s.log) := by
  obtain ⟨closed, hclosed, hactive, hissued, hiff⟩ : ∃ closed : SessionTrace,
      closed = (a.tools.get toolCallId).elim s (fun existing => s.endSpan existing .aborted) ∧
        closed.active = some a ∧ Issued closed.log closed.uuids
          ({ a with tools := a.tools.delete toolCallId } : ActiveTrace).spans ∧
            (Orderly closed.log ↔ Orderly s.log) := by
    refine ⟨_, rfl, ?_⟩
    cases hget : a.tools.get toolCallId with
    | none =>
      rw [OrdMap.delete_of_get_none hget]
      exact ⟨h.active, h.issued, Iff.rfl⟩
    | some existing =>
      obtain ⟨hissued, hiff⟩ := h.endTool hget .aborted
      exact ⟨h.active, hissued, hiff⟩
  obtain ⟨q, hq, hinnermost⟩ := innermost_holds a
  have hheld := holder_mem_spans (a := { a with tools := a.tools.delete toolCallId }) hq
  rw [SessionTrace.toolStart, ← hclosed, hinnermost]
  obtain ⟨htraced, hstart⟩ := startHeld
    (f := fun span a => { a with tools := a.tools.set toolCallId span })
    hactive hissued a.root.traceId hheld "agent.agent.tool_call" .tool
    (by
      intro span
      have hset := OrdMap.values_set_perm a.tools toolCallId span
      exact ((hset.append_left a.holders).trans List.perm_middle).symm.map TraceSpan.span)
    (by
      intro span hspan hfresh hbelow
      have hset := OrdMap.values_set_perm a.tools toolCallId span
      refine ⟨h.shaped.root, h.shaped.agent, h.shaped.turn, ?_⟩
      intro t ht u hu hp
      rcases List.mem_cons.mp (hset.mem_iff.mp ht) with rfl | hkept
      · have heq : q.spanId = u.spanId := Option.some.inj (hspan.symm.trans hp)
        rcases List.mem_cons.mp (hset.mem_iff.mp hu) with rfl | hu
        · exact hfresh (heq ▸ hheld)
        · exact holder_ne_tool hissued q hq u hu heq
      · rcases List.mem_cons.mp (hset.mem_iff.mp hu) with rfl | hu
        · exact hbelow t.span (List.mem_map_of_mem (List.mem_append_right _ hkept)) hp
        · exact (shaped_delete h.shaped toolCallId).tools t hkept u hu hp)
  exact ⟨htraced, hstart.trans hiff⟩

end SessionTrace

/-! ## Every run -/

/-- A call that closes the agent's run closes what is open below it. -/
def SessionTrace.SweepsTools (s : SessionTrace) : TraceCall → Prop
  | .handleAgentEvent .agentStart => ∀ a ∈ s.active, a.AgentSwept
  | .handleAgentEvent (.agentEnd _) => ∀ a ∈ s.active, a.AgentSwept
  | _ => True

def SessionTrace.SweepsThroughout : SessionTrace → List TraceCall → Prop
  | _, [] => True
  | s, call :: rest => s.SweepsTools call ∧ (s.step call).SweepsThroughout rest

namespace SessionTrace

variable {s : SessionTrace}

theorem traced_handleAgentEvent (h : Traced s) (event : AgentEvent) :
    Traced (s.handleAgentEvent event) ∧ (Orderly (s.handleAgentEvent event).log ↔
      Orderly s.log ∧ s.SweepsTools (.handleAgentEvent event)) := by
  cases h with
  | idle hactive hissued =>
    have hs : s.handleAgentEvent event = s := by
      simp only [SessionTrace.handleAgentEvent, hactive]
    rw [hs]
    refine ⟨.idle hactive hissued, (and_iff_left ?_).symm⟩
    unfold SweepsTools
    split
    · exact fun a ha => nomatch hactive.symm.trans ha
    · exact fun a ha => nomatch hactive.symm.trans ha
    · trivial
  | holding a h =>
    have hswept : (∀ b ∈ s.active, b.AgentSwept) ↔ a.AgentSwept := by
      rw [h.active]
      exact ⟨fun hall => hall a rfl, fun hswept b hb => Option.some.inj hb ▸ hswept⟩
    simp only [SessionTrace.handleAgentEvent, h.active]
    cases event with
    | agentStart =>
      obtain ⟨htraced, hiff⟩ := traced_agentStart h
      exact ⟨htraced, hiff.trans (and_congr_right fun _ => hswept.symm)⟩
    | turnStart =>
      obtain ⟨htraced, hiff⟩ := traced_turnStart h
      exact ⟨htraced, hiff.trans (and_iff_left trivial).symm⟩
    | toolExecutionStart toolCallId toolName args =>
      obtain ⟨htraced, hiff⟩ := traced_toolStart h toolCallId
      exact ⟨htraced, hiff.trans (and_iff_left trivial).symm⟩
    | toolExecutionUpdate toolCallId toolName args partialResult =>
      cases hget : a.tools.get toolCallId with
      | none =>
        simp only [hget, Option.elim_none]
        exact ⟨.holding a h, (and_iff_left trivial).symm⟩
      | some span =>
        simp only [hget, Option.elim_some]
        obtain ⟨hissued, hiff⟩ := issued_updateSpan h.issued
        exact ⟨.holding a ⟨h.active, hissued, h.shaped⟩,
          hiff.trans (and_iff_left trivial).symm⟩
    | toolExecutionEnd toolCallId toolName result isError =>
      cases hget : a.tools.get toolCallId with
      | none =>
        simp only [hget]
        exact ⟨.holding a h, (and_iff_left trivial).symm⟩
      | some span =>
        simp only [hget]
        obtain ⟨hissued, hiff⟩ := h.endTool hget (if isError then .error else .ok)
        refine ⟨.holding { a with tools := a.tools.delete toolCallId }
          ⟨?_, hissued, shaped_delete h.shaped toolCallId⟩,
          hiff.trans (and_iff_left trivial).symm⟩
        exact congrArg (Option.map _) h.active
    | turnEnd message toolResults =>
      obtain ⟨hclosed, hiff⟩ := h.closeTurn (assistantStatus (some (.assistant message)))
      exact ⟨.holding _ hclosed, hiff.trans (and_iff_left trivial).symm⟩
    | agentEnd messages =>
      obtain ⟨hclosed, hiff⟩ := h.closeAgent (assistantStatus (lastAssistantMessage messages))
      refine ⟨.holding { a.agentClosed with
        status := assistantStatus (lastAssistantMessage messages) } ⟨?_, hclosed.issued, ?_⟩,
        hiff.trans (and_congr_right fun _ => hswept.symm)⟩
      · exact congrArg (Option.map _) hclosed.active
      · exact ⟨hclosed.shaped.root, hclosed.shaped.agent, hclosed.shaped.turn,
          hclosed.shaped.tools⟩
    | messageStart message => exact ⟨.holding a h, (and_iff_left trivial).symm⟩
    | messageUpdate message kind => exact ⟨.holding a h, (and_iff_left trivial).symm⟩
    | messageEnd message => exact ⟨.holding a h, (and_iff_left trivial).symm⟩

/-- A call keeps the open spans known. It keeps the order of the ends
exactly when it sweeps the tools. -/
theorem traced_step (h : Traced s) (call : TraceCall) :
    Traced (s.step call) ∧
      (Orderly (s.step call).log ↔ Orderly s.log ∧ s.SweepsTools call) := by
  cases call with
  | start =>
    obtain ⟨htraced, hiff⟩ := traced_start h
    exact ⟨htraced, hiff.trans (and_iff_left trivial).symm⟩
  | handleAgentEvent event => exact traced_handleAgentEvent h event
  | recordPolicyDecision decision =>
    obtain ⟨htraced, hiff⟩ := traced_recordPolicyDecision h decision
    exact ⟨htraced, hiff.trans (and_iff_left trivial).symm⟩
  | traceSkill operation =>
    obtain ⟨htraced, hiff⟩ := traced_traceSkill h operation
    exact ⟨htraced, hiff.trans (and_iff_left trivial).symm⟩
  | finish status =>
    obtain ⟨htraced, -, hiff⟩ := traced_finish h status
    exact ⟨htraced, hiff.trans (and_iff_left trivial).symm⟩

theorem traced_run (h : Traced s) (calls : List TraceCall) :
    Traced (s.run calls) ∧
      (Orderly (s.run calls).log ↔ Orderly s.log ∧ s.SweepsThroughout calls) := by
  induction calls generalizing s with
  | nil => exact ⟨h, (and_iff_left trivial).symm⟩
  | cons call rest ih =>
    obtain ⟨hstep, hiff⟩ := traced_step h call
    obtain ⟨hrun, hrest⟩ := ih hstep
    refine ⟨hrun, hrest.trans ?_⟩
    rw [hiff, and_assoc]
    rfl

/-- In every run, a span starts while its parent is open. Where no trace is
active, every span has ended once, before its parent, exactly if no call of
the run closed the agent's run over an open tool call. -/
theorem spans_well_nested (calls : List TraceCall) :
    StartsUnderOpen (run {} calls).log ∧ ((run {} calls).active = none →
      (EndsNested (run {} calls).log ↔ SweepsThroughout {} calls)) := by
  have hinit : Traced {} := .idle rfl ⟨tracks_nil, fun _ h => nomatch h⟩
  obtain ⟨htraced, hiff⟩ := traced_run hinit calls
  cases htraced with
  | idle hactive hissued =>
      refine ⟨hissued.tracks.under, fun _ => ?_⟩
      exact (endsNested_iff hissued.tracks).trans (hiff.trans (and_iff_right orderly_nil))
  | holding a h =>
      exact ⟨h.issued.tracks.under, fun hidle => nomatch hidle.symm.trans h.active⟩

def cutOff : List TraceCall :=
  [.start, .handleAgentEvent .agentStart, .handleAgentEvent .turnStart,
    .handleAgentEvent (.toolExecutionStart "t" "bash" .null), .handleAgentEvent (.agentEnd []),
    .finish none]

theorem spans_well_nested_cutOff :
    (run {} cutOff).active = none ∧ EndsNested (run {} cutOff).log := by
  refine ⟨rfl, ((spans_well_nested cutOff).2 rfl).mpr ?_⟩
  refine ⟨trivial, ?_, trivial, trivial, ?_, trivial, trivial⟩
  · rintro a ⟨⟩ g ⟨⟩
  · rintro a ⟨⟩ g ⟨⟩ hturn
    cases hturn

def toolWithoutTurn : List TraceCall :=
  [.start, .handleAgentEvent .agentStart,
    .handleAgentEvent (.toolExecutionStart "t" "bash" .null), .handleAgentEvent (.agentEnd []),
    .finish none]

theorem tool_outlives_agent : ¬ ∀ calls : List TraceCall,
    StartsUnderOpen (run {} calls).log ∧ ((run {} calls).active = none →
      EndsNested (run {} calls).log) := by
  intro hall
  have hstarted : started (run {} toolWithoutTurn).log =
      [⟨1, none⟩, ⟨2, some 1⟩, ⟨3, some 2⟩] := rfl
  have hended : ended (run {} toolWithoutTurn).log = [2, 3, 1] := rfl
  have hnested := (hall toolWithoutTurn).2 rfl ⟨3, some 2⟩ (by simp [hstarted])
  have horder := hnested.2 2 rfl
  rw [hended] at horder
  exact absurd horder (by decide)

end SessionTrace

end Eagent
