import Eagent.Redaction
import Eagent.SessionAlike
import Eagent.SessionSettling

/-!
# What reaches the session file unredacted

Two runs of the same calls, with messages that differ in what the redaction
replaces, in lockstep. A step that passes keeps the sessions alike
(`AgentSessionState.Alike.step`), so both runs write the same, and all that
either writes is redacted. The steps that do not pass are those that append a
message without redaction: a bash result, at once or deferred to the end of
the run, and a custom message delivered directly.
-/

namespace Eagent

/-! ## Points and outcomes, read backwards -/

section Invert

variable {r : AgentMessage → AgentMessage} {clock : Nat → Nat → Prop}

theorem PointAlike.invert {p p' : SessionPoint} (h : PointAlike r clock p p') :
    match p with
    | .intercepting q => ∃ q', p' = .intercepting q' ∧ RequestAlike r clock q q'
    | .checkingAuth q => ∃ q', p' = .checkingAuth q' ∧ RequestAlike r clock q q'
    | .checking q point => ∃ q', p' = .checking q' point ∧ RequestAlike r clock q q'
    | .startingHook m queued => ∃ m' queued', p' = .startingHook m' queued' ∧
        m.seen r = m'.seen r ∧
        queued.map (AgentMessage.seen r) = queued'.map (AgentMessage.seen r)
    | .running pending => ∃ pending', p' = .running pending' ∧
        pending.map (AgentMessage.seen r) = pending'.map (AgentMessage.seen r)
    | .handling m pending => ∃ m' pending', p' = .handling m' pending' ∧
        m.seen r = m'.seen r ∧
        pending.map (AgentMessage.seen r) = pending'.map (AgentMessage.seen r)
    | p => p' = p := by
  cases h with
  | bare p hp => cases p <;> first | rfl | exact hp.elim
  | intercepting h => exact ⟨_, rfl, h⟩
  | checkingAuth h => exact ⟨_, rfl, h⟩
  | checking h point => exact ⟨_, rfl, h⟩
  | startingHook hm hqueued => exact ⟨_, _, rfl, hm, hqueued⟩
  | running h => exact ⟨_, rfl, h⟩
  | handling hm h => exact ⟨_, _, rfl, hm, h⟩

theorem OutcomeAlike.invert {o o' : SessionAwaited} (h : OutcomeAlike r clock o o') :
    match o with
    | .continued text images => ∃ text' images', o' = .continued text' images' ∧
        TextAlike r clock text images text' images'
    | .messages ms => ∃ ms', o' = .messages ms' ∧
        ms.map (fun m => AgentMessage.seen r (.custom m)) =
          ms'.map (fun m => AgentMessage.seen r (.custom m))
    | .emits m => ∃ m', o' = .emits m' ∧ m.seen r = m'.seen r
    | .compacted d => ∃ d', o' = .compacted d' ∧ d.firstKeptEntryId = d'.firstKeptEntryId
    | .finished b => ∃ b', o' = .finished b' ∧
        AgentMessage.seen r (.bashExecution b) = AgentMessage.seen r (.bashExecution b')
    | o => o' = o := by
  cases h with
  | bare o ho => cases o <;> first | rfl | exact ho.elim
  | continued h => exact ⟨_, _, rfl, h⟩
  | messages h => exact ⟨_, rfl, h⟩
  | emits h => exact ⟨_, rfl, h⟩
  | compacted h => exact ⟨_, rfl, h⟩
  | finished h => exact ⟨_, rfl, h⟩

end Invert

/-! ## One step -/

/-- The outcome of a command passes the redaction unchanged. -/
def SessionAwaited.Passes (r : AgentMessage → AgentMessage) : SessionAwaited → Prop
  | .finished b => r (.bashExecution b) = .bashExecution b
  | _ => True

/-- A custom message that `sendCustomMessage` appends directly passes the
redaction unchanged. -/
def SessionCommand.Passes (r : AgentMessage → AgentMessage) (s : AgentSession) :
    SessionCommand → Prop
  | .sendCustomMessage m deliverAs triggerTurn =>
      deliverAs = some .nextTurn ∨ s.isAgentRunActive = true ∨ triggerTurn = true ∨
        r (.custom m) = .custom m
  | _ => True

namespace AgentSession

variable {c : SessionConfig} {clock : Nat → Nat → Prop} {entries : List SessionEntry}
  {s s' : AgentSession} {env env' : Env}

theorem startingMessages_alike {r : AgentMessage → AgentMessage} {m m' : AgentMessage}
    {queued queued' : List AgentMessage} {ms ms' : List CustomMessage} (hm : m.seen r = m'.seen r)
    (hqueued : queued.map (AgentMessage.seen r) = queued'.map (AgentMessage.seen r))
    (hms : ms.map (fun m => AgentMessage.seen r (.custom m)) =
      ms'.map (fun m => AgentMessage.seen r (.custom m))) :
    (m :: queued ++ ms.map AgentMessage.custom).map (AgentMessage.seen r) =
      (m' :: queued' ++ ms'.map AgentMessage.custom).map (AgentMessage.seen r) := by
  rw [List.map_append, List.map_append, List.map_cons, List.map_cons, hm, hqueued, List.map_map,
    List.map_map]
  exact congrArg _ hms

/-- A call goes on in both sessions. -/
theorem Alike.resume (h : s.Alike c entries s') (henv : env.randomUUID = env'.randomUUID)
    {now now' id : Nat} (hnow : clock now now') {p p' : SessionPoint}
    (hp : PointAlike c.redactBeforePersist clock p p')
    {o o' : SessionAwaited} (ho : OutcomeAlike c.redactBeforePersist clock o o')
    (hpass : o.Passes c.redactBeforePersist) (hpass' : o'.Passes c.redactBeforePersist)
    {x x' : AgentSession × Option SessionPoint} (hx : p.resume s env now id o = some x)
    (hx' : p'.resume s' env' now' id o' = some x') : NextAlike c clock entries x x' := by
  unfold SessionPoint.resume at hx
  split at hx
  · obtain ⟨q', rfl, hq⟩ := hp.invert
    obtain rfl : o' = _ := ho.invert
    cases hx; cases hx'
    exact ⟨h, .none⟩
  · rename_i q text images
    obtain ⟨q', rfl, hq⟩ := hp.invert
    obtain ⟨text', images', rfl, htext⟩ := ho.invert
    cases hx; cases hx'
    have hnext : RequestAlike c.redactBeforePersist clock { q with text, images }
        { q' with text := text', images := images' } :=
      ⟨hq.streamingBehavior, hq.intercepted, htext⟩
    exact h.promptExpanded henv hnext hnow
  · obtain ⟨q', rfl, hq⟩ := hp.invert
    obtain rfl : o' = _ := ho.invert
    cases hx; cases hx'
    exact ⟨h, .none⟩
  · obtain ⟨q', rfl, hq⟩ := hp.invert
    obtain rfl : o' = _ := ho.invert
    cases hx; cases hx'
    have hnext := h.promptAuthorized hq hnow
    exact ⟨hnext.1, .some hnext.2⟩
  · obtain ⟨q', rfl, hq⟩ := hp.invert
    obtain ⟨⟨t, result⟩, ht, rfl⟩ := Option.map_eq_some_iff.mp hx
    obtain ⟨⟨t', result'⟩, ht', rfl⟩ := Option.map_eq_some_iff.mp hx'
    obtain ⟨hnext, rfl⟩ := h.resumeCompaction henv ho ht ht'
    cases result with
    | inl point => exact ⟨hnext, .some (.checking hq point)⟩
    | inr continues =>
      have hbuilt := hnext.buildMessages hq hnow
      exact ⟨hbuilt.1, .some hbuilt.2⟩
  · rename_i m queued ms
    obtain ⟨m', queued', rfl, hm, hqueued⟩ := hp.invert
    obtain ⟨ms', rfl, hms⟩ := ho.invert
    cases hx; cases hx'
    have hnext := ((h.accept m m').give (m :: ms.map .custom)
      (m' :: ms'.map .custom)).runAgentPrompt clock id
      (startingMessages_alike hm hqueued hms)
    exact ⟨hnext.1, .some hnext.2⟩
  · obtain ⟨pending', rfl, hpending⟩ := hp.invert
    obtain rfl : o' = _ := ho.invert
    cases pending' with
    | nil => cases hpending
    | cons m' pending' =>
      obtain ⟨hm, hrest⟩ := List.cons.inj hpending
      cases hx; cases hx'
      have hnext := h.messageEnd clock hm hrest
      exact ⟨{ hnext.1 with }, .some hnext.2⟩
  · obtain ⟨pending', rfl, hpending⟩ := hp.invert
    obtain rfl := List.map_eq_nil_iff.mp hpending.symm
    obtain ⟨m', rfl, hm⟩ := ho.invert
    obtain ⟨-, hx⟩ := Option.ite_none_right_eq_some.mp hx
    obtain ⟨-, hx'⟩ := Option.ite_none_right_eq_some.mp hx'
    cases hx; cases hx'
    have hnext := h.messageEnd clock hm hpending
    exact ⟨hnext.1, .some hnext.2⟩
  · rename_i queue
    obtain ⟨pending', rfl, hpending⟩ := hp.invert
    obtain rfl := List.map_eq_nil_iff.mp hpending.symm
    obtain rfl : o' = _ := ho.invert
    cases hx; cases hx'
    have hnext := h.pollQueue queue
    exact ⟨hnext.1, .some (.running hnext.2)⟩
  · obtain ⟨pending', rfl, hpending⟩ := hp.invert
    obtain rfl := List.map_eq_nil_iff.mp hpending.symm
    obtain rfl : o' = _ := ho.invert
    cases hx; cases hx'
    exact ⟨{ h with activeRun := rfl }, .some (.bare _ trivial)⟩
  · obtain ⟨m', pending', rfl, hm, hpending⟩ := hp.invert
    obtain rfl : o' = _ := ho.invert
    cases hx; cases hx'
    exact ⟨h.persist henv hm, .some (.running hpending)⟩
  · obtain rfl : p' = _ := hp.invert
    obtain rfl : o' = _ := ho.invert
    unfold SessionPoint.resume at hx'
    dsimp only at hx'
    split at hx
    · cases hx
    · obtain ⟨-, hx⟩ := Option.ite_none_right_eq_some.mp hx
      split at hx'
      · cases hx'
      · obtain ⟨-, hx'⟩ := Option.ite_none_right_eq_some.mp hx'
        cases hx; cases hx'
        exact ⟨{ h.removeLastAssistant with last := rfl }, .some (.bare _ trivial)⟩
  · -- a message of the run is noted in both sessions, or in neither
    obtain rfl : p' = _ := hp.invert
    obtain rfl : o' = _ := ho.invert
    have hlast := h.last
    unfold SessionPoint.resume at hx'
    dsimp only at hx'
    split at hx
    · rename_i hnone
      split at hx'
      · cases hx; cases hx'
        exact ⟨h, .some (.bare _ trivial)⟩
      · rename_i m hm
        rw [hnone, hm] at hlast
        cases hlast
    · rename_i m hm
      split at hx'
      · rename_i hnone
        rw [hnone, hm] at hlast
        cases hlast
      · cases hx; cases hx'
        exact ⟨{ h with last := rfl }, .some (.bare _ trivial)⟩
  · obtain rfl : p' = _ := hp.invert
    obtain rfl : o' = _ := ho.invert
    cases hx; cases hx'
    exact ⟨h, .some (.bare _ trivial)⟩
  · obtain rfl : p' = _ := hp.invert
    obtain rfl : o' = _ := ho.invert
    cases hx; cases hx'
    exact ⟨h, .some (.bare _ trivial)⟩
  · obtain rfl : p' = _ := hp.invert
    obtain ⟨⟨t, result⟩, ht, rfl⟩ := Option.map_eq_some_iff.mp hx
    obtain ⟨⟨t', result'⟩, ht', rfl⟩ := Option.map_eq_some_iff.mp hx'
    obtain ⟨hnext, rfl⟩ := h.resumeCompaction henv ho ht ht'
    match result with
    | .inl point => exact ⟨hnext, .some (.bare _ trivial)⟩
    | .inr true => exact ⟨hnext, .some (.bare _ trivial)⟩
    | .inr false => exact ⟨hnext, .some (.bare _ trivial)⟩
  · obtain rfl : p' = _ := hp.invert
    obtain rfl : o' = _ := ho.invert
    cases hx; cases hx'
    rw [h.hasQueuedMessages]
    exact ⟨h, .some (.bare _ trivial)⟩
  · obtain rfl : p' = _ := hp.invert
    obtain rfl : o' = _ := ho.invert
    cases hx; cases hx'
    have hnext := h.continueRun clock id
    exact ⟨hnext.1, .some hnext.2⟩
  · obtain rfl : p' = _ := hp.invert
    obtain rfl : o' = _ := ho.invert
    cases hx; cases hx'
    exact ⟨h.settle henv, .some (.bare _ trivial)⟩
  · obtain rfl : p' = _ := hp.invert
    obtain rfl : o' = _ := ho.invert
    cases hx; cases hx'
    exact ⟨h.settle henv, .some (.bare _ trivial)⟩
  · obtain rfl : p' = _ := hp.invert
    obtain rfl : o' = _ := ho.invert
    cases hx; cases hx'
    exact ⟨h.settled, .none⟩
  · obtain rfl : p' = _ := hp.invert
    obtain rfl : o' = _ := ho.invert
    obtain ⟨-, hx⟩ := Option.ite_none_left_eq_some.mp hx
    obtain ⟨-, hx'⟩ := Option.ite_none_left_eq_some.mp hx'
    cases hx; cases hx'
    exact ⟨h, .some (.bare _ trivial)⟩
  · obtain rfl : p' = _ := hp.invert
    obtain rfl : o' = _ := ho.invert
    cases hx; cases hx'
    exact ⟨{ h with connected := rfl }, .none⟩
  · obtain rfl : p' = _ := hp.invert
    obtain ⟨d', rfl, hd⟩ := ho.invert
    obtain ⟨t, ht, rfl⟩ := Option.map_eq_some_iff.mp hx
    obtain ⟨t', ht', rfl⟩ := Option.map_eq_some_iff.mp hx'
    exact ⟨h.installCompaction henv hd ht ht', .some (.bare _ trivial)⟩
  · obtain rfl : p' = _ := hp.invert
    obtain rfl : o' = _ := ho.invert
    cases hx; cases hx'
    exact ⟨{ h with connected := rfl }, .none⟩
  · obtain rfl : p' = _ := hp.invert
    obtain ⟨b', rfl, hb⟩ := ho.invert
    cases hx; cases hx'
    exact ⟨h.recordBashResult henv (untimed_eq_of_seen hb hpass hpass') hpass, .none⟩
  · obtain rfl : p' = _ := hp.invert
    obtain rfl : o' = _ := ho.invert
    cases hx; cases hx'
    exact ⟨h, .none⟩
  · obtain rfl : p' = _ := hp.invert
    obtain rfl : o' = _ := ho.invert
    obtain ⟨-, hx⟩ := Option.ite_none_left_eq_some.mp hx
    obtain ⟨-, hx'⟩ := Option.ite_none_left_eq_some.mp hx'
    cases hx; cases hx'
    exact ⟨h, .none⟩
  · cases hx

theorem Alike.sendCustomMessage (h : s.Alike c entries s')
    (henv : env.randomUUID = env'.randomUUID) (id : Nat) {m m' : CustomMessage}
    (hm : AgentMessage.seen c.redactBeforePersist (.custom m) =
      AgentMessage.seen c.redactBeforePersist (.custom m'))
    {deliverAs : Option DeliverAs} {triggerTurn : Bool}
    (hpass : (SessionCommand.sendCustomMessage m deliverAs triggerTurn).Passes
      c.redactBeforePersist s)
    (hpass' : (SessionCommand.sendCustomMessage m' deliverAs triggerTurn).Passes
      c.redactBeforePersist s') :
    NextAlike c clock entries (s.sendCustomMessage env id m deliverAs triggerTurn)
      (s'.sendCustomMessage env' id m' deliverAs triggerTurn) := by
  unfold AgentSession.sendCustomMessage
  rw [← h.isAgentRunActive]
  split
  · refine ⟨{ h.give [.custom m] [.custom m'] with nextTurn := ?_ }, .none⟩
    rw [List.map_append, List.map_append, h.nextTurn, List.map_singleton, List.map_singleton, hm]
  · rename_i hnext
    split
    · split
      · exact ⟨{ h.enqueue .followUp hm with }, .none⟩
      · exact ⟨{ h.enqueue .steer hm with }, .none⟩
    · rename_i hidle
      split
      · have hms : [AgentMessage.custom m].map (AgentMessage.seen c.redactBeforePersist) =
            [AgentMessage.custom m'].map (AgentMessage.seen c.redactBeforePersist) := by
          rw [List.map_singleton, List.map_singleton, hm]
        have hrun := (h.give [.custom m] [.custom m']).runAgentPrompt clock id hms
        exact ⟨hrun.1, .some hrun.2⟩
      · rename_i htrigger
        -- delivered directly, so that both messages pass unchanged
        have hsame : ∀ {s : AgentSession} {m : CustomMessage},
            s.isAgentRunActive = false →
            (SessionCommand.sendCustomMessage m deliverAs triggerTurn).Passes
              c.redactBeforePersist s → c.redactBeforePersist (.custom m) = .custom m := by
          intro s m hs hp
          rcases hp with hp | hp | hp | hp
          · exact absurd hp hnext
          · rw [hs] at hp
            cases hp
          · exact absurd hp htrigger
          · exact hp
        have hs : s.isAgentRunActive = false := by simpa using hidle
        have hfirst := hsame hs hpass
        have hsecond := hsame (h.isAgentRunActive.symm.trans hs) hpass'
        exact ⟨h.appendCustom henv (untimed_eq_of_seen hm hfirst hsecond) hfirst, .none⟩

/-- A call is made in both sessions. -/
theorem Alike.begin (h : s.Alike c entries s') (henv : env.randomUUID = env'.randomUUID)
    {now now' : Nat} (hnow : clock now now') (id : Nat) {command command' : SessionCommand}
    (hc : CommandAlike c.redactBeforePersist clock command command')
    (hpass : command.Passes c.redactBeforePersist s)
    (hpass' : command'.Passes c.redactBeforePersist s') :
    NextAlike c clock entries (s.begin env now id command) (s'.begin env' now' id command') := by
  cases hc with
  | prompt hq =>
    unfold AgentSession.begin
    dsimp only
    rw [← hq.intercepted]
    split
    · exact ⟨h, .some (.intercepting hq)⟩
    · exact h.promptExpanded henv hq hnow
  | queue behavior htext => exact ⟨h.enqueue behavior (htext now now' hnow), .none⟩
  | sendCustomMessage deliverAs triggerTurn hm =>
    exact h.sendCustomMessage henv id hm hpass hpass'
  | executeBash => exact ⟨h, .some (.bare _ trivial)⟩
  | compact =>
    have hcut : Alike c entries { s with connected := false } { s' with connected := false } :=
      { h with connected := rfl }
    have hnext := hcut.waitForIdle
    unfold AgentSession.begin
    dsimp only
    rw [← hnext.2]
    exact ⟨hnext.1, .some (.bare _ trivial)⟩
  | abort | waitForIdle =>
    have hnext := h.waitForIdle
    unfold AgentSession.begin
    dsimp only
    rw [← hnext.2]
    refine ⟨hnext.1, ?_⟩
    cases s.waitForIdle.2 with
    | none => exact .none
    | some promise => exact .some (.bare _ trivial)

end AgentSession

/-! ## Steps with the calls -/

/-- The same call in two runs, with the same ids drawn. -/
inductive ActionAlike (r : AgentMessage → AgentMessage) (clock : Nat → Nat → Prop) :
    AgentSessionAction → AgentSessionAction → Prop
  | call {env env' : FreshEnv} (henv : env.env.randomUUID = env'.env.randomUUID)
      {now now' : Nat} (hnow : clock now now')
      {command command' : SessionCommand} (h : CommandAlike r clock command command') :
      ActionAlike r clock (.call env now command) (.call env' now' command')
  | resume {env env' : FreshEnv} (henv : env.env.randomUUID = env'.env.randomUUID)
      {now now' : Nat} (hnow : clock now now') (index : Nat) {o o' : SessionAwaited}
      (h : OutcomeAlike r clock o o') :
      ActionAlike r clock (.resume env now index o) (.resume env' now' index o')

/-- Every call is like itself, at the same time. -/
theorem ActionAlike.refl (r : AgentMessage → AgentMessage) (a : AgentSessionAction) :
    ActionAlike r Eq a a := by
  have htext : ∀ text images, TextAlike r Eq text images text images := by
    rintro text images now _ rfl
    rfl
  cases a with
  | call env now command =>
    refine .call rfl rfl ?_
    cases command with
    | prompt q => exact .prompt ⟨rfl, rfl, htext _ _⟩
    | queue behavior text images => exact .queue behavior (htext _ _)
    | sendCustomMessage m deliverAs triggerTurn => exact .sendCustomMessage _ _ rfl
    | executeBash => exact .executeBash
    | compact => exact .compact
    | abort => exact .abort
    | waitForIdle => exact .waitForIdle
  | resume env now index outcome =>
    refine .resume rfl rfl index ?_
    cases outcome with
    | continued text images => exact .continued (htext _ _)
    | messages ms => exact .messages rfl
    | emits m => exact .emits rfl
    | compacted d => exact .compacted rfl
    | finished b => exact .finished rfl
    | _ => exact .bare _ trivial

namespace AgentSessionState

open Machine

/-- The messages that a step brings and appends without redaction pass the
redaction unchanged: a bash result, and a custom message delivered directly. -/
def PassesPolicy (s : AgentSessionState) : AgentSessionAction → Prop
  | .call _ _ command => command.Passes s.session.config.redactBeforePersist s.session
  | .resume _ _ _ outcome => outcome.Passes s.session.config.redactBeforePersist

structure Alike (c : SessionConfig) (clock : Nat → Nat → Prop) (entries : List SessionEntry)
    (s s' : AgentSessionState) : Prop where
  session : s.session.Alike c entries s'.session
  calls : List.Forall₂
    (fun x x' => x.id = x'.id ∧ PointAlike c.redactBeforePersist clock x.point x'.point)
    s.calls s'.calls
  nextId : s.nextId = s'.nextId

variable {c : SessionConfig} {clock : Nat → Nat → Prop} {entries : List SessionEntry}
  {s s' t t' : AgentSessionState}

theorem Alike.step (h : s.Alike c clock entries s') {a a' : AgentSessionAction}
    (ha : ActionAlike c.redactBeforePersist clock a a') (hpass : s.PassesPolicy a)
    (hpass' : s'.PassesPolicy a') (ht : s.step a = some t) (ht' : s'.step a' = some t') :
    t.Alike c clock entries t' := by
  have hnext : ∀ {id id' : Nat} {p p' : Option SessionPoint}, id = id' →
      Option.Rel (PointAlike c.redactBeforePersist clock) p p' →
      List.Forall₂
        (fun x x' => x.id = x'.id ∧ PointAlike c.redactBeforePersist clock x.point x'.point)
        (p.map (SessionCall.mk id)).toList (p'.map (SessionCall.mk id')).toList := by
    intro id id' p p' hid hp
    cases hp with
    | none => exact .nil
    | some hp => exact .cons ⟨hid, hp⟩ .nil
  unfold PassesPolicy at hpass hpass'
  rw [h.session.config] at hpass
  rw [h.session.config'] at hpass'
  cases ha with
  | call henv hnow hc =>
    obtain rfl := Option.some.inj ht
    obtain rfl := Option.some.inj ht'
    rw [← h.nextId]
    have hbegin := h.session.begin henv hnow s.nextId hc hpass hpass'
    exact ⟨hbegin.1, List.rel_append h.calls (hnext rfl hbegin.2), rfl⟩
  | resume henv hnow index ho =>
    obtain ⟨call, hcall, ht⟩ := Option.bind_eq_some_iff.mp ht
    obtain ⟨x, hx, ht⟩ := Option.bind_eq_some_iff.mp ht
    obtain ⟨call', hcall', ht'⟩ := Option.bind_eq_some_iff.mp ht'
    obtain ⟨x', hx', ht'⟩ := Option.bind_eq_some_iff.mp ht'
    obtain rfl := Option.some.inj ht
    obtain rfl := Option.some.inj ht'
    obtain ⟨hid, hpoint⟩ := forall₂_getElem? h.calls hcall hcall'
    rw [← hid] at hx'
    have hresume := h.session.resume henv hnow hpoint ho hpass hpass' hx hx'
    exact ⟨hresume.1, forall₂_replaceAt h.calls index (hnext hid hresume.2), h.nextId⟩

/-! ## Runs -/

def BothPass (r : AgentMessage → AgentMessage) (clock : Nat → Nat → Prop)
    (x : AgentSessionState × AgentSessionState) (a : AgentSessionAction × AgentSessionAction) :
    Prop :=
  ActionAlike r clock a.1 a.2 ∧ x.1.PassesPolicy a.1 ∧ x.2.PassesPolicy a.2

theorem Alike.reaches (h : s.Alike c clock entries s')
    (hreach : Reaches (both AgentSessionState.step) (BothPass c.redactBeforePersist clock) (s, s')
      (t, t')) : t.Alike c clock entries t' := by
  refine hreach.invariant (I := fun x => x.1.Alike c clock entries x.2) h ?_
  intro x a y hx hok hy
  obtain ⟨hfirst, hsecond⟩ := both_eq_some.mp hy
  exact hx.step hok.1 hok.2.1 hok.2.2 hfirst hsecond

theorem Alike.new (c : SessionConfig) (clock : Nat → Nat → Prop)
    (steeringMode followUpMode : QueueMode) (manager : SessionManager)
    (messages : List AgentMessage) :
    (new c steeringMode followUpMode manager messages).Alike c clock manager.getEntries
      (new c steeringMode followUpMode manager messages) where
  session := AgentSession.Alike.refl (c := c)
    (s := (AgentSessionState.new c steeringMode followUpMode manager messages).session) rfl
    fun _ h => absurd h List.not_mem_nil
  calls := .nil
  nextId := rfl

/-- In every run whose steps pass the policy, every message entry and every
custom-message entry that was written is a redacted message; and two such
runs of the same calls, with messages that differ in what the redaction
replaces, at whatever times, have written the same, ids and times aside. -/
theorem writes_redacted (c : SessionConfig) (steeringMode followUpMode : QueueMode)
    (manager : SessionManager) (messages : List AgentMessage) :
    (∀ t, Reaches step PassesPolicy (new c steeringMode followUpMode manager messages) t →
      t.session.sessionManager.WritesRedacted c.redactBeforePersist manager.getEntries) ∧
    ∀ t t', Reaches (both step) (BothPass c.redactBeforePersist fun _ _ => True)
        (new c steeringMode followUpMode manager messages,
          new c steeringMode followUpMode manager messages) (t, t') →
      t.session.sessionManager.messageBodies = t'.session.sessionManager.messageBodies := by
  refine ⟨fun t ht => ?_, fun t t' ht => ?_⟩
  · have hbeside : Reaches (both step) (BothPass c.redactBeforePersist Eq) _ (t, t) :=
      ht.beside fun s a ha => ⟨.refl _ a, ha, ha⟩
    exact ((Alike.new c Eq steeringMode followUpMode manager messages).reaches
      hbeside).session.writes
  · exact ((Alike.new c _ steeringMode followUpMode manager messages).reaches
      ht).session.manager.messageBodies

/-! ### Two runs with the default policy -/

/-- `redactSecrets` before a message is persisted, by default. -/
def defaultPolicy : SessionConfig where
  model := some ⟨"p", "m"⟩
  hasConfiguredAuth := true
  redactBeforePersist := AgentMessage.redact
  keepsRole m := by cases m <;> rfl

def redactingSession : AgentSessionState :=
  new defaultPolicy .oneAtATime .oneAtATime quietManager []

def secretPrompt (key : String) (now : Nat) : List AgentSessionAction :=
  [.call anyEnv now (.prompt (ask ("api_key=" ++ key))), .resume anyEnv now 0 (.messages []),
    .resume anyEnv now 0 .reports, .resume anyEnv now 0 .ok]

def secretCommand (key : String) : List AgentSessionAction :=
  [.call anyEnv 0 .executeBash,
    .resume anyEnv 0 0
      (.finished
        { command := "env", output := "api_key=" ++ key, exitCode := some 0, cancelled := false
          truncated := false, timestamp := 0 })]

theorem redactString_key : redactString "api_key=one" = redactString "api_key=two" := by
  decide +kernel

/-- Two prompts with different keys, at different times. -/
theorem writes_redacted_prompt : ∃ t t',
    Reaches step PassesPolicy redactingSession t ∧
      t.session.sessionManager.WritesRedacted AgentMessage.redact [] ∧
      Reaches (both step) (BothPass AgentMessage.redact fun _ _ => True)
        (redactingSession, redactingSession) (t, t') ∧
      t.session.messages.map AgentMessage.untimed ≠
        t'.session.messages.map AgentMessage.untimed ∧
      t.session.sessionManager.messageBodies =
        [.message (.user ⟨some (.blocks [.text "api_key=[REDACTED]"]), 0⟩)] ∧
      t.session.sessionManager.messageBodies = t'.session.sessionManager.messageBodies := by
  have hrun : (Machine.run (both step) (fun _ _ => True) (redactingSession, redactingSession)
      ((secretPrompt "one" 0).zip (secretPrompt "two" 1))).any (fun x => decide
        (x.1.session.messages.map AgentMessage.untimed ≠
          x.2.session.messages.map AgentMessage.untimed ∧
        x.1.session.sessionManager.messageBodies =
          [.message (.user ⟨some (.blocks [.text "api_key=[REDACTED]"]), 0⟩)])) = true := by
    decide +kernel
  obtain ⟨⟨t, t'⟩, hx, hfacts⟩ := (Option.any_eq_true ..).mp hrun
  obtain ⟨hmessages, hbodies⟩ := of_decide_eq_true hfacts
  have hsame : Reaches (both step) (BothPass AgentMessage.redact fun _ _ => True)
      (redactingSession, redactingSession) (t, t') := by
    refine Machine.reaches_of_run_of_forall hx ?_
    intro a ha x
    simp only [secretPrompt, List.zip_cons_cons, List.zip_nil_left, List.mem_cons,
      List.not_mem_nil, or_false] at ha
    rcases ha with rfl | rfl | rfl | rfl
    · refine ⟨.call rfl trivial (.prompt ⟨rfl, rfl, ?_⟩), trivial, trivial⟩
      intro now now' _
      exact congrArg (fun s => (AgentMessage.user ⟨some (.blocks [.text s]), 0⟩, none))
        redactString_key
    · exact ⟨.resume rfl trivial 0 (.messages rfl), trivial, trivial⟩
    · exact ⟨.resume rfl trivial 0 (.bare _ trivial), trivial, trivial⟩
    · exact ⟨.resume rfl trivial 0 (.bare _ trivial), trivial, trivial⟩
  have hfirst : Reaches step PassesPolicy redactingSession t := hsame.first fun _ _ h => h.2.1
  have hwrites := writes_redacted defaultPolicy .oneAtATime .oneAtATime quietManager []
  exact ⟨t, t', hfirst, hwrites.1 t hfirst, hsame, hmessages, hbodies, hwrites.2 t t' hsame⟩

/-- The output of a command is written as it is: two runs that differ in a
key alone have different entries. -/
theorem writes_unredacted : ∃ t t',
    Reaches (both step) (fun _ a => ActionAlike AgentMessage.redact Eq a.1 a.2)
        (redactingSession, redactingSession) (t, t') ∧
      t.session.sessionManager.messageBodies ≠ t'.session.sessionManager.messageBodies := by
  have hrun : (Machine.run (both step) (fun _ _ => True) (redactingSession, redactingSession)
      ((secretCommand "one").zip (secretCommand "two"))).any (fun x => decide
        (x.1.session.sessionManager.messageBodies ≠
          x.2.session.sessionManager.messageBodies)) = true := by
    decide +kernel
  obtain ⟨⟨t, t'⟩, hx, hfacts⟩ := (Option.any_eq_true ..).mp hrun
  refine ⟨t, t', Machine.reaches_of_run_of_forall hx ?_, of_decide_eq_true hfacts⟩
  intro a ha x
  simp only [secretCommand, List.zip_cons_cons, List.zip_nil_left, List.mem_cons,
    List.not_mem_nil, or_false] at ha
  rcases ha with rfl | rfl
  · exact .call rfl rfl .executeBash
  · refine .resume rfl rfl 0 (.finished ?_)
    exact congrArg (fun s => (AgentMessage.bashExecution
      { command := redactString "env", output := s, exitCode := some 0, cancelled := false
        truncated := false, timestamp := 0 }, none)) redactString_key

end AgentSessionState

end Eagent
