import Eagent.RpcClient

/-!
# Requests settle once

`RequestInv`: a request that has not settled is pending, and its timeout is
armed. A response, a timeout and an exit each take a request out of the
pending ones as they settle it; only the end of `stop` drops what is pending
(`RpcClient.settles_and_delivers`).
-/

namespace Eagent

theorem requestIdText_inj {m n : Nat} (h : requestIdText m = requestIdText n) : m = n := by
  have htext : (toString m).toList = (toString n).toList := by
    have hlists := congrArg String.toList h
    rw [requestIdText, requestIdText, String.toList_append, String.toList_append] at hlists
    exact List.append_cancel_left hlists
  rw [Nat.toString_eq_repr, Nat.toString_eq_repr, Nat.toList_repr, Nat.toList_repr] at htext
  rw [← Nat.ofDigitChars_ten_toDigits (n := m), htext, Nat.ofDigitChars_ten_toDigits]

namespace RpcClient

variable {L : Type} (s : RpcClient L)

def settledSends : List Nat := s.settled.map Prod.fst

/-- Each send settles at most once, with a response of its own id or an
error; until then it is pending, with a timeout; and none is after the exit
of the process or the end of `stop`. -/
structure Settles : Prop where
  once : s.settledSends.Nodup
  ids : (s.commands.map Prod.snd).Nodup
  own : ∀ send response, (send, .resolved response) ∈ s.settled →
    ∃ id, (send, id) ∈ s.commands ∧ dataField response "id" = some (.str id)
  waits : ∀ send < s.sends, send ∈ s.settledSends ∨
    send ∈ s.pendingRequests.values ∧ ∃ t ∈ s.timers, t.send = send
  ended : (∀ child, s.process = some child → child ∈ s.exited) →
    ∀ send < s.sends, send ∈ s.settledSends

/-- The invariant of the requests. -/
structure Requests : Prop where
  once : s.settledSends.Nodup
  sent : ∀ send ∈ s.settledSends, send < s.sends
  own : ∀ send response, (send, .resolved response) ∈ s.settled →
    ∃ id, (send, id) ∈ s.commands ∧ dataField response "id" = some (.str id)
  ids : (s.commands.map Prod.snd).Nodup
  numbered : ∀ c ∈ s.commands, ∃ k ≤ s.requestId, c.2 = requestIdText k
  pending : ∀ id send, (id, send) ∈ s.pendingRequests.entries →
    send < s.sends ∧ send ∉ s.settledSends ∧ (send, id) ∈ s.commands ∧
      ∃ t ∈ s.timers, t.send = send
  apart : s.pendingRequests.values.Nodup
  armed : ∀ t ∈ s.timers, (t.id, t.send) ∈ s.pendingRequests.entries
  waits : ∀ send < s.sends, send ∈ s.settledSends ∨ send ∈ s.pendingRequests.values

/-- The invariant of the children. -/
structure Children : Prop where
  spawned : ∀ child, child ∈ s.exited ∨ s.process = some child → child < s.spawned
  gone : ∀ child, s.process = some child → child ∈ s.exited → s.exitError.isSome
  ended : (∀ child, s.process = some child → child ∈ s.exited) →
    s.pendingRequests = OrdMap.empty

section Steps

variable {s} {s' : RpcClient L} {id : String} {send : Nat} {outcome : RpcOutcome}

theorem requests_start : Requests ({} : RpcClient L) where
  once := List.nodup_nil
  sent _ h := absurd h List.not_mem_nil
  own _ _ h := absurd h List.not_mem_nil
  ids := List.nodup_nil
  numbered _ h := absurd h List.not_mem_nil
  pending _ _ h := absurd h List.not_mem_nil
  apart := List.nodup_nil
  armed _ h := absurd h List.not_mem_nil
  waits send h := absurd h (Nat.not_lt_zero send)

theorem children_start : Children ({} : RpcClient L) where
  spawned := by
    rintro child (h | h)
    · exact absurd h List.not_mem_nil
    · cases h
  gone _ h := by cases h
  ended _ := rfl

section

variable (h : s.Requests)
include h

theorem Requests.settles (hchildren : s.Children) : s.Settles where
  once := h.once
  ids := h.ids
  own := h.own
  waits send hsend := by
    refine (h.waits send hsend).imp id fun hvalue => ⟨hvalue, ?_⟩
    obtain ⟨⟨key, send⟩, hentry, rfl⟩ := List.mem_map.mp hvalue
    exact (h.pending key send hentry).2.2.2
  ended hended send hsend := by
    refine (h.waits send hsend).resolve_right fun hvalue => ?_
    rw [hchildren.ended hended] at hvalue
    cases hvalue

/-- What is not about requests leaves their invariant. -/
theorem Requests.same (hsettled : s'.settled = s.settled) (hsends : s'.sends = s.sends)
    (hcommands : s'.commands = s.commands) (hrequestId : s'.requestId = s.requestId)
    (hpending : s'.pendingRequests = s.pendingRequests) (htimers : s'.timers = s.timers) :
    s'.Requests := by
  obtain ⟨emitter, process, spawned, exited, readers, stopReading, stopping, stderr, exitError,
    requestId, pendingRequests, timers, sends, commands, settled⟩ := s'
  subst hsettled hsends hcommands hrequestId hpending htimers
  exact ⟨h.once, h.sent, h.own, h.ids, h.numbered, h.pending, h.apart, h.armed, h.waits⟩

theorem Requests.settle (hentry : (id, send) ∈ s.pendingRequests.entries)
    (hown : ∀ response, outcome = .resolved response → dataField response "id" = some (.str id)) :
    (settle { s with pendingRequests := s.pendingRequests.delete id } send outcome).Requests := by
  obtain ⟨hlt, hunsettled, hcommand, -⟩ := h.pending id send hentry
  have hdelete : ∀ {key value}, (key, value) ∈ (s.pendingRequests.delete id).entries ↔
      (key, value) ∈ s.pendingRequests.entries ∧ key ≠ id := by
    intro key value
    rw [OrdMap.delete, List.mem_filter, decide_eq_true_iff]
  have hsame : ∀ {key}, (key, send) ∈ s.pendingRequests.entries → key = id := by
    intro key hkey
    exact congrArg Prod.fst (List.inj_on_of_nodup_map h.apart hkey hentry rfl)
  have hkey : ∀ {value}, (id, value) ∈ s.pendingRequests.entries → value = send := by
    intro value hvalue
    exact congrArg Prod.snd (List.inj_on_of_nodup_map s.pendingRequests.nodup hvalue hentry rfl)
  have hsettled : settledSends (RpcClient.settle
      { s with pendingRequests := s.pendingRequests.delete id } send outcome) =
      s.settledSends ++ [send] := List.map_append
  have hmem : ∀ {n}, n ∈ s.settledSends ++ [send] ↔ n ∈ s.settledSends ∨ n = send := by
    intro n
    rw [List.mem_append, List.mem_singleton]
  constructor
  case once =>
    rw [hsettled, List.nodup_append]
    refine ⟨h.once, List.nodup_singleton send, fun n hn n' hn' => ?_⟩
    rw [List.mem_singleton.mp hn']
    exact fun heq => hunsettled (heq ▸ hn)
  case sent =>
    intro n hn
    rw [hsettled, hmem] at hn
    rcases hn with hn | rfl
    · exact h.sent n hn
    · exact hlt
  case own =>
    intro n response hn
    rcases List.mem_append.mp hn with hn | hn
    · exact h.own n response hn
    · obtain ⟨rfl, houtcome⟩ := Prod.mk.inj (List.mem_singleton.mp hn)
      exact ⟨id, hcommand, hown response houtcome.symm⟩
  case ids => exact h.ids
  case numbered => exact h.numbered
  case pending =>
    intro key value hvalue
    obtain ⟨hvalue, hne⟩ := hdelete.mp hvalue
    obtain ⟨hlt', hunsettled', hcommand', t, ht, rfl⟩ := h.pending key value hvalue
    have hother : t.send ≠ send := fun heq => hne (hsame (heq ▸ hvalue))
    refine ⟨hlt', ?_, hcommand', t, ?_, rfl⟩
    · rw [hsettled, hmem, not_or]
      exact ⟨hunsettled', hother⟩
    · exact List.mem_filter.mpr ⟨ht, decide_eq_true hother⟩
  case apart => exact h.apart.sublist (List.filter_sublist.map Prod.snd)
  case armed =>
    intro t ht
    obtain ⟨ht, hother⟩ := List.mem_filter.mp ht
    have hentry' := h.armed t ht
    refine hdelete.mpr ⟨hentry', fun heq => of_decide_eq_true hother ?_⟩
    exact hkey (heq ▸ hentry')
  case waits =>
    intro n hn
    rw [hsettled, hmem]
    rcases h.waits n hn with hn | hn
    · exact .inl (.inl hn)
    · obtain ⟨⟨key, n⟩, hvalue, rfl⟩ := List.mem_map.mp hn
      by_cases hid : key = id
      · subst hid
        exact .inl (.inr (hkey hvalue))
      · exact .inr (List.mem_map_of_mem (f := Prod.snd) (hdelete.mpr ⟨hvalue, hid⟩))

/-- A send that throws. -/
theorem Requests.refuse (message : String) : (s.refuse message).Requests := by
  have hsettled : (s.refuse message).settledSends = s.settledSends ++ [s.sends] := List.map_append
  have hmem : ∀ {n}, n ∈ s.settledSends ++ [s.sends] ↔ n ∈ s.settledSends ∨ n = s.sends := by
    intro n
    rw [List.mem_append, List.mem_singleton]
  constructor
  case once =>
    rw [hsettled, List.nodup_append]
    refine ⟨h.once, List.nodup_singleton _, fun n hn n' hn' => ?_⟩
    rw [List.mem_singleton.mp hn']
    exact Nat.ne_of_lt (h.sent n hn)
  case sent =>
    intro n hn
    rw [hsettled, hmem] at hn
    rcases hn with hn | rfl
    · exact Nat.lt_succ_of_lt (h.sent n hn)
    · exact Nat.lt_succ_self _
  case own =>
    intro n response hn
    rcases List.mem_append.mp hn with hn | hn
    · exact h.own n response hn
    · cases List.mem_singleton.mp hn
  case ids => exact h.ids
  case numbered => exact h.numbered
  case pending =>
    intro key value hvalue
    obtain ⟨hlt, hunsettled, hrest⟩ := h.pending key value hvalue
    refine ⟨Nat.lt_succ_of_lt hlt, ?_, hrest⟩
    rw [hsettled, hmem, not_or]
    exact ⟨hunsettled, Nat.ne_of_lt hlt⟩
  case apart => exact h.apart
  case armed => exact h.armed
  case waits =>
    intro n hn
    rw [hsettled, hmem]
    rcases Nat.lt_succ_iff_lt_or_eq.mp hn with hn | hn
    · exact (h.waits n hn).imp .inl id
    · exact .inl (.inr hn)

theorem Requests.fresh :
    requestIdText (s.requestId + 1) ∉ s.commands.map Prod.snd := by
  intro hmem
  obtain ⟨c, hc, heq⟩ := List.mem_map.mp hmem
  obtain ⟨k, hk, hid⟩ := h.numbered c hc
  have := requestIdText_inj (hid.symm.trans heq)
  omega

theorem Requests.entries_request (type : String) :
    (s.request type).pendingRequests.entries =
      s.pendingRequests.entries ++ [(requestIdText (s.requestId + 1), s.sends)] := by
  refine OrdMap.entries_set_fresh _ fun hmem => h.fresh ?_
  obtain ⟨⟨key, value⟩, hentry, hkey⟩ := List.mem_map.mp hmem
  exact List.mem_map.mpr ⟨(value, key), (h.pending key value hentry).2.2.1, hkey⟩

/-- A send that waits. -/
theorem Requests.request (type : String) : (s.request type).Requests := by
  have hentries := h.entries_request type
  have hunsettled : s.sends ∉ s.settledSends := fun hmem =>
    absurd (h.sent _ hmem) (Nat.lt_irrefl _)
  constructor
  case once => exact h.once
  case sent => exact fun n hn => Nat.lt_succ_of_lt (h.sent n hn)
  case own =>
    intro n response hn
    obtain ⟨id, hcommand, hid⟩ := h.own n response hn
    exact ⟨id, List.mem_append_left _ hcommand, hid⟩
  case ids =>
    rw [RpcClient.request, List.map_append, List.nodup_append]
    refine ⟨h.ids, List.nodup_singleton _, fun key hkey key' hkey' heq => h.fresh ?_⟩
    have hnew : key' = requestIdText (s.requestId + 1) := List.mem_singleton.mp hkey'
    rwa [← hnew, ← heq]
  case numbered =>
    intro c hc
    rcases List.mem_append.mp hc with hc | hc
    · obtain ⟨k, hk, hid⟩ := h.numbered c hc
      exact ⟨k, Nat.le_succ_of_le hk, hid⟩
    · obtain rfl := List.mem_singleton.mp hc
      exact ⟨s.requestId + 1, Nat.le_refl _, rfl⟩
  case pending =>
    intro key value hvalue
    rw [hentries] at hvalue
    rcases List.mem_append.mp hvalue with hvalue | hvalue
    · obtain ⟨hlt, hunsettled', hcommand, t, ht, hsend⟩ := h.pending key value hvalue
      exact ⟨Nat.lt_succ_of_lt hlt, hunsettled', List.mem_append_left _ hcommand, t,
        List.mem_append_left _ ht, hsend⟩
    · obtain ⟨rfl, rfl⟩ := Prod.mk.inj (List.mem_singleton.mp hvalue)
      exact ⟨Nat.lt_succ_self _, hunsettled, List.mem_append_right _ (List.mem_singleton_self _),
        _, List.mem_append_right _ (List.mem_singleton_self _), rfl⟩
  case apart =>
    rw [OrdMap.values, hentries, List.map_append, List.nodup_append]
    refine ⟨h.apart, List.nodup_singleton _, fun n hn n' hn' => ?_⟩
    rw [List.mem_singleton.mp hn']
    obtain ⟨⟨key, n⟩, hentry, rfl⟩ := List.mem_map.mp hn
    exact Nat.ne_of_lt (h.pending key n hentry).1
  case armed =>
    intro t ht
    rw [hentries]
    rcases List.mem_append.mp ht with ht | ht
    · exact List.mem_append_left _ (h.armed t ht)
    · obtain rfl := List.mem_singleton.mp ht
      exact List.mem_append_right _ (List.mem_singleton_self _)
  case waits =>
    intro n hn
    rw [OrdMap.values, hentries, List.map_append, List.mem_append]
    rcases Nat.lt_succ_iff_lt_or_eq.mp hn with hn | hn
    · exact (h.waits n hn).imp id .inl
    · exact .inr (.inr (List.mem_singleton.mpr hn))

theorem Requests.rejectPending (message : String) :
    (s.rejectPendingRequests message).Requests := by
  have hsettled : (s.rejectPendingRequests message).settledSends =
      s.settledSends ++ s.pendingRequests.values := by
    rw [settledSends, rejectPendingRequests, List.map_append, List.map_map]
    exact congrArg _ (List.map_id _)
  have hunsettled : ∀ n ∈ s.pendingRequests.values, n < s.sends ∧ n ∉ s.settledSends := by
    intro n hn
    obtain ⟨⟨key, n⟩, hentry, rfl⟩ := List.mem_map.mp hn
    have hpending := h.pending key n hentry
    exact ⟨hpending.1, hpending.2.1⟩
  constructor
  case once =>
    rw [hsettled, List.nodup_append]
    refine ⟨h.once, h.apart, fun n hn n' hn' heq => ?_⟩
    exact (hunsettled n' hn').2 (heq ▸ hn)
  case sent =>
    intro n hn
    rw [hsettled, List.mem_append] at hn
    exact hn.elim (h.sent n) fun hn => (hunsettled n hn).1
  case own =>
    intro n response hn
    rcases List.mem_append.mp hn with hn | hn
    · exact h.own n response hn
    · obtain ⟨n', -, heq⟩ := List.mem_map.mp hn
      cases heq
  case ids => exact h.ids
  case numbered => exact h.numbered
  case pending => exact fun _ _ hvalue => absurd hvalue List.not_mem_nil
  case apart => exact List.nodup_nil
  case armed =>
    intro t ht
    obtain ⟨ht, hother⟩ := List.mem_filter.mp ht
    exact absurd (List.mem_map_of_mem (f := Prod.snd) (h.armed t ht)) (of_decide_eq_true hother)
  case waits =>
    intro n hn
    rw [hsettled, List.mem_append]
    exact .inl (h.waits n hn)

end

/-- What does not concern the children leaves their invariant. -/
theorem Children.same (h : s.Children) (hprocess : s'.process = s.process)
    (hexited : s'.exited = s.exited) (hspawned : s'.spawned = s.spawned)
    (herror : s.exitError.isSome → s'.exitError.isSome)
    (hpending : (∀ child, s.process = some child → child ∈ s.exited) →
      s.pendingRequests = OrdMap.empty → s'.pendingRequests = OrdMap.empty) : s'.Children := by
  constructor
  · rw [hprocess, hexited, hspawned]
    exact h.spawned
  · rw [hprocess, hexited]
    exact fun child hchild hgone => herror (h.gone child hchild hgone)
  · rw [hprocess, hexited]
    exact fun hended => hpending hended (h.ended hended)

theorem delete_of_empty {m : OrdMap String Nat} (h : m = OrdMap.empty) (key : String) :
    m.delete key = OrdMap.empty := by
  rw [h]
  rfl

/-- The invariants together. -/
def Inv (s : RpcClient L) : Prop := s.Requests ∧ s.Children ∧ s.emitter.Inv

theorem Inv.settle (h : s.Inv) (hentry : (id, send) ∈ s.pendingRequests.entries)
    (hown : ∀ response, outcome = .resolved response →
      dataField response "id" = some (.str id)) :
    (RpcClient.settle { s with pendingRequests := s.pendingRequests.delete id } send outcome).Inv :=
  ⟨h.1.settle hentry hown,
    h.2.1.same rfl rfl rfl (fun herror => herror) fun _ hempty => delete_of_empty hempty id, h.2.2⟩

theorem Inv.refuse (h : s.Inv) (message : String) : (s.refuse message).Inv :=
  ⟨h.1.refuse message, h.2.1.same rfl rfl rfl (fun herror => herror) fun _ hempty => hempty, h.2.2⟩

theorem Inv.exitError (h : s.Inv) (exitError : Option String)
    (herror : s.exitError.isSome → exitError.isSome) : Inv { s with exitError } :=
  ⟨h.1.same rfl rfl rfl rfl rfl rfl,
    h.2.1.same rfl rfl rfl herror fun _ hempty => hempty, h.2.2⟩

theorem Inv.fail (h : s.Inv) (message : String) : (s.fail message).Inv := by
  obtain ⟨hrequests, hchildren, hemitter⟩ := h.exitError (some message) fun _ => rfl
  exact ⟨hrequests.rejectPending message,
    hchildren.same rfl rfl rfl (fun herror => herror) fun _ _ => rfl, hemitter⟩

theorem Inv.sent (h : s.Inv) (type : String) (child : ChildView) (writeError : Option String) :
    (s.send type child writeError).Inv := by
  unfold RpcClient.send
  split
  · exact h.refuse _
  · rename_i hstarted
    rw [Bool.or_eq_true, not_or, Option.isNone_iff_eq_none] at hstarted
    obtain ⟨process, hprocess⟩ := Option.ne_none_iff_exists'.mp hstarted.1
    split
    · exact h.refuse _
    · exact (h.exitError _ fun _ => rfl).refuse _
    · rename_i hexitError hexited
      dsimp only
      split
      · exact (h.exitError _ fun _ => rfl).refuse _
      · have hrunning : process ∉ s.exited := by
          intro hgone
          have herror := h.2.1.gone process hprocess hgone
          rw [hexitError] at herror
          cases herror
        have hrequest : (s.request type).Inv :=
          ⟨h.1.request type, h.2.1.same rfl rfl rfl (fun herror => herror) fun hended _ =>
            absurd (hended process hprocess) hrunning, h.2.2⟩
        split
        · rename_i hget
          exact hrequest.settle (OrdMap.get_eq_some.mp hget)
            fun _ hvalue => by cases hvalue
        · exact hrequest

theorem answered_eq {data : Json} (h : s.answered data = some (id, send)) :
    (id, send) ∈ s.pendingRequests.entries ∧ dataField data "id" = some (.str id) := by
  unfold answered at h
  split at h
  · split at h
    · rename_i key hkey
      split at h
      · cases h
      · obtain ⟨send', hget, heq⟩ := Option.map_eq_some_iff.mp h
        obtain ⟨rfl, rfl⟩ := Prod.mk.inj heq
        exact ⟨OrdMap.get_eq_some.mp hget, hkey⟩
    · cases h
  · cases h

theorem Inv.handleLine (h : s.Inv) (hidle : s.emitter.delivering = []) (line : List Char) :
    (s.handleLine line).Inv := by
  unfold RpcClient.handleLine
  split
  · exact h
  · exact h
  · unfold handleData
    split
    · rename_i id send hanswered
      obtain ⟨hentry, hid⟩ := answered_eq hanswered
      refine h.settle hentry fun response hresponse => ?_
      cases hresponse
      exact hid
    · refine ⟨h.1.same rfl rfl rfl rfl rfl rfl,
        h.2.1.same rfl rfl rfl (fun herror => herror) fun _ hempty => hempty, h.2.2.emit ?_⟩
      intro d hd
      rw [hidle] at hd
      cases hd

theorem Inv.timeOut (h : s.Inv) {t : RpcTimer} (ht : t ∈ s.timers) : (s.timeOut t).Inv :=
  h.settle (h.1.armed t ht) (by nofun)

theorem Inv.spawn (h : s.Inv) : s.spawn.Inv := by
  have hnew : s.spawned ∉ s.exited := fun hgone =>
    absurd (h.2.1.spawned _ (.inl hgone)) (Nat.lt_irrefl _)
  refine ⟨h.1.same rfl rfl rfl rfl rfl rfl, ⟨?_, ?_, ?_⟩, h.2.2⟩
  · rintro child (hgone | hchild)
    · exact Nat.lt_succ_of_lt (h.2.1.spawned child (.inl hgone))
    · obtain rfl := Option.some.inj hchild
      exact Nat.lt_succ_self _
  · intro child hchild hgone
    obtain rfl := Option.some.inj hchild
    exact absurd hgone hnew
  · exact fun hended => absurd (hended _ rfl) hnew

theorem Inv.stop (h : s.Inv) : s.stop.Inv := by
  unfold RpcClient.stop
  split
  · exact h
  · exact ⟨h.1.same rfl rfl rfl rfl rfl rfl,
      h.2.1.same rfl rfl rfl (fun herror => herror) fun _ hempty => hempty, h.2.2⟩

/-- `stop` ends when nothing is pending. -/
theorem Inv.stopped (h : s.Inv) (hempty : s.pendingRequests = OrdMap.empty) :
    Inv { s with
      process := none
      pendingRequests := OrdMap.empty
      stopping := s.stopping - 1 } := by
  refine ⟨h.1.same rfl rfl rfl rfl hempty.symm rfl, ⟨?_, by nofun, fun _ => rfl⟩, h.2.2⟩
  rintro child (hgone | hchild)
  · exact h.2.1.spawned child (.inl hgone)
  · cases hchild

theorem Inv.exit (h : s.Inv) {child : Nat} (hchild : child < s.spawned) (status : ExitStatus) :
    Inv (if s.process = some child then
      RpcClient.fail { s with exited := s.exited ++ [child] } (s.createProcessExitError status)
    else { s with exited := s.exited ++ [child] }) := by
  have hspawned : ∀ c, c ∈ s.exited ++ [child] ∨ s.process = some c → c < s.spawned := by
    rintro c (hgone | hprocess)
    · rcases List.mem_append.mp hgone with hgone | hgone
      · exact h.2.1.spawned c (.inl hgone)
      · rwa [List.mem_singleton.mp hgone]
    · exact h.2.1.spawned c (.inr hprocess)
  have hrequests : Requests { s with
      exited := s.exited ++ [child]
      exitError := some (s.createProcessExitError status) } :=
    h.1.same rfl rfl rfl rfl rfl rfl
  split
  · exact ⟨hrequests.rejectPending _, ⟨hspawned, fun _ _ _ => rfl, fun _ => rfl⟩, h.2.2⟩
  · rename_i hother
    have hmem : ∀ c, s.process = some c → c ∈ s.exited ++ [child] → c ∈ s.exited := by
      intro c hprocess hgone
      rcases List.mem_append.mp hgone with hgone | hgone
      · exact hgone
      · rw [List.mem_singleton.mp hgone] at hprocess
        exact absurd hprocess hother
    refine ⟨h.1.same rfl rfl rfl rfl rfl rfl, ⟨hspawned, ?_, ?_⟩, h.2.2⟩
    · exact fun c hprocess hgone => h.2.1.gone c hprocess (hmem c hprocess hgone)
    · exact fun hended => h.2.1.ended fun c hprocess => hmem c hprocess (hended c hprocess)

end Steps

variable [DecidableEq L]

/-- Nothing is pending when `stop` ends, and no listener goes or throws while
one is still to be called. -/
def Undropped (s : RpcClient L) : RpcAct L → Prop
  | .stopped => s.pendingRequests = OrdMap.empty
  | .listeners act => s.emitter.Undisturbed act
  | _ => True

theorem Inv.step {s s' : RpcClient L} {act : RpcAct L} (h : s.Inv) (hok : s.Undropped act)
    (hstep : s.step act = some s') : s'.Inv := by
  unfold RpcClient.step at hstep
  split at hstep
  · cases hstep
  rename_i henabled
  cases act with
  | start =>
    obtain rfl := Option.some.inj hstep
    split
    · exact h
    · exact h.spawn
  | started exited =>
    obtain rfl := Option.some.inj hstep
    split
    · refine h.exitError _ fun herror => ?_
      obtain ⟨message, hmessage⟩ := Option.isSome_iff_exists.mp herror
      rw [hmessage]
      rfl
    · exact h
  | stop =>
    obtain rfl := Option.some.inj hstep
    exact h.stop
  | stopped =>
    obtain ⟨-, hs'⟩ := Option.ite_none_right_eq_some.mp hstep
    obtain rfl := Option.some.inj hs'
    exact h.stopped hok
  | send type child writeError =>
    obtain rfl := Option.some.inj hstep
    exact h.sent type child writeError
  | timeout send =>
    obtain ⟨t, ht, rfl⟩ := Option.map_eq_some_iff.mp hstep
    exact h.timeOut (List.mem_of_find?_eq_some ht)
  | exit child status =>
    obtain ⟨hchild, hs'⟩ := Option.ite_none_right_eq_some.mp hstep
    obtain rfl := Option.some.inj hs'
    exact h.exit hchild.1 status
  | processError child message =>
    obtain rfl := Option.some.inj hstep
    split
    · exact h.fail _
    · exact h
  | stdinError child message =>
    obtain rfl := Option.some.inj hstep
    split
    · exact h.fail _
    · exact h
  | stderr data =>
    obtain rfl := Option.some.inj hstep
    exact ⟨h.1.same rfl rfl rfl rfl rfl rfl,
      h.2.1.same rfl rfl rfl (fun herror => herror) fun _ hempty => hempty, h.2.2⟩
  | line child text =>
    obtain ⟨-, hs'⟩ := Option.ite_none_right_eq_some.mp hstep
    obtain rfl := Option.some.inj hs'
    refine h.handleLine ?_ text
    simpa [RpcAct.fromOutside] using henabled
  | listeners act =>
    have hact : ∃ emitter, s.emitter.step act = some emitter ∧ { s with emitter } = s' := by
      cases act with
      | emit event => cases hstep
      | _ => exact Option.map_eq_some_iff.mp hstep
    obtain ⟨emitter, hemitter, rfl⟩ := hact
    exact ⟨h.1.same rfl rfl rfl rfl rfl rfl,
      h.2.1.same rfl rfl rfl (fun herror => herror) fun _ hempty => hempty,
      h.2.2.step hok hemitter⟩

/-- Requests settle once and events come to every listener, those of the
client and those of a session, in every run of such steps. -/
theorem settles_and_delivers {E : Type} {s : RpcClient L} {session : SessionListeners L E}
    (h : Machine.Reaches step Undropped {} s)
    (hsession : Machine.Reaches Emitter.step Emitter.Undisturbed {} session) :
    s.Settles ∧ s.emitter.Delivers ∧ session.Delivers := by
  have hinv : s.Inv := h.invariant ⟨requests_start, children_start, Emitter.inv_start⟩
    fun _ _ _ hinv hok hstep => hinv.step hok hstep
  exact ⟨hinv.1.settles hinv.2.1, hinv.2.2.delivers, Emitter.delivers hsession⟩

/-! ## Runs -/

def runningChild : ChildView where
  hasStdin := true
  exited := none
  writable := true

def promptResponse : List (String × Json) :=
  [("type", .str "response"), ("id", .str "req_1"), ("success", .bool true)]

def agentSettled : List (String × Json) := [("type", .str "agent_settled")]

theorem reaches_line {ok : RpcClient L → RpcAct L → Prop} {start s : RpcClient L}
    (h : Machine.Reaches step ok start s) (child : Nat) {fields : List (String × Json)}
    (hok : ok s (.line child (Json.stringify (.obj fields))))
    (hfields : (Json.obj fields).Canonical) (hreader : child ∈ s.readers)
    (hidle : s.emitter.delivering = []) :
    Machine.Reaches step ok start (s.handleData (.obj fields)) := by
  refine h.tail hok ?_
  rw [step, hidle]
  refine (if_neg (by exact Bool.false_ne_true)).trans ((if_pos hreader).trans ?_)
  rw [handleLine, Json.parse_stringify hfields]

theorem canonical_promptResponse : (Json.obj promptResponse).Canonical :=
  ⟨by decide, trivial, trivial, trivial, trivial⟩

theorem canonical_agentSettled : (Json.obj agentSettled).Canonical :=
  ⟨by decide, trivial, trivial⟩

/-- A request with its response, and an event for two listeners. -/
theorem prompt_settles : ∃ s : RpcClient String, ∃ session : SessionListeners String String,
    Machine.Reaches step Undropped {} s ∧ s.settledSends = [0] ∧
      s.emitter.dueOf 0 = ["log", "waiter"] ∧ session.dueOf 0 = ["log"] ∧
        s.Settles ∧ s.emitter.Delivers ∧ session.Delivers := by
  have hsent : Machine.Reaches step Undropped ({} : RpcClient String) _ :=
    (((Machine.Reaches.refl.tail (a := .start) trivial rfl).tail
      (a := .listeners (.subscribe "log")) trivial rfl).tail
      (a := .listeners (.subscribe "waiter")) trivial rfl).tail
      (a := .send "prompt" runningChild none) trivial rfl
  have hresponse := reaches_line hsent 0 trivial canonical_promptResponse
    (List.mem_singleton_self 0) rfl
  have hevent := reaches_line hresponse 0 trivial canonical_agentSettled
    (List.mem_singleton_self 0) rfl
  have hcall : ∀ s : RpcClient String, s.Undropped (.listeners .call) := fun _ => trivial
  have hcalled := (hevent.tail (hcall _) rfl).tail (hcall _) rfl
  have hsession : Machine.Reaches Emitter.step Emitter.Undisturbed
      ({} : SessionListeners String String) _ :=
    ((Machine.Reaches.refl.tail (a := .subscribe "log") trivial rfl).tail
      (a := .emit "agent_start") (by rintro d hd; cases hd) rfl).tail (a := .call) trivial rfl
  exact ⟨_, _, hcalled, rfl, rfl, rfl, settles_and_delivers hcalled hsession⟩

/-- A waiter that goes when it is called makes the next listener miss the
event, and a request pending at the end of `stop` stays pending. -/
theorem events_missed_requests_dropped :
    (∃ s : RpcClient String, Machine.Reaches step (fun _ _ => True) {} s ∧
      ¬ s.emitter.Delivers) ∧
    ∃ s : RpcClient String, Machine.Reaches step (fun _ _ => True) {} s ∧ ¬ s.Settles := by
  constructor
  · have hstarted : Machine.Reaches step (fun _ _ => True) ({} : RpcClient String) _ :=
      ((Machine.Reaches.refl.tail (a := .start) trivial rfl).tail
        (a := .listeners (.subscribe "waiter")) trivial rfl).tail
        (a := .listeners (.subscribe "log")) trivial rfl
    have hevent := reaches_line hstarted 0 trivial canonical_agentSettled
      (List.mem_singleton_self 0) rfl
    have hcalled := hevent.tail (a := .listeners .call) trivial rfl
    have hreturned := (hcalled.tail (a := .listeners (.unsubscribe "waiter")) trivial rfl).tail
      (a := .listeners .return) trivial rfl
    refine ⟨_, hreturned, fun h => ?_⟩
    have hall := h.all 0 (by decide) (by intro d hd; cases hd)
    exact absurd hall (by decide)
  · have hsent : Machine.Reaches step (fun _ _ => True) ({} : RpcClient String) _ :=
      (Machine.Reaches.refl.tail (a := .start) trivial rfl).tail
        (a := .send "prompt" runningChild none) trivial rfl
    have hstopped := (hsent.tail (a := .stop) trivial rfl).tail (a := .stopped) trivial rfl
    refine ⟨_, hstopped, fun h => ?_⟩
    have hended := h.ended (by intro child hchild; cases hchild) 0 (by decide)
    exact absurd hended (by decide)

end RpcClient

end Eagent
