import Mathlib.Data.List.TakeWhile
import Eagent.JsonText
import Eagent.Machine
import Eagent.OrdMap
import Eagent.SessionManager
import Eagent.Splitting
import Eagent.Utf8Text

/-!
# Framing of ipc requests

One connection of `startIpcServer`. Until a stream handshake has been
answered the listener takes one line for each chunk, and goes on while the
handler is awaited; then another listener takes what is in the buffer, with
the next chunk. A line is taken when the handler is called for it.

What is written back to the client is left out.
-/

namespace Eagent.IpcServer

open Splitting SessionManager Utf8Text

/-! ## The code -/

inductive RequestLine where
  | invalid | rpcStream | other
deriving DecidableEq

/-- `parseRequestLine(line)` and the test of its type; `invalid` is what throws. -/
def parseRequestLine (line : List Char) : RequestLine :=
  match Json.parse line with
  | none => .invalid
  | some .null => .invalid
  | some (.obj fields) =>
      if OrdMap.lookupIn "type" fields = some (.str "rpc_stream") then .rpcStream else .other
  | some _ => .other

/-- The lines one stream has been given: `handled` by `handleRequest`, where
they parse, the others queued. -/
structure RpcStream where
  rpcRequestQueue : List (List Char)
  busy : Bool
  handled : List (List Char)
deriving DecidableEq

inductive Listener where
  | requests | rpc | removed
deriving DecidableEq

/-- `answering` has the positions in `taken` whose handler is awaited. -/
structure Connection where
  buffer : List Char
  listener : Listener
  taken : List (List Char)
  answering : List Nat
  streams : List RpcStream
deriving DecidableEq

/-- What the handler's promise comes to: for a handshake, `ready` says whether
`openRpcStream` returns a stream; anything else ends the connection. -/
inductive Answer where
  | ready (opened : Bool)
  | ended
deriving DecidableEq

namespace Connection

/-- The first listener, with the chunk in the buffer. -/
def takeLine (c : Connection) : Connection :=
  match c.buffer.dropWhile (· ≠ '\n') with
  | [] => c
  | _ :: rest =>
      let line := trimSpaces (c.buffer.takeWhile (· ≠ '\n'))
      let c := { c with buffer := rest }
      if line = [] then c
      else match parseRequestLine line with
        | .invalid => { c with taken := c.taken ++ [line] }
        | _ => { c with
            taken := c.taken ++ [line], answering := c.answering ++ [c.taken.length] }

def requestLines (text : List Char) : List (List Char) :=
  ((split (single '\n') text).1.map trimSpaces).filter fun line => line ≠ []

def queueLines (c : Connection) : Connection :=
  { c with
    buffer := (split (single '\n') c.buffer).2
    streams := c.streams.modify (c.streams.length - 1) fun stream =>
      { stream with rpcRequestQueue := stream.rpcRequestQueue ++ requestLines c.buffer } }

def onData (c : Connection) (chunk : List UInt8) : Connection :=
  match c.listener with
  | .requests => takeLine { c with buffer := c.buffer ++ decodeLossy chunk }
  | .rpc => queueLines { c with buffer := c.buffer ++ decodeLossy chunk }
  | .removed => c

def kindAt (c : Connection) (i : Nat) : Option RequestLine := c.taken[i]?.map parseRequestLine

/-- After the `await`. -/
def onAnswer (c : Connection) (i : Nat) (answer : Answer) : Connection :=
  let c := { c with answering := c.answering.erase i }
  if c.kindAt i = some .rpcStream then
    match answer with
    | .ready true => { c with listener := .rpc, streams := c.streams ++ [⟨[], false, []⟩] }
    | .ready false => { c with listener := .removed }
    | .ended => c
  else c

end Connection

open Connection

def RpcStream.handle (stream : RpcStream) : Option RpcStream :=
  match stream.rpcRequestQueue with
  | line :: rest =>
      if stream.busy then none
      else some
        { rpcRequestQueue := rest
          busy := (Json.parse line).isSome
          handled := stream.handled ++ [line] }
  | [] => none

inductive IpcAction where
  | data (chunk : List UInt8)
  | answer (i : Nat) (answer : Answer)
  | handle (j : Nat)
  | settle (j : Nat)
deriving DecidableEq

/-- A connection, and the bytes that have come over it. -/
structure Traffic where
  received : List UInt8
  connection : Connection
deriving DecidableEq

namespace Traffic

def start : Traffic := ⟨[], ⟨[], .requests, [], [], []⟩⟩

def step (t : Traffic) : IpcAction → Option Traffic
  | .data chunk => some ⟨t.received ++ chunk, t.connection.onData chunk⟩
  | .answer i answer =>
      if i ∈ t.connection.answering then
        some { t with connection := t.connection.onAnswer i answer }
      else none
  | .handle j =>
      match t.connection.streams[j]?.bind RpcStream.handle with
      | none => none
      | some stream => some { t with connection := { t.connection with
          streams := t.connection.streams.set j stream } }
  | .settle j =>
      match t.connection.streams[j]? with
      | none => none
      | some stream =>
          if stream.busy then some { t with connection := { t.connection with
            streams := t.connection.streams.set j { stream with busy := false } } }
          else none

end Traffic

/-! ## What framing is -/

namespace Connection

def Handshaking (c : Connection) : Prop :=
  c.listener = .requests ∧ c.kindAt (c.taken.length - 1) = some .rpcStream ∧
    c.taken.length - 1 ∈ c.answering

instance (c : Connection) : Decidable c.Handshaking := inferInstanceAs (Decidable (_ ∧ _ ∧ _))

/-- What the streams have been given. -/
def forwarded (c : Connection) : List (List Char) :=
  c.streams.flatMap fun stream => stream.handled ++ stream.rpcRequestQueue

end Connection

/-- Each line of the text has been taken, or forwarded when it came after the
handshake; lines wait only for the answer to a handshake. -/
structure Framed (text : List Char) (t : Traffic) : Prop where
  received : t.received = encode text
  lines : t.connection.taken ++ t.connection.forwarded ++ requestLines t.connection.buffer =
    requestLines text
  waiting : requestLines t.connection.buffer = [] ∨ t.connection.Handshaking
  one : t.connection.streams.length ≤ 1
  handshake : t.connection.streams ≠ [] →
    t.connection.kindAt (t.connection.taken.length - 1) = some .rpcStream

/-! ## When it is framed -/

/-- No request is left in the buffer once the first line of the text has been
taken, unless the text waits for the answer to a handshake. -/
def KeepsUp (c : Connection) (text : List Char) : Prop :=
  match text.dropWhile (· ≠ '\n') with
  | [] => True
  | _ :: rest =>
      requestLines rest = [] ∨
        if trimSpaces (text.takeWhile (· ≠ '\n')) = [] then c.Handshaking
        else parseRequestLine (trimSpaces (text.takeWhile (· ≠ '\n'))) = .rpcStream

/-- Chunks end where characters end. One line for each chunk before a
handshake is answered. A handshake is accepted before another line is taken,
and no line waits when it is answered. No line ends without a listener. -/
def Meets (t : Traffic) : IpcAction → Prop
  | .data chunk =>
      (∃ text, chunk = encode text) ∧
        match t.connection.listener with
        | .requests => KeepsUp t.connection (t.connection.buffer ++ decodeLossy chunk)
        | .rpc => True
        | .removed => requestLines
            ((split (single '\n') (decodeLossy t.received)).2 ++ decodeLossy chunk) = []
  | .answer i answer =>
      (t.connection.kindAt i = some .rpcStream → answer ≠ .ended →
        i + 1 = t.connection.taken.length) ∧
      (i + 1 = t.connection.taken.length → requestLines t.connection.buffer = [])
  | .handle _ => True
  | .settle _ => True

/-! ## Lines -/

theorem requestLines_of_notMem {text : List Char} (h : '\n' ∉ text) : requestLines text = [] := by
  rw [requestLines, split_single_of_notMem '\n' h]
  rfl

theorem requestLines_append (text more : List Char) :
    requestLines (text ++ more) =
      requestLines text ++ requestLines ((split (single '\n') text).2 ++ more) := by
  rw [requestLines, split_append, List.map_append, List.filter_append]
  rfl

theorem requestLines_rest (text : List Char) :
    requestLines (split (single '\n') text).2 = [] :=
  requestLines_of_notMem (notMem_split_single '\n' text)

theorem requestLines_line {line : List Char} (h : '\n' ∉ line) (rest : List Char) :
    requestLines (line ++ '\n' :: rest) =
      (if trimSpaces line = [] then [] else [trimSpaces line]) ++ requestLines rest := by
  rw [requestLines, split_single_append '\n' h, List.map_cons, List.filter_cons]
  by_cases hblank : trimSpaces line = []
  · rw [if_pos hblank, if_neg (by simpa using hblank)]
    rfl
  · rw [if_neg hblank, if_pos (by simpa using hblank)]
    rfl

theorem split_line {line : List Char} (h : '\n' ∉ line) (rest : List Char) :
    (split (single '\n') (line ++ '\n' :: rest)).2 = (split (single '\n') rest).2 := by
  rw [split_single_append '\n' h]

theorem cut_line (text : List Char) :
    (text.dropWhile (· ≠ '\n') = [] ∧ '\n' ∉ text) ∨
      ∃ rest, text.dropWhile (· ≠ '\n') = '\n' :: rest ∧
        text = text.takeWhile (· ≠ '\n') ++ '\n' :: rest ∧
        '\n' ∉ text.takeWhile (· ≠ '\n') := by
  have hline : '\n' ∉ text.takeWhile (· ≠ '\n') := by
    intro hmem
    have hne := List.mem_takeWhile_imp hmem
    exact absurd rfl (of_decide_eq_true hne)
  have hwhole := List.takeWhile_append_dropWhile (p := (· ≠ '\n')) (l := text)
  rcases hrest : text.dropWhile (· ≠ '\n') with _ | ⟨c, rest⟩
  · refine .inl ⟨rfl, ?_⟩
    rw [hrest, List.append_nil] at hwhole
    rwa [hwhole] at hline
  · have hc : c = '\n' := by
      have hhead := List.head?_dropWhile_not (· ≠ '\n') text
      rw [hrest] at hhead
      simpa using hhead
    subst hc
    rw [hrest] at hwhole
    exact .inr ⟨rest, rfl, hwhole.symm, hline⟩

/-! ## One line -/

section

variable {c : Connection} {rest : List Char}

theorem takeLine_none (hcut : c.buffer.dropWhile (· ≠ '\n') = []) : c.takeLine = c := by
  rw [takeLine, hcut]

theorem takeLine_blank (hcut : c.buffer.dropWhile (· ≠ '\n') = '\n' :: rest)
    (hblank : trimSpaces (c.buffer.takeWhile (· ≠ '\n')) = []) :
    c.takeLine = { c with buffer := rest } := by
  rw [takeLine, hcut]
  dsimp only
  rw [if_pos hblank]

theorem takeLine_line (hcut : c.buffer.dropWhile (· ≠ '\n') = '\n' :: rest) {line : List Char}
    (hline : trimSpaces (c.buffer.takeWhile (· ≠ '\n')) = line) (hne : line ≠ []) :
    c.takeLine = { c with
      buffer := rest
      taken := c.taken ++ [line]
      answering := if parseRequestLine line = .invalid then c.answering
        else c.answering ++ [c.taken.length] } := by
  rw [takeLine, hcut]
  dsimp only
  rw [hline, if_neg hne]
  cases parseRequestLine line <;> rfl

theorem kindAt_last (taken : List (List Char)) (line : List Char) (buffer : List Char)
    (listener : Listener) (answering : List Nat) (streams : List RpcStream) :
    (Connection.mk buffer listener (taken ++ [line]) answering streams).kindAt taken.length =
      some (parseRequestLine line) := by
  rw [Connection.kindAt, List.getElem?_concat_length]
  rfl

end

/-! ## The invariant -/

structure Invariant (text : List Char) (t : Traffic) : Prop extends Framed text t where
  rest : t.connection.listener ≠ .removed →
    (split (single '\n') t.connection.buffer).2 = (split (single '\n') text).2
  nodup : t.connection.answering.Nodup
  bound : ∀ i ∈ t.connection.answering, i < t.connection.taken.length
  requests : t.connection.listener = .requests → t.connection.streams = []
  rpc : t.connection.listener = .rpc → t.connection.streams ≠ []
  answered : t.connection.listener ≠ .requests →
    t.connection.taken.length - 1 ∉ t.connection.answering

theorem Invariant.start : Invariant [] .start where
  received := rfl
  lines := by
    rw [show requestLines [] = [] from requestLines_of_notMem List.not_mem_nil]
    exact requestLines_of_notMem List.not_mem_nil
  waiting := .inl (requestLines_of_notMem List.not_mem_nil)
  one := Nat.zero_le 1
  handshake h := absurd rfl h
  rest _ := rfl
  nodup := List.nodup_nil
  bound _ h := nomatch h
  requests _ := rfl
  rpc h := nomatch h
  answered h := absurd rfl h

/-! ## Chunks -/

section

variable {text : List Char} {t : Traffic}

theorem Invariant.more (h : Invariant text t) (hl : t.connection.listener ≠ .removed)
    (more : List Char) :
    t.connection.taken ++ t.connection.forwarded ++
        requestLines (t.connection.buffer ++ more) = requestLines (text ++ more) ∧
      (split (single '\n') (t.connection.buffer ++ more)).2 =
        (split (single '\n') (text ++ more)).2 := by
  constructor
  · rw [requestLines_append, requestLines_append text, ← h.lines, h.rest hl]
    simp only [List.append_assoc]
  · rw [split_append, split_append _ text, h.rest hl]

theorem received_more (h : t.received = encode text) (more : List Char) :
    t.received ++ encode more = encode (text ++ more) := by
  rw [h, encode, encode, encode, List.flatMap_append]

theorem lines_of_requests {c : Connection} (h : c.streams = []) (x : List (List Char)) :
    c.taken ++ c.forwarded ++ x = c.taken ++ x := by
  rw [forwarded, h, List.flatMap_nil, List.append_nil]

theorem Invariant.takeLine (h : Invariant text t) (hl : t.connection.listener = .requests)
    (more : List Char) (hkeeps : KeepsUp t.connection (t.connection.buffer ++ more)) :
    Invariant (text ++ more) ⟨t.received ++ encode more,
      Connection.takeLine { t.connection with buffer := t.connection.buffer ++ more }⟩ := by
  obtain ⟨hlines, hrest⟩ := h.more (by rw [hl]; decide) more
  have hstreams := h.requests hl
  rw [lines_of_requests hstreams] at hlines
  rcases cut_line (t.connection.buffer ++ more) with ⟨hcut, hnone⟩ | ⟨rest, hcut, hwhole, hline⟩
  · rw [takeLine_none hcut]
    exact ⟨⟨received_more h.received more, (lines_of_requests hstreams _).trans hlines,
      .inl (requestLines_of_notMem hnone), h.one, h.handshake⟩, fun _ => hrest, h.nodup, h.bound,
      h.requests, h.rpc, h.answered⟩
  · rw [KeepsUp, hcut] at hkeeps
    dsimp only at hkeeps
    rw [hwhole, requestLines_line hline] at hlines
    rw [hwhole, split_line hline] at hrest
    by_cases hblank : trimSpaces ((t.connection.buffer ++ more).takeWhile (· ≠ '\n')) = []
    · rw [takeLine_blank hcut hblank]
      rw [if_pos hblank, List.nil_append] at hlines
      rw [if_pos hblank] at hkeeps
      exact ⟨⟨received_more h.received more, (lines_of_requests hstreams _).trans hlines, hkeeps,
        h.one, h.handshake⟩, fun _ => hrest, h.nodup, h.bound, h.requests, h.rpc, h.answered⟩
    · rw [takeLine_line hcut rfl hblank]
      rw [if_neg hblank] at hlines hkeeps
      have hposition : ∀ line, (t.connection.taken ++ [line]).length - 1 =
          t.connection.taken.length := fun line => by rw [List.length_append]; rfl
      refine ⟨⟨received_more h.received more, ?_, ?_, h.one, fun hne => absurd hstreams hne⟩,
        fun _ => hrest, ?_, ?_, fun _ => hstreams, (fun hrpc => ?_), fun hne => absurd hl hne⟩
      · have hnone : t.connection.forwarded = [] := by rw [forwarded, hstreams]; rfl
        change (t.connection.taken ++ [_]) ++ t.connection.forwarded ++ _ = _
        rw [hnone, List.append_nil, List.append_assoc]
        exact hlines
      · refine hkeeps.imp_right fun hstream => ⟨hl, ?_, ?_⟩
        · rw [hposition, kindAt_last, hstream]
        · rw [hposition, hstream]
          exact List.mem_append_right _ (List.mem_singleton_self _)
      · dsimp only
        split
        · exact h.nodup
        · refine h.nodup.append (List.nodup_singleton _) ?_
          simpa using fun hmem => (h.bound _ hmem).ne rfl
      · intro i hi
        rw [List.length_append, List.length_singleton]
        dsimp only at hi
        split at hi
        · exact Nat.lt_succ_of_lt (h.bound i hi)
        · rcases List.mem_append.mp hi with hi | hi
          · exact Nat.lt_succ_of_lt (h.bound i hi)
          · rw [List.mem_singleton.mp hi]
            exact Nat.lt_succ_self _
      · cases hl.symm.trans hrpc

theorem Invariant.stream (h : Invariant text t) (hne : t.connection.streams ≠ []) :
    ∃ stream, t.connection.streams = [stream] := by
  rcases hstreams : t.connection.streams with _ | ⟨stream, _ | ⟨other, more⟩⟩
  · exact absurd hstreams hne
  · exact ⟨stream, rfl⟩
  · have hone := h.one
    rw [hstreams, List.length_cons, List.length_cons] at hone
    omega

theorem Invariant.queueLines (h : Invariant text t) (hl : t.connection.listener = .rpc)
    (more : List Char) :
    Invariant (text ++ more) ⟨t.received ++ encode more,
      Connection.queueLines { t.connection with buffer := t.connection.buffer ++ more }⟩ := by
  obtain ⟨hlines, hrest⟩ := h.more (by rw [hl]; decide) more
  obtain ⟨stream, hstream⟩ := h.stream (h.rpc hl)
  have hlast := h.handshake (h.rpc hl)
  obtain ⟨received, buffer, listener, taken, answering, streams⟩ := t
  dsimp only at hl hstream hlines hrest hlast
  subst hl hstream
  refine ⟨⟨received_more h.received more, ?_, .inl (requestLines_rest _), Nat.le_refl 1,
    fun _ => hlast⟩, fun _ => ?_, h.nodup, h.bound, (fun hl => nomatch hl), fun _ => ?_,
    h.answered⟩
  · rw [← hlines]
    simp [Connection.queueLines, forwarded, requestLines_rest]
  · rw [← hrest]
    change (split (single '\n') (split (single '\n') (buffer ++ more)).2).2 = _
    rw [split_single_of_notMem '\n' (notMem_split_single '\n' _)]
  · exact List.cons_ne_nil _ _

theorem Invariant.unheard (h : Invariant text t) (hl : t.connection.listener = .removed)
    {more : List Char}
    (hmore : requestLines ((split (single '\n') text).2 ++ more) = []) :
    Invariant (text ++ more) ⟨t.received ++ encode more, t.connection⟩ := by
  refine ⟨⟨received_more h.received more, ?_, h.waiting, h.one, h.handshake⟩,
    fun hne => absurd hl hne, h.nodup, h.bound, h.requests, h.rpc, h.answered⟩
  rw [requestLines_append, hmore, List.append_nil]
  exact h.lines

/-! ## Answers -/

theorem Invariant.settled (h : Invariant text t) {i : Nat}
    (hheld : i + 1 = t.connection.taken.length → requestLines t.connection.buffer = []) :
    Invariant text { t with connection := { t.connection with
      answering := t.connection.answering.erase i } } := by
  refine ⟨⟨h.received, h.lines, ?_, h.one, h.handshake⟩, h.rest, h.nodup.erase i,
    fun j hj => h.bound j (List.mem_of_mem_erase hj), h.requests, h.rpc,
    fun hne hmem => h.answered hne (List.mem_of_mem_erase hmem)⟩
  rcases h.waiting with hnone | ⟨hlistener, hkind, hmem⟩
  · exact .inl hnone
  · by_cases hlast : i + 1 = t.connection.taken.length
    · exact .inl (hheld hlast)
    · have hbound := h.bound _ hmem
      have hne : t.connection.taken.length - 1 ≠ i := by omega
      exact .inr ⟨hlistener, hkind, (List.mem_erase_of_ne hne).mpr hmem⟩

theorem Invariant.lastAnswered (h : Invariant text t) {i : Nat}
    (hi : i ∈ t.connection.answering) (hlast : i + 1 = t.connection.taken.length) :
    t.connection.listener = .requests ∧ t.connection.streams = [] ∧
      t.connection.taken.length - 1 ∉ t.connection.answering.erase i := by
  have hposition : t.connection.taken.length - 1 = i := by omega
  have hlistener : t.connection.listener = .requests := by
    by_contra hne
    exact h.answered hne (hposition ▸ hi)
  exact ⟨hlistener, h.requests hlistener, hposition ▸ h.nodup.not_mem_erase⟩

theorem Invariant.onAnswer (h : Invariant text t) {i : Nat} (hi : i ∈ t.connection.answering)
    {answer : Answer} (hmeets : Meets t (.answer i answer)) :
    Invariant text { t with connection := t.connection.onAnswer i answer } := by
  obtain ⟨haccepted, hheld⟩ := hmeets
  have hsettled := h.settled hheld
  unfold Connection.onAnswer
  dsimp only
  split
  · rename_i hkind
    have hkind' : t.connection.kindAt i = some .rpcStream := hkind
    cases answer with
    | ended => exact hsettled
    | ready opened =>
      have hlast := haccepted hkind' (by simp)
      obtain ⟨hlistener, hstreams, hanswered⟩ := h.lastAnswered hi hlast
      have hposition : t.connection.taken.length - 1 = i := by omega
      cases opened with
      | true =>
        refine ⟨⟨h.received, ?_, .inl (hheld hlast), ?_, fun _ => ?_⟩, fun _ => h.rest
          (by rw [hlistener]; decide), hsettled.nodup, hsettled.bound, (fun hl => nomatch hl),
          fun _ => ?_, fun _ => hanswered⟩
        · refine Eq.trans ?_ h.lines
          simp [forwarded, hstreams]
        · simp [hstreams]
        · dsimp only
          rw [hposition]
          exact hkind'
        · simp
      | false =>
        exact ⟨⟨h.received, h.lines, .inl (hheld hlast), h.one, h.handshake⟩,
          fun hne => absurd rfl hne, hsettled.nodup, hsettled.bound, (fun hl => nomatch hl),
          (fun hl => nomatch hl), fun _ => hanswered⟩
  · exact hsettled

/-! ## The queue of a stream -/

/-- A stream goes on, with the same lines in the same order. -/
theorem Invariant.setStream (h : Invariant text t) {j : Nat} {stream stream' : RpcStream}
    (hj : t.connection.streams[j]? = some stream)
    (hsame : stream'.handled ++ stream'.rpcRequestQueue =
      stream.handled ++ stream.rpcRequestQueue) :
    Invariant text { t with connection := { t.connection with
      streams := t.connection.streams.set j stream' } } := by
  have hne : t.connection.streams ≠ [] := by
    rintro hnil
    rw [hnil] at hj
    cases hj
  obtain ⟨only, honly⟩ := h.stream hne
  rw [honly] at hj
  obtain rfl : j = 0 := by
    have hlt := (List.getElem?_eq_some_iff.mp hj).1
    rw [List.length_singleton] at hlt
    omega
  obtain rfl := Option.some.inj hj
  have hset : t.connection.streams.set 0 stream' = [stream'] := by rw [honly]; rfl
  rw [hset]
  refine ⟨⟨h.received, ?_, h.waiting, Nat.le_refl 1, fun _ => h.handshake hne⟩, h.rest, h.nodup,
    h.bound, fun hl => absurd (h.requests hl) hne, fun _ => List.cons_ne_nil _ _, h.answered⟩
  refine Eq.trans ?_ h.lines
  simp [forwarded, honly, hsame]

theorem handled_of_handle {stream stream' : RpcStream} (h : stream.handle = some stream') :
    stream'.handled ++ stream'.rpcRequestQueue = stream.handled ++ stream.rpcRequestQueue := by
  unfold RpcStream.handle at h
  split at h
  · rename_i line rest hqueue
    split at h
    · cases h
    · obtain rfl := Option.some.inj h
      rw [hqueue]
      exact List.append_assoc _ _ _
  · cases h

/-! ## Runs -/

theorem Invariant.step {t' : Traffic} (h : Invariant text t) {action : IpcAction}
    (hmeets : Meets t action) (hstep : t.step action = some t') :
    ∃ text', Invariant text' t' := by
  cases action with
  | data chunk =>
    obtain rfl := Option.some.inj hstep
    obtain ⟨⟨more, rfl⟩, hlistener⟩ := hmeets
    rw [decodeLossy_encode] at hlistener
    refine ⟨text ++ more, ?_⟩
    rw [onData, decodeLossy_encode]
    split
    · rename_i hl
      rw [hl] at hlistener
      exact h.takeLine hl more hlistener
    · rename_i hl
      exact h.queueLines hl more
    · rename_i hl
      rw [hl, h.received, decodeLossy_encode] at hlistener
      exact h.unheard hl hlistener
  | answer i answer =>
    rw [Traffic.step] at hstep
    split at hstep
    · rename_i hi
      obtain rfl := Option.some.inj hstep
      exact ⟨text, h.onAnswer hi hmeets⟩
    · cases hstep
  | handle j =>
    rw [Traffic.step] at hstep
    split at hstep
    · cases hstep
    · rename_i stream' hhandle
      obtain rfl := Option.some.inj hstep
      obtain ⟨stream, hj, hhandled⟩ := Option.bind_eq_some_iff.mp hhandle
      exact ⟨text, h.setStream hj (handled_of_handle hhandled)⟩
  | settle j =>
    rw [Traffic.step] at hstep
    split at hstep
    · cases hstep
    · rename_i stream hj
      split at hstep
      · obtain rfl := Option.some.inj hstep
        exact ⟨text, h.setStream hj rfl⟩
      · cases hstep

/-- Every state of such a run is framed. -/
theorem requests_framed (h : Machine.Reaches Traffic.step Meets .start t) :
    ∃ text, Framed text t := by
  obtain ⟨text, hinvariant⟩ := h.invariant (I := fun t => ∃ text, Invariant text t)
    ⟨[], .start⟩ fun _ _ _ ⟨_, hinvariant⟩ hmeets hstep => hinvariant.step hmeets hstep
  exact ⟨text, hinvariant.toFramed⟩

end

/-! ### A handshake, and a line behind it -/

def handshakeJson : Json := .obj [("type", .str "rpc_stream"), ("instanceId", .str "a")]

def handshakeLine : List Char := handshakeJson.stringify

def promptLine : List Char := (Json.obj [("type", .str "prompt"), ("message", .str "é")]).stringify

theorem canonical_handshake : handshakeJson.Canonical := by
  simp [handshakeJson, Json.Canonical, Json.CanonicalFields]

theorem parse_handshake : parseRequestLine handshakeLine = .rpcStream := by
  rw [parseRequestLine, handshakeLine, Json.parse_stringify canonical_handshake]
  rfl

theorem whole_handshake : ∀ c ∈ handshakeLine, decide (c ≠ '\n') = true := by
  intro c hc
  refine decide_eq_true fun heq => ?_
  exact Json.stringify_no_newline canonical_handshake (heq ▸ hc)

theorem requestLines_prompt : requestLines (promptLine ++ ['\n']) = [promptLine] := by
  have hblank : requestLines [] = [] := requestLines_of_notMem List.not_mem_nil
  rw [requestLines_line (by decide +kernel), hblank, List.append_nil]
  decide +kernel

theorem cut_handshake (rest : List Char) :
    (handshakeLine ++ '\n' :: rest).dropWhile (· ≠ '\n') = '\n' :: rest := by
  rw [List.dropWhile_append_of_pos whole_handshake]
  rfl

/-- The handshake has been taken. -/
def greeted (rest : List Char) : Traffic :=
  ⟨encode (handshakeLine ++ '\n' :: rest), ⟨rest, .requests, [handshakeLine], [0], []⟩⟩

theorem step_greeted (rest : List Char) :
    Traffic.start.step (.data (encode (handshakeLine ++ '\n' :: rest))) =
      some (greeted rest) := by
  have hline : trimSpaces ((handshakeLine ++ '\n' :: rest).takeWhile (· ≠ '\n')) =
      handshakeLine := by
    have hwhole : (handshakeLine ++ '\n' :: rest).takeWhile (· ≠ '\n') = handshakeLine := by
      rw [List.takeWhile_append_of_pos whole_handshake]
      exact List.append_nil _
    rw [hwhole]
    decide +kernel
  rw [Traffic.step, Traffic.start, onData, decodeLossy_encode]
  dsimp only
  rw [takeLine_line (cut_handshake rest) hline (by decide +kernel), parse_handshake]
  rfl

/-- The stream is open. -/
def opened (rest : List Char) : Traffic :=
  ⟨encode (handshakeLine ++ '\n' :: rest), ⟨rest, .rpc, [handshakeLine], [], [⟨[], false, []⟩]⟩⟩

theorem step_opened (rest : List Char) :
    (greeted rest).step (.answer 0 (.ready true)) = some (opened rest) := by
  have hat : (greeted rest).connection.kindAt 0 = some .rpcStream := congrArg some parse_handshake
  have hanswer : (greeted rest).connection.onAnswer 0 (.ready true) = (opened rest).connection := by
    rw [onAnswer]
    exact if_pos hat
  have hawaited : 0 ∈ (greeted rest).connection.answering := List.mem_singleton_self 0
  rw [Traffic.step, if_pos hawaited, hanswer]
  rfl

def forwardedTraffic : Traffic :=
  ⟨encode (handshakeLine ++ ['\n']) ++ encode (promptLine ++ ['\n']),
    ⟨[], .rpc, [handshakeLine], [], [⟨[promptLine], false, []⟩]⟩⟩

theorem step_forwarded :
    (opened []).step (.data (encode (promptLine ++ ['\n']))) = some forwardedTraffic := by
  have hrest : (split (single '\n') (promptLine ++ ['\n'])).2 = [] := by
    rw [split_line (by decide +kernel), split_nil]
  rw [Traffic.step, onData, decodeLossy_encode]
  dsimp only [opened]
  rw [queueLines, List.nil_append, hrest, requestLines_prompt]
  rfl

theorem requests_framed_forwarded : ∃ text, Framed text forwardedTraffic := by
  have hblank : requestLines [] = [] := requestLines_of_notMem List.not_mem_nil
  have hgreeted : Meets .start (.data (encode (handshakeLine ++ ['\n']))) := by
    have hkeeps : KeepsUp Traffic.start.connection (handshakeLine ++ ['\n']) := by
      rw [KeepsUp, cut_handshake]
      exact .inl hblank
    refine ⟨⟨_, rfl⟩, ?_⟩
    rw [decodeLossy_encode]
    exact hkeeps
  have hopened : Meets (greeted []) (.answer 0 (.ready true)) :=
    ⟨fun _ _ => rfl, fun _ => hblank⟩
  have hforwarded : Meets (opened []) (.data (encode (promptLine ++ ['\n']))) :=
    ⟨⟨_, rfl⟩, trivial⟩
  exact requests_framed (((Machine.Reaches.refl.tail hgreeted (step_greeted [])).tail hopened
    (step_opened [])).tail hforwarded step_forwarded)

theorem handshake_holds_line :
    ∃ t, Machine.Reaches Traffic.step (fun _ _ => True) .start t ∧ ∀ text, ¬ Framed text t := by
  refine ⟨opened (promptLine ++ ['\n']),
    (Machine.Reaches.refl.tail trivial (step_greeted _)).tail trivial (step_opened _), ?_⟩
  intro text h
  rcases h.waiting with hnone | ⟨hlistener, -⟩
  · cases requestLines_prompt.symm.trans hnone
  · cases hlistener

end Eagent.IpcServer
