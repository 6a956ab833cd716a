import RaftStorage.Library.Exchange
import RaftStorage.Library.Transition
import RaftStorage.Rpc.Framing

/-! Calls of `MprpcChannel::CallMethod` from several threads. They share `m_clientFd` without a lock,
and a reply does not say which request it answers. A step is what a thread does up to its next system
call; another thread can run before each of them. -/

namespace RaftStorage
open Library

/-- Where a call stands, and once its request is sent, on which connection and behind how many
others. -/
inductive CallPoint where
  | connecting
  | sending
  | closing
  | sent (conn place : ℕ)
  | receiving (conn place : ℕ) (fd : Option ℕ)
  | failed
  | returned (conn place : ℕ) (parsed : Bytes)

structure Call where
  request : Dispatch
  point : CallPoint

/-- The channel with its connections, and the calls that were made through it. A descriptor is the
number of its connection, and `none` is -1. -/
structure MprpcChannel where
  clientFd : Option ℕ
  conns : List (Exchange ℕ UInt8)
  calls : List Call

/-- The last three are steps of the provider and the network. -/
inductive ChannelAction where
  | callMethod (request : Dispatch)
  | newConnect (q : ℕ) (rt : Bool)
  | send (q : ℕ) (success : Bool)
  | close (q : ℕ)
  | enterRecv (q : ℕ)
  | recv (q : ℕ)
  | recvError (q : ℕ)
  | answer (fd : ℕ) (reply : Bytes)
  | arrive (fd size : ℕ)
  | shutdown (fd : ℕ)

structure PendingRecv where
  request : Dispatch
  conn : ℕ
  place : ℕ
  fd : ℕ
  stream : Exchange ℕ UInt8

namespace MprpcChannel

variable {parseFromArray : Dispatch → Bytes → Bool} {s s' : MprpcChannel} {a : ChannelAction}
  {q fd conn place : ℕ} {point : CallPoint} {e : Exchange ℕ UInt8}

/-- The constructor, and whether one of its attempts to connect succeeded. -/
def create (connected : Bool) : MprpcChannel :=
  if connected then ⟨some 0, [.create], []⟩ else ⟨none, [], []⟩

def pointOf (s : MprpcChannel) (q : ℕ) : Option CallPoint := s.calls[q]?.map Call.point

def setPoint (s : MprpcChannel) (q : ℕ) (point : CallPoint) : MprpcChannel :=
  { s with calls := s.calls.modify q fun call => { call with point := point } }

def onConn (s : MprpcChannel) (fd : ℕ) (f : Exchange ℕ UInt8 → Exchange ℕ UInt8) : MprpcChannel :=
  { s with conns := s.conns.modify fd f }

/-- `newConnect` ends with the new descriptor in `m_clientFd`, or with -1. -/
def connect (s : MprpcChannel) (rt : Bool) : MprpcChannel :=
  if rt then { s with clientFd := some s.conns.length, conns := s.conns ++ [.create] }
  else { s with clientFd := none }

def closeFd (s : MprpcChannel) : MprpcChannel := { s with clientFd := none }

def pendingRecv (s : MprpcChannel) (q : ℕ) : Option PendingRecv :=
  match s.calls[q]? with
  | some ⟨request, .receiving conn place (some fd)⟩ =>
    s.conns[fd]?.map fun stream => ⟨request, conn, place, fd, stream⟩
  | _ => none

/-- One round of the loop around `send`. A request is given to the connection as a whole. -/
def sendStep (s : MprpcChannel) (q : ℕ) (request : Dispatch) (success : Bool) : MprpcChannel :=
  match callMethodFrame request.service request.method request.args with
  | none => s.setPoint q .failed
  | some _ =>
    match s.clientFd.bind (s.conns[·]?), s.clientFd, success with
    | some stream, some fd, true =>
      (s.onConn fd (·.send q)).setPoint q (.sent fd stream.requests.length)
    | _, _, _ => s.setPoint q .closing

/-- `recv` returns, with no bytes when the other side has closed the connection. A `recv` under way
is not stopped by a `close` of another thread. -/
def recvStep (parseFromArray : Dispatch → Bytes → Bool) (s : MprpcChannel) (q : ℕ)
    (r : PendingRecv) : MprpcChannel :=
  let recvBuf := (r.stream.read 1024).1
  (s.onConn r.fd fun stream => (stream.read 1024).2).setPoint q
    (if parseFromArray r.request recvBuf then .returned r.conn r.place recvBuf else .failed)

def step (parseFromArray : Dispatch → Bytes → Bool) (s : MprpcChannel) :
    ChannelAction → MprpcChannel
  | .callMethod request =>
    { s with calls := s.calls ++ [⟨request, if s.clientFd = none then .connecting else .sending⟩] }
  | .newConnect q rt =>
    match s.pointOf q with
    | some .connecting => (s.connect rt).setPoint q (if rt then .sending else .failed)
    | _ => s
  | .send q success =>
    match s.calls[q]? with
    | some ⟨request, .sending⟩ => s.sendStep q request success
    | _ => s
  | .close q =>
    match s.pointOf q with
    | some .closing => s.closeFd.setPoint q .connecting
    | _ => s
  | .enterRecv q =>
    match s.pointOf q with
    | some (.sent conn place) => s.setPoint q (.receiving conn place s.clientFd)
    | _ => s
  | .recv q =>
    match s.pendingRecv q with
    | some r => if r.stream.Ready then s.recvStep parseFromArray q r else s
    | none => s
  | .recvError q =>
    match s.pointOf q with
    | some (.receiving _ _ _) => s.closeFd.setPoint q .failed
    | _ => s
  | .answer fd reply => s.onConn fd (·.answer reply)
  | .arrive fd size => s.onConn fd (·.arrive size)
  | .shutdown fd => s.onConn fd (·.close)

/-! ## Requests and replies keep their places -/

def Requested (s : MprpcChannel) (conn place q : ℕ) : Prop :=
  ∃ e, s.conns[conn]? = some e ∧ e.RequestAt place q

def Replied (s : MprpcChannel) (conn place : ℕ) (reply : Bytes) : Prop :=
  ∃ e, s.conns[conn]? = some e ∧ e.ReplyAt place reply

def Grows (s s' : MprpcChannel) : Prop :=
  ∀ (i : ℕ) (e : Exchange ℕ UInt8), s.conns[i]? = some e → ∃ e', s'.conns[i]? = some e' ∧ e.Grows e'

theorem Requested.mono (h : s.Grows s') (hq : s.Requested conn place q) :
    s'.Requested conn place q := by
  obtain ⟨e, he, hat⟩ := hq
  obtain ⟨e', he', hgrows⟩ := h conn e he
  exact ⟨e', he', hat.mono hgrows⟩

theorem Replied.mono {reply : Bytes} (h : s.Grows s') (hr : s.Replied conn place reply) :
    s'.Replied conn place reply := by
  obtain ⟨e, he, hat⟩ := hr
  obtain ⟨e', he', hgrows⟩ := h conn e he
  exact ⟨e', he', hat.mono hgrows⟩

def Placed (s : MprpcChannel) (q : ℕ) : CallPoint → Prop
  | .sent conn place => s.Requested conn place q
  | .receiving conn place _ => s.Requested conn place q
  | .returned conn place parsed => s.Requested conn place q ∧ s.Replied conn place parsed
  | _ => True

theorem Placed.mono (h : s.Grows s') (hp : s.Placed q point) : s'.Placed q point := by
  cases point with
  | sent conn place => exact Requested.mono h hp
  | receiving conn place fd => exact Requested.mono h hp
  | returned conn place parsed => exact ⟨hp.1.mono h, hp.2.mono h⟩
  | _ => trivial

structure Sound (s : MprpcChannel) : Prop where
  aligned : ∀ (i : ℕ) (e : Exchange ℕ UInt8), s.conns[i]? = some e → e.Aligned
  placed : ∀ q point, s.pointOf q = some point → s.Placed q point

theorem sound_create (connected : Bool) : (create connected).Sound := by
  cases connected with
  | false => exact ⟨fun i e he => by simp [create] at he, fun q p hp => by simp [create, pointOf] at hp⟩
  | true =>
    refine ⟨fun i e he => ?_, fun q p hp => by simp [create, pointOf] at hp⟩
    have hmem : e ∈ [(Exchange.create : Exchange ℕ UInt8)] := List.mem_of_getElem? he
    rw [List.mem_singleton.mp hmem]
    exact Exchange.aligned_create

theorem pointOf_setPoint {q' : ℕ} {point' : CallPoint}
    (h : (s.setPoint q point).pointOf q' = some point') :
    q' = q ∧ point' = point ∨ s.pointOf q' = some point' := by
  simp only [pointOf, setPoint, List.getElem?_modify, Option.map_eq_map, Option.map_map] at h ⊢
  by_cases heq : q = q'
  · refine Or.inl ⟨heq.symm, ?_⟩
    obtain ⟨call, -, hcall⟩ := Option.map_eq_some_iff.mp h
    simpa [heq] using hcall.symm
  · refine Or.inr ?_
    simpa [heq] using h

theorem pointOf_append {call : Call}
    (h : pointOf { s with calls := s.calls ++ [call] } q = some point) :
    point = call.point ∨ s.pointOf q = some point := by
  obtain ⟨c, hc, rfl⟩ := Option.map_eq_some_iff.mp h
  rcases Nat.lt_or_ge q s.calls.length with hlt | hge
  · rw [List.getElem?_append_left hlt] at hc
    exact Or.inr (by rw [pointOf, hc]; rfl)
  · rw [List.getElem?_append_right hge] at hc
    exact Or.inl (congrArg Call.point (List.mem_singleton.mp (List.mem_of_getElem? hc)))

theorem Sound.setPoint (h : s.Sound) (hp : s.Placed q point) : (s.setPoint q point).Sound := by
  refine ⟨h.aligned, fun q' point' hpoint => ?_⟩
  rcases pointOf_setPoint hpoint with ⟨rfl, rfl⟩ | hold
  · exact hp
  · exact h.placed q' point' hold

theorem conns_onConn {f : Exchange ℕ UInt8 → Exchange ℕ UInt8} (he : s.conns[fd]? = some e) :
    (s.onConn fd f).conns[fd]? = some (f e) := by
  simp [onConn, he]

theorem grows_onConn {f : Exchange ℕ UInt8 → Exchange ℕ UInt8}
    (hf : ∀ e, s.conns[fd]? = some e → e.Grows (f e)) : s.Grows (s.onConn fd f) := by
  intro i e he
  by_cases hi : fd = i
  · subst hi
    exact ⟨f e, conns_onConn he, hf e he⟩
  · refine ⟨e, ?_, Exchange.Grows.refl e⟩
    simp [onConn, hi, he]

theorem Sound.onConn {f : Exchange ℕ UInt8 → Exchange ℕ UInt8} (h : s.Sound)
    (hf : ∀ e, s.conns[fd]? = some e → e.Grows (f e) ∧ (f e).Aligned) : (s.onConn fd f).Sound := by
  have hgrows : s.Grows (s.onConn fd f) := grows_onConn fun e he => (hf e he).1
  refine ⟨fun i e he => ?_, fun q point hpoint => (h.placed q point hpoint).mono hgrows⟩
  simp only [MprpcChannel.onConn, List.getElem?_modify, Option.map_eq_map] at he
  obtain ⟨e₀, hold, rfl⟩ := Option.map_eq_some_iff.mp he
  split_ifs with hi
  · subst hi
    exact (hf e₀ hold).2
  · exact h.aligned i e₀ hold

theorem Sound.closeFd (h : s.Sound) : s.closeFd.Sound := ⟨h.aligned, h.placed⟩

theorem grows_connect {rt : Bool} : s.Grows (s.connect rt) := by
  intro i e he
  refine ⟨e, ?_, Exchange.Grows.refl e⟩
  cases rt with
  | false => exact he
  | true => exact (List.getElem?_append_left (List.getElem?_eq_some_iff.mp he).1).trans he

theorem Sound.connect {rt : Bool} (h : s.Sound) : (s.connect rt).Sound := by
  refine ⟨fun i e he => ?_, fun q point hpoint => ?_⟩
  · cases rt with
    | false => exact h.aligned i e he
    | true =>
      rcases List.mem_append.mp (List.mem_of_getElem? he) with hold | hnew
      · obtain ⟨j, hj⟩ := List.getElem?_of_mem hold
        exact h.aligned j e hj
      · rw [List.mem_singleton.mp hnew]
        exact Exchange.aligned_create
  · refine (h.placed q point ?_).mono grows_connect
    cases rt <;> exact hpoint

/-! ## Receiving in turn -/

/-- A `recv` that returns is on the connection of its call's request, it is the turn of that request
and just its reply has arrived, in no more than 1024 bytes. -/
def InTurn (s : MprpcChannel) : ChannelAction → Prop
  | .recv q => ∀ r, s.pendingRecv q = some r → r.stream.Ready →
      r.fd = r.conn ∧ r.stream.Whole 1024 r.place
  | _ => True

theorem pendingRecv_some {r : PendingRecv} (h : s.pendingRecv q = some r) :
    s.pointOf q = some (.receiving r.conn r.place (some r.fd)) ∧ s.conns[r.fd]? = some r.stream := by
  unfold pendingRecv at h
  split at h
  · rename_i hcall
    obtain ⟨e, he, rfl⟩ := Option.map_eq_some_iff.mp h
    exact ⟨by rw [pointOf, hcall]; rfl, he⟩
  · cases h

theorem Sound.sendStep {request : Dispatch} {success : Bool} (h : s.Sound) :
    (s.sendStep q request success).Sound := by
  unfold MprpcChannel.sendStep
  split
  · exact h.setPoint trivial
  split
  · rename_i stream fd hstream hfd
    rw [hfd, Option.bind_some] at hstream
    have hsent : (s.onConn fd (·.send q)).Sound := h.onConn fun e he =>
      ⟨Exchange.grows_send, ⟨(h.aligned fd e he).reads_le, (h.aligned fd e he).received⟩⟩
    exact hsent.setPoint ⟨_, conns_onConn hstream, Exchange.requestAt_send⟩
  · exact h.setPoint trivial

theorem Sound.recvStep {r : PendingRecv} (h : s.Sound) (hr : s.pendingRecv q = some r)
    (hconn : r.fd = r.conn) (hwhole : r.stream.Whole 1024 r.place) :
    (s.recvStep parseFromArray q r).Sound := by
  obtain ⟨hpoint, hstream⟩ := pendingRecv_some hr
  obtain ⟨haligned, hreply⟩ := hwhole.read (h.aligned _ _ hstream)
  have hone : ∀ e, s.conns[r.fd]? = some e →
      e.Grows (e.read 1024).2 ∧ (e.read 1024).2.Aligned := by
    intro e he
    obtain rfl : r.stream = e := Option.some.inj (hstream.symm.trans he)
    exact ⟨⟨List.prefix_rfl, List.prefix_rfl⟩, haligned⟩
  have hread : (s.onConn r.fd fun stream => (stream.read 1024).2).Sound := h.onConn hone
  unfold MprpcChannel.recvStep
  dsimp only
  split_ifs
  · refine hread.setPoint ⟨Requested.mono (grows_onConn fun e he => (hone e he).1)
      (h.placed _ _ hpoint), ?_⟩
    rw [← hconn]
    exact ⟨_, conns_onConn hstream, hreply⟩
  · exact hread.setPoint trivial

theorem Sound.step (h : s.Sound) (hturn : s.InTurn a) : (s.step parseFromArray a).Sound := by
  cases a with
  | callMethod request =>
    refine ⟨h.aligned, fun q point hpoint => ?_⟩
    rcases pointOf_append hpoint with rfl | hold
    · dsimp only
      split_ifs <;> trivial
    · exact h.placed q point hold
  | newConnect q rt =>
    simp only [MprpcChannel.step]
    split
    · refine h.connect.setPoint ?_
      split_ifs <;> trivial
    · exact h
  | send q success =>
    simp only [MprpcChannel.step]
    split
    · exact h.sendStep
    · exact h
  | close q =>
    simp only [MprpcChannel.step]
    split
    · exact h.closeFd.setPoint trivial
    · exact h
  | enterRecv q =>
    simp only [MprpcChannel.step]
    split
    · rename_i conn place hpoint
      exact h.setPoint (h.placed q _ hpoint : s.Requested conn place q)
    · exact h
  | recv q =>
    simp only [MprpcChannel.step]
    split
    · rename_i r hr
      split_ifs with hready
      · obtain ⟨hconn, hwhole⟩ := hturn r hr hready
        exact h.recvStep hr hconn hwhole
      · exact h
    · exact h
  | recvError q =>
    simp only [MprpcChannel.step]
    split
    · exact h.closeFd.setPoint trivial
    · exact h
  | answer fd reply =>
    exact h.onConn fun e he => ⟨Exchange.grows_answer, (h.aligned fd e he).answer⟩
  | arrive fd size =>
    exact h.onConn fun e he => ⟨Exchange.grows_arrive, (h.aligned fd e he).arrive⟩
  | shutdown fd =>
    exact h.onConn fun e he => ⟨⟨List.prefix_rfl, List.prefix_rfl⟩,
      ⟨(h.aligned fd e he).reads_le, (h.aligned fd e he).received⟩⟩

def OwnReplies (s : MprpcChannel) : Prop :=
  ∀ q conn place parsed, s.pointOf q = some (.returned conn place parsed) →
    ∃ e, s.conns[conn]? = some e ∧ e.RequestAt place q ∧ e.ReplyAt place parsed

theorem Sound.ownReplies (h : s.Sound) : s.OwnReplies := by
  intro q conn place parsed hpoint
  obtain ⟨⟨e, he, hrequest⟩, e', he', hreply⟩ := h.placed q _ hpoint
  obtain rfl : e = e' := Option.some.inj (he.symm.trans he')
  exact ⟨e, he, hrequest, hreply⟩

/-- In a run whose calls receive in turn, replies reach their own callers. -/
theorem replies_reach_callers (parseFromArray : Dispatch → Bytes → Bool) (connected : Bool)
    (acts : List ChannelAction) (h : Along (step parseFromArray) InTurn (create connected) acts) :
    ∀ before after, acts = before ++ after →
      (run (step parseFromArray) (create connected) before).OwnReplies := by
  rintro before after rfl
  have hsound := run_invariant_along (sound_create connected) (fun _ _ hP hC => hP.step hC)
    (along_append.mp h).1
  exact hsound.ownReplies

def heartbeat : Dispatch where
  service := RpcProvider.raftRpc.name
  method := [65, 112, 112, 101, 110, 100, 69, 110, 116, 114, 105, 101, 115]
  args := [8, 1]

def voteRequest : Dispatch := RpcProvider.requestVote.toDispatch

/-- A heartbeat and a request for a vote are sent through the same channel; the heartbeat is answered
with `Term` 1 and `Success`. -/
def twoCalls : List ChannelAction :=
  [.callMethod heartbeat, .callMethod voteRequest, .send 0 true, .send 1 true,
    .answer 0 [8, 1, 16, 1], .arrive 0 4]

theorem replies_reach_callers_in_order :
    (run (step fun _ _ => true) (create true)
      (twoCalls ++ [.enterRecv 1, .enterRecv 0, .recv 0])).OwnReplies := by
  refine replies_reach_callers (fun _ _ => true) true _ ?_ _ [] (List.append_nil _).symm
  refine ⟨trivial, trivial, trivial, trivial, trivial, trivial, trivial, trivial, ?_, trivial⟩
  intro r hr _
  obtain rfl := Option.some.inj hr
  exact ⟨rfl, rfl, by decide, by decide, by decide⟩

theorem reply_reaches_other_caller :
    ¬∀ (parseFromArray : Dispatch → Bytes → Bool) (connected : Bool) (acts : List ChannelAction),
      (run (step parseFromArray) (create connected) acts).OwnReplies := by
  intro h
  have hown := h (fun _ _ => true) true (twoCalls ++ [.enterRecv 1, .recv 1, .answer 0 [8, 1]])
    1 0 1 [8, 1, 16, 1] rfl
  obtain ⟨e, he, -, hreply⟩ := hown
  obtain rfl := Option.some.inj he
  have hbytes : ([8, 1] : Bytes) = [8, 1, 16, 1] := Option.some.inj hreply
  exact absurd hbytes (by decide)

end MprpcChannel
end RaftStorage
