import RaftStorage.Library.Registry
import RaftStorage.Kv.Acknowledge
import RaftStorage.Cluster.Index

/-! One `KvServer` on its Raft node. The server's threads call `Start`, `GetState` and `Snapshot` of
node `p` of a cluster and pop what that node pushes to `applyChan`; the rest of the cluster does what
it likes. -/

namespace RaftStorage
open Library

/-- Where a handler goes on. What the node answers is up to the node. -/
inductive HandlerPoint where
  | start | openWaitChan | pop | timeOut | ifRequestDuplicate | executeGet | closeWaitChan
  deriving DecidableEq, Repr

/-- The step of the handler, with the index that `Start` returns and the role that `GetState`
reports. -/
def HandlerPoint.action {n : ℕ} (rf : Raft n) (command : String) : HandlerPoint → HandlerAction
  | .start => .start ((rf.start command).2.map Prod.fst)
  | .openWaitChan => .openWaitChan
  | .pop => .pop
  | .timeOut => .timeOut (rf.status = .leader)
  | .ifRequestDuplicate => .ifRequestDuplicate
  | .executeGet => .executeGet
  | .closeWaitChan => .closeWaitChan

def HandlerPhase.raftIndex : HandlerPhase → Option ℤ
  | .called => none
  | .started i => some i
  | .waiting i _ => some i
  | .timedOut i _ => some i
  | .executing i => some i
  | .closing i _ => some i
  | .returned _ => none

def HandlerPhase.opened : HandlerPhase → Option ℤ
  | .started _ => none
  | phase => phase.raftIndex

inductive ServerAction where
  | get (key clientId : String) (requestId : ℤ)
  | putAppend (op key value clientId : String) (requestId : ℤ)
  | handler (i : ℕ) (point : HandlerPoint)
  | loop (raftStateSize : ℤ) (flips : ℕ → ℕ)
  /-- `Raft::Snapshot` after `MakeSnapShot`; the apply loop waits for it -/
  | snapshot

inductive NodeAction (n : ℕ) where
  | cluster (a : Action n)
  | server (a : ServerAction)

structure KvNode (n : ℕ) where
  cluster : Cluster n
  server : KvAudit
  /-- the indexes that successful calls of `Start` have returned -/
  starts : List ℤ
  queueOf : ℕ → Option ℕ
  /-- how many of the server's snapshots have reached the node -/
  snapshotsTaken : ℕ

namespace KvNode

variable {n : ℕ}

def init (n : ℕ) (maxRaftState : ℤ) : KvNode n :=
  ⟨Cluster.init n, KvAudit.init maxRaftState, [], fun _ => none, 0⟩

/-- A call that only the server of `p` makes, through its own threads. -/
def ownCall (p : Fin n) : Action n → Bool
  | .start q _ => q = p
  | .snapshot q _ _ => q = p
  | _ => false

/-- The cluster has moved on; what node `p` has pushed is there for the server. -/
def forward (ar : Archives) (p : Fin n) (s : KvNode n) (cluster : Cluster n) : KvNode n :=
  { s with
    cluster := cluster
    server := ((cluster.applyChan p).drop (s.cluster.applyChan p).length).foldl
      (fun server message => server.step ar (.push message)) s.server }

def handlerStep (asString : Op → String) (ar : Archives) (p : Fin n) (s : KvNode n) (i : ℕ)
    (point : HandlerPoint) : KvNode n :=
  match s.server.kv.handlers[i]? with
  | none => s
  | some h =>
    let action := point.action (s.cluster.nodes p) (asString h.op)
    match h.step s.server.kv.server action with
    | none => s
    | some (_, h') =>
      { s with
        cluster := if point = .start then s.cluster.step (.start p (asString h.op)) else s.cluster
        server := s.server.step ar (.handler i action)
        starts :=
          match h'.phase with
          | .started raftIndex => s.starts ++ [raftIndex]
          | _ => s.starts
        queueOf :=
          match h'.phase with
          | .waiting _ queue => Function.update s.queueOf i (some queue)
          | _ => s.queueOf }

def serverStep (asString : Op → String) (ar : Archives) (p : Fin n) (s : KvNode n) :
    ServerAction → KvNode n
  | .get key clientId requestId =>
    { s with server := s.server.step ar (.get key clientId requestId) }
  | .putAppend op key value clientId requestId =>
    { s with server := s.server.step ar (.putAppend op key value clientId requestId) }
  | .handler i point => s.handlerStep asString ar p i point
  | .loop raftStateSize flips =>
    if s.server.kv.snapshots.length = s.snapshotsTaken then
      { s with server := s.server.step ar (.loop raftStateSize flips) }
    else s
  | .snapshot =>
    match s.server.kv.snapshots[s.snapshotsTaken]? with
    | some (index, snapshot) =>
      { s with
        cluster := s.cluster.step (.snapshot p index snapshot)
        snapshotsTaken := s.snapshotsTaken + 1 }
    | none => s

/-- A process whose assertion has failed runs no thread of the server either. -/
def step (asString : Op → String) (ar : Archives) (p : Fin n) (s : KvNode n) :
    NodeAction n → KvNode n
  | .cluster a => if ownCall p a then s else s.forward ar p (s.cluster.step a)
  | .server a => if s.cluster.exited p = none then s.serverStep asString ar p a else s

def runOf (asString : Op → String) (ar : Archives) (p : Fin n) (maxRaftState : ℤ)
    (acts : List (NodeAction n)) : KvNode n :=
  run (step asString ar p) (init n maxRaftState) acts

/-- The handlers as clients that hold log indexes and register queues. -/
def registry (p : Fin n) (s : KvNode n) : Registry ℕ ℤ where
  bound := (s.cluster.nodes p).getLastLogIndex
  ticket := fun i => s.server.kv.handlers[i]?.bind (·.phase.raftIndex)
  opened := fun i => s.server.kv.handlers[i]?.bind (·.phase.opened)
  cell := s.queueOf
  registered := s.server.kv.server.waitApplyCh
  made := s.server.kv.server.queuesMade

structure Sound (p : Fin n) (s : KvNode n) : Prop where
  indexed : s.cluster.Indexed
  exclusive : (s.registry p).Exclusive
  waiting : ∀ i h x q, s.server.kv.handlers[i]? = some h → h.phase = .waiting x q →
    s.queueOf i = some q
  starts_lt : s.starts.Pairwise (· < ·)
  starts_le : ∀ x ∈ s.starts, x ≤ (s.cluster.nodes p).getLastLogIndex
  sourced : s.server.Sourced

variable {p : Fin n} {s s' : KvNode n} {ar : Archives} {asString : Op → String}

theorem sound_init (p : Fin n) (maxRaftState : ℤ) : Sound p (init n maxRaftState) where
  indexed := Cluster.indexed_init n
  exclusive := by
    constructor <;> simp [registry, init, KvAudit.init, KvSystem.init, KvServer.init]
  waiting := by simp [init, KvAudit.init, KvSystem.init]
  starts_lt := List.Pairwise.nil
  starts_le := by simp [init]
  sourced := KvAudit.sourced_init maxRaftState

/-! ## Steps that leave the handlers and their queues alone -/

structure Quiet (p : Fin n) (s s' : KvNode n) : Prop where
  handlers : s'.server.kv.handlers = s.server.kv.handlers
  waitApplyCh : s'.server.kv.server.waitApplyCh = s.server.kv.server.waitApplyCh
  queuesMade : s'.server.kv.server.queuesMade = s.server.kv.server.queuesMade
  queueOf : s'.queueOf = s.queueOf
  starts : s'.starts = s.starts
  last : (s.cluster.nodes p).getLastLogIndex ≤ (s'.cluster.nodes p).getLastLogIndex

theorem Sound.quiet (h : s.Sound p) (hq : Quiet p s s') (hI : s'.cluster.Indexed)
    (hS : s'.server.Sourced) : s'.Sound p where
  indexed := hI
  exclusive := by
    have heq : s'.registry p =
        { s.registry p with bound := (s'.cluster.nodes p).getLastLogIndex } := by
      simp only [registry, hq.handlers, hq.waitApplyCh, hq.queuesMade, hq.queueOf]
    rw [heq]
    exact h.exclusive.raise hq.last
  waiting := by
    rw [hq.handlers, hq.queueOf]
    exact h.waiting
  starts_lt := hq.starts ▸ h.starts_lt
  starts_le := by
    rw [hq.starts]
    exact fun x hx => (h.starts_le x hx).trans hq.last
  sourced := hS

theorem push_all (ar : Archives) (messages : List ApplyMsg) (server : KvAudit) (hS : server.Sourced) :
    let server' := messages.foldl (fun server message => server.step ar (.push message)) server
    server'.Sourced ∧ server'.kv.handlers = server.kv.handlers ∧
      server'.kv.server = server.kv.server := by
  induction messages generalizing server with
  | nil => exact ⟨hS, rfl, rfl⟩
  | cons message messages ih => exact ih _ (hS.step (.push message))

theorem Sound.cluster (h : s.Sound p) (a : Action n) : (s.forward ar p (s.cluster.step a)).Sound p := by
  have hs := Cluster.step_spec s.cluster a
  obtain ⟨hS, hhandlers, hserver⟩ := push_all ar
    (((s.cluster.step a).applyChan p).drop (s.cluster.applyChan p).length) s.server h.sourced
  refine h.quiet ⟨hhandlers, ?_, ?_, rfl, rfl, (h.indexed.advances hs p).last⟩ (h.indexed.step hs) hS
  · exact congrArg KvServer.waitApplyCh hserver
  · exact congrArg KvServer.queuesMade hserver

theorem loopStep_channels (ar : Archives) (kv : KvSystem) (raftStateSize : ℤ) (flips : ℕ → ℕ) :
    let kv' := kv.loopStep ar raftStateSize flips
    kv'.handlers = kv.handlers ∧ kv'.server.waitApplyCh = kv.server.waitApplyCh ∧
      kv'.server.queuesMade = kv.server.queuesMade := by
  unfold KvSystem.loopStep
  cases kv.loop with
  | popping => cases kv.applyChan <;> exact ⟨rfl, rfl, rfl⟩
  | checking message op =>
    dsimp only
    split_ifs <;> exact ⟨rfl, rfl, rfl⟩
  | executing message op =>
    dsimp only
    split_ifs <;> exact ⟨rfl, rfl, rfl⟩
  | snapshotting message op => exact ⟨rfl, rfl, rfl⟩
  | sending message op =>
    dsimp only [KvServer.sendMessageToWaitChan]
    split <;> exact ⟨rfl, rfl, rfl⟩
  | installing message =>
    obtain ⟨hwait, -, hmade⟩ := kv.server.getSnapShotFromRaft_channels ar message flips
    exact ⟨rfl, hwait, hmade⟩

theorem Sound.loop (h : s.Sound p) (raftStateSize : ℤ) (flips : ℕ → ℕ) :
    Sound p { s with server := s.server.step ar (.loop raftStateSize flips) } := by
  obtain ⟨hhandlers, hwait, hmade⟩ :=
    loopStep_channels ar s.server.kv raftStateSize flips
  exact h.quiet ⟨hhandlers, hwait, hmade, rfl, rfl, le_rfl⟩ h.indexed
    (h.sourced.step (.loop raftStateSize flips))

theorem Sound.snapshot (h : s.Sound p) (index : ℤ) (snapshot : String) (k : ℕ) :
    Sound p { s with
      cluster := s.cluster.step (.snapshot p index snapshot)
      snapshotsTaken := k } := by
  have hs := Cluster.step_spec s.cluster (.snapshot p index snapshot)
  exact h.quiet ⟨rfl, rfl, rfl, rfl, rfl, (h.indexed.advances hs p).last⟩ (h.indexed.step hs) h.sourced

/-! ## Handlers -/

theorem view_append (hs : List Handler) {hd : Handler} {f : HandlerPhase → Option ℤ}
    (hf : f hd.phase = none) (i : ℕ) :
    ((hs ++ [hd])[i]?.bind fun hd => f hd.phase) = hs[i]?.bind fun hd => f hd.phase := by
  rw [List.getElem?_append]
  split_ifs with hi
  · rfl
  · rw [List.getElem?_eq_none (not_lt.mp hi)]
    cases hj : [hd][i - hs.length]? with
    | none => rfl
    | some hd' =>
      obtain rfl := List.mem_singleton.mp (List.mem_of_getElem? hj)
      exact hf

theorem Sound.call (h : s.Sound p) {server : KvAudit} (hd : Handler) (hcalled : hd.phase = .called)
    (hhandlers : server.kv.handlers = s.server.kv.handlers ++ [hd])
    (hserver : server.kv.server = s.server.kv.server) (hS : server.Sourced) :
    Sound p { s with server := server } where
  indexed := h.indexed
  exclusive := by
    have hindex : HandlerPhase.raftIndex hd.phase = none := by rw [hcalled]; rfl
    have hopened : HandlerPhase.opened hd.phase = none := by rw [hcalled]; rfl
    have heq : registry p { s with server := server } = s.registry p := by
      simp only [registry, hhandlers, hserver, view_append _ hindex, view_append _ hopened]
    rw [heq]
    exact h.exclusive
  waiting := by
    intro i hd' x q hi hphase
    dsimp only at hi
    rw [hhandlers, List.getElem?_append] at hi
    split_ifs at hi
    · exact h.waiting i hd' x q hi hphase
    · obtain rfl := List.mem_singleton.mp (List.mem_of_getElem? hi)
      rw [hcalled] at hphase
      cases hphase
  starts_lt := h.starts_lt
  starts_le := h.starts_le
  sourced := hS

theorem view_set {hs : List Handler} {i : ℕ} {hd : Handler} (hi : hs[i]? = some hd) (hd' : Handler)
    (f : Handler → Option ℤ) :
    (fun j => (hs.set i hd')[j]?.bind f) = Function.update (fun j => hs[j]?.bind f) i (f hd') := by
  funext j
  by_cases hj : j = i
  · subst hj
    have hlt := (List.getElem?_eq_some_iff.mp hi).1
    rw [Function.update_self, List.getElem?_set_self hlt]
    rfl
  · rw [Function.update_of_ne hj, List.getElem?_set_ne (Ne.symm hj)]

theorem registry_set {i : ℕ} {hd : Handler} {next : HandlerPhase}
    (hi : s.server.kv.handlers[i]? = some hd)
    (hhandlers : s'.server.kv.handlers = s.server.kv.handlers.set i { hd with phase := next }) :
    s'.registry p =
      { bound := (s'.cluster.nodes p).getLastLogIndex
        ticket := Function.update (s.registry p).ticket i next.raftIndex
        opened := Function.update (s.registry p).opened i next.opened
        cell := s'.queueOf
        registered := s'.server.kv.server.waitApplyCh
        made := s'.server.kv.server.queuesMade } := by
  simp only [registry, hhandlers]
  rw [view_set hi, view_set hi]

theorem ticket_eq {i : ℕ} {hd : Handler} (hi : s.server.kv.handlers[i]? = some hd) :
    (s.registry p).ticket i = hd.phase.raftIndex := by
  simp [registry, hi]

theorem opened_eq {i : ℕ} {hd : Handler} (hi : s.server.kv.handlers[i]? = some hd) :
    (s.registry p).opened i = hd.phase.opened := by
  simp [registry, hi]

theorem Sound.waiting_set (h : s.Sound p) {i : ℕ} {hd : Handler} {next : HandlerPhase}
    (hhandlers : s'.server.kv.handlers = s.server.kv.handlers.set i { hd with phase := next })
    (hcell : ∀ j, j ≠ i → s'.queueOf j = s.queueOf j)
    (hnext : ∀ x q, next = .waiting x q → s'.queueOf i = some q) :
    ∀ j hd' x q, s'.server.kv.handlers[j]? = some hd' → hd'.phase = .waiting x q →
      s'.queueOf j = some q := by
  intro j hd' x q hj hphase
  rw [hhandlers] at hj
  by_cases hji : j = i
  · subst hji
    rw [List.getElem?_set, if_pos rfl] at hj
    split_ifs at hj
    obtain rfl := Option.some.inj hj
    exact hnext x q hphase
  · rw [List.getElem?_set_ne (Ne.symm hji)] at hj
    rw [hcell j hji]
    exact h.waiting j hd' x q hj hphase

structure KeepsQueue (kv kv' : KvServer) (phase next : HandlerPhase) : Prop where
  not_started : ∀ x, next ≠ .started x
  not_waiting : ∀ x q, next ≠ .waiting x q
  raftIndex : next.raftIndex = phase.raftIndex
  opened : next.opened = phase.opened
  registered : kv'.waitApplyCh = kv.waitApplyCh
  made : kv'.queuesMade = kv.queuesMade

theorem Sound.kept (h : s.Sound p) {i : ℕ} {hd : Handler} {next : HandlerPhase} {kv' : KvServer}
    (hi : s.server.kv.handlers[i]? = some hd)
    (hkeeps : KeepsQueue s.server.kv.server kv' hd.phase next)
    (hhandlers : s'.server.kv.handlers = s.server.kv.handlers.set i { hd with phase := next })
    (hserver : s'.server.kv.server = kv')
    (hcell : s'.queueOf = s.queueOf) (hstarts : s'.starts = s.starts)
    (hlast : (s.cluster.nodes p).getLastLogIndex ≤ (s'.cluster.nodes p).getLastLogIndex)
    (hI : s'.cluster.Indexed) (hS : s'.server.Sourced) : s'.Sound p where
  indexed := hI
  exclusive := by
    rw [registry_set hi hhandlers, hkeeps.raftIndex, hkeeps.opened, ← ticket_eq (p := p) hi,
      ← opened_eq (p := p) hi, Function.update_eq_self, Function.update_eq_self, hcell, hserver,
      hkeeps.registered, hkeeps.made]
    exact h.exclusive.raise hlast
  waiting := h.waiting_set hhandlers (fun j _ => by rw [hcell]) fun x q hw =>
    absurd hw (hkeeps.not_waiting x q)
  starts_lt := hstarts ▸ h.starts_lt
  starts_le := by
    rw [hstarts]
    exact fun x hx => (h.starts_le x hx).trans hlast
  sourced := hS

theorem Sound.started (h : s.Sound p) {i : ℕ} {hd : Handler} {x : ℤ}
    (hi : s.server.kv.handlers[i]? = some hd) (hcalled : hd.phase = .called)
    (hhandlers : s'.server.kv.handlers = s.server.kv.handlers.set i { hd with phase := .started x })
    (hserver : s'.server.kv.server = s.server.kv.server)
    (hcell : s'.queueOf = s.queueOf) (hstarts : s'.starts = s.starts ++ [x])
    (hx : (s.cluster.nodes p).getLastLogIndex < x)
    (hlast : (s'.cluster.nodes p).getLastLogIndex = x)
    (hI : s'.cluster.Indexed) (hS : s'.server.Sourced) : s'.Sound p where
  indexed := hI
  exclusive := by
    have hopened : HandlerPhase.opened (.started x) = (s.registry p).opened i := by
      rw [opened_eq hi, hcalled]
      rfl
    have hfree : (s.registry p).ticket i = none := by
      rw [ticket_eq hi, hcalled]
      rfl
    rw [registry_set hi hhandlers, hopened, Function.update_eq_self, hcell, hserver, hlast]
    exact h.exclusive.claim hfree hx
  waiting := h.waiting_set hhandlers (fun j _ => by rw [hcell]) fun y q hw => by cases hw
  starts_lt := by
    rw [hstarts, List.pairwise_append]
    refine ⟨h.starts_lt, List.pairwise_singleton _ _, fun y hy z hz => ?_⟩
    obtain rfl := List.mem_singleton.mp hz
    exact (h.starts_le y hy).trans_lt hx
  starts_le := by
    rw [hstarts, hlast]
    intro y hy
    rcases List.mem_append.mp hy with hy | hy
    · exact (h.starts_le y hy).trans hx.le
    · exact (List.mem_singleton.mp hy).le
  sourced := hS

theorem Sound.opened (h : s.Sound p) {i : ℕ} {hd : Handler} {x : ℤ}
    (hi : s.server.kv.handlers[i]? = some hd) (hstarted : hd.phase = .started x)
    (hhandlers : s'.server.kv.handlers = s.server.kv.handlers.set i
      { hd with phase := .waiting x (s.server.kv.server.openWaitChan x).2 })
    (hserver : s'.server.kv.server = (s.server.kv.server.openWaitChan x).1)
    (hcell : s'.queueOf =
      Function.update s.queueOf i (some (s.server.kv.server.openWaitChan x).2))
    (hstarts : s'.starts = s.starts)
    (hlast : (s.cluster.nodes p).getLastLogIndex ≤ (s'.cluster.nodes p).getLastLogIndex)
    (hI : s'.cluster.Indexed) (hS : s'.server.Sourced) : s'.Sound p := by
  have hticket : (s.registry p).ticket i = some x := by
    rw [ticket_eq hi, hstarted]
    rfl
  have hclosed : (s.registry p).opened i = none := by
    rw [opened_eq hi, hstarted]
    rfl
  have hnone : s.server.kv.server.waitApplyCh x = none :=
    h.exclusive.registered_none hticket hclosed
  have hopen : s.server.kv.server.openWaitChan x =
      ({ s.server.kv.server with
          waitApplyCh := Function.update s.server.kv.server.waitApplyCh x
            (some s.server.kv.server.queuesMade)
          queues := Function.update s.server.kv.server.queues s.server.kv.server.queuesMade (some [])
          queuesMade := s.server.kv.server.queuesMade + 1 }, s.server.kv.server.queuesMade) := by
    rw [KvServer.openWaitChan, hnone]
  rw [hopen] at hhandlers hserver hcell
  refine ⟨hI, ?_, ?_, hstarts ▸ h.starts_lt, ?_, hS⟩
  · have hsame : HandlerPhase.raftIndex (.waiting x s.server.kv.server.queuesMade) =
        (s.registry p).ticket i := hticket.symm
    rw [registry_set hi hhandlers, hsame, Function.update_eq_self, hcell, hserver]
    exact (h.exclusive.register hticket hclosed).raise hlast
  · refine h.waiting_set hhandlers (fun j hj => ?_) fun y q hw => ?_
    · rw [hcell, Function.update_of_ne hj]
    · obtain ⟨-, rfl⟩ := HandlerPhase.waiting.inj hw
      rw [hcell, Function.update_self]
  · rw [hstarts]
    exact fun y hy => (h.starts_le y hy).trans hlast

theorem Sound.closed (h : s.Sound p) {i : ℕ} {hd : Handler} {x : ℤ} {reply : KvReply}
    (hi : s.server.kv.handlers[i]? = some hd) (hclosing : hd.phase = .closing x reply)
    (hhandlers : s'.server.kv.handlers = s.server.kv.handlers.set i
      { hd with phase := .returned reply })
    (hserver : s'.server.kv.server = s.server.kv.server.closeWaitChan x)
    (hcell : s'.queueOf = s.queueOf) (hstarts : s'.starts = s.starts)
    (hlast : (s.cluster.nodes p).getLastLogIndex ≤ (s'.cluster.nodes p).getLastLogIndex)
    (hI : s'.cluster.Indexed) (hS : s'.server.Sourced) : s'.Sound p := by
  have hopened : (s.registry p).opened i = some x := by
    rw [opened_eq hi, hclosing]
    rfl
  refine ⟨hI, ?_, ?_, hstarts ▸ h.starts_lt, ?_, hS⟩
  · rw [registry_set hi hhandlers, hcell, hserver]
    exact (h.exclusive.release hopened).raise hlast
  · refine h.waiting_set hhandlers (fun j _ => by rw [hcell]) fun y q hw => ?_
    cases hw
  · rw [hstarts]
    exact fun y hy => (h.starts_le y hy).trans hlast

theorem popWaitChan_channels {kv kv' : KvServer} {q : ℕ} {op : Op}
    (h : kv.popWaitChan q = some (kv', op)) :
    kv'.waitApplyCh = kv.waitApplyCh ∧ kv'.queuesMade = kv.queuesMade := by
  unfold KvServer.popWaitChan at h
  split at h
  · obtain ⟨rfl, -⟩ := Prod.mk.inj (Option.some.inj h)
    exact ⟨rfl, rfl⟩
  · cases h

theorem handlerStep_channels {kv kv' : KvServer} {hd : Handler} {action : HandlerAction}
    {next : HandlerPhase} (hs : HandlerStep kv hd action kv' next) :
    (∃ x, hd.phase = .called ∧ action = .start (some x) ∧ next = .started x ∧ kv' = kv) ∨
    (∃ x, hd.phase = .started x ∧ next = .waiting x (kv.openWaitChan x).2 ∧
      kv' = (kv.openWaitChan x).1) ∨
    (∃ x reply, hd.phase = .closing x reply ∧ next = .returned reply ∧ kv' = kv.closeWaitChan x) ∨
    KeepsQueue kv kv' hd.phase next := by
  cases hs with
  | @started x phase => exact Or.inl ⟨x, phase, rfl, rfl, rfl⟩
  | @opened x phase => exact Or.inr (Or.inl ⟨x, phase, rfl, rfl⟩)
  | @closed x reply phase => exact Or.inr (Or.inr (Or.inl ⟨x, reply, phase, rfl, rfl⟩))
  | matched phase popped _ _ outcome =>
    obtain ⟨hreg, hmade⟩ := popWaitChan_channels popped
    refine Or.inr (Or.inr (Or.inr ?_))
    rw [phase]
    rcases outcome with ⟨-, rfl⟩ | ⟨-, rfl⟩ <;> exact ⟨nofun, nofun, rfl, rfl, hreg, hmade⟩
  | mismatched phase popped =>
    obtain ⟨hreg, hmade⟩ := popWaitChan_channels popped
    exact Or.inr (Or.inr (Or.inr (phase ▸ ⟨nofun, nofun, rfl, rfl, hreg, hmade⟩)))
  | duplicate phase _ outcome =>
    refine Or.inr (Or.inr (Or.inr ?_))
    rw [phase]
    rcases outcome with ⟨-, rfl⟩ | ⟨-, rfl⟩ <;> exact ⟨nofun, nofun, rfl, rfl, rfl, rfl⟩
  | refused phase => exact Or.inr (Or.inr (Or.inr (phase ▸ ⟨nofun, nofun, rfl, rfl, rfl, rfl⟩)))
  | timedOut phase => exact Or.inr (Or.inr (Or.inr (phase ▸ ⟨nofun, nofun, rfl, rfl, rfl, rfl⟩)))
  | gaveUp phase => exact Or.inr (Or.inr (Or.inr (phase ▸ ⟨nofun, nofun, rfl, rfl, rfl, rfl⟩)))
  | executed phase => exact Or.inr (Or.inr (Or.inr (phase ▸ ⟨nofun, nofun, rfl, rfl, rfl, rfl⟩)))

theorem start_last {rf rf' : Raft n} {command : String} {x t : ℤ}
    (h : rf.start command = (rf', some (x, t))) :
    rf.getLastLogIndex < x ∧ rf'.getLastLogIndex = x := by
  rcases Raft.start_cases h with ⟨-, hnone⟩ | ⟨-, -, -, hlogs, -, -, -, -, hout⟩
  · cases hnone
  · obtain ⟨rfl, -⟩ := Prod.mk.inj (Option.some.inj hout)
    refine ⟨lt_add_one _, ?_⟩
    simp [Raft.getLastLogIndex, Raft.getLastLogIndexAndTerm, hlogs]

theorem nodes_start (c : Cluster n) (hlive : c.exited p = none) (command : String) :
    (c.step (.start p command)).nodes p = ((c.nodes p).start command).1 := by
  simp [Cluster.step, Cluster.onNode, hlive]

theorem step_handler (ar : Archives) {i : ℕ} {hd hd' : Handler} {kv' : KvServer} {action : HandlerAction}
    (hi : s.server.kv.handlers[i]? = some hd)
    (hstep : hd.step s.server.kv.server action = some (kv', hd')) :
    (s.server.step ar (.handler i action)).kv =
      { s.server.kv with server := kv', handlers := s.server.kv.handlers.set i hd' } := by
  simp only [KvAudit.step_kv, KvSystem.step, hi, hstep]

theorem Sound.handler (h : s.Sound p) (hlive : s.cluster.exited p = none) (i : ℕ)
    (point : HandlerPoint) : (s.handlerStep asString ar p i point).Sound p := by
  unfold handlerStep
  cases hi : s.server.kv.handlers[i]? with
  | none => exact h
  | some hd =>
    dsimp only
    generalize haction : point.action (s.cluster.nodes p) (asString hd.op) = action
    cases hstep : hd.step s.server.kv.server action with
    | none => exact h
    | some out =>
      obtain ⟨kv', hd'⟩ := out
      obtain ⟨next, rfl, hs⟩ := Handler.step_spec hstep
      have hkv := step_handler ar hi hstep
      have hhandlers := congrArg KvSystem.handlers hkv
      have hserver := congrArg KvSystem.server hkv
      have hS : (s.server.step ar (.handler i action)).Sourced := h.sourced.step _
      dsimp only at hhandlers hserver ⊢
      generalize hcluster : (if point = .start then s.cluster.step (.start p (asString hd.op))
        else s.cluster) = cluster
      have hmoves : cluster.Indexed ∧
          (s.cluster.nodes p).getLastLogIndex ≤ (cluster.nodes p).getLastLogIndex := by
        rw [← hcluster]
        split_ifs
        · have hstart := Cluster.step_spec s.cluster (.start p (asString hd.op))
          exact ⟨h.indexed.step hstart, (h.indexed.advances hstart p).last⟩
        · exact ⟨h.indexed, le_rfl⟩
      obtain ⟨hI, hlast⟩ := hmoves
      rcases handlerStep_channels hs with ⟨x, phase, rfl, rfl, rfl⟩ | ⟨x, phase, rfl, rfl⟩ |
        ⟨x, reply, phase, rfl, rfl⟩ | hkeeps
      · obtain rfl : point = .start := by
          cases point <;> first | rfl | cases haction
        rw [if_pos rfl] at hcluster
        obtain ⟨out, hout, hfst⟩ := Option.map_eq_some_iff.mp (HandlerAction.start.inj haction)
        have heval : (s.cluster.nodes p).start (asString hd.op) =
            (((s.cluster.nodes p).start (asString hd.op)).1, some (x, out.2)) := by
          rw [← hfst]
          exact Prod.ext rfl hout
        obtain ⟨hx, hxlast⟩ := start_last heval
        refine h.started hi phase hhandlers hserver rfl rfl hx ?_ hI hS
        rw [← hcluster, nodes_start _ hlive]
        exact hxlast
      · exact h.opened hi phase hhandlers hserver rfl rfl hlast hI hS
      · exact h.closed hi phase hhandlers hserver rfl rfl hlast hI hS
      · refine h.kept hi hkeeps hhandlers hserver ?_ ?_ hlast hI hS
        · cases next with
          | waiting x q => exact absurd rfl (hkeeps.not_waiting x q)
          | _ => rfl
        · cases next with
          | started x => exact absurd rfl (hkeeps.not_started x)
          | _ => rfl

theorem Sound.serverStep (h : s.Sound p) (hlive : s.cluster.exited p = none) (a : ServerAction) :
    (s.serverStep asString ar p a).Sound p := by
  cases a with
  | get key clientId requestId =>
    exact h.call ⟨.get, ⟨"Get", key, "", clientId, requestId⟩, .called⟩ rfl rfl rfl
      (h.sourced.step _)
  | putAppend op key value clientId requestId =>
    exact h.call ⟨.putAppend, ⟨op, key, value, clientId, requestId⟩, .called⟩ rfl rfl rfl
      (h.sourced.step _)
  | handler i point => exact h.handler hlive i point
  | loop raftStateSize flips =>
    simp only [KvNode.serverStep]
    split_ifs
    · exact h.loop raftStateSize flips
    · exact h
  | snapshot =>
    simp only [KvNode.serverStep]
    split
    · exact h.snapshot _ _ _
    · exact h

theorem Sound.step (h : s.Sound p) (a : NodeAction n) : (s.step asString ar p a).Sound p := by
  cases a with
  | cluster a =>
    simp only [KvNode.step]
    split_ifs
    · exact h
    · exact h.cluster a
  | server a =>
    simp only [KvNode.step]
    split_ifs with hlive
    · exact h.serverStep hlive a
    · exact h

theorem sound_runOf (asString : Op → String) (ar : Archives) (p : Fin n) (maxRaftState : ℤ)
    (acts : List (NodeAction n)) : (runOf asString ar p maxRaftState acts).Sound p :=
  run_invariant (sound_init p maxRaftState) (fun _ a h => h.step a) acts

/-- In every run of a server on its node: `Start` returns increasing indexes; two handlers never wait
on one queue, and a handler that is about to remove what is registered for its index removes the
queue it got itself; and whoever is told `OK` or `ErrNoKey` sent a request that the apply loop has
dealt with, or that is in an installed snapshot, or an earlier one than such a request. -/
theorem no_premature_acknowledgement (asString : Op → String) (ar : Archives) (p : Fin n)
    (maxRaftState : ℤ) (acts : List (NodeAction n)) :
    let s := runOf asString ar p maxRaftState acts
    let handlers := s.server.kv.handlers
    s.starts.Pairwise (· < ·) ∧
    (∀ (i j : ℕ) (h h' : Handler) x y q, handlers[i]? = some h → handlers[j]? = some h' →
      h.phase = .waiting x q → h'.phase = .waiting y q → i = j) ∧
    (∀ (i : ℕ) (h : Handler) x reply, handlers[i]? = some h → h.phase = .closing x reply →
      ∃ q, s.queueOf i = some q ∧ s.server.kv.server.waitApplyCh x = some q ∧
        ∀ (j : ℕ) (h' : Handler) y, handlers[j]? = some h' → h'.phase.opened = some y →
          s.queueOf j = some q → j = i) ∧
    ∀ h ∈ handlers, ∀ reply : KvReply, reply.err ≠ .errWrongLeader →
      (h.phase = .returned reply ∨ ∃ x, h.phase = .closing x reply) →
      s.server.Covered h.op.clientId h.op.requestId := by
  intro s handlers
  have hsound := sound_runOf asString ar p maxRaftState acts
  refine ⟨hsound.starts_lt, ?_, ?_, ?_⟩
  · intro i j h h' x y q hi hj hw hw'
    refine hsound.exclusive.opened_inj (x := x) (y := y) (q := q) ?_ ?_
      (hsound.waiting i h x q hi hw) (hsound.waiting j h' y q hj hw')
    · rw [opened_eq hi, hw]
      rfl
    · rw [opened_eq hj, hw']
      rfl
  · intro i h x reply hi hclosing
    have hopened : (s.registry p).opened i = some x := by
      rw [opened_eq hi, hclosing]
      rfl
    obtain ⟨q, hcell, hreg⟩ := hsound.exclusive.own i x hopened
    refine ⟨q, hcell, hreg, fun j h' y hj hy hq => ?_⟩
    have hopened' : (s.registry p).opened j = some y := by rw [opened_eq hj, hy]
    exact hsound.exclusive.opened_inj hopened' hopened hq hcell
  · intro h hmem reply herr hphase
    refine hsound.sourced.handlers h hmem ?_
    rcases hphase with hphase | ⟨x, hphase⟩
    · rw [Handler.Acknowledges, hphase]
      exact herr
    · rw [Handler.Acknowledges, hphase]
      exact herr

end KvNode
end RaftStorage
