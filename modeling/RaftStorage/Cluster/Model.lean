import RaftStorage.Raft.Handlers
import RaftStorage.Library.Transition

/-! A cluster of `n` nodes over an unreliable network. Requests stay in the state once they are sent
and may be delivered any number of times or never; each delivery leaves a reply, and the thread
that made the call takes at most one of the replies to its own request. A node whose assertion
fails has left the cluster: it takes no further step. -/

namespace RaftStorage
open Library

/-- The requests of one `doElection`, with the shared `votedNum`. -/
abbrev Election (n : ℕ) := Round n (RequestVoteArgs n) Unit RequestVoteReply

/-- What all requests of one `doHeartBeat` have in common: the leader's term and last index. -/
structure HeartBeatInfo where
  term : ℤ
  lastLogIndex : ℤ
  deriving DecidableEq, Repr

/-- The requests of one `doHeartBeat`, with the shared `appendNums`. -/
abbrev HeartBeat (n : ℕ) := Round n HeartBeatInfo (AppendEntriesArgs n) AppendEntriesReply

/-- One `leaderSendSnapShot` thread; `request` is empty until the thread first takes the lock. -/
structure SnapShotThread (n : ℕ) where
  owner : Fin n
  server : Fin n
  request : Option (InstallSnapshotRequest n)
  replies : List InstallSnapshotResponse
  taken : Option InstallSnapshotResponse

/-- Who will push a message to `applyChan`: the `applierTicker` loop, or a detached
`pushMsgToKvServer` thread. -/
inductive Pusher where
  | applier | thread
  deriving DecidableEq, Repr

structure Cluster (n : ℕ) where
  nodes : Fin n → Raft n
  /-- the assertion that ended the node's process -/
  exited : Fin n → Option AssertFail
  elections : List (Election n)
  heartBeats : List (HeartBeat n)
  snapShots : List (SnapShotThread n)
  /-- every execution of `m_status = Leader`, with the term it happened in -/
  elected : List (Fin n × ℤ)
  /-- every message returned by `getApplyLogs` -/
  applied : List (Fin n × ApplyMsg)
  /-- messages not yet pushed, in the order in which they were made -/
  pending : Fin n → List (Pusher × ApplyMsg)
  /-- everything pushed to `applyChan` so far -/
  applyChan : Fin n → List ApplyMsg

/-- `k` selects one of the replies that the request has received. -/
inductive Action (n : ℕ) where
  | doElection (p : Fin n)
  | requestVote (e : ℕ) (p : Fin n)
  | sendRequestVote (e : ℕ) (p : Fin n) (k : ℕ)
  | start (p : Fin n) (command : String)
  | doHeartBeat (p : Fin n)
  | appendEntries1 (h : ℕ) (p : Fin n)
  | sendAppendEntries (h : ℕ) (p : Fin n) (k : ℕ)
  | leaderSendSnapShot (t : ℕ)
  | installSnapshot (t : ℕ)
  | leaderSendSnapShotReply (t : ℕ) (k : ℕ)
  | snapshot (p : Fin n) (index : ℤ) (snapshot : String)
  | getApplyLogs (p : Fin n)
  | applierPush (p : Fin n)
  | pushMsgToKvServer (p : Fin n) (k : ℕ)

namespace Cluster

variable {n : ℕ} {β : Type}

def init (n : ℕ) : Cluster n where
  nodes := Raft.init
  exited := fun _ => none
  elections := []
  heartBeats := []
  snapShots := []
  elected := []
  applied := []
  pending := fun _ => []
  applyChan := fun _ => []

/-- Run a handler on a live node; `k` records its results. -/
def onNode (s : Cluster n) (p : Fin n) (f : Raft n → Except AssertFail (Raft n × β))
    (k : Cluster n → β → Cluster n) : Cluster n :=
  match s.exited p with
  | some _ => s
  | none =>
    match f (s.nodes p) with
    | .error a => { s with exited := Function.update s.exited p (some a) }
    | .ok (rf, b) => k { s with nodes := Function.update s.nodes p rf } b

def newElection (p : Fin n) (args : RequestVoteArgs n) : Election n where
  owner := p
  info := args
  counter := 1
  calls := fun i => if i = p then none else some (Call.start ())

def newHeartBeat (p : Fin n) (rf : Raft n) (sends : Fin n → Option (Raft.HeartBeatSend n)) :
    HeartBeat n where
  owner := p
  info := ⟨rf.currentTerm, rf.getLastLogIndex⟩
  counter := 1
  calls := fun i =>
    match sends i with
    | some (.append args) => some (Call.start args)
    | _ => none

def newSnapShots (p : Fin n) (sends : Fin n → Option (Raft.HeartBeatSend n)) :
    List (SnapShotThread n) :=
  (List.finRange n).filterMap fun i =>
    match sends i with
    | some .snapShot => some ⟨p, i, none, [], none⟩
    | _ => none

def recordElection (p : Fin n) (s : Cluster n) : Option (RequestVoteArgs n) → Cluster n
  | none => s
  | some args => { s with elections := s.elections ++ [newElection p args] }

def recordVote (e : ℕ) (p : Fin n) (s : Cluster n) (reply : RequestVoteReply) : Cluster n :=
  { s with elections := s.elections.modify e (·.respond p reply) }

def recordVoteReply (e : ℕ) (owner p : Fin n) (reply : RequestVoteReply) (s : Cluster n)
    (out : ℤ × Bool) : Cluster n :=
  { s with
    elections := s.elections.modify e (·.take p reply out.1)
    elected := if out.2 then s.elected ++ [(owner, (s.nodes owner).currentTerm)] else s.elected }

def recordHeartBeat (p : Fin n) (s : Cluster n) :
    Option (Fin n → Option (Raft.HeartBeatSend n)) → Cluster n
  | none => s
  | some sends =>
    { s with
      heartBeats := s.heartBeats ++ [newHeartBeat p (s.nodes p) sends]
      snapShots := s.snapShots ++ newSnapShots p sends }

def recordAppend (h : ℕ) (p : Fin n) (s : Cluster n) (reply : AppendEntriesReply) : Cluster n :=
  { s with heartBeats := s.heartBeats.modify h (·.respond p reply) }

def recordAppendReply (h : ℕ) (p : Fin n) (reply : AppendEntriesReply) (s : Cluster n)
    (appendNums : ℤ) : Cluster n :=
  { s with heartBeats := s.heartBeats.modify h (·.take p reply appendNums) }

def recordSnapShotRequest (t : ℕ) (s : Cluster n) (args : InstallSnapshotRequest n) : Cluster n :=
  { s with snapShots := s.snapShots.modify t fun th => { th with request := some args } }

def recordInstall (t : ℕ) (p : Fin n) (s : Cluster n)
    (out : InstallSnapshotResponse × Option ApplyMsg) : Cluster n :=
  { s with
    snapShots := s.snapShots.modify t fun th => { th with replies := th.replies ++ [out.1] }
    pending := Function.update s.pending p
      (s.pending p ++ out.2.toList.map fun msg => (.thread, msg)) }

def recordSnapShotReply (t : ℕ) (reply : InstallSnapshotResponse) (s : Cluster n) : Cluster n :=
  { s with snapShots := s.snapShots.modify t fun th => { th with taken := some reply } }

def recordApply (p : Fin n) (s : Cluster n) (applyMsgs : List ApplyMsg) : Cluster n :=
  { s with
    applied := s.applied ++ applyMsgs.map (p, ·)
    pending := Function.update s.pending p
      (s.pending p ++ applyMsgs.map fun msg => (.applier, msg)) }

def push (s : Cluster n) (p : Fin n) (k : ℕ) : Cluster n :=
  match s.exited p, (s.pending p)[k]? with
  | none, some (_, msg) =>
    { s with
      pending := Function.update s.pending p ((s.pending p).eraseIdx k)
      applyChan := Function.update s.applyChan p (s.applyChan p ++ [msg]) }
  | _, _ => s

/-- An action that is not enabled leaves the cluster as it is. -/
def step (s : Cluster n) : Action n → Cluster n
  | .doElection p => s.onNode p (fun rf => .ok rf.doElection) (recordElection p)
  | .requestVote e p =>
    match s.elections[e]? with
    | some r =>
      if (r.calls p).isSome then s.onNode p (·.requestVote r.info) (recordVote e p) else s
    | none => s
  | .sendRequestVote e p k =>
    match s.elections[e]? with
    | some r =>
      match r.calls p with
      | some c =>
        match c.taken, c.replies[k]? with
        | none, some reply =>
          s.onNode r.owner (·.sendRequestVote reply r.counter) (recordVoteReply e r.owner p reply)
        | _, _ => s
      | none => s
    | none => s
  | .start p command => s.onNode p (fun rf => .ok (rf.start command)) fun s _ => s
  | .doHeartBeat p => s.onNode p (fun rf => return (rf, ← rf.doHeartBeat)) (recordHeartBeat p)
  | .appendEntries1 h p =>
    match s.heartBeats[h]? with
    | some r =>
      match r.calls p with
      | some c => s.onNode p (·.appendEntries1 c.args) (recordAppend h p)
      | none => s
    | none => s
  | .sendAppendEntries h p k =>
    match s.heartBeats[h]? with
    | some r =>
      match r.calls p with
      | some c =>
        match c.taken, c.replies[k]? with
        | none, some reply =>
          s.onNode r.owner (·.sendAppendEntries p c.args reply r.counter)
            (recordAppendReply h p reply)
        | _, _ => s
      | none => s
    | none => s
  | .leaderSendSnapShot t =>
    match s.snapShots[t]? with
    | some th =>
      match th.request with
      | none => s.onNode th.owner (fun rf => .ok rf.leaderSendSnapShot) (recordSnapShotRequest t)
      | some _ => s
    | none => s
  | .installSnapshot t =>
    match s.snapShots[t]? with
    | some th =>
      match th.request with
      | some args => s.onNode th.server (·.installSnapshot args) (recordInstall t th.server)
      | none => s
    | none => s
  | .leaderSendSnapShotReply t k =>
    match s.snapShots[t]? with
    | some th =>
      match th.request, th.taken, th.replies[k]? with
      | some args, none, some reply =>
        s.onNode th.owner (fun rf => .ok (rf.leaderSendSnapShotReply th.server args reply, ()))
          fun s _ => recordSnapShotReply t reply s
      | _, _, _ => s
    | none => s
  | .snapshot p index snapshot =>
    s.onNode p (fun rf => return (← rf.snapshot index snapshot, ())) fun s _ => s
  | .getApplyLogs p =>
    -- one applier thread: it collects again only after pushing its whole batch
    if (s.pending p).all (·.1 ≠ .applier) then s.onNode p (·.getApplyLogs) (recordApply p) else s
  | .applierPush p =>
    match (s.pending p).findIdx? (·.1 = .applier) with
    | some k => s.push p k
    | none => s
  | .pushMsgToKvServer p k =>
    match (s.pending p)[k]? with
    | some (.thread, _) => s.push p k
    | _ => s

def runOf (acts : List (Action n)) : Cluster n := run step (init n) acts

end Cluster
end RaftStorage
