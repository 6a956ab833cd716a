import RaftStorage.Kv.Server
import RaftStorage.Library.Transition

/-! The threads of one `KvServer`: the apply loop and any number of `Get` and `PutAppend` handlers. A
step runs one thread from one release of a lock to the next. What the Raft node answers (the index
of `Start`, whether it is the leader, the size of its state) and when a handler times out is up to
the action. -/

namespace RaftStorage
open Library

inductive Rpc where
  | get | putAppend
  deriving DecidableEq, Repr

structure KvReply where
  err : Err
  value : String := ""
  deriving DecidableEq, Repr

inductive HandlerPhase where
  | called
  | started (raftIndex : ℤ)
  | waiting (raftIndex : ℤ) (queue : ℕ)
  | timedOut (raftIndex : ℤ) (isLeader : Bool)
  | executing (raftIndex : ℤ)
  | closing (raftIndex : ℤ) (reply : KvReply)
  | returned (reply : KvReply)
  deriving DecidableEq, Repr

structure Handler where
  rpc : Rpc
  op : Op
  phase : HandlerPhase
  deriving DecidableEq, Repr

def Handler.isExecuting (h : Handler) : Bool :=
  match h.phase with
  | .executing _ => true
  | _ => false

inductive HandlerAction where
  /-- `Start` returns an index, or says that the node is not the leader -/
  | start (raftIndex : Option ℤ)
  | openWaitChan
  | pop
  /-- `timeOutPop` gives up and `GetState` answers; that the `DPrintf` of `PutAppend` there takes an
  `int` for `%s` is left out -/
  | timeOut (isLeader : Bool)
  | ifRequestDuplicate
  | executeGet
  | closeWaitChan
  deriving DecidableEq, Repr

/-- A handler step; `none` when the handler is not at this point. -/
def Handler.step (kv : KvServer) (h : Handler) : HandlerAction → Option (KvServer × Handler)
  | .start raftIndex =>
    match h.phase, raftIndex with
    | .called, some i => some (kv, { h with phase := .started i })
    | .called, none => some (kv, { h with phase := .returned ⟨.errWrongLeader, ""⟩ })
    | _, _ => none
  | .openWaitChan =>
    match h.phase with
    | .started i =>
      let (kv, q) := kv.openWaitChan i
      some (kv, { h with phase := .waiting i q })
    | _ => none
  | .pop =>
    match h.phase with
    | .waiting i q =>
      match kv.popWaitChan q with
      | some (kv, raftCommitOp) =>
        if raftCommitOp.clientId = h.op.clientId ∧ raftCommitOp.requestId = h.op.requestId then
          match h.rpc with
          | .get => some (kv, { h with phase := .executing i })
          | .putAppend => some (kv, { h with phase := .closing i ⟨.ok, ""⟩ })
        else some (kv, { h with phase := .closing i ⟨.errWrongLeader, ""⟩ })
      | none => none
    | _ => none
  | .timeOut isLeader =>
    match h.phase with
    | .waiting i _ => some (kv, { h with phase := .timedOut i isLeader })
    | _ => none
  | .ifRequestDuplicate =>
    match h.phase with
    | .timedOut i isLeader =>
      let duplicate := kv.ifRequestDuplicate h.op.clientId h.op.requestId
      match h.rpc with
      | .get =>
        if duplicate && isLeader then some (kv, { h with phase := .executing i })
        else some (kv, { h with phase := .closing i ⟨.errWrongLeader, ""⟩ })
      | .putAppend =>
        if duplicate then some (kv, { h with phase := .closing i ⟨.ok, ""⟩ })
        else some (kv, { h with phase := .closing i ⟨.errWrongLeader, ""⟩ })
    | _ => none
  | .executeGet =>
    match h.phase with
    | .executing i =>
      let (kv, value, exist) := kv.executeGetOpOnKVDB h.op
      let reply : KvReply := if exist then ⟨.ok, value⟩ else ⟨.errNoKey, ""⟩
      some (kv, { h with phase := .closing i reply })
    | _ => none
  | .closeWaitChan =>
    match h.phase with
    | .closing i reply => some (kv.closeWaitChan i, { h with phase := .returned reply })
    | _ => none

inductive LoopPhase where
  | popping
  | checking (message : ApplyMsg) (op : Op)
  | executing (message : ApplyMsg) (op : Op)
  | snapshotting (message : ApplyMsg) (op : Op)
  | sending (message : ApplyMsg) (op : Op)
  | installing (message : ApplyMsg)
  deriving DecidableEq, Repr

structure KvSystem where
  server : KvServer
  loop : LoopPhase
  handlers : List Handler
  applyChan : List ApplyMsg
  processed : List ApplyMsg
  /-- the requests that were executed on the skip list by the apply loop -/
  executed : List Op
  snapshots : List (ℤ × String)

inductive KvAction where
  | push (message : ApplyMsg)
  | loop (raftStateSize : ℤ) (flips : ℕ → ℕ)
  | get (key clientId : String) (requestId : ℤ)
  | putAppend (op key value clientId : String) (requestId : ℤ)
  | handler (i : ℕ) (a : HandlerAction)

namespace KvSystem

def init (maxRaftState : ℤ) : KvSystem where
  server := KvServer.init maxRaftState
  loop := .popping
  handlers := []
  applyChan := []
  processed := []
  executed := []
  snapshots := []

/-- `ReadRaftApplyCommandLoop` after `GetCommandFromRaft`. -/
def afterCommand (message : ApplyMsg) : LoopPhase :=
  if message.snapshotValid then .installing message else .popping

/-- The first part of an iteration, up to the lock of `ifRequestDuplicate`. -/
def receive (ar : Archives) (kv : KvServer) (message : ApplyMsg) : LoopPhase :=
  if message.commandValid then
    if message.commandIndex ≤ kv.lastSnapShotRaftLogIndex then afterCommand message
    else .checking message (ar.parseOp message.command)
  else afterCommand message

def loopStep (ar : Archives) (s : KvSystem) (raftStateSize : ℤ) (flips : ℕ → ℕ) : KvSystem :=
  match s.loop with
  | .popping =>
    match s.applyChan with
    | [] => s
    | message :: rest =>
      { s with
        applyChan := rest
        processed := s.processed ++ [message]
        loop := receive ar s.server message }
  | .checking message op =>
    if s.server.ifRequestDuplicate op.clientId op.requestId then
      { s with loop := .snapshotting message op }
    else { s with loop := .executing message op }
  | .executing message op =>
    if op.operation = "Put" then
      { s with
        server := s.server.executePutOpOnKVDB op (flips 0)
        executed := s.executed ++ [op]
        loop := .snapshotting message op }
    else if op.operation = "Append" then
      { s with
        server := s.server.executeAppendOpOnKVDB op (flips 0)
        executed := s.executed ++ [op]
        loop := .snapshotting message op }
    else { s with loop := .snapshotting message op }
  | .snapshotting message op =>
    let call :=
      if s.server.maxRaftState ≠ -1 then
        s.server.ifNeedToSendSnapShotCommand ar message.commandIndex raftStateSize
      else none
    { s with snapshots := s.snapshots ++ call.toList, loop := .sending message op }
  | .sending message op =>
    { s with
      server := (s.server.sendMessageToWaitChan op message.commandIndex).1
      loop := afterCommand message }
  | .installing message =>
    { s with server := s.server.getSnapShotFromRaft ar message flips, loop := .popping }

/-- An action that is not enabled leaves the system as it is. -/
def step (ar : Archives) (s : KvSystem) : KvAction → KvSystem
  | .push message => { s with applyChan := s.applyChan ++ [message] }
  | .loop raftStateSize flips => s.loopStep ar raftStateSize flips
  | .get key clientId requestId =>
    { s with handlers := s.handlers ++ [⟨.get, ⟨"Get", key, "", clientId, requestId⟩, .called⟩] }
  | .putAppend op key value clientId requestId =>
    { s with handlers := s.handlers ++ [⟨.putAppend, ⟨op, key, value, clientId, requestId⟩, .called⟩] }
  | .handler i a =>
    match s.handlers[i]? with
    | some h =>
      match h.step s.server a with
      | some (kv, h) => { s with server := kv, handlers := s.handlers.set i h }
      | none => s
    | none => s

def runOf (ar : Archives) (maxRaftState : ℤ) (acts : List KvAction) : KvSystem :=
  run (step ar) (init maxRaftState) acts

end KvSystem

/-! ## What a handler step can do -/

inductive HandlerStep (kv : KvServer) (h : Handler) :
    HandlerAction → KvServer → HandlerPhase → Prop
  | started {i} (phase : h.phase = .called) : HandlerStep kv h (.start (some i)) kv (.started i)
  | refused (phase : h.phase = .called) :
      HandlerStep kv h (.start none) kv (.returned ⟨.errWrongLeader, ""⟩)
  | opened {i} (phase : h.phase = .started i) :
      HandlerStep kv h .openWaitChan (kv.openWaitChan i).1 (.waiting i (kv.openWaitChan i).2)
  | matched {i q kv' op next} (phase : h.phase = .waiting i q)
      (popped : kv.popWaitChan q = some (kv', op)) (client : op.clientId = h.op.clientId)
      (request : op.requestId = h.op.requestId)
      (outcome : h.rpc = .get ∧ next = .executing i ∨
        h.rpc = .putAppend ∧ next = .closing i ⟨.ok, ""⟩) : HandlerStep kv h .pop kv' next
  | mismatched {i q kv' op} (phase : h.phase = .waiting i q)
      (popped : kv.popWaitChan q = some (kv', op)) :
      HandlerStep kv h .pop kv' (.closing i ⟨.errWrongLeader, ""⟩)
  | timedOut {i q isLeader} (phase : h.phase = .waiting i q) :
      HandlerStep kv h (.timeOut isLeader) kv (.timedOut i isLeader)
  | duplicate {i isLeader next} (phase : h.phase = .timedOut i isLeader)
      (recorded : kv.ifRequestDuplicate h.op.clientId h.op.requestId = true)
      (outcome : h.rpc = .get ∧ next = .executing i ∨
        h.rpc = .putAppend ∧ next = .closing i ⟨.ok, ""⟩) :
      HandlerStep kv h .ifRequestDuplicate kv next
  | gaveUp {i isLeader} (phase : h.phase = .timedOut i isLeader) :
      HandlerStep kv h .ifRequestDuplicate kv (.closing i ⟨.errWrongLeader, ""⟩)
  | executed {i reply} (phase : h.phase = .executing i)
      (answer : reply.err = .ok ∨ reply.err = .errNoKey) :
      HandlerStep kv h .executeGet (kv.setLastRequestId h.op) (.closing i reply)
  | closed {i reply} (phase : h.phase = .closing i reply) :
      HandlerStep kv h .closeWaitChan (kv.closeWaitChan i) (.returned reply)

theorem Handler.step_spec {kv kv' : KvServer} {h h' : Handler} {a : HandlerAction}
    (hs : h.step kv a = some (kv', h')) :
    ∃ next, h' = { h with phase := next } ∧ HandlerStep kv h a kv' next := by
  cases a with
  | start raftIndex =>
    simp only [Handler.step] at hs
    split at hs
    · rename_i hp
      obtain ⟨rfl, rfl⟩ := Prod.mk.inj (Option.some.inj hs)
      exact ⟨_, rfl, .started hp⟩
    · rename_i hp
      obtain ⟨rfl, rfl⟩ := Prod.mk.inj (Option.some.inj hs)
      exact ⟨_, rfl, .refused hp⟩
    · cases hs
  | openWaitChan =>
    simp only [Handler.step] at hs
    split at hs
    · rename_i hp
      obtain ⟨rfl, rfl⟩ := Prod.mk.inj (Option.some.inj hs)
      exact ⟨_, rfl, .opened hp⟩
    · cases hs
  | pop =>
    simp only [Handler.step] at hs
    split at hs
    · rename_i hp
      split at hs
      · rename_i hpop
        split_ifs at hs with hmatch
        · split at hs
          · rename_i hrpc
            obtain ⟨rfl, rfl⟩ := Prod.mk.inj (Option.some.inj hs)
            exact ⟨_, rfl, .matched hp hpop hmatch.1 hmatch.2 (Or.inl ⟨hrpc, rfl⟩)⟩
          · rename_i hrpc
            obtain ⟨rfl, rfl⟩ := Prod.mk.inj (Option.some.inj hs)
            exact ⟨_, rfl, .matched hp hpop hmatch.1 hmatch.2 (Or.inr ⟨hrpc, rfl⟩)⟩
        · obtain ⟨rfl, rfl⟩ := Prod.mk.inj (Option.some.inj hs)
          exact ⟨_, rfl, .mismatched hp hpop⟩
      · cases hs
    · cases hs
  | timeOut isLeader =>
    simp only [Handler.step] at hs
    split at hs
    · rename_i hp
      obtain ⟨rfl, rfl⟩ := Prod.mk.inj (Option.some.inj hs)
      exact ⟨_, rfl, .timedOut hp⟩
    · cases hs
  | ifRequestDuplicate =>
    simp only [Handler.step] at hs
    split at hs
    · rename_i hp
      split at hs
      · rename_i hrpc
        split_ifs at hs with hdup
        · obtain ⟨rfl, rfl⟩ := Prod.mk.inj (Option.some.inj hs)
          rw [Bool.and_eq_true] at hdup
          exact ⟨_, rfl, .duplicate hp hdup.1 (Or.inl ⟨hrpc, rfl⟩)⟩
        · obtain ⟨rfl, rfl⟩ := Prod.mk.inj (Option.some.inj hs)
          exact ⟨_, rfl, .gaveUp hp⟩
      · rename_i hrpc
        split_ifs at hs with hdup
        · obtain ⟨rfl, rfl⟩ := Prod.mk.inj (Option.some.inj hs)
          exact ⟨_, rfl, .duplicate hp hdup (Or.inr ⟨hrpc, rfl⟩)⟩
        · obtain ⟨rfl, rfl⟩ := Prod.mk.inj (Option.some.inj hs)
          exact ⟨_, rfl, .gaveUp hp⟩
    · cases hs
  | executeGet =>
    simp only [Handler.step] at hs
    split at hs
    · rename_i hp
      obtain ⟨rfl, rfl⟩ := Prod.mk.inj (Option.some.inj hs)
      refine ⟨_, rfl, .executed hp ?_⟩
      split_ifs
      · exact Or.inl rfl
      · exact Or.inr rfl
    · cases hs
  | closeWaitChan =>
    simp only [Handler.step] at hs
    split at hs
    · rename_i hp
      obtain ⟨rfl, rfl⟩ := Prod.mk.inj (Option.some.inj hs)
      exact ⟨_, rfl, .closed hp⟩
    · cases hs

structure SameReplica (kv kv' : KvServer) : Prop where
  skipList : kv'.skipList = kv.skipList
  lastRequestId : kv'.lastRequestId = kv.lastRequestId
  snapIndex : kv'.lastSnapShotRaftLogIndex = kv.lastSnapShotRaftLogIndex

namespace SameReplica

variable {kv kv' : KvServer}

theorem refl (kv : KvServer) : SameReplica kv kv := ⟨rfl, rfl, rfl⟩

theorem openWaitChan (kv : KvServer) (i : ℤ) : SameReplica kv (kv.openWaitChan i).1 := by
  unfold KvServer.openWaitChan
  split <;> exact ⟨rfl, rfl, rfl⟩

theorem popWaitChan {q : ℕ} {op : Op} (h : kv.popWaitChan q = some (kv', op)) :
    SameReplica kv kv' := by
  unfold KvServer.popWaitChan at h
  split at h
  · obtain ⟨rfl, -⟩ := Prod.mk.inj (Option.some.inj h)
    exact ⟨rfl, rfl, rfl⟩
  · cases h

theorem sendMessageToWaitChan (kv : KvServer) (op : Op) (i : ℤ) :
    SameReplica kv (kv.sendMessageToWaitChan op i).1 := by
  unfold KvServer.sendMessageToWaitChan
  split <;> exact ⟨rfl, rfl, rfl⟩

end SameReplica

theorem HandlerStep.sameReplica {kv kv' : KvServer} {h : Handler} {a : HandlerAction}
    {next : HandlerPhase} (hs : HandlerStep kv h a kv' next) :
    SameReplica kv kv' ∨
      a = .executeGet ∧ (∃ i, h.phase = .executing i) ∧ kv' = kv.setLastRequestId h.op := by
  cases hs with
  | opened => exact Or.inl (SameReplica.openWaitChan _ _)
  | matched _ popped => exact Or.inl (SameReplica.popWaitChan popped)
  | mismatched _ popped => exact Or.inl (SameReplica.popWaitChan popped)
  | executed phase => exact Or.inr ⟨rfl, ⟨_, phase⟩, rfl⟩
  | closed => exact Or.inl ⟨rfl, rfl, rfl⟩
  | _ => exact Or.inl (SameReplica.refl kv)

/-- The text archives of two requests of one client, read back. -/
def textArchives : Archives where
  parseOp := fun text =>
    if text = "22 serialization::archive 17 0 0 3 Get 1 k 0  1 c 1" then ⟨"Get", "k", "", "c", 1⟩
    else ⟨"Put", "k", "v", "c", 2⟩
  saveDump := fun _ => ""
  loadDump := fun _ => ([], [])
  saveServer := fun _ => ""
  loadServer := fun _ => ("", fun _ => none)

end RaftStorage
