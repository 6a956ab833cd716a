import RaftStorage.Raft.Messages
import RaftStorage.Store.SkipListSpecs
import Mathlib.Data.String.Basic

/-! `KvServer`: its data and the functions that run under `m_mtx`. The Boost archives are a parameter.
Where an element is inserted into the skip list, `flips` stands for the random numbers drawn. -/

namespace RaftStorage

structure Op where
  operation : String
  key : String
  value : String
  clientId : String
  requestId : ℤ
  deriving DecidableEq, Repr

/-- `OK`, `ErrNoKey` and `ErrWrongLeader` of `util.h`. -/
inductive Err where
  | ok | errNoKey | errWrongLeader
  deriving DecidableEq, Repr

/-- The text archives: of an `Op`, of the two vectors of a `SkipListDump`, and of the server's own
`serialize`. -/
structure Archives where
  parseOp : String → Op
  saveDump : List String × List String → String
  loadDump : String → List String × List String
  saveServer : String × (String → Option ℤ) → String
  loadServer : String → String × (String → Option ℤ)

structure KvServer where
  maxRaftState : ℤ
  skipList : SkipList String String
  lastRequestId : String → Option ℤ
  /-- the address of the queue for a log index -/
  waitApplyCh : ℤ → Option ℕ
  /-- the contents of the queues that are not deleted -/
  queues : ℕ → Option (List Op)
  queuesMade : ℕ
  lastSnapShotRaftLogIndex : ℤ

namespace KvServer

def init (maxRaftState : ℤ) : KvServer where
  maxRaftState := maxRaftState
  skipList := SkipList.create 6
  lastRequestId := fun _ => none
  waitApplyCh := fun _ => none
  queues := fun _ => none
  queuesMade := 0
  lastSnapShotRaftLogIndex := 0

def setLastRequestId (kv : KvServer) (op : Op) : KvServer :=
  { kv with lastRequestId := Function.update kv.lastRequestId op.clientId (some op.requestId) }

/-- The common body of `ExecutePutOpOnKVDB` and `ExecuteAppendOpOnKVDB`. -/
def executeSet (kv : KvServer) (op : Op) (flips : ℕ) : KvServer :=
  setLastRequestId { kv with skipList := kv.skipList.insertSetElement op.key op.value flips } op

def executePutOpOnKVDB (kv : KvServer) (op : Op) (flips : ℕ) : KvServer := kv.executeSet op flips

def executeAppendOpOnKVDB (kv : KvServer) (op : Op) (flips : ℕ) : KvServer := kv.executeSet op flips

/-- The value is empty when `exist` is false. -/
def executeGetOpOnKVDB (kv : KvServer) (op : Op) : KvServer × String × Bool :=
  let found := kv.skipList.searchElement op.key
  (kv.setLastRequestId op, found.getD "", found.isSome)

def ifRequestDuplicate (kv : KvServer) (clientId : String) (requestId : ℤ) : Bool :=
  match kv.lastRequestId clientId with
  | none => false
  | some last => requestId ≤ last

theorem ifRequestDuplicate_iff {kv : KvServer} {c : String} {r : ℤ} :
    kv.ifRequestDuplicate c r = true ↔ ∃ last ∈ kv.lastRequestId c, r ≤ last := by
  unfold ifRequestDuplicate
  cases kv.lastRequestId c with
  | none => simp
  | some last => simp

def sendMessageToWaitChan (kv : KvServer) (op : Op) (raftIndex : ℤ) : KvServer × Bool :=
  match kv.waitApplyCh raftIndex with
  | none => (kv, false)
  | some q => ({ kv with queues := Function.update kv.queues q ((kv.queues q).map (· ++ [op])) }, true)

/-- The first critical section of a handler: find or make the queue for its index. -/
def openWaitChan (kv : KvServer) (raftIndex : ℤ) : KvServer × ℕ :=
  match kv.waitApplyCh raftIndex with
  | some q => (kv, q)
  | none =>
    ({ kv with
        waitApplyCh := Function.update kv.waitApplyCh raftIndex (some kv.queuesMade)
        queues := Function.update kv.queues kv.queuesMade (some [])
        queuesMade := kv.queuesMade + 1 }, kv.queuesMade)

def popWaitChan (kv : KvServer) (q : ℕ) : Option (KvServer × Op) :=
  match kv.queues q with
  | some (op :: rest) => some ({ kv with queues := Function.update kv.queues q (some rest) }, op)
  | _ => none

/-- The last critical section of a handler: the queue is erased and deleted. -/
def closeWaitChan (kv : KvServer) (raftIndex : ℤ) : KvServer :=
  { kv with
    waitApplyCh := Function.update kv.waitApplyCh raftIndex none
    queues :=
      match kv.waitApplyCh raftIndex with
      | some q => Function.update kv.queues q none
      | none => kv.queues }

/-- `dump_file`, then the server's own archive. -/
def makeSnapShot (ar : Archives) (kv : KvServer) : String :=
  let dump := kv.skipList.dump
  let serializedKVData := ar.saveDump (dump.map Prod.fst, dump.map Prod.snd)
  ar.saveServer (serializedKVData, kv.lastRequestId)

/-- `GetRaftStateSize() > m_maxRaftState / 10.0`, in integers; the call that is made of
`Raft::Snapshot`. -/
def ifNeedToSendSnapShotCommand (ar : Archives) (kv : KvServer) (raftIndex : ℤ) (raftStateSize : ℤ) :
    Option (ℤ × String) :=
  if 10 * raftStateSize > kv.maxRaftState then some (raftIndex, kv.makeSnapShot ar) else none

/-- `load_file` inserts each key with the key itself as its value. -/
def loadFile (ar : Archives) (l : SkipList String String) (dumpStr : String) (flips : ℕ → ℕ) :
    SkipList String String :=
  if dumpStr = "" then l
  else (ar.loadDump dumpStr).1.zipIdx.foldl
    (fun l (key, i) => (l.insertElement key key (flips i)).1) l

def readSnapShotToInstall (ar : Archives) (kv : KvServer) (snapshot : String) (flips : ℕ → ℕ) :
    KvServer :=
  if snapshot = "" then kv
  else
    let (serializedKVData, lastRequestId) := ar.loadServer snapshot
    { kv with
      lastRequestId := lastRequestId
      skipList := loadFile ar kv.skipList serializedKVData flips }

/-- `CondInstallSnapshot` of the node always agrees. -/
def condInstallSnapshot (_lastIncludedTerm _lastIncludedIndex : ℤ) (_snapshot : String) : Bool :=
  true

def getSnapShotFromRaft (ar : Archives) (kv : KvServer) (message : ApplyMsg) (flips : ℕ → ℕ) :
    KvServer :=
  if condInstallSnapshot message.snapshotTerm message.snapshotIndex message.snapshot then
    { kv.readSnapShotToInstall ar message.snapshot flips with
      lastSnapShotRaftLogIndex := message.snapshotIndex }
  else kv

end KvServer
end RaftStorage
