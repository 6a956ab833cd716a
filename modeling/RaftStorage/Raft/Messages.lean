import Mathlib.Data.Int.Basic

/-! The records that cross a node's boundary: the protobuf messages of `raftRPC.proto`, the
`ApplyMsg` handed to the key-value server and the record that `persistData` archives.
Numbers are unbounded; a missing protobuf field reads as its default. -/

namespace RaftStorage

inductive Status where
  | follower | candidate | leader
  deriving DecidableEq, Repr

inductive AppState where
  | disconnected | appNormal
  deriving DecidableEq, Repr

inductive VoteState where
  | killed | voted | expire | normal
  deriving DecidableEq, Repr

structure LogEntry where
  command : String
  logTerm : ℤ
  logIndex : ℤ
  deriving DecidableEq, Repr

structure AppendEntriesArgs (n : ℕ) where
  term : ℤ
  leaderId : Fin n
  prevLogIndex : ℤ
  prevLogTerm : ℤ
  entries : List LogEntry
  leaderCommit : ℤ
  deriving DecidableEq, Repr

structure AppendEntriesReply where
  term : ℤ := 0
  success : Bool := false
  updateNextIndex : ℤ := 0
  appState : AppState := .disconnected
  deriving DecidableEq, Repr

structure RequestVoteArgs (n : ℕ) where
  term : ℤ
  candidateId : Fin n
  lastLogIndex : ℤ
  lastLogTerm : ℤ
  deriving DecidableEq, Repr

structure RequestVoteReply where
  term : ℤ := 0
  voteGranted : Bool := false
  voteState : VoteState := .killed
  deriving DecidableEq, Repr

structure InstallSnapshotRequest (n : ℕ) where
  leaderId : Fin n
  term : ℤ
  lastSnapshotIncludeIndex : ℤ
  lastSnapshotIncludeTerm : ℤ
  data : String
  deriving DecidableEq, Repr

structure InstallSnapshotResponse where
  term : ℤ := 0
  deriving DecidableEq, Repr

structure ApplyMsg where
  commandValid : Bool := false
  command : String := ""
  commandIndex : ℤ := -1
  snapshotValid : Bool := false
  snapshot : String := ""
  snapshotTerm : ℤ := -1
  snapshotIndex : ℤ := -1
  deriving DecidableEq, Repr

/-- The fields that `persistData` archives; `votedFor = none` stands for the source's `-1`. -/
structure BoostPersistRaftNode (n : ℕ) where
  currentTerm : ℤ
  votedFor : Option (Fin n)
  lastSnapshotIncludeIndex : ℤ
  lastSnapshotIncludeTerm : ℤ
  logs : List LogEntry
  deriving DecidableEq, Repr

/-- What a node's `Persister` holds: the raft state last handed to `Save` or `SaveRaftState`
(before Boost turns it into text) and what the snapshot file contains once its stream is closed. -/
structure Persister (n : ℕ) where
  raftState : Option (BoostPersistRaftNode n)
  snapshotFile : String
  deriving DecidableEq, Repr

namespace Persister

variable {n : ℕ}

def save (_ : Persister n) (raftstate : BoostPersistRaftNode n) (snapshot : String) :
    Persister n := ⟨some raftstate, snapshot⟩

def saveRaftState (p : Persister n) (data : BoostPersistRaftNode n) : Persister n :=
  { p with raftState := some data }

def isSpace (c : Char) : Bool := c = ' ' || (9 ≤ c.toNat && c.toNat ≤ 13)

/-- What `ifs >> snapshot` extracts: the first run of non-space characters. -/
def firstToken (s : String) : String :=
  String.ofList ((s.toList.dropWhile isSpace).takeWhile fun c => !isSpace c)

/-- Reading closes the output stream, extracts one token, and on the way out reopens the stream
with the default mode, which truncates the file. -/
def readSnapshot (p : Persister n) : String × Persister n :=
  (firstToken p.snapshotFile, { p with snapshotFile := "" })

end Persister

/-- The `myAssert` calls of the modelled functions, each of which ends the process, and the one
undefined behaviour they guard against (`vectorRange`, a subscript outside `m_logs`). -/
inductive AssertFail where
  | appendTerm | appendCommand | appendLength | appendCommit
  | heartBeatNextIndex | heartBeatLength
  | applyCommit | applyIndex
  | matchLog
  | logTermLow | logTermHigh
  | sliceLow | sliceHigh
  | voteTerm | voteReplyTerm | leaderTwice
  | appendReplyTerm | appendReplyNextIndex | appendReplyCommit
  | snapshotLength
  | vectorRange
  deriving DecidableEq, Repr

def myAssert (condition : Prop) [Decidable condition] (site : AssertFail) :
    Except AssertFail Unit := if condition then .ok () else .error site

end RaftStorage
