import RaftStorage.Raft.Messages
import Mathlib.Logic.Function.Basic

/-! The state of one `Raft` object and its access to the log. `m_logs` holds the entries after the
snapshot, so a logical index is looked up at the offset `logIndex - m_lastSnapshotIncludeIndex - 1`. -/

namespace RaftStorage

/-- `n` is `m_peers.size()`; `votedFor = none` is the source's `-1`. The two timestamps are left
out: only the tickers read them, and a run may take any timer step at any moment. -/
structure Raft (n : ℕ) where
  me : Fin n
  currentTerm : ℤ
  votedFor : Option (Fin n)
  logs : List LogEntry
  commitIndex : ℤ
  lastApplied : ℤ
  nextIndex : Fin n → ℤ
  matchIndex : Fin n → ℤ
  status : Status
  lastSnapshotIncludeIndex : ℤ
  lastSnapshotIncludeTerm : ℤ
  persister : Persister n

namespace Raft

variable {n : ℕ}

/-- `Raft::init` over a freshly constructed `Persister`, whose files are empty. -/
def init (me : Fin n) : Raft n where
  me := me
  currentTerm := 0
  votedFor := none
  logs := []
  commitIndex := 0
  lastApplied := 0
  nextIndex := fun _ => 0
  matchIndex := fun _ => 0
  status := .follower
  lastSnapshotIncludeIndex := 0
  lastSnapshotIncludeTerm := 0
  persister := ⟨none, ""⟩

def persistData (rf : Raft n) : BoostPersistRaftNode n where
  currentTerm := rf.currentTerm
  votedFor := rf.votedFor
  lastSnapshotIncludeIndex := rf.lastSnapshotIncludeIndex
  lastSnapshotIncludeTerm := rf.lastSnapshotIncludeTerm
  logs := rf.logs

def persist (rf : Raft n) : Raft n :=
  { rf with persister := rf.persister.saveRaftState rf.persistData }

def getLastLogIndexAndTerm (rf : Raft n) : ℤ × ℤ :=
  match rf.logs.getLast? with
  | none => (rf.lastSnapshotIncludeIndex, rf.lastSnapshotIncludeTerm)
  | some e => (e.logIndex, e.logTerm)

def getLastLogIndex (rf : Raft n) : ℤ := rf.getLastLogIndexAndTerm.1

def getLastLogTerm (rf : Raft n) : ℤ := rf.getLastLogIndexAndTerm.2

def getNewCommandIndex (rf : Raft n) : ℤ := rf.getLastLogIndex + 1

def getSlicesIndexFromLogIndex (rf : Raft n) (logIndex : ℤ) : Except AssertFail ℤ := do
  myAssert (logIndex > rf.lastSnapshotIncludeIndex) .sliceLow
  myAssert (logIndex ≤ rf.getLastLogIndex) .sliceHigh
  return logIndex - rf.lastSnapshotIncludeIndex - 1

/-- `m_logs[getSlicesIndexFromLogIndex(logIndex)]` -/
def logAt (rf : Raft n) (logIndex : ℤ) : Except AssertFail LogEntry := do
  let k ← rf.getSlicesIndexFromLogIndex logIndex
  match rf.logs[k.toNat]? with
  | some e => return e
  | none => .error .vectorRange

def getLogTermFromLogIndex (rf : Raft n) (logIndex : ℤ) : Except AssertFail ℤ := do
  myAssert (logIndex ≥ rf.lastSnapshotIncludeIndex) .logTermLow
  myAssert (logIndex ≤ rf.getLastLogIndex) .logTermHigh
  if logIndex = rf.lastSnapshotIncludeIndex then return rf.lastSnapshotIncludeTerm
  else return (← rf.logAt logIndex).logTerm

def matchLog (rf : Raft n) (logIndex logTerm : ℤ) : Except AssertFail Bool := do
  myAssert (logIndex ≥ rf.lastSnapshotIncludeIndex ∧ logIndex ≤ rf.getLastLogIndex) .matchLog
  return logTerm = (← rf.getLogTermFromLogIndex logIndex)

def upToDate (rf : Raft n) (index term : ℤ) : Bool :=
  let (lastIndex, lastTerm) := rf.getLastLogIndexAndTerm
  term > lastTerm || (term = lastTerm && index ≥ lastIndex)

def getPrevLogInfo (rf : Raft n) (server : Fin n) : Except AssertFail (ℤ × ℤ) :=
  if rf.nextIndex server = rf.lastSnapshotIncludeIndex + 1 then
    .ok (rf.lastSnapshotIncludeIndex, rf.lastSnapshotIncludeTerm)
  else do
    let preIndex := rf.nextIndex server - 1
    return (preIndex, (← rf.logAt preIndex).logTerm)

/-- The step-down that every handler performs on a newer term. -/
def stepDown (rf : Raft n) (term : ℤ) : Raft n :=
  { rf with status := .follower, currentTerm := term, votedFor := none }

/-- `if (args->term() > m_currentTerm) { … }` -/
def catchUp (rf : Raft n) (term : ℤ) : Raft n :=
  if term > rf.currentTerm then rf.stepDown term else rf

end Raft
end RaftStorage
