import RaftStorage.Raft.Node
import RaftStorage.Library.Rounds

/-! The handlers of `raft.cpp`. Each runs under the node's mutex, so it is a function from the
state before to the state after; a call that spawns a thread returns what the thread will send,
and a thread that waits for its RPC is split into the part before and the part after the wait. -/

namespace RaftStorage
namespace Raft

variable {n : ℕ}

/-- The request that `doElection` hands to one `sendRequestVote` thread for every other peer. -/
def doElection (rf : Raft n) : Raft n × Option (RequestVoteArgs n) :=
  if rf.status = .leader then (rf, none)
  else
    let rf := { rf with
      status := .candidate
      currentTerm := rf.currentTerm + 1
      votedFor := some rf.me }
    let rf := rf.persist
    let (lastLogIndex, lastLogTerm) := rf.getLastLogIndexAndTerm
    (rf, some ⟨rf.currentTerm, rf.me, lastLogIndex, lastLogTerm⟩)

def requestVote (rf : Raft n) (args : RequestVoteArgs n) :
    Except AssertFail (Raft n × RequestVoteReply) :=
  if args.term < rf.currentTerm then
    .ok (rf.persist, { term := rf.currentTerm, voteState := .expire, voteGranted := false })
  else do
    let rf := rf.catchUp args.term
    myAssert (args.term = rf.currentTerm) .voteTerm
    if !rf.upToDate args.lastLogIndex args.lastLogTerm then
      return (rf.persist, { term := rf.currentTerm, voteState := .voted, voteGranted := false })
    else if rf.votedFor ≠ none ∧ rf.votedFor ≠ some args.candidateId then
      return (rf.persist, { term := rf.currentTerm, voteState := .voted, voteGranted := false })
    else
      let rf := { rf with votedFor := some args.candidateId }
      return (rf.persist, { term := rf.currentTerm, voteState := .normal, voteGranted := true })

/-- `sendRequestVote` after the reply has come: the new counter, and whether the node has just
made itself leader and started a heartbeat thread. -/
def sendRequestVote (rf : Raft n) (reply : RequestVoteReply) (votedNum : ℤ) :
    Except AssertFail (Raft n × ℤ × Bool) :=
  if reply.term > rf.currentTerm then .ok ((rf.stepDown reply.term).persist, votedNum, false)
  else if reply.term < rf.currentTerm then .ok (rf, votedNum, false)
  else do
    myAssert (reply.term = rf.currentTerm) .voteReplyTerm
    if !reply.voteGranted then return (rf, votedNum, false)
    else
      let votedNum := votedNum + 1
      if votedNum ≥ (n / 2 + 1 : ℕ) then
        myAssert (rf.status ≠ .leader) .leaderTwice
        let lastLogIndex := rf.getLastLogIndex
        let rf := { rf with
          status := .leader
          nextIndex := fun _ => lastLogIndex + 1
          matchIndex := fun _ => 0 }
        return (rf.persist, 0, true)
      else return (rf, votedNum, false)

/-- The new log index and term, or `none` when the node is not the leader. -/
def start (rf : Raft n) (command : String) : Raft n × Option (ℤ × ℤ) :=
  if rf.status ≠ .leader then (rf, none)
  else
    let newLogEntry : LogEntry := ⟨command, rf.currentTerm, rf.getNewCommandIndex⟩
    let rf := { rf with logs := rf.logs ++ [newLogEntry] }
    (rf.persist, some (newLogEntry.logIndex, newLogEntry.logTerm))

/-- What `doHeartBeat` starts for one peer: a `leaderSendSnapShot` thread, or a
`sendAppendEntries` thread with its request. -/
inductive HeartBeatSend (n : ℕ) where
  | snapShot
  | append (args : AppendEntriesArgs n)

def heartBeatEntries (rf : Raft n) (preLogIndex : ℤ) : Except AssertFail (List LogEntry) :=
  if preLogIndex ≠ rf.lastSnapshotIncludeIndex then do
    let k ← rf.getSlicesIndexFromLogIndex preLogIndex
    return rf.logs.drop (k + 1).toNat
  else .ok rf.logs

/-- One iteration of the loop of `doHeartBeat`. -/
def heartBeatTo (rf : Raft n) (i : Fin n) : Except AssertFail (Option (HeartBeatSend n)) :=
  if i = rf.me then .ok none
  else do
    myAssert (rf.nextIndex i ≥ 1) .heartBeatNextIndex
    if rf.nextIndex i ≤ rf.lastSnapshotIncludeIndex then return some .snapShot
    else
      let (preLogIndex, prevLogTerm) ← rf.getPrevLogInfo i
      let entries ← rf.heartBeatEntries preLogIndex
      myAssert (preLogIndex + entries.length = rf.getLastLogIndex) .heartBeatLength
      return some (.append
        { term := rf.currentTerm
          leaderId := rf.me
          prevLogIndex := preLogIndex
          prevLogTerm := prevLogTerm
          entries := entries
          leaderCommit := rf.commitIndex })

def doHeartBeat (rf : Raft n) :
    Except AssertFail (Option (Fin n → Option (HeartBeatSend n))) :=
  if rf.status = .leader then do return some (← Library.forPeers rf.heartBeatTo)
  else .ok none

/-- One iteration of the merge loop of `AppendEntries1`. -/
def mergeEntry (rf : Raft n) (log : LogEntry) : Except AssertFail (Raft n) :=
  if log.logIndex > rf.getLastLogIndex then .ok { rf with logs := rf.logs ++ [log] }
  else do
    let old ← rf.logAt log.logIndex
    myAssert (¬(old.logTerm = log.logTerm ∧ old.command ≠ log.command)) .appendCommand
    if old.logTerm ≠ log.logTerm then
      let k ← rf.getSlicesIndexFromLogIndex log.logIndex
      return { rf with logs := rf.logs.set k.toNat log }
    else return rf

def mergeEntries (rf : Raft n) (entries : List LogEntry) : Except AssertFail (Raft n) :=
  entries.foldlM mergeEntry rf

/-- The backward scan of the mismatch branch from `index = m_lastSnapshotIncludeIndex + k`: the
first index after the run of equal terms, or `prevLogIndex` when the loop falls off its end. -/
def scanConflict (rf : Raft n) (prevLogIndex : ℤ) : ℕ → Except AssertFail ℤ
  | 0 => do
    let term ← rf.getLogTermFromLogIndex rf.lastSnapshotIncludeIndex
    let prevTerm ← rf.getLogTermFromLogIndex prevLogIndex
    if term ≠ prevTerm then return rf.lastSnapshotIncludeIndex + 1 else return prevLogIndex
  | k + 1 => do
    let term ← rf.getLogTermFromLogIndex (rf.lastSnapshotIncludeIndex + (k + 1 : ℕ))
    let prevTerm ← rf.getLogTermFromLogIndex prevLogIndex
    if term ≠ prevTerm then return rf.lastSnapshotIncludeIndex + (k + 1 : ℕ) + 1
    else rf.scanConflict prevLogIndex k

/-- `updatenextindex` in the mismatch branch. -/
def conflictIndex (rf : Raft n) (prevLogIndex : ℤ) : Except AssertFail ℤ :=
  if prevLogIndex ≥ rf.lastSnapshotIncludeIndex then
    rf.scanConflict prevLogIndex (prevLogIndex - rf.lastSnapshotIncludeIndex).toNat
  else .ok prevLogIndex

def appendEntries1 (rf : Raft n) (args : AppendEntriesArgs n) :
    Except AssertFail (Raft n × AppendEntriesReply) :=
  let reply : AppendEntriesReply := { appState := .appNormal }
  if args.term < rf.currentTerm then
    .ok (rf, { reply with success := false, term := rf.currentTerm, updateNextIndex := -100 })
  else do
    let rf := rf.catchUp args.term
    myAssert (args.term = rf.currentTerm) .appendTerm
    let rf := { rf with status := .follower }
    if args.prevLogIndex > rf.getLastLogIndex then
      return (rf.persist, { reply with
        success := false, term := rf.currentTerm, updateNextIndex := rf.getLastLogIndex + 1 })
    else
      -- the source fills the reply here but does not return
      let reply := if args.prevLogIndex < rf.lastSnapshotIncludeIndex then
          { reply with
            success := false, term := rf.currentTerm
            updateNextIndex := rf.lastSnapshotIncludeIndex + 1 }
        else reply
      if ← rf.matchLog args.prevLogIndex args.prevLogTerm then
        let rf ← rf.mergeEntries args.entries
        myAssert (rf.getLastLogIndex ≥ args.prevLogIndex + args.entries.length) .appendLength
        let rf := if args.leaderCommit > rf.commitIndex then
            { rf with commitIndex := min args.leaderCommit rf.getLastLogIndex }
          else rf
        myAssert (rf.getLastLogIndex ≥ rf.commitIndex) .appendCommit
        return (rf.persist, { reply with success := true, term := rf.currentTerm })
      else
        let updateNextIndex ← rf.conflictIndex args.prevLogIndex
        return (rf.persist, { reply with
          success := false, term := rf.currentTerm, updateNextIndex := updateNextIndex })

/-- `sendAppendEntries` after the reply has come. -/
def sendAppendEntries (rf : Raft n) (server : Fin n) (args : AppendEntriesArgs n)
    (reply : AppendEntriesReply) (appendNums : ℤ) : Except AssertFail (Raft n × ℤ) :=
  if reply.appState = .disconnected then .ok (rf, appendNums)
  else if reply.term > rf.currentTerm then .ok (rf.stepDown reply.term, appendNums)
  else if reply.term < rf.currentTerm then .ok (rf, appendNums)
  else if rf.status ≠ .leader then .ok (rf, appendNums)
  else do
    myAssert (reply.term = rf.currentTerm) .appendReplyTerm
    if !reply.success then
      if reply.updateNextIndex ≠ -100 then
        return ({ rf with
          nextIndex := Function.update rf.nextIndex server reply.updateNextIndex }, appendNums)
      else return (rf, appendNums)
    else
      let appendNums := appendNums + 1
      let matched := max (rf.matchIndex server) (args.prevLogIndex + args.entries.length)
      let rf := { rf with
        matchIndex := Function.update rf.matchIndex server matched
        nextIndex := Function.update rf.nextIndex server (matched + 1) }
      let lastLogIndex := rf.getLastLogIndex
      myAssert (matched + 1 ≤ lastLogIndex + 1) .appendReplyNextIndex
      if appendNums ≥ (1 + n / 2 : ℕ) then
        let rf := if args.entries.getLast?.any (fun e => e.logTerm = rf.currentTerm) then
            { rf with
              commitIndex := max rf.commitIndex (args.prevLogIndex + args.entries.length) }
          else rf
        myAssert (rf.commitIndex ≤ lastLogIndex) .appendReplyCommit
        return (rf, 0)
      else return (rf, appendNums)

/-- `leaderSendSnapShot` up to its RPC. The thread was started by a leader, but neither the role
nor the term is checked again before the request is built. -/
def leaderSendSnapShot (rf : Raft n) : Raft n × InstallSnapshotRequest n :=
  let (data, persister) := rf.persister.readSnapshot
  ({ rf with persister := persister },
    { leaderId := rf.me
      term := rf.currentTerm
      lastSnapshotIncludeIndex := rf.lastSnapshotIncludeIndex
      lastSnapshotIncludeTerm := rf.lastSnapshotIncludeTerm
      data := data })

/-- `leaderSendSnapShot` after the reply has come. -/
def leaderSendSnapShotReply (rf : Raft n) (server : Fin n) (args : InstallSnapshotRequest n)
    (reply : InstallSnapshotResponse) : Raft n :=
  if rf.status ≠ .leader ∨ rf.currentTerm ≠ args.term then rf
  else if reply.term > rf.currentTerm then (rf.stepDown reply.term).persist
  else
    { rf with
      matchIndex := Function.update rf.matchIndex server args.lastSnapshotIncludeIndex
      nextIndex := Function.update rf.nextIndex server (args.lastSnapshotIncludeIndex + 1) }

/-- The entries that `InstallSnapshot` keeps: it cuts the log at the snapshot's index without
looking at the term of the entry there. -/
def logsAbove (rf : Raft n) (index : ℤ) : Except AssertFail (List LogEntry) :=
  if rf.getLastLogIndex > index then do
    let k ← rf.getSlicesIndexFromLogIndex index
    return rf.logs.drop (k + 1).toNat
  else .ok []

/-- The reply, and the message for the detached `pushMsgToKvServer` thread when there is one. -/
def installSnapshot (rf : Raft n) (args : InstallSnapshotRequest n) :
    Except AssertFail (Raft n × InstallSnapshotResponse × Option ApplyMsg) :=
  if args.term < rf.currentTerm then .ok (rf, { term := rf.currentTerm }, none)
  else do
    let rf := if args.term > rf.currentTerm then (rf.stepDown args.term).persist else rf
    let rf := { rf with status := .follower }
    if args.lastSnapshotIncludeIndex ≤ rf.lastSnapshotIncludeIndex then return (rf, {}, none)
    else
      let logs ← rf.logsAbove args.lastSnapshotIncludeIndex
      let rf := { rf with
        logs := logs
        commitIndex := max rf.commitIndex args.lastSnapshotIncludeIndex
        lastApplied := max rf.lastApplied args.lastSnapshotIncludeIndex
        lastSnapshotIncludeIndex := args.lastSnapshotIncludeIndex
        lastSnapshotIncludeTerm := args.lastSnapshotIncludeTerm }
      let msg : ApplyMsg :=
        { snapshotValid := true
          snapshot := args.data
          snapshotTerm := args.lastSnapshotIncludeTerm
          snapshotIndex := args.lastSnapshotIncludeIndex }
      return ({ rf with persister := rf.persister.save rf.persistData args.data },
        { term := rf.currentTerm }, some msg)

def snapshot (rf : Raft n) (index : ℤ) (snapshot : String) : Except AssertFail (Raft n) :=
  if rf.lastSnapshotIncludeIndex ≥ index ∨ index > rf.commitIndex then .ok rf
  else do
    let lastLogIndex := rf.getLastLogIndex
    let newLastSnapshotIncludeTerm := (← rf.logAt index).logTerm
    let trunckedLogs ← (List.range (lastLogIndex - index).toNat).mapM fun (i : ℕ) =>
      rf.logAt (index + 1 + i)
    let rf := { rf with
      lastSnapshotIncludeIndex := index
      lastSnapshotIncludeTerm := newLastSnapshotIncludeTerm
      logs := trunckedLogs
      commitIndex := max rf.commitIndex index
      lastApplied := max rf.lastApplied index }
    let rf := { rf with persister := rf.persister.save rf.persistData snapshot }
    myAssert (rf.logs.length + rf.lastSnapshotIncludeIndex = lastLogIndex) .snapshotLength
    return rf

/-- The loop of `getApplyLogs`, which runs `m_commitIndex - m_lastApplied` times. -/
def applyLoop : ℕ → Raft n → Except AssertFail (Raft n × List ApplyMsg)
  | 0, rf => .ok (rf, [])
  | k + 1, rf => do
    let rf := { rf with lastApplied := rf.lastApplied + 1 }
    let e ← rf.logAt rf.lastApplied
    myAssert (e.logIndex = rf.lastApplied) .applyIndex
    let applyMsg : ApplyMsg :=
      { commandValid := true
        snapshotValid := false
        command := e.command
        commandIndex := rf.lastApplied }
    let (rf, applyMsgs) ← applyLoop k rf
    return (rf, applyMsg :: applyMsgs)

def getApplyLogs (rf : Raft n) : Except AssertFail (Raft n × List ApplyMsg) := do
  myAssert (rf.commitIndex ≤ rf.getLastLogIndex) .applyCommit
  applyLoop (rf.commitIndex - rf.lastApplied).toNat rf

end Raft
end RaftStorage
