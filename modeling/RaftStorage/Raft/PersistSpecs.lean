import RaftStorage.Raft.SnapshotSpecs

/-! Which handlers save what they change. Every handler leaves the persistent fields as they were
saved last, by a deferred `persist`, an explicit one or `Save`, with one exception: the reply part
of `sendAppendEntries` enters a newer term without saving it. -/

namespace RaftStorage
namespace Raft

variable {n : ℕ} {rf rf' : Raft n}

/-- The state handed to the persister last is the current one; a node that has handed over nothing
is in its initial state. -/
def Persisted (rf : Raft n) : Prop :=
  rf.persister.raftState.getD (init rf.me).persistData = rf.persistData

instance (rf : Raft n) : Decidable rf.Persisted := inferInstanceAs (Decidable (_ = _))

theorem persisted_init (me : Fin n) : (init me).Persisted := rfl

theorem persisted_persist (rf : Raft n) : rf.persist.Persisted := rfl

theorem Persisted.congr (h : rf.Persisted) (hdata : rf'.persistData = rf.persistData)
    (hsaved : rf'.persister.raftState = rf.persister.raftState) : rf'.Persisted := by
  unfold Persisted at h ⊢
  rw [hsaved, hdata, ← h]
  rfl

theorem Persisted.doElection {out : Option (RequestVoteArgs n)} (h : rf.Persisted)
    (heval : rf.doElection = (rf', out)) : rf'.Persisted := by
  unfold Raft.doElection at heval
  split_ifs at heval
  · obtain ⟨rfl, -⟩ := Prod.mk.inj heval
    exact h
  · obtain ⟨rfl, -⟩ := Prod.mk.inj heval
    exact persisted_persist _

theorem requestVote_persisted {args : RequestVoteArgs n} {reply : RequestVoteReply}
    (heval : rf.requestVote args = .ok (rf', reply)) : rf'.Persisted := by
  unfold requestVote at heval
  split_ifs at heval
  · obtain ⟨rfl, -⟩ := Prod.mk.inj (Except.ok.inj heval)
    exact persisted_persist _
  · obtain ⟨_, -, heval⟩ := bind_ok.mp heval
    split_ifs at heval <;>
    · obtain ⟨rfl, -⟩ := Prod.mk.inj (pure_ok.mp heval)
      exact persisted_persist _

theorem Persisted.sendRequestVote {reply : RequestVoteReply} {votedNum : ℤ} {out : ℤ × Bool}
    (h : rf.Persisted) (heval : rf.sendRequestVote reply votedNum = .ok (rf', out)) :
    rf'.Persisted := by
  unfold Raft.sendRequestVote at heval
  split at heval
  · obtain ⟨rfl, -⟩ := Prod.mk.inj (Except.ok.inj heval)
    exact persisted_persist _
  split at heval
  · obtain ⟨rfl, -⟩ := Prod.mk.inj (Except.ok.inj heval)
    exact h
  obtain ⟨_, -, heval⟩ := bind_ok.mp heval
  split at heval
  · obtain ⟨rfl, -⟩ := Prod.mk.inj (pure_ok.mp heval)
    exact h
  dsimp only at heval
  split at heval
  · obtain ⟨_, -, heval⟩ := bind_ok.mp heval
    obtain ⟨rfl, -⟩ := Prod.mk.inj (pure_ok.mp heval)
    exact persisted_persist _
  · obtain ⟨rfl, -⟩ := Prod.mk.inj (pure_ok.mp heval)
    exact h

theorem Persisted.start {command : String} {out : Option (ℤ × ℤ)} (h : rf.Persisted)
    (heval : rf.start command = (rf', out)) : rf'.Persisted := by
  unfold Raft.start at heval
  split_ifs at heval
  · obtain ⟨rfl, -⟩ := Prod.mk.inj heval
    exact h
  · obtain ⟨rfl, -⟩ := Prod.mk.inj heval
    exact persisted_persist _

theorem Persisted.appendEntries1 {args : AppendEntriesArgs n} {reply : AppendEntriesReply}
    (h : rf.Persisted) (heval : rf.appendEntries1 args = .ok (rf', reply)) : rf'.Persisted := by
  unfold Raft.appendEntries1 at heval
  dsimp only at heval
  split at heval
  · obtain ⟨rfl, -⟩ := Prod.mk.inj (Except.ok.inj heval)
    exact h
  obtain ⟨_, -, heval⟩ := bind_ok.mp heval
  split at heval
  · obtain ⟨rfl, -⟩ := Prod.mk.inj (pure_ok.mp heval)
    exact persisted_persist _
  obtain ⟨b, -, heval⟩ := bind_ok.mp heval
  split at heval
  · -- the success branch: the deferred `persist` runs after the merge loop
    obtain ⟨_, -, heval⟩ := bind_ok.mp heval
    obtain ⟨_, -, heval⟩ := bind_ok.mp heval
    obtain ⟨_, -, heval⟩ := bind_ok.mp heval
    obtain ⟨rfl, -⟩ := Prod.mk.inj (pure_ok.mp heval)
    exact persisted_persist _
  · obtain ⟨_, -, heval⟩ := bind_ok.mp heval
    obtain ⟨rfl, -⟩ := Prod.mk.inj (pure_ok.mp heval)
    exact persisted_persist _

def Outdates (rf : Raft n) (reply : AppendEntriesReply) : Prop :=
  reply.appState ≠ .disconnected ∧ rf.currentTerm < reply.term

instance (rf : Raft n) (reply : AppendEntriesReply) : Decidable (rf.Outdates reply) :=
  inferInstanceAs (Decidable (_ ∧ _))

theorem Persisted.sendAppendEntries {server : Fin n} {args : AppendEntriesArgs n}
    {reply : AppendEntriesReply} {appendNums appendNums' : ℤ} (h : rf.Persisted)
    (hterm : ¬rf.Outdates reply)
    (heval : rf.sendAppendEntries server args reply appendNums = .ok (rf', appendNums')) :
    rf'.Persisted := by
  unfold Raft.sendAppendEntries at heval
  by_cases happ : reply.appState = .disconnected
  · rw [if_pos happ] at heval
    obtain ⟨rfl, -⟩ := Prod.mk.inj (Except.ok.inj heval)
    exact h
  have hle : ¬reply.term > rf.currentTerm := fun hgt => hterm ⟨happ, hgt⟩
  rw [if_neg happ, if_neg hle] at heval
  split at heval
  · obtain ⟨rfl, -⟩ := Prod.mk.inj (Except.ok.inj heval)
    exact h
  split at heval
  · obtain ⟨rfl, -⟩ := Prod.mk.inj (Except.ok.inj heval)
    exact h
  obtain ⟨_, -, heval⟩ := bind_ok.mp heval
  split at heval
  · split at heval
    · obtain ⟨rfl, -⟩ := Prod.mk.inj (pure_ok.mp heval)
      exact h.congr rfl rfl
    · obtain ⟨rfl, -⟩ := Prod.mk.inj (pure_ok.mp heval)
      exact h
  obtain ⟨_, -, heval⟩ := bind_ok.mp heval
  split at heval
  · -- the quorum is reached: at most the commit index moves
    obtain ⟨_, -, heval⟩ := bind_ok.mp heval
    obtain ⟨rfl, -⟩ := Prod.mk.inj (pure_ok.mp heval)
    split_ifs <;> exact h.congr rfl rfl
  · obtain ⟨rfl, -⟩ := Prod.mk.inj (pure_ok.mp heval)
    exact h.congr rfl rfl

theorem Persisted.not_of_outdates {reply : AppendEntriesReply} (h : rf.Persisted)
    (hterm : rf.Outdates reply) (server : Fin n) (args : AppendEntriesArgs n) (appendNums : ℤ) :
    ∃ rf', rf.sendAppendEntries server args reply appendNums = .ok (rf', appendNums) ∧
      ¬rf'.Persisted := by
  refine ⟨rf.stepDown reply.term, ?_, fun h' => ?_⟩
  · unfold Raft.sendAppendEntries
    rw [if_neg hterm.1, if_pos hterm.2]
  · have heq : rf.persistData = (rf.stepDown reply.term).persistData := h.symm.trans h'
    have hcur : rf.currentTerm = reply.term := congrArg BoostPersistRaftNode.currentTerm heq
    exact hterm.2.ne hcur

theorem Persisted.leaderSendSnapShot (h : rf.Persisted) : rf.leaderSendSnapShot.1.Persisted :=
  h.congr rfl rfl

theorem Persisted.leaderSendSnapShotReply {server : Fin n} {args : InstallSnapshotRequest n}
    {reply : InstallSnapshotResponse} (h : rf.Persisted) :
    (rf.leaderSendSnapShotReply server args reply).Persisted := by
  unfold Raft.leaderSendSnapShotReply
  split_ifs
  · exact h
  · exact persisted_persist _
  · exact h.congr rfl rfl

theorem Persisted.receive (h : rf.Persisted) (T : ℤ) : (rf.receive T).Persisted := by
  unfold Raft.receive
  split_ifs
  · exact (persisted_persist _).congr rfl rfl
  · exact h.congr rfl rfl

theorem Persisted.installSnapshot {args : InstallSnapshotRequest n}
    {out : InstallSnapshotResponse × Option ApplyMsg} (h : rf.Persisted)
    (heval : rf.installSnapshot args = .ok (rf', out)) : rf'.Persisted := by
  obtain ⟨reply, msg⟩ := out
  cases installSnapshot_step heval with
  | stale term => exact h
  | old term index => exact h.receive args.term
  | installed term index kept => rfl

theorem Persisted.snapshot {index : ℤ} {str : String} (h : rf.Persisted)
    (heval : rf.snapshot index str = .ok rf') : rf'.Persisted := by
  rcases snapshot_cases heval with ⟨-, hsame⟩ | ⟨-, term, logs, hcut⟩
  · rw [hsame]
    exact h
  · rw [hcut]
    rfl

theorem Persisted.applyLoop {k : ℕ} {msgs : List ApplyMsg} (h : rf.Persisted)
    (heval : applyLoop k rf = .ok (rf', msgs)) : rf'.Persisted := by
  induction k generalizing rf msgs with
  | zero =>
    obtain ⟨rfl, -⟩ := Prod.mk.inj (Except.ok.inj heval)
    exact h
  | succ k ih =>
    unfold Raft.applyLoop at heval
    obtain ⟨_, -, heval⟩ := bind_ok.mp heval
    obtain ⟨_, -, heval⟩ := bind_ok.mp heval
    obtain ⟨⟨rf₁, rest⟩, hrest, heval⟩ := bind_ok.mp heval
    obtain ⟨rfl, -⟩ := Prod.mk.inj (pure_ok.mp heval)
    have hnext : Persisted { rf with lastApplied := rf.lastApplied + 1 } := h.congr rfl rfl
    exact ih hnext hrest

theorem Persisted.getApplyLogs {msgs : List ApplyMsg} (h : rf.Persisted)
    (heval : rf.getApplyLogs = .ok (rf', msgs)) : rf'.Persisted := by
  unfold Raft.getApplyLogs at heval
  obtain ⟨_, -, heval⟩ := bind_ok.mp heval
  exact h.applyLoop heval

end Raft
end RaftStorage
