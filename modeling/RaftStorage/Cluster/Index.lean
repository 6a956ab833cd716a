import RaftStorage.Cluster.Steps

/-! The index invariant. On every node the log is the window after the snapshot position and the
cursors are ordered; in every request of a heartbeat round the entries follow the previous index
and end at the round's last index. No handler moves a cursor back. -/

namespace RaftStorage
open Library
namespace Raft

variable {n : ℕ} {rf rf' : Raft n}

structure Indexed (rf : Raft n) : Prop where
  contiguous : rf.Contiguous
  snap_nonneg : 0 ≤ rf.lastSnapshotIncludeIndex
  snap_le : rf.lastSnapshotIncludeIndex ≤ rf.lastApplied
  applied_le : rf.lastApplied ≤ rf.commitIndex
  commit_le : rf.commitIndex ≤ rf.getLastLogIndex

/-- The handler keeps the index invariant and moves no cursor back. -/
structure Advances (rf rf' : Raft n) : Prop where
  me : rf'.me = rf.me
  indexed : rf'.Indexed
  snap : rf.lastSnapshotIncludeIndex ≤ rf'.lastSnapshotIncludeIndex
  applied : rf.lastApplied ≤ rf'.lastApplied
  commit : rf.commitIndex ≤ rf'.commitIndex
  last : rf.getLastLogIndex ≤ rf'.getLastLogIndex

theorem indexed_init (me : Fin n) : (init me).Indexed :=
  ⟨Numbered.nil, le_rfl, le_rfl, le_rfl, le_rfl⟩

theorem Indexed.advances_refl (h : rf.Indexed) : Advances rf rf :=
  ⟨rfl, h, le_rfl, le_rfl, le_rfl, le_rfl⟩

theorem Indexed.advances_same (h : rf.Indexed) (hs : SameLog rf rf') (hme : rf'.me = rf.me) :
    Advances rf rf' where
  me := hme
  indexed :=
    { contiguous := hs.contiguous h.contiguous
      snap_nonneg := hs.snapIndex ▸ h.snap_nonneg
      snap_le := by rw [hs.snapIndex, hs.applied]; exact h.snap_le
      applied_le := by rw [hs.applied, hs.commit]; exact h.applied_le
      commit_le := by rw [hs.commit, hs.last]; exact h.commit_le }
  snap := hs.snapIndex.ge
  applied := hs.applied.ge
  commit := hs.commit.ge
  last := hs.last.ge

theorem Indexed.advances_cut (h : rf.Indexed) {i t : ℤ} (hc : Cut rf rf' i t)
    (hi : rf.lastSnapshotIncludeIndex < i) (hme : rf'.me = rf.me) : Advances rf rf' := by
  obtain ⟨-, h1, h2, h3, h4⟩ := h
  obtain ⟨hcont, -, c1, -, c2, c3, c4⟩ := hc
  exact ⟨hme, ⟨hcont, by omega, by omega, by omega, by omega⟩, by omega, by omega, by omega, by omega⟩

theorem Indexed.doElection (h : rf.Indexed) {out : Option (RequestVoteArgs n)}
    (he : rf.doElection = (rf', out)) : Advances rf rf' := by
  rcases doElection_cases he with ⟨rfl, -⟩ | ⟨hs, hme, -⟩
  · exact h.advances_refl
  · exact h.advances_same hs hme

theorem Indexed.requestVote (h : rf.Indexed) {args : RequestVoteArgs n} {reply : RequestVoteReply}
    (he : rf.requestVote args = .ok (rf', reply)) : Advances rf rf' := by
  obtain ⟨hs, ⟨-, ht⟩ | ⟨-, -, -, hme, -⟩⟩ := requestVote_cases he
  · exact h.advances_same hs ht.me
  · exact h.advances_same hs hme

theorem Indexed.sendRequestVote (h : rf.Indexed) {reply : RequestVoteReply} {num num' : ℤ}
    {won : Bool} (he : rf.sendRequestVote reply num = .ok (rf', num', won)) : Advances rf rf' := by
  obtain ⟨hs, ⟨-, -, ht⟩ | ⟨-, -, -, -, rfl⟩ | ⟨-, -, -, -, -, hme, -⟩⟩ := sendRequestVote_cases he
  · exact h.advances_same hs ht.me
  · exact h.advances_refl
  · exact h.advances_same hs hme

theorem Indexed.start (h : rf.Indexed) {command : String} {out : Option (ℤ × ℤ)}
    (he : rf.start command = (rf', out)) : Advances rf rf' := by
  rcases start_cases he with ⟨rfl, -⟩ | ⟨-, ht, -, hlogs, hsnap, -, hcommit, happ, -⟩
  · exact h.advances_refl
  have hcont : rf'.Contiguous := by
    have hlen := h.contiguous.getLastLogIndex_eq
    unfold Contiguous
    rw [hlogs, hsnap]
    exact Numbered.append h.contiguous (by dsimp only; omega)
  have hlast : rf'.getLastLogIndex = rf.getLastLogIndex + 1 := by
    rw [hcont.getLastLogIndex_eq, h.contiguous.getLastLogIndex_eq, hlogs, hsnap]
    simp
    omega
  obtain ⟨-, h1, h2, h3, h4⟩ := h
  exact ⟨ht.me, ⟨hcont, by omega, by omega, by omega, by omega⟩, by omega, by omega, by omega,
    by omega⟩

theorem Indexed.appendEntries1 (h : rf.Indexed) {args : AppendEntriesArgs n}
    {reply : AppendEntriesReply} (hn : Numbered (args.prevLogIndex + 1) args.entries)
    (he : rf.appendEntries1 args = .ok (rf', reply)) : Advances rf rf' := by
  cases appendEntries1_cases h.contiguous hn he with
  | stale _ same => exact same ▸ h.advances_refl
  | rejected _ log vote => exact h.advances_same log vote.me
  | merged _ log vote =>
    obtain ⟨-, h1, h2, h3, h4⟩ := h
    obtain ⟨-, -, -, hcont, -, m1, m2, -, m3, m4⟩ := log
    have hcommit : rf.commitIndex ≤ rf'.commitIndex ∧ rf'.commitIndex ≤ rf'.getLastLogIndex := by
      rw [m4]
      split_ifs <;> omega
    exact ⟨vote.me, ⟨hcont, by omega, by omega, by omega, hcommit.2⟩, by omega, by omega, hcommit.1,
      by omega⟩

theorem Indexed.sendAppendEntries (h : rf.Indexed) {server : Fin n} {args : AppendEntriesArgs n}
    {reply : AppendEntriesReply} {num num' : ℤ}
    (he : rf.sendAppendEntries server args reply num = .ok (rf', num')) : Advances rf rf' := by
  obtain ⟨ht, ⟨hs, -⟩ | ⟨hlogs, hsnap, -, happ, -, -, -, -, -, -, -, -, hcommit, hle⟩⟩ :=
    sendAppendEntries_cases he
  · exact h.advances_same hs ht.me
  · have hlast := getLastLogIndex_congr hlogs hsnap
    have hcont : rf'.Contiguous := by
      unfold Contiguous
      rw [hlogs, hsnap]
      exact h.contiguous
    obtain ⟨-, h1, h2, h3, h4⟩ := h
    exact ⟨ht.me, ⟨hcont, by omega, by omega, by omega, by omega⟩, by omega, by omega, by omega,
      by omega⟩

theorem Indexed.installSnapshot (h : rf.Indexed) {args : InstallSnapshotRequest n}
    {reply : InstallSnapshotResponse} {msg : Option ApplyMsg}
    (he : rf.installSnapshot args = .ok (rf', reply, msg)) : Advances rf rf' := by
  cases installSnapshot_cases h.contiguous he with
  | stale _ same => exact same ▸ h.advances_refl
  | old _ log vote => exact h.advances_same log vote.me
  | installed _ log vote _ _ index => exact h.advances_cut log index vote.me

theorem Indexed.snapshot (h : rf.Indexed) {index : ℤ} {str : String}
    (he : rf.snapshot index str = .ok rf') : Advances rf rf' := by
  obtain ⟨rf₁, hok, hcases⟩ := snapshot_ok h.contiguous h.commit_le index str
  obtain rfl := Except.ok.inj (hok.symm.trans he)
  rcases hcases with rfl | ⟨hlo, -, hme, -, -, -, t, hcut, -⟩
  · exact h.advances_refl
  · exact h.advances_cut hcut hlo hme

theorem Indexed.getApplyLogs (h : rf.Indexed) {msgs : List ApplyMsg}
    (he : rf.getApplyLogs = .ok (rf', msgs)) : Advances rf rf' := by
  obtain ⟨msgs', hok, -⟩ := getApplyLogs_ok h.contiguous h.snap_le h.applied_le h.commit_le
  obtain ⟨rfl, rfl⟩ := Prod.mk.inj (Except.ok.inj (hok.symm.trans he))
  obtain ⟨hc, h1, h2, h3, h4⟩ := h
  exact ⟨rfl, ⟨hc, h1, h2.trans h3, le_rfl, h4⟩, le_rfl, h3, le_rfl, le_rfl⟩

end Raft

namespace Cluster

variable {n : ℕ} {s s' : Cluster n} {a : Action n}

structure Shaped (r : HeartBeat n) (p : Fin n) (args : AppendEntriesArgs n) : Prop where
  other : p ≠ r.owner
  term : args.term = r.info.term
  leaderId : args.leaderId = r.owner
  numbered : Numbered (args.prevLogIndex + 1) args.entries
  length : args.prevLogIndex + args.entries.length = r.info.lastLogIndex

structure Indexed (s : Cluster n) : Prop where
  me : ∀ p, (s.nodes p).me = p
  node : ∀ p, (s.nodes p).Indexed
  request : ∀ r ∈ s.heartBeats, ∀ p args, r.Sent p args → Shaped r p args

theorem indexed_init (n : ℕ) : (init n).Indexed where
  me := fun _ => rfl
  node := Raft.indexed_init
  request := by simp [init]

theorem sent_newHeartBeat {p q : Fin n} {rf : Raft n} {args : AppendEntriesArgs n}
    {sends : Fin n → Option (Raft.HeartBeatSend n)} :
    (newHeartBeat p rf sends).Sent q args ↔ sends q = some (.append args) := by
  unfold Round.Sent newHeartBeat
  constructor
  · rintro ⟨c, hc, rfl⟩
    dsimp only at hc
    split at hc
    · rename_i args' hargs
      obtain rfl := Option.some.inj hc
      exact hargs
    · cases hc
  · intro hq
    exact ⟨Call.start args, by dsimp only; rw [hq], rfl⟩

theorem Indexed.built (h : s.Indexed) {p q : Fin n} {args : AppendEntriesArgs n}
    {sends : Fin n → Option (Raft.HeartBeatSend n)}
    (hsends : ∀ i, (s.nodes p).heartBeatTo i = .ok (sends i))
    (hsent : (newHeartBeat p (s.nodes p) sends).Sent q args) :
    q ≠ p ∧ Raft.BuiltFrom (s.nodes p) args := by
  have hq := hsends q
  rw [sent_newHeartBeat.mp hsent] at hq
  obtain ⟨hne, hbuilt⟩ := Raft.heartBeatTo_append (h.node p).contiguous hq
  exact ⟨h.me p ▸ hne, hbuilt⟩

theorem Indexed.request_step (h : s.Indexed) (hs : Step s a s') :
    ∀ r ∈ s'.heartBeats, ∀ p args, r.Sent p args → Shaped r p args := by
  intro r hr p args hsent
  cases hs.heartBeat_origin r hr with
  | old mem => exact h.request r mem p args hsent
  | sent leader eval =>
    obtain ⟨hne, hb⟩ := h.built eval hsent
    exact ⟨hne, hb.term, hb.leaderId.trans (h.me _), hb.numbered (h.node _).contiguous, hb.length⟩
  | answered mem =>
    obtain ⟨h1, h2, h3, h4, h5⟩ := h.request _ mem p args (Round.sent_respond.mp hsent)
    exact ⟨h1, h2, h3, h4, h5⟩
  | taken mem =>
    obtain ⟨h1, h2, h3, h4, h5⟩ := h.request _ mem p args (Round.sent_take.mp hsent)
    exact ⟨h1, h2, h3, h4, h5⟩

theorem Indexed.shaped (h : s.Indexed) {i : ℕ} {r : HeartBeat n} {p : Fin n}
    {c : Call (AppendEntriesArgs n) AppendEntriesReply} (hr : s.heartBeats[i]? = some r)
    (hc : r.calls p = some c) : Shaped r p c.args :=
  h.request r (List.mem_of_getElem? hr) p c.args ⟨c, hc, rfl⟩

theorem Indexed.advances (h : s.Indexed) (hs : Step s a s') (p : Fin n) :
    (s.nodes p).Advances (s'.nodes p) := by
  have hrefl := fun q => (h.node q).advances_refl
  cases hs with
  | idle => exact hrefl p
  | exit => exact hrefl p
  | doElection eval =>
    rw [recordElection_nodes]
    exact setNode_rel hrefl ((h.node _).doElection eval) p
  | requestVote round call eval => exact setNode_rel hrefl ((h.node _).requestVote eval) p
  | sendRequestVote round call taken answer eval =>
    exact setNode_rel hrefl ((h.node _).sendRequestVote eval) p
  | start eval => exact setNode_rel hrefl ((h.node _).start eval) p
  | doHeartBeat eval =>
    rw [recordHeartBeat_nodes]
    exact hrefl p
  | appendEntries1 round call eval =>
    exact setNode_rel hrefl ((h.node _).appendEntries1 (h.shaped round call).numbered eval) p
  | sendAppendEntries round call taken answer eval =>
    exact setNode_rel hrefl ((h.node _).sendAppendEntries eval) p
  | leaderSendSnapShot =>
    exact setNode_rel hrefl ((h.node _).advances_same (Raft.leaderSendSnapShot_same _).1
      (Raft.leaderSendSnapShot_same _).2.me) p
  | installSnapshot thread request eval =>
    exact setNode_rel hrefl ((h.node _).installSnapshot eval) p
  | leaderSendSnapShotReply =>
    exact setNode_rel hrefl ((h.node _).advances_same (Raft.leaderSendSnapShotReply_same _ _ _ _).1
      (Raft.leaderSendSnapShotReply_same _ _ _ _).2.me) p
  | snapshot eval => exact setNode_rel hrefl ((h.node _).snapshot eval) p
  | getApplyLogs eval => exact setNode_rel hrefl ((h.node _).getApplyLogs eval) p
  | push => exact hrefl p

theorem Indexed.step (h : s.Indexed) (hs : Step s a s') : s'.Indexed where
  me := fun p => (h.advances hs p).me.trans (h.me p)
  node := fun p => (h.advances hs p).indexed
  request := h.request_step hs

theorem indexed_runOf (acts : List (Action n)) : (runOf acts).Indexed :=
  run_invariant (indexed_init n) (fun s a h => h.step (step_spec s a)) acts

theorem runOf_concat (acts : List (Action n)) (a : Action n) :
    runOf (acts ++ [a]) = (runOf acts).step a := run_concat step (init n) acts a

theorem Indexed.fails_cases (h : s.Indexed) {p : Fin n} {err : AssertFail}
    (hf : Fails s a p err) :
    (err = .leaderTwice ∧ (s.nodes p).status = .leader ∧ ∃ r ∈ s.elections, r.owner = p ∧
      ((n / 2 + 1 : ℕ) : ℤ) ≤ r.counter + 1 ∧ ∃ q c reply, r.calls q = some c ∧ c.taken = none ∧
        reply ∈ c.replies ∧ reply.voteGranted = true ∧
        reply.term = (s.nodes p).currentTerm) ∨
    (err = .appendCommand ∧ ∃ r ∈ s.heartBeats, ∃ args, r.Sent p args ∧
      ∃ old ∈ (s.nodes p).logs, ∃ e ∈ args.entries, old.logIndex = e.logIndex ∧
        old.logTerm = e.logTerm ∧ old.command ≠ e.command) ∨
    err ∈ [.matchLog, .heartBeatNextIndex, .heartBeatLength, .sliceLow, .sliceHigh, .vectorRange,
      .appendReplyTerm, .appendReplyNextIndex, .appendReplyCommit] := by
  cases hf with
  | sendRequestVote round call taken answer eval =>
    obtain ⟨hgr, hterm, hq, hl, rfl⟩ := Raft.sendRequestVote_error eval
    exact Or.inl ⟨rfl, hl, _, List.mem_of_getElem? round, rfl, hq, _, _, _, call, taken,
      List.mem_of_getElem? answer, hgr, hterm⟩
  | doHeartBeat eval =>
    have herr := List.mem_append_left [.appendReplyTerm, .appendReplyNextIndex, .appendReplyCommit]
      (Raft.doHeartBeat_error eval)
    exact Or.inr (Or.inr (List.mem_cons_of_mem _ herr))
  | appendEntries1 round call eval =>
    obtain ⟨-, -, ⟨-, rfl⟩ | ⟨-, rfl, hconf⟩⟩ := Raft.appendEntries1_error (h.node _).contiguous
      (h.shaped round call).numbered (h.node _).commit_le eval
    · simp
    · exact Or.inr (Or.inl ⟨rfl, _, List.mem_of_getElem? round, _, ⟨_, call, rfl⟩, hconf⟩)
  | sendAppendEntries round call taken answer eval =>
    have herr := List.mem_append_right [.matchLog, .heartBeatNextIndex, .heartBeatLength, .sliceLow,
      .sliceHigh, .vectorRange] (Raft.sendAppendEntries_error eval)
    exact Or.inr (Or.inr herr)
  | snapshot eval =>
    obtain ⟨rf, hok, -⟩ := Raft.snapshot_ok (h.node _).contiguous (h.node _).commit_le _ _
    cases hok.symm.trans eval
  | getApplyLogs eval =>
    obtain ⟨msgs, hok, -⟩ := Raft.getApplyLogs_ok (h.node _).contiguous (h.node _).snap_le
      (h.node _).applied_le (h.node _).commit_le
    cases hok.symm.trans eval

theorem exited_fails {acts : List (Action n)} {p : Fin n} {err : AssertFail}
    (h : (runOf acts).exited p = some err) : ∃ pre a, Fails (runOf pre) a p err := by
  induction acts using List.reverseRecOn with
  | nil => cases h
  | append_singleton acts a ih =>
    rw [runOf_concat] at h
    rcases (step_spec _ a).exited h with h | h
    · exact ih h
    · exact ⟨acts, a, h⟩

/-- The index invariant in every reachable state, for every next step, with the assertions that
rest on it. -/
theorem indexes_ordered (acts : List (Action n)) (p : Fin n) :
    let rf := (runOf acts).nodes p
    (∀ (k : ℕ) (e : LogEntry), rf.logs[k]? = some e →
      e.logIndex = rf.lastSnapshotIncludeIndex + 1 + k) ∧
    0 ≤ rf.lastSnapshotIncludeIndex ∧ rf.lastSnapshotIncludeIndex ≤ rf.lastApplied ∧
    rf.lastApplied ≤ rf.commitIndex ∧ rf.commitIndex ≤ rf.getLastLogIndex ∧
    rf.getLastLogIndex = rf.lastSnapshotIncludeIndex + rf.logs.length ∧
    (∀ a, let rf' := (runOf (acts ++ [a])).nodes p
      rf.lastSnapshotIncludeIndex ≤ rf'.lastSnapshotIncludeIndex ∧
      rf.lastApplied ≤ rf'.lastApplied ∧ rf.commitIndex ≤ rf'.commitIndex ∧
      rf.getLastLogIndex ≤ rf'.getLastLogIndex) ∧
    (∀ err, rf.getApplyLogs ≠ .error err) ∧
    (∀ index snapshot err, rf.snapshot index snapshot ≠ .error err) ∧
    (∀ r ∈ (runOf acts).heartBeats, ∀ args, r.Sent p args → ∀ err,
      rf.appendEntries1 args = .error err → err ≠ .appendLength ∧ err ≠ .appendCommit) ∧
    ∀ err ∈ [.applyCommit, .applyIndex, .appendLength, .appendCommit, .snapshotLength],
      (runOf acts).exited p ≠ some err := by
  intro rf
  have hI := indexed_runOf acts
  have hrf : rf.Indexed := hI.node p
  refine ⟨hrf.contiguous, hrf.snap_nonneg, hrf.snap_le, hrf.applied_le, hrf.commit_le,
    hrf.contiguous.getLastLogIndex_eq, fun a => ?_, fun err h => ?_, fun index str err h => ?_,
    fun r hr args hsent err h => ?_, fun err herr h => ?_⟩
  · rw [runOf_concat]
    obtain ⟨-, -, h1, h2, h3, h4⟩ := hI.advances (step_spec _ a) p
    exact ⟨h1, h2, h3, h4⟩
  · obtain ⟨msgs, hok, -⟩ := Raft.getApplyLogs_ok hrf.contiguous hrf.snap_le hrf.applied_le
      hrf.commit_le
    cases hok.symm.trans h
  · obtain ⟨rf', hok, -⟩ := Raft.snapshot_ok hrf.contiguous hrf.commit_le index str
    cases hok.symm.trans h
  · obtain ⟨-, -, ⟨-, rfl⟩ | ⟨-, rfl, -⟩⟩ := Raft.appendEntries1_error hrf.contiguous
      (hI.request r hr p args hsent).numbered hrf.commit_le h <;> decide
  · obtain ⟨pre, a, hf⟩ := exited_fails h
    rcases (indexed_runOf pre).fails_cases hf with ⟨rfl, -⟩ | ⟨rfl, -⟩ | hsite
    · revert herr
      decide
    · revert herr
      decide
    · clear h hf
      revert err
      decide

end Cluster
end RaftStorage
