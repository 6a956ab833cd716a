import RaftStorage.Raft.LogAccess

/-! What each handler can do, said once: the possible outcomes with their guards, as facts about the
fields and about which entries the log holds. Later modules never unfold a handler. -/

namespace RaftStorage
namespace Raft

variable {n : ℕ} {rf rf' : Raft n}

structure SameLog (rf rf' : Raft n) : Prop where
  logs : rf'.logs = rf.logs
  snapIndex : rf'.lastSnapshotIncludeIndex = rf.lastSnapshotIncludeIndex
  snapTerm : rf'.lastSnapshotIncludeTerm = rf.lastSnapshotIncludeTerm
  commit : rf'.commitIndex = rf.commitIndex
  applied : rf'.lastApplied = rf.lastApplied

theorem SameLog.refl (rf : Raft n) : SameLog rf rf := ⟨rfl, rfl, rfl, rfl, rfl⟩

theorem SameLog.last (h : SameLog rf rf') : rf'.getLastLogIndex = rf.getLastLogIndex :=
  getLastLogIndex_congr h.logs h.snapIndex

theorem SameLog.contiguous (h : SameLog rf rf') (hc : rf.Contiguous) : rf'.Contiguous := by
  unfold Contiguous
  rw [h.logs, h.snapIndex]
  exact hc

/-- The node keeps its term and vote and at most steps down, or it enters a newer term as a
follower that has not voted. -/
structure TermStep (rf rf' : Raft n) : Prop where
  me : rf'.me = rf.me
  cases : rf.currentTerm < rf'.currentTerm ∧ rf'.votedFor = none ∧ rf'.status = .follower ∨
    rf'.currentTerm = rf.currentTerm ∧ rf'.votedFor = rf.votedFor ∧
      (rf'.status = rf.status ∨ rf'.status = .follower)

theorem TermStep.refl (rf : Raft n) : TermStep rf rf := ⟨rfl, Or.inr ⟨rfl, rfl, Or.inl rfl⟩⟩

theorem TermStep.term_le (h : TermStep rf rf') : rf.currentTerm ≤ rf'.currentTerm := by
  rcases h.cases with ⟨hlt, -⟩ | ⟨heq, -⟩
  · exact hlt.le
  · exact heq.ge

theorem TermStep.leader (h : TermStep rf rf') (hl : rf'.status = .leader) :
    rf.status = .leader ∧ rf'.currentTerm = rf.currentTerm := by
  rcases h.cases with ⟨-, -, hs⟩ | ⟨heq, -, hs | hs⟩
  · rw [hl] at hs
    cases hs
  · exact ⟨hs ▸ hl, heq⟩
  · rw [hl] at hs
    cases hs

theorem SameLog.persist (h : SameLog rf rf') : SameLog rf rf'.persist :=
  ⟨h.logs, h.snapIndex, h.snapTerm, h.commit, h.applied⟩

theorem TermStep.persist (h : TermStep rf rf') : TermStep rf rf'.persist := ⟨h.me, h.cases⟩

theorem SameLog.stepDown (rf : Raft n) (T : ℤ) : SameLog rf (rf.stepDown T) :=
  ⟨rfl, rfl, rfl, rfl, rfl⟩

theorem TermStep.stepDown {T : ℤ} (hT : rf.currentTerm < T) : TermStep rf (rf.stepDown T) :=
  ⟨rfl, Or.inl ⟨hT, rfl, rfl⟩⟩

theorem SameLog.catchUp (rf : Raft n) (T : ℤ) : SameLog rf (rf.catchUp T) := by
  unfold Raft.catchUp
  split_ifs
  · exact SameLog.stepDown rf T
  · exact SameLog.refl rf

theorem TermStep.catchUp (rf : Raft n) (T : ℤ) : TermStep rf (rf.catchUp T) := by
  unfold Raft.catchUp
  split_ifs with hT
  · exact TermStep.stepDown hT
  · exact TermStep.refl rf

theorem catchUp_term {T : ℤ} (hT : ¬T < rf.currentTerm) : (rf.catchUp T).currentTerm = T := by
  unfold Raft.catchUp
  split_ifs with h
  · rfl
  · omega

/-- The receiver of a request of a current leader. -/
def follow (rf : Raft n) (T : ℤ) : Raft n := { rf.catchUp T with status := .follower }

theorem SameLog.follow (rf : Raft n) (T : ℤ) : SameLog rf (rf.follow T) := by
  obtain ⟨h1, h2, h3, h4, h5⟩ := SameLog.catchUp rf T
  exact ⟨h1, h2, h3, h4, h5⟩

theorem TermStep.follow (rf : Raft n) (T : ℤ) : TermStep rf (rf.follow T) := by
  obtain ⟨hme, hcases⟩ := TermStep.catchUp rf T
  refine ⟨hme, ?_⟩
  rcases hcases with ⟨h1, h2, -⟩ | ⟨h1, h2, -⟩
  · exact Or.inl ⟨h1, h2, rfl⟩
  · exact Or.inr ⟨h1, h2, Or.inr rfl⟩

theorem follow_term {T : ℤ} (hT : ¬T < rf.currentTerm) : (rf.follow T).currentTerm = T :=
  catchUp_term hT

/-! ## Elections -/

theorem doElection_cases {out : Option (RequestVoteArgs n)} (h : rf.doElection = (rf', out)) :
    rf' = rf ∧ out = none ∨ SameLog rf rf' ∧ rf'.me = rf.me ∧ rf'.status = .candidate ∧
      rf'.currentTerm = rf.currentTerm + 1 ∧ rf'.votedFor = some rf.me ∧
      out = some ⟨rf.currentTerm + 1, rf.me, rf.getLastLogIndex, rf.getLastLogTerm⟩ := by
  unfold doElection at h
  split_ifs at h
  · obtain ⟨rfl, rfl⟩ := Prod.mk.inj h
    exact Or.inl ⟨rfl, rfl⟩
  · obtain ⟨rfl, rfl⟩ := Prod.mk.inj h
    exact Or.inr ⟨⟨rfl, rfl, rfl, rfl, rfl⟩, rfl, rfl, rfl, rfl, rfl⟩

theorem SameLog.upToDate (h : SameLog rf rf') (i t : ℤ) : rf'.upToDate i t = rf.upToDate i t := by
  unfold Raft.upToDate getLastLogIndexAndTerm
  rw [h.logs, h.snapIndex, h.snapTerm]

theorem requestVote_cases {args : RequestVoteArgs n} {reply : RequestVoteReply}
    (h : rf.requestVote args = .ok (rf', reply)) :
    SameLog rf rf' ∧ (reply.voteGranted = false ∧ TermStep rf rf' ∨
      reply.voteGranted = true ∧ reply.term = args.term ∧ rf.currentTerm ≤ args.term ∧
      rf'.me = rf.me ∧ rf'.currentTerm = args.term ∧ rf'.votedFor = some args.candidateId ∧
      rf'.status = (rf.catchUp args.term).status ∧
      ((rf.catchUp args.term).votedFor = none ∨
        (rf.catchUp args.term).votedFor = some args.candidateId) ∧
      rf.upToDate args.lastLogIndex args.lastLogTerm = true) := by
  have hsame := SameLog.catchUp rf args.term
  have hterm := TermStep.catchUp rf args.term
  unfold requestVote at h
  split_ifs at h with hlt
  · obtain ⟨rfl, rfl⟩ := Prod.mk.inj (Except.ok.inj h)
    exact ⟨(SameLog.refl rf).persist, Or.inl ⟨rfl, (TermStep.refl rf).persist⟩⟩
  · have heq := catchUp_term hlt
    obtain ⟨_, -, h⟩ := bind_ok.mp h
    split_ifs at h with hup hvote
    · obtain ⟨rfl, rfl⟩ := Prod.mk.inj (pure_ok.mp h)
      exact ⟨hsame.persist, Or.inl ⟨rfl, hterm.persist⟩⟩
    · obtain ⟨rfl, rfl⟩ := Prod.mk.inj (pure_ok.mp h)
      exact ⟨hsame.persist, Or.inl ⟨rfl, hterm.persist⟩⟩
    · obtain ⟨rfl, rfl⟩ := Prod.mk.inj (pure_ok.mp h)
      refine ⟨⟨hsame.logs, hsame.snapIndex, hsame.snapTerm, hsame.commit, hsame.applied⟩,
        Or.inr ⟨rfl, heq, by omega, hterm.me, heq, rfl, rfl, ?_, ?_⟩⟩
      · by_cases hnone : (rf.catchUp args.term).votedFor = none
        · exact Or.inl hnone
        · exact Or.inr (not_not.mp fun hne => hvote ⟨hnone, hne⟩)
      · rw [hsame.upToDate] at hup
        simpa using hup

theorem requestVote_ne_error (rf : Raft n) (args : RequestVoteArgs n) (a : AssertFail) :
    rf.requestVote args ≠ .error a := by
  intro h
  unfold requestVote at h
  split_ifs at h with hlt
  rcases bind_error.mp h with h | ⟨_, -, h⟩
  · exact (myAssert_error.mp h).1 (catchUp_term hlt).symm
  · split_ifs at h <;> exact pure_error.mp h

theorem sendRequestVote_cases {reply : RequestVoteReply} {votedNum votedNum' : ℤ} {won : Bool}
    (h : rf.sendRequestVote reply votedNum = .ok (rf', votedNum', won)) :
    SameLog rf rf' ∧ (won = false ∧ votedNum' = votedNum ∧ TermStep rf rf' ∨
      won = false ∧ reply.voteGranted = true ∧ reply.term = rf.currentTerm ∧
        votedNum' = votedNum + 1 ∧ rf' = rf ∨
      won = true ∧ reply.voteGranted = true ∧ reply.term = rf.currentTerm ∧ votedNum' = 0 ∧
        ((n / 2 + 1 : ℕ) : ℤ) ≤ votedNum + 1 ∧ rf'.me = rf.me ∧
        rf'.currentTerm = rf.currentTerm ∧ rf'.votedFor = rf.votedFor ∧ rf'.status = .leader) := by
  unfold sendRequestVote at h
  by_cases hgt : reply.term > rf.currentTerm
  · rw [if_pos hgt] at h
    simp only [Except.ok.injEq, Prod.mk.injEq] at h
    obtain ⟨rfl, rfl, rfl⟩ := h
    exact ⟨(SameLog.stepDown rf _).persist, Or.inl ⟨rfl, rfl, (TermStep.stepDown hgt).persist⟩⟩
  rw [if_neg hgt] at h
  by_cases hlt : reply.term < rf.currentTerm
  · rw [if_pos hlt] at h
    simp only [Except.ok.injEq, Prod.mk.injEq] at h
    obtain ⟨rfl, rfl, rfl⟩ := h
    exact ⟨SameLog.refl rf, Or.inl ⟨rfl, rfl, TermStep.refl rf⟩⟩
  rw [if_neg hlt] at h
  obtain ⟨_, hterm, h⟩ := bind_ok.mp h
  rw [myAssert_ok] at hterm
  cases hgr : reply.voteGranted with
  | false =>
    rw [hgr] at h
    simp only [Bool.not_false, if_true, pure_ok, Prod.mk.injEq] at h
    obtain ⟨rfl, rfl, rfl⟩ := h
    exact ⟨SameLog.refl rf, Or.inl ⟨rfl, rfl, TermStep.refl rf⟩⟩
  | true =>
    rw [hgr] at h
    simp only [Bool.not_true, Bool.false_eq_true, if_false] at h
    split_ifs at h with hq
    · obtain ⟨_, -, h⟩ := bind_ok.mp h
      simp only [pure_ok, Prod.mk.injEq] at h
      obtain ⟨rfl, rfl, rfl⟩ := h
      exact ⟨⟨rfl, rfl, rfl, rfl, rfl⟩,
        Or.inr (Or.inr ⟨rfl, rfl, hterm, rfl, hq, rfl, rfl, rfl, rfl⟩)⟩
    · simp only [pure_ok, Prod.mk.injEq] at h
      obtain ⟨rfl, rfl, rfl⟩ := h
      exact ⟨SameLog.refl rf, Or.inr (Or.inl ⟨rfl, rfl, hterm, rfl, rfl⟩)⟩

theorem sendRequestVote_error {reply : RequestVoteReply} {votedNum : ℤ} {a : AssertFail}
    (h : rf.sendRequestVote reply votedNum = .error a) :
    reply.voteGranted = true ∧ reply.term = rf.currentTerm ∧
      ((n / 2 + 1 : ℕ) : ℤ) ≤ votedNum + 1 ∧ rf.status = .leader ∧ a = .leaderTwice := by
  unfold sendRequestVote at h
  by_cases hgt : reply.term > rf.currentTerm
  · rw [if_pos hgt] at h
    cases h
  rw [if_neg hgt] at h
  by_cases hlt : reply.term < rf.currentTerm
  · rw [if_pos hlt] at h
    cases h
  rw [if_neg hlt] at h
  have hterm : reply.term = rf.currentTerm := by omega
  rcases bind_error.mp h with h | ⟨_, -, h⟩
  · exact absurd hterm (myAssert_error.mp h).1
  · cases hgr : reply.voteGranted with
    | false =>
      rw [hgr] at h
      cases h
    | true =>
      rw [hgr] at h
      simp only [Bool.not_true, Bool.false_eq_true, if_false] at h
      split_ifs at h with hq
      · rcases bind_error.mp h with h | ⟨_, -, h⟩
        · obtain ⟨hl, rfl⟩ := myAssert_error.mp h
          exact ⟨rfl, hterm, hq, not_not.mp hl, rfl⟩
        · cases h
      · cases h

end Raft
end RaftStorage
