import RaftStorage.Raft.LogSpecs

/-! Outcomes of `AppendEntries1` and of `sendAppendEntries` after its reply. -/

namespace RaftStorage
namespace Raft

variable {n : ℕ} {rf rf' : Raft n} {args : AppendEntriesArgs n} {reply : AppendEntriesReply}

/-- The success branch of `AppendEntries1`, seen from the state before the call. -/
structure AppendMerged (rf rf' : Raft n) (args : AppendEntriesArgs n) : Prop where
  snap_le : rf.lastSnapshotIncludeIndex ≤ args.prevLogIndex
  le_last : args.prevLogIndex ≤ rf.getLastLogIndex
  prevTerm : rf.TermAt args.prevLogIndex args.prevLogTerm
  contiguous : rf'.Contiguous
  mem : ∀ e, e ∈ rf'.logs ↔
    e ∈ rf.logs ∧ (∀ e' ∈ args.entries, e'.logIndex = e.logIndex → e'.logTerm = e.logTerm) ∨
    e ∈ args.entries ∧ ∀ e' ∈ rf.logs, e'.logIndex = e.logIndex → e'.logTerm ≠ e.logTerm
  last : rf'.getLastLogIndex = max rf.getLastLogIndex (args.prevLogIndex + args.entries.length)
  snapIndex : rf'.lastSnapshotIncludeIndex = rf.lastSnapshotIncludeIndex
  snapTerm : rf'.lastSnapshotIncludeTerm = rf.lastSnapshotIncludeTerm
  applied : rf'.lastApplied = rf.lastApplied
  commit : rf'.commitIndex = if args.leaderCommit > rf.commitIndex
    then min args.leaderCommit rf'.getLastLogIndex else rf.commitIndex

inductive AppendOutcome (rf : Raft n) (args : AppendEntriesArgs n) (rf' : Raft n)
    (reply : AppendEntriesReply) : Prop
  | stale (term : args.term < rf.currentTerm) (same : rf' = rf)
      (answer : reply = ⟨rf.currentTerm, false, -100, .appNormal⟩)
  | rejected (term : ¬args.term < rf.currentTerm) (log : SameLog rf rf') (vote : TermStep rf rf')
      (currentTerm : rf'.currentTerm = args.term) (status : rf'.status = .follower)
      (success : reply.success = false)
  | merged (term : ¬args.term < rf.currentTerm) (log : AppendMerged rf rf' args)
      (vote : TermStep rf rf') (currentTerm : rf'.currentTerm = args.term)
      (status : rf'.status = .follower) (success : reply.success = true)
      (replyTerm : reply.term = args.term)

theorem TermAt.congr {i t : ℤ} (h : rf.TermAt i t) (hl : rf'.logs = rf.logs)
    (hi : rf'.lastSnapshotIncludeIndex = rf.lastSnapshotIncludeIndex)
    (ht : rf'.lastSnapshotIncludeTerm = rf.lastSnapshotIncludeTerm) : rf'.TermAt i t := by
  unfold TermAt
  rw [hl, hi, ht]
  exact h

theorem SameLog.termAt (h : SameLog rf rf') {i t : ℤ} : rf'.TermAt i t ↔ rf.TermAt i t :=
  ⟨fun ht => ht.congr h.logs.symm h.snapIndex.symm h.snapTerm.symm,
    fun ht => ht.congr h.logs h.snapIndex h.snapTerm⟩

theorem raiseCommit_eq (rf : Raft n) (leaderCommit : ℤ) :
    (if leaderCommit > rf.commitIndex then
      { rf with commitIndex := min leaderCommit rf.getLastLogIndex } else rf) =
    { rf with commitIndex :=
      (if leaderCommit > rf.commitIndex then min leaderCommit rf.getLastLogIndex
        else rf.commitIndex) } := by
  split_ifs <;> rfl

theorem AppendMerged.of_merged {logs : List LogEntry} (hc : rf.Contiguous)
    (hn : Numbered (args.prevLogIndex + 1) args.entries)
    (hlo : rf.lastSnapshotIncludeIndex ≤ args.prevLogIndex)
    (hhi : args.prevLogIndex ≤ rf.getLastLogIndex)
    (hprev : rf.TermAt args.prevLogIndex args.prevLogTerm) {rf₁ : Raft n}
    (hm : Merged (rf.follow args.term) rf₁ args.entries)
    (hrf₁ : rf₁ = { rf.follow args.term with logs := logs }) :
    AppendMerged rf (persist { rf₁ with commitIndex :=
      (if args.leaderCommit > rf₁.commitIndex then min args.leaderCommit rf₁.getLastLogIndex
        else rf₁.commitIndex) }) args := by
  have hsame := SameLog.follow rf args.term
  have hlast := hm.last (hsame.contiguous hc) hn (hsame.snapIndex ▸ hlo) (hsame.last ▸ hhi)
  subst hrf₁
  exact
    { snap_le := hlo
      le_last := hhi
      prevTerm := hprev
      contiguous := hm.contiguous
      mem := hsame.logs ▸ hm.mem
      last := hsame.last ▸ hlast
      snapIndex := hsame.snapIndex
      snapTerm := hsame.snapTerm
      applied := hsame.applied
      commit := hsame.commit ▸ rfl }

theorem appendEntries1_cases (hc : rf.Contiguous)
    (hn : Numbered (args.prevLogIndex + 1) args.entries)
    (h : rf.appendEntries1 args = .ok (rf', reply)) : AppendOutcome rf args rf' reply := by
  unfold appendEntries1 at h
  dsimp only at h
  by_cases hT : args.term < rf.currentTerm
  · rw [if_pos hT] at h
    obtain ⟨rfl, rfl⟩ := Prod.mk.inj (Except.ok.inj h)
    exact .stale hT rfl rfl
  rw [if_neg hT] at h
  obtain ⟨_, -, h⟩ := bind_ok.mp h
  have hsame := SameLog.follow rf args.term
  have hvote := TermStep.follow rf args.term
  have hcur : (rf.follow args.term).currentTerm = args.term := follow_term hT
  have hcf := hsame.contiguous hc
  change (if args.prevLogIndex > (rf.follow args.term).getLastLogIndex then _ else _) = _ at h
  by_cases hgt : args.prevLogIndex > (rf.follow args.term).getLastLogIndex
  · rw [if_pos hgt] at h
    obtain ⟨rfl, rfl⟩ := Prod.mk.inj (pure_ok.mp h)
    exact .rejected hT hsame.persist hvote.persist hcur rfl rfl
  rw [if_neg hgt] at h
  obtain ⟨b, hb, h⟩ := bind_ok.mp h
  change (rf.follow args.term).matchLog _ _ = _ at hb
  obtain ⟨hlo, hhi, hiff⟩ := hcf.matchLog_ok.mp hb
  cases b with
  | false =>
    simp only [Bool.false_eq_true, if_false] at h
    obtain ⟨u, -, h⟩ := bind_ok.mp h
    obtain ⟨rfl, rfl⟩ := Prod.mk.inj (pure_ok.mp h)
    exact .rejected hT hsame.persist hvote.persist hcur rfl rfl
  | true =>
    simp only [if_true] at h
    obtain ⟨rf₁, hm, h⟩ := bind_ok.mp h
    change (rf.follow args.term).mergeEntries _ = _ at hm
    obtain ⟨_, -, h⟩ := bind_ok.mp h
    obtain ⟨_, -, h⟩ := bind_ok.mp h
    obtain ⟨rfl, rfl⟩ := Prod.mk.inj (pure_ok.mp h)
    have hmerged := mergeEntries_ok hcf hn hlo hhi hm
    obtain ⟨logs, hrf₁⟩ : ∃ logs, rf₁ = { rf.follow args.term with logs := logs } :=
      ⟨_, hmerged.frame⟩
    have hlog := AppendMerged.of_merged hc hn (hsame.snapIndex ▸ hlo) (hsame.last ▸ hhi)
      (hsame.termAt.mp (hiff.mp rfl)) hmerged hrf₁
    rw [raiseCommit_eq]
    subst hrf₁
    exact .merged hT hlog ⟨hvote.me, hvote.cases⟩ hcur rfl rfl hcur

theorem scanConflict_ne_error (hc : rf.Contiguous) {prev : ℤ} (hprev : ∃ t, rf.TermAt prev t)
    {k : ℕ} (hk : rf.lastSnapshotIncludeIndex + k ≤ rf.getLastLogIndex) (a : AssertFail) :
    rf.scanConflict prev k ≠ .error a := by
  obtain ⟨t, ht⟩ := hprev
  have ht := hc.getLogTerm_ok.mpr ht
  induction k with
  | zero =>
    obtain ⟨t₀, ht₀⟩ := hc.exists_termAt (i := rf.lastSnapshotIncludeIndex) le_rfl (by simpa using hk)
    unfold scanConflict
    rw [hc.getLogTerm_ok.mpr ht₀, ht]
    intro h
    rcases bind_error.mp h with h | ⟨_, -, h⟩
    · cases h
    rcases bind_error.mp h with h | ⟨_, -, h⟩
    · cases h
    split_ifs at h <;> cases h
  | succ k ih =>
    obtain ⟨t₀, ht₀⟩ := hc.exists_termAt (i := rf.lastSnapshotIncludeIndex + (k + 1 : ℕ))
      (by omega) hk
    unfold scanConflict
    rw [hc.getLogTerm_ok.mpr ht₀, ht]
    intro h
    rcases bind_error.mp h with h | ⟨_, -, h⟩
    · cases h
    rcases bind_error.mp h with h | ⟨_, -, h⟩
    · cases h
    split_ifs at h
    · cases h
    · exact ih (by push_cast at hk; omega) h

theorem conflictIndex_ne_error (hc : rf.Contiguous) {prev : ℤ}
    (hlo : rf.lastSnapshotIncludeIndex ≤ prev) (hhi : prev ≤ rf.getLastLogIndex) (a : AssertFail) :
    rf.conflictIndex prev ≠ .error a := by
  unfold conflictIndex
  rw [if_pos hlo]
  exact scanConflict_ne_error hc (hc.exists_termAt hlo hhi) (by omega) a

theorem Contiguous.matchLog_error (hc : rf.Contiguous) {i t : ℤ} {a : AssertFail}
    (hhi : i ≤ rf.getLastLogIndex) (h : rf.matchLog i t = .error a) :
    i < rf.lastSnapshotIncludeIndex ∧ a = .matchLog := by
  by_cases hlo : rf.lastSnapshotIncludeIndex ≤ i
  · obtain ⟨t', ht'⟩ := hc.exists_termAt hlo hhi
    have hok := hc.matchLog_ok.mpr ⟨hlo, hhi, (decide_eq_true_iff (p := t = t')).trans
      ⟨fun heq => heq ▸ ht', fun ht => hc.termAt_unique ht ht'⟩⟩
    cases hok.symm.trans h
  · refine ⟨not_le.mp hlo, ?_⟩
    unfold matchLog at h
    rcases bind_error.mp h with h | ⟨_, hok, -⟩
    · exact (myAssert_error.mp h).2
    · exact absurd (myAssert_ok.mp hok).1 hlo

theorem appendEntries1_error {a : AssertFail} (hc : rf.Contiguous)
    (hn : Numbered (args.prevLogIndex + 1) args.entries)
    (hcommit : rf.commitIndex ≤ rf.getLastLogIndex) (h : rf.appendEntries1 args = .error a) :
    ¬args.term < rf.currentTerm ∧ args.prevLogIndex ≤ rf.getLastLogIndex ∧
      (args.prevLogIndex < rf.lastSnapshotIncludeIndex ∧ a = .matchLog ∨
        rf.lastSnapshotIncludeIndex ≤ args.prevLogIndex ∧ a = .appendCommand ∧
        ∃ old ∈ rf.logs, ∃ e ∈ args.entries, old.logIndex = e.logIndex ∧
          old.logTerm = e.logTerm ∧ old.command ≠ e.command) := by
  unfold appendEntries1 at h
  dsimp only at h
  by_cases hT : args.term < rf.currentTerm
  · rw [if_pos hT] at h
    cases h
  rw [if_neg hT] at h
  refine ⟨hT, ?_⟩
  have hsame := SameLog.follow rf args.term
  have hcf := hsame.contiguous hc
  rcases bind_error.mp h with h | ⟨_, -, h⟩
  · exact absurd (catchUp_term hT).symm (myAssert_error.mp h).1
  change (if args.prevLogIndex > (rf.follow args.term).getLastLogIndex then _ else _) = _ at h
  by_cases hgt : args.prevLogIndex > (rf.follow args.term).getLastLogIndex
  · rw [if_pos hgt] at h
    cases h
  rw [if_neg hgt] at h
  have hhi := not_lt.mp hgt
  refine ⟨hsame.last ▸ hhi, ?_⟩
  rcases bind_error.mp h with h | ⟨b, hb, h⟩
  · left
    rw [← hsame.snapIndex]
    exact hcf.matchLog_error hhi h
  · change (rf.follow args.term).matchLog _ _ = _ at hb
    obtain ⟨hlo, -, hiff⟩ := hcf.matchLog_ok.mp hb
    right
    refine ⟨hsame.snapIndex ▸ hlo, ?_⟩
    cases b with
    | false =>
      exfalso
      simp only [Bool.false_eq_true, if_false] at h
      rcases bind_error.mp h with h | ⟨_, -, h⟩
      · exact conflictIndex_ne_error hcf hlo hhi a h
      · cases h
    | true =>
      simp only [if_true] at h
      rcases bind_error.mp h with h | ⟨rf₁, hm, h⟩
      · obtain ⟨rfl, old, hold, e, he, hconf⟩ := mergeEntries_error hcf hn hlo hhi h
        exact ⟨rfl, old, hsame.logs ▸ hold, e, he, hconf⟩
      · exfalso
        change (rf.follow args.term).mergeEntries _ = _ at hm
        have hmerged := mergeEntries_ok hcf hn hlo hhi hm
        have hlast := hmerged.last hcf hn hlo hhi
        have hcom : rf₁.commitIndex = rf.commitIndex := by
          rw [hmerged.frame]
          exact hsame.commit
        rw [hsame.last] at hlast
        rcases bind_error.mp h with h | ⟨_, -, h⟩
        · exact (myAssert_error.mp h).1 (by omega)
        rcases bind_error.mp h with h | ⟨_, -, h⟩
        · refine (myAssert_error.mp h).1 ?_
          split_ifs
          · exact min_le_right _ _
          · rw [hcom]
            omega
        · cases h

theorem appendEntries1_below (hT : ¬args.term < rf.currentTerm)
    (hlo : args.prevLogIndex < rf.lastSnapshotIncludeIndex)
    (hlast : rf.lastSnapshotIncludeIndex ≤ rf.getLastLogIndex) :
    rf.appendEntries1 args = .error .matchLog := by
  have hsame := SameLog.follow rf args.term
  have hhi : ¬args.prevLogIndex > (rf.follow args.term).getLastLogIndex := by
    rw [hsame.last]
    omega
  have hmatch : (rf.follow args.term).matchLog args.prevLogIndex args.prevLogTerm =
      .error .matchLog := by
    unfold matchLog myAssert
    rw [if_neg (by rw [hsame.snapIndex]; omega)]
    rfl
  unfold appendEntries1
  dsimp only
  rw [if_neg hT, myAssert, if_pos (catchUp_term hT).symm]
  change (if args.prevLogIndex > (rf.follow args.term).getLastLogIndex then _ else
    ((rf.follow args.term).matchLog args.prevLogIndex args.prevLogTerm >>= _)) = _
  rw [if_neg hhi, hmatch]
  rfl

theorem appendEntries1_stale (hT : args.term < rf.currentTerm) :
    rf.appendEntries1 args = .ok (rf, ⟨rf.currentTerm, false, -100, .appNormal⟩) := by
  unfold appendEntries1
  rw [if_pos hT]

theorem sendAppendEntries_cases {server : Fin n} {appendNums appendNums' : ℤ}
    (h : rf.sendAppendEntries server args reply appendNums = .ok (rf', appendNums')) :
    TermStep rf rf' ∧ (SameLog rf rf' ∧ (appendNums' = appendNums ∨
        appendNums' = appendNums + 1 ∧ reply.success = true ∨
        appendNums' = 0 ∧ reply.success = true ∧
          ((1 + n / 2 : ℕ) : ℤ) ≤ appendNums + 1) ∨
      rf'.logs = rf.logs ∧ rf'.lastSnapshotIncludeIndex = rf.lastSnapshotIncludeIndex ∧
        rf'.lastSnapshotIncludeTerm = rf.lastSnapshotIncludeTerm ∧
        rf'.lastApplied = rf.lastApplied ∧ rf.status = .leader ∧ rf'.status = .leader ∧
        rf'.currentTerm = rf.currentTerm ∧ reply.term = rf.currentTerm ∧ reply.success = true ∧
        appendNums' = 0 ∧ ((1 + n / 2 : ℕ) : ℤ) ≤ appendNums + 1 ∧
        (∃ e, args.entries.getLast? = some e ∧ e.logTerm = rf.currentTerm) ∧
        rf'.commitIndex = max rf.commitIndex (args.prevLogIndex + args.entries.length) ∧
        rf'.commitIndex ≤ rf.getLastLogIndex) := by
  unfold sendAppendEntries at h
  by_cases happ : reply.appState = .disconnected
  · rw [if_pos happ] at h
    obtain ⟨rfl, rfl⟩ := Prod.mk.inj (Except.ok.inj h)
    exact ⟨TermStep.refl rf, Or.inl ⟨SameLog.refl rf, Or.inl rfl⟩⟩
  rw [if_neg happ] at h
  by_cases hgt : reply.term > rf.currentTerm
  · rw [if_pos hgt] at h
    obtain ⟨rfl, rfl⟩ := Prod.mk.inj (Except.ok.inj h)
    exact ⟨TermStep.stepDown hgt, Or.inl ⟨SameLog.stepDown rf _, Or.inl rfl⟩⟩
  rw [if_neg hgt] at h
  by_cases hlt : reply.term < rf.currentTerm
  · rw [if_pos hlt] at h
    obtain ⟨rfl, rfl⟩ := Prod.mk.inj (Except.ok.inj h)
    exact ⟨TermStep.refl rf, Or.inl ⟨SameLog.refl rf, Or.inl rfl⟩⟩
  rw [if_neg hlt] at h
  by_cases hlead : rf.status ≠ .leader
  · rw [if_pos hlead] at h
    obtain ⟨rfl, rfl⟩ := Prod.mk.inj (Except.ok.inj h)
    exact ⟨TermStep.refl rf, Or.inl ⟨SameLog.refl rf, Or.inl rfl⟩⟩
  rw [if_neg hlead] at h
  rw [not_not] at hlead
  obtain ⟨_, hterm, h⟩ := bind_ok.mp h
  rw [myAssert_ok] at hterm
  cases hs : reply.success with
  | false =>
    rw [hs] at h
    simp only [Bool.not_false, if_true] at h
    split_ifs at h
    · obtain ⟨rfl, rfl⟩ := Prod.mk.inj (pure_ok.mp h)
      exact ⟨⟨rfl, Or.inr ⟨rfl, rfl, Or.inl rfl⟩⟩, Or.inl ⟨⟨rfl, rfl, rfl, rfl, rfl⟩, Or.inl rfl⟩⟩
    · obtain ⟨rfl, rfl⟩ := Prod.mk.inj (pure_ok.mp h)
      exact ⟨TermStep.refl rf, Or.inl ⟨SameLog.refl rf, Or.inl rfl⟩⟩
  | true =>
    rw [hs] at h
    simp only [Bool.not_true, Bool.false_eq_true, if_false] at h
    obtain ⟨_, -, h⟩ := bind_ok.mp h
    by_cases hq : appendNums + 1 ≥ ((1 + n / 2 : ℕ) : ℤ)
    · rw [if_pos hq] at h
      obtain ⟨_, hcommit, h⟩ := bind_ok.mp h
      obtain ⟨rfl, rfl⟩ := Prod.mk.inj (pure_ok.mp h)
      rw [myAssert_ok] at hcommit
      split_ifs at hcommit ⊢ with hlast
      · obtain ⟨e, he, hterm'⟩ := (Option.any_eq_true _ _).mp hlast
        rw [decide_eq_true_iff] at hterm'
        exact ⟨⟨rfl, Or.inr ⟨rfl, rfl, Or.inl rfl⟩⟩, Or.inr ⟨rfl, rfl, rfl, rfl, hlead, hlead, rfl,
          hterm, rfl, rfl, hq, ⟨e, he, hterm'⟩, rfl, hcommit⟩⟩
      · exact ⟨⟨rfl, Or.inr ⟨rfl, rfl, Or.inl rfl⟩⟩,
          Or.inl ⟨⟨rfl, rfl, rfl, rfl, rfl⟩, Or.inr (Or.inr ⟨rfl, rfl, hq⟩)⟩⟩
    · rw [if_neg hq] at h
      obtain ⟨rfl, rfl⟩ := Prod.mk.inj (pure_ok.mp h)
      exact ⟨⟨rfl, Or.inr ⟨rfl, rfl, Or.inl rfl⟩⟩,
        Or.inl ⟨⟨rfl, rfl, rfl, rfl, rfl⟩, Or.inr (Or.inl ⟨rfl, rfl⟩)⟩⟩

theorem sendAppendEntries_error {server : Fin n} {appendNums : ℤ} {a : AssertFail}
    (h : rf.sendAppendEntries server args reply appendNums = .error a) :
    a ∈ [.appendReplyTerm, .appendReplyNextIndex, .appendReplyCommit] := by
  unfold sendAppendEntries at h
  iterate 4 (split at h; · cases h)
  rcases bind_error.mp h with h | ⟨_, -, h⟩
  · simp [(myAssert_error.mp h).2]
  split at h
  · split at h <;> cases h
  rcases bind_error.mp h with h | ⟨_, -, h⟩
  · simp [(myAssert_error.mp h).2]
  split at h
  · rcases bind_error.mp h with h | ⟨_, -, h⟩
    · simp [(myAssert_error.mp h).2]
    · cases h
  · cases h

end Raft
end RaftStorage
