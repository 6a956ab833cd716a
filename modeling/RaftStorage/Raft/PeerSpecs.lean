import RaftStorage.Raft.SnapshotSpecs

/-! What a leader knows of its peers: which handlers touch `m_nextIndex` and `m_matchIndex`, what a
heartbeat makes of them, and which hint a follower gives when it rejects a request. -/

namespace RaftStorage
namespace Raft

variable {n : ℕ} {rf rf' : Raft n} {args : AppendEntriesArgs n} {reply : AppendEntriesReply}
  {server : Fin n} {num num' : ℤ}

structure SamePeers (rf rf' : Raft n) : Prop where
  next : rf'.nextIndex = rf.nextIndex
  matched : rf'.matchIndex = rf.matchIndex

theorem SamePeers.refl (rf : Raft n) : SamePeers rf rf := ⟨rfl, rfl⟩

theorem SamePeers.catchUp (rf : Raft n) (T : ℤ) : SamePeers rf (rf.catchUp T) := by
  unfold Raft.catchUp
  split_ifs <;> exact ⟨rfl, rfl⟩

theorem requestVote_peers {args : RequestVoteArgs n} {reply : RequestVoteReply}
    (h : rf.requestVote args = .ok (rf', reply)) : SamePeers rf rf' := by
  obtain ⟨hnext, hmatch⟩ := SamePeers.catchUp rf args.term
  unfold requestVote at h
  split_ifs at h
  · obtain ⟨rfl, -⟩ := Prod.mk.inj (Except.ok.inj h)
    exact ⟨rfl, rfl⟩
  · obtain ⟨_, -, h⟩ := bind_ok.mp h
    split_ifs at h <;>
    · obtain ⟨rfl, -⟩ := Prod.mk.inj (pure_ok.mp h)
      exact ⟨hnext, hmatch⟩

theorem start_peers {command : String} {out : Option (ℤ × ℤ)} (h : rf.start command = (rf', out)) :
    SamePeers rf rf' := by
  unfold start at h
  split_ifs at h <;>
  · obtain ⟨rfl, -⟩ := Prod.mk.inj h
    exact ⟨rfl, rfl⟩

theorem snapshot_frame {index : ℤ} {str : String} (h : rf.snapshot index str = .ok rf') :
    rf' = { rf with
      logs := rf'.logs
      commitIndex := rf'.commitIndex
      lastApplied := rf'.lastApplied
      lastSnapshotIncludeIndex := rf'.lastSnapshotIncludeIndex
      lastSnapshotIncludeTerm := rf'.lastSnapshotIncludeTerm
      persister := rf'.persister } := by
  rcases snapshot_cases h with ⟨-, hsame⟩ | ⟨-, term, logs, hcut⟩
  · rw [hsame]
  · rw [hcut]
    rfl

theorem snapshot_peers {index : ℤ} {str : String} (h : rf.snapshot index str = .ok rf') :
    SamePeers rf rf' := by
  rw [snapshot_frame h]
  exact ⟨rfl, rfl⟩

theorem sendRequestVote_peers {reply : RequestVoteReply} {votedNum votedNum' : ℤ} {won : Bool}
    (h : rf.sendRequestVote reply votedNum = .ok (rf', votedNum', won)) :
    won = false ∧ SamePeers rf rf' ∨ won = true ∧ rf.status ≠ .leader ∧
      rf'.nextIndex = (fun _ => rf.getLastLogIndex + 1) ∧ rf'.matchIndex = fun _ => 0 := by
  unfold sendRequestVote at h
  split at h
  · simp only [Except.ok.injEq, Prod.mk.injEq] at h
    obtain ⟨rfl, -, rfl⟩ := h
    exact Or.inl ⟨rfl, ⟨rfl, rfl⟩⟩
  split at h
  · simp only [Except.ok.injEq, Prod.mk.injEq] at h
    obtain ⟨rfl, -, rfl⟩ := h
    exact Or.inl ⟨rfl, SamePeers.refl rf⟩
  obtain ⟨_, -, h⟩ := bind_ok.mp h
  dsimp only at h
  split_ifs at h
  · simp only [pure_ok, Prod.mk.injEq] at h
    obtain ⟨rfl, -, rfl⟩ := h
    exact Or.inl ⟨rfl, SamePeers.refl rf⟩
  · obtain ⟨_, hnot, h⟩ := bind_ok.mp h
    simp only [pure_ok, Prod.mk.injEq] at h
    obtain ⟨rfl, -, rfl⟩ := h
    exact Or.inr ⟨rfl, myAssert_ok.mp hnot, rfl, rfl⟩
  · simp only [pure_ok, Prod.mk.injEq] at h
    obtain ⟨rfl, -, rfl⟩ := h
    exact Or.inl ⟨rfl, SamePeers.refl rf⟩

/-! ## Heartbeats -/

def appendArgs (rf : Raft n) (i : Fin n) (prevTerm : ℤ) : AppendEntriesArgs n where
  term := rf.currentTerm
  leaderId := rf.me
  prevLogIndex := rf.nextIndex i - 1
  prevLogTerm := prevTerm
  entries := rf.logs.drop (rf.nextIndex i - 1 - rf.lastSnapshotIncludeIndex).toNat
  leaderCommit := rf.commitIndex

theorem heartBeatTo_snapShot {i : Fin n} (hi : i ≠ rf.me) (hpos : 1 ≤ rf.nextIndex i)
    (hle : rf.nextIndex i ≤ rf.lastSnapshotIncludeIndex) :
    rf.heartBeatTo i = .ok (some .snapShot) := by
  unfold heartBeatTo
  rw [if_neg hi, myAssert, if_pos hpos, if_pos hle]
  rfl

theorem heartBeatTo_append_eq {i : Fin n} {t : ℤ} (hc : rf.Contiguous) (hi : i ≠ rf.me)
    (hpos : 1 ≤ rf.nextIndex i) (hlo : rf.lastSnapshotIncludeIndex < rf.nextIndex i)
    (hhi : rf.nextIndex i ≤ rf.getLastLogIndex + 1) (ht : rf.TermAt (rf.nextIndex i - 1) t) :
    rf.heartBeatTo i = .ok (some (.append (rf.appendArgs i t))) := by
  have hlen := hc.getLastLogIndex_eq
  have hprev : rf.getPrevLogInfo i = .ok (rf.nextIndex i - 1, t) := by
    unfold getPrevLogInfo
    by_cases hnext : rf.nextIndex i = rf.lastSnapshotIncludeIndex + 1
    · have hterm : rf.lastSnapshotIncludeTerm = t :=
        hc.termAt_unique (Or.inl ⟨by omega, rfl⟩) ht
      rw [if_pos hnext, hterm, hnext, add_sub_cancel_right]
    · obtain ⟨e, he, hidx, rfl⟩ := ht.resolve_left fun h => hnext (by omega)
      rw [if_neg hnext]
      dsimp only
      rw [hc.logAt_ok.mpr ⟨he, hidx⟩]
      rfl
  have hentries : rf.heartBeatEntries (rf.nextIndex i - 1) = .ok (rf.appendArgs i t).entries := by
    unfold heartBeatEntries
    by_cases hsnap : rf.nextIndex i - 1 = rf.lastSnapshotIncludeIndex
    · rw [if_neg (not_not.mpr hsnap), appendArgs, hsnap, sub_self]
      rfl
    · rw [if_pos hsnap, getSlices_ok.mpr ⟨by omega, by omega, rfl⟩]
      change Except.ok _ = _
      rw [sub_add_cancel]
      rfl
  have hlast : rf.nextIndex i - 1 + ((rf.appendArgs i t).entries.length : ℤ) =
      rf.getLastLogIndex := by
    rw [appendArgs, List.length_drop]
    omega
  unfold heartBeatTo
  rw [if_neg hi, myAssert, if_pos hpos, if_neg (by omega), hprev]
  change (rf.heartBeatEntries (rf.nextIndex i - 1) >>= _) = _
  rw [hentries]
  change (myAssert (_ = rf.getLastLogIndex) _ >>= _) = _
  rw [myAssert, if_pos hlast]
  rfl

theorem heartBeatTo_beyond {i : Fin n} (hc : rf.Contiguous) (hi : i ≠ rf.me)
    (hpos : 1 ≤ rf.nextIndex i) (hhi : rf.getLastLogIndex + 1 < rf.nextIndex i) :
    rf.heartBeatTo i = .error .sliceHigh := by
  have hlen := hc.getLastLogIndex_eq
  unfold heartBeatTo
  rw [if_neg hi, myAssert, if_pos hpos, if_neg (by omega)]
  simp only [getPrevLogInfo, if_neg (show rf.nextIndex i ≠ rf.lastSnapshotIncludeIndex + 1 by omega),
    logAt, getSlicesIndexFromLogIndex, myAssert]
  rw [if_pos (by omega), if_neg (by omega)]
  rfl

theorem heartBeatTo_ne_error (hc : rf.Contiguous) {i : Fin n} (h : i ≠ rf.me →
    1 ≤ rf.nextIndex i ∧ rf.nextIndex i ≤ rf.getLastLogIndex + 1) (err : AssertFail) :
    rf.heartBeatTo i ≠ .error err := by
  intro heval
  by_cases hi : i = rf.me
  · rw [heartBeatTo, if_pos hi] at heval
    cases heval
  obtain ⟨hpos, hhi⟩ := h hi
  by_cases hsnap : rf.nextIndex i ≤ rf.lastSnapshotIncludeIndex
  · rw [heartBeatTo_snapShot hi hpos hsnap] at heval
    cases heval
  · obtain ⟨t, ht⟩ := hc.exists_termAt (i := rf.nextIndex i - 1) (by omega) (by omega)
    rw [heartBeatTo_append_eq hc hi hpos (not_le.mp hsnap) hhi ht] at heval
    cases heval

theorem doHeartBeat_ne_error (hc : rf.Contiguous) (h : rf.status = .leader → ∀ i, i ≠ rf.me →
    1 ≤ rf.nextIndex i ∧ rf.nextIndex i ≤ rf.getLastLogIndex + 1) (err : AssertFail) :
    rf.doHeartBeat ≠ .error err := by
  intro heval
  unfold doHeartBeat at heval
  split_ifs at heval with hl
  rcases bind_error.mp heval with heval | ⟨_, -, heval⟩
  · obtain ⟨i, hi⟩ := Library.forPeers_error heval
    exact heartBeatTo_ne_error hc (h hl i) err hi
  · cases heval

/-! ## Replies -/

def Hears (rf : Raft n) (reply : AppendEntriesReply) : Prop :=
  reply.appState ≠ .disconnected ∧ reply.term = rf.currentTerm ∧ rf.status = .leader

instance (rf : Raft n) (reply : AppendEntriesReply) : Decidable (rf.Hears reply) :=
  inferInstanceAs (Decidable (_ ∧ _ ∧ _))

/-- The success that makes up the majority of its round, for a request whose last entry is of the
leader's term. -/
def Completes (rf : Raft n) (args : AppendEntriesArgs n) (appendNums : ℤ) : Prop :=
  ((1 + n / 2 : ℕ) : ℤ) ≤ appendNums + 1 ∧
    args.entries.getLast?.any (fun e => e.logTerm = rf.currentTerm) = true

instance (rf : Raft n) (args : AppendEntriesArgs n) (num : ℤ) : Decidable (rf.Completes args num) :=
  inferInstanceAs (Decidable (_ ∧ _))

/-- `m_matchIndex[server]` after a success. -/
def matchedBy (rf : Raft n) (server : Fin n) (args : AppendEntriesArgs n) : ℤ :=
  max (rf.matchIndex server) (args.prevLogIndex + args.entries.length)

def accept (rf : Raft n) (server : Fin n) (args : AppendEntriesArgs n) (num : ℤ) : Raft n :=
  { rf with
    matchIndex := Function.update rf.matchIndex server (rf.matchedBy server args)
    nextIndex := Function.update rf.nextIndex server (rf.matchedBy server args + 1)
    commitIndex :=
      if rf.Completes args num then max rf.commitIndex (args.prevLogIndex + args.entries.length)
      else rf.commitIndex }

def reject (rf : Raft n) (server : Fin n) (reply : AppendEntriesReply) : Raft n :=
  if reply.updateNextIndex = -100 then rf
  else { rf with nextIndex := Function.update rf.nextIndex server reply.updateNextIndex }

theorem sendAppendEntries_reject (hh : rf.Hears reply) (hs : reply.success = false) :
    rf.sendAppendEntries server args reply num = .ok (rf.reject server reply, num) := by
  obtain ⟨happ, hterm, hlead⟩ := hh
  unfold sendAppendEntries reject
  rw [if_neg happ, if_neg (by omega), if_neg (by omega), if_neg (not_not.mpr hlead), myAssert,
    if_pos hterm, hs]
  by_cases hu : reply.updateNextIndex = -100
  · rw [if_pos hu]
    simp only [hu]
    rfl
  · rw [if_neg hu]
    simp only [bind, Except.bind, Bool.not_false, if_true, if_pos hu]
    rfl

theorem sendAppendEntries_success (hh : rf.Hears reply) (hs : reply.success = true) :
    rf.sendAppendEntries server args reply num = (do
      myAssert (rf.matchedBy server args + 1 ≤ rf.getLastLogIndex + 1) .appendReplyNextIndex
      if ((1 + n / 2 : ℕ) : ℤ) ≤ num + 1 then
        myAssert ((rf.accept server args num).commitIndex ≤ rf.getLastLogIndex) .appendReplyCommit
        return (rf.accept server args num, 0)
      else return (rf.accept server args num, num + 1)) := by
  obtain ⟨happ, hterm, hlead⟩ := hh
  unfold sendAppendEntries
  rw [if_neg happ, if_neg (by omega), if_neg (by omega), if_neg (not_not.mpr hlead), myAssert,
    if_pos hterm, hs]
  change (myAssert (rf.matchedBy server args + 1 ≤ rf.getLastLogIndex + 1) _ >>= _) = _
  congr 1
  funext _
  by_cases hq : ((1 + n / 2 : ℕ) : ℤ) ≤ num + 1
  · rw [if_pos hq]
    dsimp only
    rw [if_pos hq]
    by_cases hlast : args.entries.getLast?.any (fun e => e.logTerm = rf.currentTerm) = true
    · have hcomp : rf.Completes args num := ⟨hq, hlast⟩
      simp only [accept, if_pos hcomp, hlast, if_true]
      rfl
    · have hcomp : ¬rf.Completes args num := fun h => hlast h.2
      simp only [accept, if_neg hcomp, hlast]
      rfl
  · have hcomp : ¬rf.Completes args num := fun h => hq h.1
    rw [if_neg hq, if_neg hq, accept, if_neg hcomp]
    rfl

theorem sendAppendEntries_accept (hh : rf.Hears reply) (hs : reply.success = true)
    (hm : rf.matchedBy server args ≤ rf.getLastLogIndex)
    (hc : (rf.accept server args num).commitIndex ≤ rf.getLastLogIndex) :
    rf.sendAppendEntries server args reply num = .ok (rf.accept server args num,
      if ((1 + n / 2 : ℕ) : ℤ) ≤ num + 1 then 0 else num + 1) := by
  rw [sendAppendEntries_success hh hs, myAssert, if_pos (by omega)]
  split_ifs with hq
  · rw [myAssert, if_pos hc]
    rfl
  · rfl

theorem sendAppendEntries_not_hears (hh : ¬rf.Hears reply) (server : Fin n)
    (args : AppendEntriesArgs n) (num : ℤ) :
    rf.sendAppendEntries server args reply num = .ok (rf, num) ∨ rf.currentTerm < reply.term ∧
      rf.sendAppendEntries server args reply num = .ok (rf.stepDown reply.term, num) := by
  unfold sendAppendEntries
  by_cases happ : reply.appState = .disconnected
  · rw [if_pos happ]
    exact Or.inl rfl
  by_cases hgt : reply.term > rf.currentTerm
  · rw [if_neg happ, if_pos hgt]
    exact Or.inr ⟨hgt, rfl⟩
  by_cases hlt : reply.term < rf.currentTerm
  · rw [if_neg happ, if_neg hgt, if_pos hlt]
    exact Or.inl rfl
  have hlead : rf.status ≠ .leader := fun hl => hh ⟨happ, by omega, hl⟩
  rw [if_neg happ, if_neg hgt, if_neg hlt, if_pos hlead]
  exact Or.inl rfl

theorem sendAppendEntries_leader (h : rf.sendAppendEntries server args reply num = .ok (rf', num'))
    (hl : rf'.status = .leader) : ¬rf.Hears reply ∧ num' = num ∧ rf' = rf ∨
      rf.Hears reply ∧ reply.success = false ∧ num' = num ∧ rf' = rf.reject server reply ∨
      rf.Hears reply ∧ reply.success = true ∧ rf' = rf.accept server args num ∧
        num' = (if ((1 + n / 2 : ℕ) : ℤ) ≤ num + 1 then 0 else num + 1) ∧
        rf.matchedBy server args ≤ rf.getLastLogIndex := by
  by_cases hh : rf.Hears reply
  · cases hs : reply.success with
    | false =>
      rw [sendAppendEntries_reject hh hs] at h
      obtain ⟨rfl, rfl⟩ := Prod.mk.inj (Except.ok.inj h)
      exact Or.inr (Or.inl ⟨hh, rfl, rfl, rfl⟩)
    | true =>
      rw [sendAppendEntries_success hh hs] at h
      obtain ⟨_, hm, h⟩ := bind_ok.mp h
      have hm := myAssert_ok.mp hm
      refine Or.inr (Or.inr ⟨hh, rfl, ?_⟩)
      split_ifs at h ⊢ with hq
      · obtain ⟨_, -, h⟩ := bind_ok.mp h
        obtain ⟨rfl, rfl⟩ := Prod.mk.inj (pure_ok.mp h)
        exact ⟨rfl, rfl, by omega⟩
      · obtain ⟨rfl, rfl⟩ := Prod.mk.inj (pure_ok.mp h)
        exact ⟨rfl, rfl, by omega⟩
  · rcases sendAppendEntries_not_hears hh server args num with heq | ⟨-, heq⟩
    · obtain ⟨rfl, rfl⟩ := Prod.mk.inj (Except.ok.inj (heq.symm.trans h))
      exact Or.inl ⟨hh, rfl, rfl⟩
    · obtain ⟨rfl, rfl⟩ := Prod.mk.inj (Except.ok.inj (heq.symm.trans h))
      cases hl

theorem sendAppendEntries_ne_error
    (hm : rf.status = .leader → rf.matchedBy server args ≤ rf.getLastLogIndex)
    (hc : rf.commitIndex ≤ rf.getLastLogIndex) (err : AssertFail) :
    rf.sendAppendEntries server args reply num ≠ .error err := by
  intro h
  by_cases hh : rf.Hears reply
  · have hm := hm hh.2.2
    cases hs : reply.success with
    | false =>
      rw [sendAppendEntries_reject hh hs] at h
      cases h
    | true =>
      have hcommit : (rf.accept server args num).commitIndex ≤ rf.getLastLogIndex := by
        unfold accept
        unfold matchedBy at hm
        dsimp only
        split_ifs <;> omega
      rw [sendAppendEntries_accept hh hs hm hcommit] at h
      cases h
  · rcases sendAppendEntries_not_hears hh server args num with heq | ⟨-, heq⟩ <;>
    · rw [heq] at h
      cases h

/-! ## The hint of a rejection -/

theorem scanConflict_bounds (hc : rf.Contiguous) {prev u : ℤ} (hprev : ∃ t, rf.TermAt prev t) {k : ℕ}
    (hk : rf.lastSnapshotIncludeIndex + k ≤ prev) (h : rf.scanConflict prev k = .ok u) :
    u ≤ prev ∧ (rf.lastSnapshotIncludeIndex < u ∨ u = prev) := by
  obtain ⟨t, ht⟩ := hprev
  -- the index at which the terms differ is below `prev`
  have hbelow : ∀ {i t'}, rf.TermAt i t' → t' ≠ t → i ≠ prev := by
    rintro i t' hi hne rfl
    exact hne (hc.termAt_unique hi ht)
  induction k with
  | zero =>
    unfold scanConflict at h
    obtain ⟨t₀, ht₀, h⟩ := bind_ok.mp h
    obtain ⟨t₁, ht₁, h⟩ := bind_ok.mp h
    obtain rfl := hc.termAt_unique (hc.getLogTerm_ok.mp ht₁) ht
    split_ifs at h with hne
    · obtain rfl := pure_ok.mp h
      have := hbelow (hc.getLogTerm_ok.mp ht₀) hne
      omega
    · exact ⟨(pure_ok.mp h).ge, Or.inr (pure_ok.mp h).symm⟩
  | succ k ih =>
    unfold scanConflict at h
    obtain ⟨t₀, ht₀, h⟩ := bind_ok.mp h
    obtain ⟨t₁, ht₁, h⟩ := bind_ok.mp h
    obtain rfl := hc.termAt_unique (hc.getLogTerm_ok.mp ht₁) ht
    split_ifs at h with hne
    · obtain rfl := pure_ok.mp h
      have := hbelow (hc.getLogTerm_ok.mp ht₀) hne
      omega
    · exact ih (by push_cast at hk; omega) h

/-- The next index that a follower suggests when it rejects a request of its term. -/
inductive Hint (rf : Raft n) (args : AppendEntriesArgs n) (u : ℤ) : Prop
  | short (last : rf.getLastLogIndex < args.prevLogIndex) (hint : u = rf.getLastLogIndex + 1)
  | mismatch (snap : rf.lastSnapshotIncludeIndex ≤ args.prevLogIndex)
      (last : args.prevLogIndex ≤ rf.getLastLogIndex)
      (term : ¬rf.TermAt args.prevLogIndex args.prevLogTerm) (le : u ≤ args.prevLogIndex)
      (lower : rf.lastSnapshotIncludeIndex < u ∨ u = args.prevLogIndex)

theorem appendEntries1_hint (hc : rf.Contiguous) (h : rf.appendEntries1 args = .ok (rf', reply))
    (hs : reply.success = false) : args.term < rf.currentTerm ∧ reply.updateNextIndex = -100 ∨
      reply.term = args.term ∧ reply.appState = .appNormal ∧
        Hint rf args reply.updateNextIndex := by
  unfold appendEntries1 at h
  dsimp only at h
  by_cases hT : args.term < rf.currentTerm
  · rw [if_pos hT] at h
    obtain ⟨-, rfl⟩ := Prod.mk.inj (Except.ok.inj h)
    exact Or.inl ⟨hT, rfl⟩
  rw [if_neg hT] at h
  obtain ⟨_, -, h⟩ := bind_ok.mp h
  have hsame := SameLog.follow rf args.term
  have hcur : (rf.follow args.term).currentTerm = args.term := follow_term hT
  have hcf := hsame.contiguous hc
  change (if args.prevLogIndex > (rf.follow args.term).getLastLogIndex then _ else _) = _ at h
  by_cases hgt : args.prevLogIndex > (rf.follow args.term).getLastLogIndex
  · rw [if_pos hgt] at h
    obtain ⟨-, rfl⟩ := Prod.mk.inj (pure_ok.mp h)
    refine Or.inr ⟨hcur, rfl, .short (hsame.last ▸ hgt) ?_⟩
    rw [← hsame.last]
    rfl
  rw [if_neg hgt] at h
  obtain ⟨b, hb, h⟩ := bind_ok.mp h
  change (rf.follow args.term).matchLog _ _ = _ at hb
  obtain ⟨hlo, hhi, hiff⟩ := hcf.matchLog_ok.mp hb
  cases b with
  | true =>
    simp only [if_true] at h
    obtain ⟨rf₁, -, h⟩ := bind_ok.mp h
    obtain ⟨_, -, h⟩ := bind_ok.mp h
    obtain ⟨_, -, h⟩ := bind_ok.mp h
    obtain ⟨-, rfl⟩ := Prod.mk.inj (pure_ok.mp h)
    cases hs
  | false =>
    simp only [Bool.false_eq_true, if_false] at h
    obtain ⟨u, hu, h⟩ := bind_ok.mp h
    change (rf.follow args.term).conflictIndex _ = _ at hu
    rw [conflictIndex, if_pos hlo] at hu
    have hbounds := scanConflict_bounds hcf (hcf.exists_termAt hlo hhi) (by omega) hu
    rw [hsame.snapIndex] at hbounds hlo
    have hno : ¬rf.TermAt args.prevLogIndex args.prevLogTerm := by
      intro ht
      cases hiff.mpr (hsame.termAt.mpr ht)
    split_ifs at h with hlt
    · rw [(SameLog.catchUp rf args.term).snapIndex] at hlt
      omega
    · obtain ⟨-, rfl⟩ := Prod.mk.inj (pure_ok.mp h)
      exact Or.inr ⟨hcur, rfl, .mismatch hlo (hsame.last ▸ hhi) hno hbounds.1 hbounds.2⟩

theorem appendEntries1_appState (h : rf.appendEntries1 args = .ok (rf', reply)) :
    reply.appState = .appNormal := by
  unfold appendEntries1 at h
  dsimp only at h
  split_ifs at h
  · obtain ⟨-, rfl⟩ := Prod.mk.inj (Except.ok.inj h)
    rfl
  all_goals obtain ⟨_, -, h⟩ := bind_ok.mp h
  · obtain ⟨-, rfl⟩ := Prod.mk.inj (pure_ok.mp h)
    rfl
  all_goals
    obtain ⟨b, -, h⟩ := bind_ok.mp h
    cases b
    · obtain ⟨_, -, h⟩ := bind_ok.mp h
      obtain ⟨-, rfl⟩ := Prod.mk.inj (pure_ok.mp h)
      rfl
    · obtain ⟨_, -, h⟩ := bind_ok.mp h
      obtain ⟨_, -, h⟩ := bind_ok.mp h
      obtain ⟨_, -, h⟩ := bind_ok.mp h
      obtain ⟨-, rfl⟩ := Prod.mk.inj (pure_ok.mp h)
      rfl

theorem leaderSendSnapShotReply_leader {args : InstallSnapshotRequest n}
    {reply : InstallSnapshotResponse}
    (hl : (rf.leaderSendSnapShotReply server args reply).status = .leader) :
    rf.leaderSendSnapShotReply server args reply = rf ∨
      rf.status = .leader ∧ rf.currentTerm = args.term ∧ reply.term ≤ rf.currentTerm ∧
        rf.leaderSendSnapShotReply server args reply =
          { rf with
            matchIndex := Function.update rf.matchIndex server args.lastSnapshotIncludeIndex
            nextIndex := Function.update rf.nextIndex server
              (args.lastSnapshotIncludeIndex + 1) } := by
  unfold leaderSendSnapShotReply at hl ⊢
  split_ifs at hl ⊢ with hrole hterm
  · exact Or.inl rfl
  · cases hl
  · rw [not_or, not_not, not_not] at hrole
    exact Or.inr ⟨hrole.1, hrole.2, not_lt.mp hterm, rfl⟩

end Raft
end RaftStorage
