import RaftStorage.Raft.PeerSpecs
import RaftStorage.Cluster.Index

/-! Cutting the log at a snapshot. `Snapshot` cuts it at an entry of the node's own, and nothing that
the protocol reads can tell the difference; `InstallSnapshot` cuts it at an index that another node
names and does not look at the entry there. -/

namespace RaftStorage

theorem Numbered.ext {first : ℤ} {es es' : List LogEntry} (h : Numbered first es)
    (h' : Numbered first es') (hmem : ∀ e, e ∈ es ↔ e ∈ es') : es = es' := by
  apply List.ext_getElem?
  intro k
  refine Option.ext fun e => ?_
  rw [h.getElem?_iff, h'.getElem?_iff, hmem]

namespace Raft

variable {n : ℕ} {rf rf' : Raft n} {i t : ℤ}

/-! ## The cut log -/

theorem Cut.logs_eq (h : Cut rf rf' i t) (hc : rf.Contiguous)
    (hlo : rf.lastSnapshotIncludeIndex < i) :
    rf'.logs = rf.logs.drop (i - rf.lastSnapshotIncludeIndex).toNat := by
  have hcut : Numbered (i + 1) rf'.logs := by
    have := h.contiguous
    unfold Contiguous at this
    rwa [h.snapIndex] at this
  have hfirst : i + 1 = rf.lastSnapshotIncludeIndex + 1 +
      ((i - rf.lastSnapshotIncludeIndex).toNat : ℤ) := by omega
  rw [hfirst] at hcut
  refine hcut.ext (Numbered.drop hc _) fun e => ?_
  rw [h.mem, Numbered.mem_drop hc]
  refine and_congr_right fun _ => ?_
  omega

theorem Cut.termAt (h : Cut rf rf' i t) (hc : rf.Contiguous) (hlo : rf.lastSnapshotIncludeIndex < i)
    (ht : rf.TermAt i t) {j u : ℤ} (hj : i ≤ j) : rf'.TermAt j u ↔ rf.TermAt j u := by
  unfold TermAt at ht ⊢
  simp only [h.snapIndex, h.snapTerm, h.mem]
  constructor
  · rintro (⟨rfl, rfl⟩ | ⟨e, ⟨he, -⟩, hidx, hterm⟩)
    · exact ht
    · exact Or.inr ⟨e, he, hidx, hterm⟩
  · rintro (⟨rfl, -⟩ | ⟨e, he, hidx, hterm⟩)
    · omega
    · rcases hj.eq_or_lt with rfl | hlt
      · exact Or.inl ⟨rfl, hc.termAt_unique (Or.inr ⟨e, he, hidx, hterm⟩) ht⟩
      · exact Or.inr ⟨e, ⟨he, by omega⟩, hidx, hterm⟩

theorem termAt_last (rf : Raft n) :
    rf.TermAt rf.getLastLogIndex rf.getLastLogTerm := by
  unfold getLastLogIndex getLastLogTerm getLastLogIndexAndTerm
  split
  · exact Or.inl ⟨rfl, rfl⟩
  · rename_i e he
    exact Or.inr ⟨e, List.mem_of_getLast? he, rfl, rfl⟩

theorem Contiguous.getLogTerm_congr (h : rf.Contiguous) (h' : rf'.Contiguous) {j : ℤ}
    (hlo : rf.lastSnapshotIncludeIndex ≤ j) (hhi : j ≤ rf.getLastLogIndex)
    (hterm : ∀ u, rf'.TermAt j u ↔ rf.TermAt j u) :
    rf'.getLogTermFromLogIndex j = rf.getLogTermFromLogIndex j := by
  obtain ⟨u, hu⟩ := h.exists_termAt hlo hhi
  rw [h.getLogTerm_ok.mpr hu, h'.getLogTerm_ok.mpr ((hterm u).mpr hu)]

theorem Cut.getLastLogIndexAndTerm (h : Cut rf rf' i t) (hc : rf.Contiguous)
    (hlo : rf.lastSnapshotIncludeIndex < i) (hhi : i ≤ rf.getLastLogIndex) (ht : rf.TermAt i t) :
    rf'.getLastLogIndexAndTerm = rf.getLastLogIndexAndTerm := by
  have hlast : rf'.getLastLogIndex = rf.getLastLogIndex := h.last.trans (max_eq_left hhi)
  refine Prod.ext hlast ?_
  have hold := termAt_last rf'
  rw [hlast, h.termAt hc hlo ht hhi] at hold
  exact hc.termAt_unique hold (termAt_last _)

theorem Cut.matchLog (h : Cut rf rf' i t) (hc : rf.Contiguous) (hlo : rf.lastSnapshotIncludeIndex < i)
    (ht : rf.TermAt i t) {j : ℤ} (hj : i ≤ j) (hhi : j ≤ rf.getLastLogIndex) (u : ℤ) :
    rf'.matchLog j u = rf.matchLog j u := by
  obtain ⟨u₀, hu₀⟩ := hc.exists_termAt (i := j) (by omega) hhi
  have hdec : ∀ {rf₁ : Raft n}, rf₁.Contiguous → rf₁.TermAt j u₀ →
      (decide (u = u₀) = true ↔ rf₁.TermAt j u) := by
    intro rf₁ hc₁ h₁
    rw [decide_eq_true_iff]
    exact ⟨fun heq => heq ▸ h₁, fun hu => hc₁.termAt_unique hu h₁⟩
  have hnew := (h.termAt hc hlo ht hj).mpr hu₀
  rw [hc.matchLog_ok.mpr ⟨by omega, hhi, hdec hc hu₀⟩,
    h.contiguous.matchLog_ok.mpr ⟨by rw [h.snapIndex]; exact hj, ?_, hdec h.contiguous hnew⟩]
  rw [h.last]
  exact hhi.trans (le_max_left _ _)

theorem Cut.heartBeatTo (h : Cut rf rf' i t) (hc : rf.Contiguous) (hsnap : 0 ≤ rf.lastSnapshotIncludeIndex)
    (hlo : rf.lastSnapshotIncludeIndex < i) (hhi : i ≤ rf.getLastLogIndex) (ht : rf.TermAt i t)
    (hme : rf'.me = rf.me) (hterm : rf'.currentTerm = rf.currentTerm)
    (hcommit : rf'.commitIndex = rf.commitIndex) (hpeers : SamePeers rf rf') {p : Fin n}
    (hp : i < rf.nextIndex p) : rf'.heartBeatTo p = rf.heartBeatTo p := by
  have hlast : rf'.getLastLogIndex = rf.getLastLogIndex := h.last.trans (max_eq_left hhi)
  have hnext : rf'.nextIndex p = rf.nextIndex p := congrFun hpeers.next p
  by_cases hi : p = rf.me
  · rw [Raft.heartBeatTo, Raft.heartBeatTo, if_pos hi, if_pos (hi.trans hme.symm)]
  have hi' : p ≠ rf'.me := hme ▸ hi
  by_cases hbeyond : rf.getLastLogIndex + 1 < rf.nextIndex p
  · rw [heartBeatTo_beyond hc hi (by omega) hbeyond,
      heartBeatTo_beyond h.contiguous hi' (by omega) (by rwa [hlast, hnext])]
  obtain ⟨u, hu⟩ := hc.exists_termAt (i := rf.nextIndex p - 1) (by omega) (by omega)
  have hu' : rf'.TermAt (rf'.nextIndex p - 1) u := by
    rw [hnext]
    exact (h.termAt hc hlo ht (by omega)).mpr hu
  rw [heartBeatTo_append_eq hc hi (by omega) (by omega) (by omega) hu,
    heartBeatTo_append_eq h.contiguous hi' (by omega) (by rw [h.snapIndex]; omega) (by omega) hu']
  have hentries : rf'.logs.drop (rf.nextIndex p - 1 - i).toNat =
      rf.logs.drop (rf.nextIndex p - 1 - rf.lastSnapshotIncludeIndex).toNat := by
    rw [h.logs_eq hc hlo, List.drop_drop]
    congr 1
    omega
  unfold appendArgs
  rw [hterm, hme, hnext, h.snapIndex, hentries, hcommit]

theorem ReadFrom.unique (hc : rf.Contiguous) {first : ℤ} {msgs msgs' : List ApplyMsg}
    (h : ReadFrom rf first msgs) (h' : ReadFrom rf first msgs') (hlen : msgs.length = msgs'.length) :
    msgs = msgs' := by
  refine List.ext_getElem hlen fun k hk hk' => ?_
  obtain ⟨e, he, hidx, heq⟩ := h k _ (List.getElem?_eq_getElem hk)
  obtain ⟨e', he', hidx', heq'⟩ := h' k _ (List.getElem?_eq_getElem hk')
  rw [heq, heq', Numbered.unique hc he he' (hidx.trans hidx'.symm)]

theorem Cut.getApplyLogs (h : Cut rf rf' i t) (hI : rf.Indexed) (hI' : rf'.Indexed)
    (happ : rf'.lastApplied = rf.lastApplied) (hcommit : rf'.commitIndex = rf.commitIndex) :
    rf'.getApplyLogs.map Prod.snd = rf.getApplyLogs.map Prod.snd := by
  obtain ⟨msgs, heq, hlen, hread⟩ :=
    getApplyLogs_ok hI.contiguous hI.snap_le hI.applied_le hI.commit_le
  obtain ⟨msgs', heq', hlen', hread'⟩ :=
    getApplyLogs_ok hI'.contiguous hI'.snap_le hI'.applied_le hI'.commit_le
  have hsame : msgs' = msgs := by
    refine ReadFrom.unique hI.contiguous (fun k msg hk => ?_) hread (by omega)
    obtain ⟨e, he, hidx, hmsg⟩ := hread' k msg hk
    exact ⟨e, ((h.mem e).mp he).1, by rw [hidx, happ], hmsg⟩
  rw [heq, heq', hsame]
  rfl

/-! ## Snapshots of the node's own log -/

theorem snapshot_position {index : ℤ} {str : String} (h : rf.snapshot index str = .ok rf')
    (hlo : rf.lastSnapshotIncludeIndex < index) (hhi : index ≤ rf.commitIndex) :
    rf'.lastSnapshotIncludeIndex = index := by
  rcases snapshot_cases h with ⟨hguard, -⟩ | ⟨-, term, logs, hcut⟩
  · omega
  · rw [hcut]
    rfl

/-- What the protocol can see of a node is the same, as far as it looks from index `i` on. -/
structure SameFrom (i : ℤ) (rf rf' : Raft n) : Prop where
  last : rf'.getLastLogIndexAndTerm = rf.getLastLogIndexAndTerm
  upToDate : ∀ index term, rf'.upToDate index term = rf.upToDate index term
  logTerm : ∀ j, i ≤ j → j ≤ rf.getLastLogIndex →
    rf'.getLogTermFromLogIndex j = rf.getLogTermFromLogIndex j
  matchLog : ∀ j u, i ≤ j → j ≤ rf.getLastLogIndex → rf'.matchLog j u = rf.matchLog j u
  heartBeat : ∀ p, i < rf.nextIndex p → rf'.heartBeatTo p = rf.heartBeatTo p
  apply : rf'.getApplyLogs.map Prod.snd = rf.getApplyLogs.map Prod.snd
  term : rf'.currentTerm = rf.currentTerm
  vote : rf'.votedFor = rf.votedFor
  commit : rf'.commitIndex = rf.commitIndex
  applied : rf'.lastApplied = rf.lastApplied

/-- Compaction up to an applied index is invisible to the protocol. -/
theorem snapshot_invisible (hI : rf.Indexed) {index : ℤ}
    (hlo : rf.lastSnapshotIncludeIndex < index) (hhi : index ≤ rf.lastApplied) (snapshot : String) :
    ∃ rf', rf.snapshot index snapshot = .ok rf' ∧ rf'.lastSnapshotIncludeIndex = index ∧
      SameFrom index rf rf' := by
  have hc := hI.contiguous
  obtain ⟨rf', hok, hcases⟩ := snapshot_ok hc hI.commit_le index snapshot
  have hle := hhi.trans hI.applied_le
  rcases hcases with rfl | ⟨-, -, hme, hterm, hvote, -, t, hcut, ht⟩
  · -- the call is accepted, so it does not leave the snapshot where it was
    have hadv := snapshot_position hok hlo hle
    omega
  have hI' := (hI.snapshot hok).indexed
  have hcommit : rf'.commitIndex = rf.commitIndex := hcut.commit.trans (max_eq_left hle)
  have happ : rf'.lastApplied = rf.lastApplied := hcut.applied.trans (max_eq_left hhi)
  have hidx := hle.trans hI.commit_le
  have hlast := hcut.getLastLogIndexAndTerm hc hlo hidx ht
  refine ⟨rf', hok, hcut.snapIndex, hlast, fun index term => ?_, fun j hj hjl => ?_,
    fun j u hj hjl => hcut.matchLog hc hlo ht hj hjl u, fun p hp => ?_,
    hcut.getApplyLogs hI hI' happ hcommit, hterm, hvote, hcommit, happ⟩
  · rw [Raft.upToDate, Raft.upToDate, hlast]
  · exact hc.getLogTerm_congr hcut.contiguous (by omega) hjl fun u => hcut.termAt hc hlo ht hj
  · exact hcut.heartBeatTo hc hI.snap_nonneg hlo hidx ht hme hterm hcommit (snapshot_peers hok) hp

/-- A leader with a snapshot of one entry. Of the three entries behind it one is applied and another
one committed; the first peer has the second of them, the other peer only the first. -/
def compactedLeader (me : Fin 3) : Raft 3 :=
  { init me with
    status := .leader
    currentTerm := 2
    logs := [⟨"b", 1, 2⟩, ⟨"c", 2, 3⟩, ⟨"d", 2, 4⟩]
    commitIndex := 3
    lastApplied := 2
    nextIndex := fun p => 5 - p.val
    lastSnapshotIncludeIndex := 1
    lastSnapshotIncludeTerm := 1 }

theorem indexed_compactedLeader : (compactedLeader 0).Indexed := by
  have hone : Numbered 2 [(⟨"b", 1, 2⟩ : LogEntry)] := Numbered.singleton rfl
  have htwo := hone.append (e := ⟨"c", 2, 3⟩) rfl
  exact ⟨htwo.append (e := ⟨"d", 2, 4⟩) rfl, by decide, by decide, by decide, by decide⟩

theorem snapshot_invisible_compactedLeader :
    ∃ rf', (compactedLeader 0).snapshot 2 "s" = .ok rf' ∧ rf'.lastSnapshotIncludeIndex = 2 ∧
      SameFrom 2 (compactedLeader 0) rf' ∧ rf'.heartBeatTo 1 = (compactedLeader 0).heartBeatTo 1 ∧
      rf'.getApplyLogs.map Prod.snd =
        .ok [{ commandValid := true, command := "c", commandIndex := 3 }] := by
  have hlo : (compactedLeader 0).lastSnapshotIncludeIndex < 2 := by decide
  obtain ⟨rf', hok, hidx, hsame⟩ := snapshot_invisible indexed_compactedLeader hlo (by decide) "s"
  exact ⟨rf', hok, hidx, hsame, hsame.heartBeat 1 (by decide), hsame.apply.trans (by decide +kernel)⟩

/-! ## Snapshots of another node -/

def HoldsTerm (rf : Raft n) (i t : ℤ) : Prop := ∃ e ∈ rf.logs, e.logIndex = i ∧ e.logTerm = t

structure KeepsSuffix (rf rf' : Raft n) (i t : ℤ) : Prop where
  kept : rf.HoldsTerm i t → rf'.logs = rf.logs.filter (i < ·.logIndex)
  dropped : ¬rf.HoldsTerm i t → rf'.logs = []
  snapIndex : rf'.lastSnapshotIncludeIndex = i
  snapTerm : rf'.lastSnapshotIncludeTerm = t
  commit : i ≤ rf'.commitIndex ∧ rf.commitIndex ≤ rf'.commitIndex
  applied : i ≤ rf'.lastApplied ∧ rf.lastApplied ≤ rf'.lastApplied

theorem Cut.logs_eq_filter (h : Cut rf rf' i t) (hc : rf.Contiguous)
    (hlo : rf.lastSnapshotIncludeIndex < i) : rf'.logs = rf.logs.filter (i < ·.logIndex) := by
  set k := (i - rf.lastSnapshotIncludeIndex).toNat with hk
  have hbelow : (rf.logs.take k).filter (i < ·.logIndex) = [] := by
    rw [List.filter_eq_nil_iff]
    intro e he hlt
    obtain ⟨j, hj⟩ := List.mem_iff_getElem?.mp he
    rw [List.getElem?_take] at hj
    split_ifs at hj with hjk
    have := hc j e hj
    rw [decide_eq_true_iff] at hlt
    omega
  have habove : (rf.logs.drop k).filter (i < ·.logIndex) = rf.logs.drop k := by
    rw [List.filter_eq_self]
    intro e he
    have := (Numbered.mem_drop hc).mp he
    rw [decide_eq_true_iff]
    omega
  rw [h.logs_eq hc hlo, ← hk]
  conv_rhs => rw [← List.take_append_drop k rf.logs]
  rw [List.filter_append, hbelow, habove, List.nil_append]

/-- A snapshot that is accepted leaves a consistent suffix exactly when the log does not go on behind
the snapshot's index, or has an entry of the snapshot's term there. -/
theorem install_keepsSuffix_iff (hI : rf.Indexed) {args : InstallSnapshotRequest n}
    (hT : rf.currentTerm ≤ args.term)
    (hidx : rf.lastSnapshotIncludeIndex < args.lastSnapshotIncludeIndex) :
    (∃ rf' reply msg, rf.installSnapshot args = .ok (rf', reply, msg) ∧
      KeepsSuffix rf rf' args.lastSnapshotIncludeIndex args.lastSnapshotIncludeTerm) ↔
    (args.lastSnapshotIncludeIndex < rf.getLastLogIndex →
      rf.HoldsTerm args.lastSnapshotIncludeIndex args.lastSnapshotIncludeTerm) := by
  have hc := hI.contiguous
  obtain ⟨rf', reply, msg, hok, hcut⟩ : ∃ rf' reply msg,
      rf.installSnapshot args = .ok (rf', reply, msg) ∧
      Cut rf rf' args.lastSnapshotIncludeIndex args.lastSnapshotIncludeTerm := by
    cases heval : rf.installSnapshot args with
    | error a => exact absurd heval (installSnapshot_ne_error rf args a)
    | ok out =>
      obtain ⟨rf', reply, msg⟩ := out
      refine ⟨rf', reply, msg, rfl, ?_⟩
      cases installSnapshot_cases hc heval with
      | stale term => exact absurd hT (not_le.mpr term)
      | old _ _ _ _ _ index => exact absurd hidx (not_lt.mpr index)
      | installed _ log => exact log
  have hlen : rf'.getLastLogIndex = args.lastSnapshotIncludeIndex + rf'.logs.length := by
    rw [hcut.contiguous.getLastLogIndex_eq, hcut.snapIndex]
  have hlast := hcut.last
  constructor
  · rintro ⟨rf₁, _, _, hok₁, hkeeps⟩ hlt
    obtain ⟨rfl, -⟩ := Prod.mk.inj (Except.ok.inj (hok.symm.trans hok₁))
    by_contra hno
    rw [hkeeps.dropped hno, List.length_nil] at hlen
    omega
  · intro hcond
    refine ⟨rf', reply, msg, hok, fun _ => hcut.logs_eq_filter hc hidx, fun hno => ?_,
      hcut.snapIndex, hcut.snapTerm, ?_, ?_⟩
    · have hle : rf.getLastLogIndex ≤ args.lastSnapshotIncludeIndex :=
        not_lt.mp fun hlt => hno (hcond hlt)
      exact List.length_eq_zero_iff.mp (by omega)
    · rw [hcut.commit]
      exact ⟨le_max_right _ _, le_max_left _ _⟩
    · rw [hcut.applied]
      exact ⟨le_max_right _ _, le_max_left _ _⟩

def twoPending (me : Fin 3) : Raft 3 :=
  { init me with currentTerm := 1, logs := [⟨"a", 1, 1⟩, ⟨"b", 1, 2⟩] }

/-- The snapshot of a leader of term 2 that ends in its own entry at index 1. -/
def conflictingSnapshot (leaderId : Fin 3) : InstallSnapshotRequest 3 where
  leaderId := leaderId
  term := 2
  lastSnapshotIncludeIndex := 1
  lastSnapshotIncludeTerm := 2
  data := "s"

theorem indexed_twoPending : (twoPending 0).Indexed := by
  have hone : Numbered 1 [(⟨"a", 1, 1⟩ : LogEntry)] := Numbered.singleton rfl
  exact ⟨hone.append (e := ⟨"b", 1, 2⟩) rfl, by decide, by decide, by decide, by decide⟩

theorem install_keepsSuffix_iff_twoPending :
    (∃ rf' reply msg, (twoPending 0).installSnapshot { conflictingSnapshot 1 with
        lastSnapshotIncludeTerm := 1 } = .ok (rf', reply, msg) ∧ KeepsSuffix (twoPending 0) rf' 1 1) ↔
      (1 < (twoPending 0).getLastLogIndex → (twoPending 0).HoldsTerm 1 1) :=
  install_keepsSuffix_iff indexed_twoPending (by decide) (by decide)

theorem conflicting_suffix_kept :
    ¬∀ (n : ℕ) (rf : Raft n) (args : InstallSnapshotRequest n), rf.Indexed →
      rf.currentTerm ≤ args.term → rf.lastSnapshotIncludeIndex < args.lastSnapshotIncludeIndex →
      ∃ rf' reply msg, rf.installSnapshot args = .ok (rf', reply, msg) ∧
        KeepsSuffix rf rf' args.lastSnapshotIncludeIndex args.lastSnapshotIncludeTerm := by
  intro h
  obtain ⟨rf', reply, msg, hok, hkeeps⟩ := h 3 (twoPending 0)
    (conflictingSnapshot 1) indexed_twoPending (by decide) (by decide)
  have hno : ¬(twoPending 0).HoldsTerm 1 2 := by
    rintro ⟨e, he, -, hterm⟩
    simp only [twoPending, List.mem_cons, List.not_mem_nil, or_false] at he
    rcases he with rfl | rfl <;> cases hterm
  have hlogs : rf'.logs = [⟨"b", 1, 2⟩] := by
    obtain ⟨rfl, -⟩ := Prod.mk.inj (Except.ok.inj hok)
    rfl
  rw [hkeeps.dropped hno] at hlogs
  cases hlogs

end Raft
end RaftStorage
