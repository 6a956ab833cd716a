import RaftStorage.Raft.ReplicationSpecs

/-! Outcomes of the handlers that move a node's snapshot position or its applied position. -/

namespace RaftStorage
namespace Raft

variable {n : ℕ} {rf rf' : Raft n}

/-- The log is cut at index `i`, whose entry is said to have term `t`. -/
structure Cut (rf rf' : Raft n) (i t : ℤ) : Prop where
  contiguous : rf'.Contiguous
  mem : ∀ e, e ∈ rf'.logs ↔ e ∈ rf.logs ∧ i < e.logIndex
  snapIndex : rf'.lastSnapshotIncludeIndex = i
  snapTerm : rf'.lastSnapshotIncludeTerm = t
  commit : rf'.commitIndex = max rf.commitIndex i
  applied : rf'.lastApplied = max rf.lastApplied i
  last : rf'.getLastLogIndex = max rf.getLastLogIndex i

inductive InstallOutcome (rf : Raft n) (args : InstallSnapshotRequest n) (rf' : Raft n)
    (msg : Option ApplyMsg) : Prop
  | stale (term : args.term < rf.currentTerm) (same : rf' = rf) (noMsg : msg = none)
  | old (term : ¬args.term < rf.currentTerm) (log : SameLog rf rf') (vote : TermStep rf rf')
      (currentTerm : rf'.currentTerm = args.term) (status : rf'.status = .follower)
      (index : args.lastSnapshotIncludeIndex ≤ rf.lastSnapshotIncludeIndex) (noMsg : msg = none)
  | installed (term : ¬args.term < rf.currentTerm)
      (log : Cut rf rf' args.lastSnapshotIncludeIndex args.lastSnapshotIncludeTerm)
      (vote : TermStep rf rf') (currentTerm : rf'.currentTerm = args.term)
      (status : rf'.status = .follower)
      (index : rf.lastSnapshotIncludeIndex < args.lastSnapshotIncludeIndex)
      (someMsg : msg = some
        { snapshotValid := true
          snapshot := args.data
          snapshotTerm := args.lastSnapshotIncludeTerm
          snapshotIndex := args.lastSnapshotIncludeIndex })

theorem Contiguous.logsAbove_ok (hc : rf.Contiguous) {i : ℤ} {logs : List LogEntry}
    (hlo : rf.lastSnapshotIncludeIndex < i) (h : rf.logsAbove i = .ok logs) :
    Numbered (i + 1) logs ∧ (∀ e, e ∈ logs ↔ e ∈ rf.logs ∧ i < e.logIndex) ∧
      i + logs.length = max rf.getLastLogIndex i := by
  have hlen := hc.getLastLogIndex_eq
  unfold logsAbove at h
  by_cases hgt : rf.getLastLogIndex > i
  · rw [if_pos hgt] at h
    obtain ⟨k, hk, h⟩ := bind_ok.mp h
    obtain ⟨-, -, rfl⟩ := getSlices_ok.mp hk
    obtain rfl := pure_ok.mp h
    have hnat : (i - rf.lastSnapshotIncludeIndex - 1 + 1).toNat =
        (i - rf.lastSnapshotIncludeIndex).toNat := by omega
    have hfirst : i + 1 = rf.lastSnapshotIncludeIndex + 1 +
        ((i - rf.lastSnapshotIncludeIndex).toNat : ℤ) := by omega
    rw [hnat]
    refine ⟨?_, fun e => ?_, ?_⟩
    · rw [hfirst]
      exact Numbered.drop hc _
    · rw [Numbered.mem_drop hc]
      refine and_congr_right fun _ => ?_
      omega
    · rw [List.length_drop]
      omega
  · rw [if_neg hgt] at h
    obtain rfl := Except.ok.inj h
    refine ⟨Numbered.nil, fun e => ?_, by simp; omega⟩
    simp only [List.not_mem_nil, false_iff, not_and]
    intro he
    have := hc.mem_bounds he
    omega

theorem logsAbove_ne_error {i : ℤ} (hlo : rf.lastSnapshotIncludeIndex < i) (a : AssertFail) :
    rf.logsAbove i ≠ .error a := by
  intro h
  unfold logsAbove at h
  split_ifs at h with hgt
  rw [getSlices_ok.mpr ⟨hlo, hgt.le, rfl⟩] at h
  cases h

def receive (rf : Raft n) (T : ℤ) : Raft n :=
  { (if T > rf.currentTerm then (rf.stepDown T).persist else rf) with status := .follower }

theorem SameLog.receive (rf : Raft n) (T : ℤ) : SameLog rf (rf.receive T) := by
  unfold Raft.receive
  split_ifs <;> exact ⟨rfl, rfl, rfl, rfl, rfl⟩

theorem TermStep.receive (rf : Raft n) (T : ℤ) : TermStep rf (rf.receive T) := by
  unfold Raft.receive
  split_ifs with hT
  · exact ⟨rfl, Or.inl ⟨hT, rfl, rfl⟩⟩
  · exact ⟨rfl, Or.inr ⟨rfl, rfl, Or.inr rfl⟩⟩

theorem receive_term {T : ℤ} (hT : ¬T < rf.currentTerm) : (rf.receive T).currentTerm = T := by
  unfold receive
  split_ifs with h
  · rfl
  · dsimp only
    omega

def installNewer (rf : Raft n) (args : InstallSnapshotRequest n) :
    Except AssertFail (Raft n × InstallSnapshotResponse × Option ApplyMsg) :=
  if args.lastSnapshotIncludeIndex ≤ rf.lastSnapshotIncludeIndex then return (rf, {}, none)
  else do
    let logs ← rf.logsAbove args.lastSnapshotIncludeIndex
    let rf := { rf with
      logs := logs
      commitIndex := max rf.commitIndex args.lastSnapshotIncludeIndex
      lastApplied := max rf.lastApplied args.lastSnapshotIncludeIndex
      lastSnapshotIncludeIndex := args.lastSnapshotIncludeIndex
      lastSnapshotIncludeTerm := args.lastSnapshotIncludeTerm }
    return ({ rf with persister := rf.persister.save rf.persistData args.data },
      { term := rf.currentTerm }, some
        { snapshotValid := true
          snapshot := args.data
          snapshotTerm := args.lastSnapshotIncludeTerm
          snapshotIndex := args.lastSnapshotIncludeIndex })

theorem installSnapshot_eq {args : InstallSnapshotRequest n} (hT : ¬args.term < rf.currentTerm) :
    rf.installSnapshot args = (rf.receive args.term).installNewer args := by
  unfold installSnapshot
  rw [if_neg hT]
  rfl

def snapshotted (rf : Raft n) (index term : ℤ) (logs : List LogEntry) (snapshot : String) : Raft n :=
  let rf := { rf with
    lastSnapshotIncludeIndex := index
    lastSnapshotIncludeTerm := term
    logs := logs
    commitIndex := max rf.commitIndex index
    lastApplied := max rf.lastApplied index }
  { rf with persister := rf.persister.save rf.persistData snapshot }

inductive InstallStep (rf : Raft n) (args : InstallSnapshotRequest n) :
    Raft n → Option ApplyMsg → Prop
  | stale (term : args.term < rf.currentTerm) : InstallStep rf args rf none
  | old (term : ¬args.term < rf.currentTerm)
      (index : args.lastSnapshotIncludeIndex ≤ rf.lastSnapshotIncludeIndex) :
      InstallStep rf args (rf.receive args.term) none
  | installed (term : ¬args.term < rf.currentTerm)
      (index : ¬args.lastSnapshotIncludeIndex ≤ rf.lastSnapshotIncludeIndex) {logs : List LogEntry}
      (kept : (rf.receive args.term).logsAbove args.lastSnapshotIncludeIndex = .ok logs) :
      InstallStep rf args
        ((rf.receive args.term).snapshotted args.lastSnapshotIncludeIndex args.lastSnapshotIncludeTerm
          logs args.data)
        (some
          { snapshotValid := true
            snapshot := args.data
            snapshotTerm := args.lastSnapshotIncludeTerm
            snapshotIndex := args.lastSnapshotIncludeIndex })

theorem installSnapshot_step {args : InstallSnapshotRequest n} {reply : InstallSnapshotResponse}
    {msg : Option ApplyMsg} (h : rf.installSnapshot args = .ok (rf', reply, msg)) :
    InstallStep rf args rf' msg := by
  by_cases hT : args.term < rf.currentTerm
  · unfold installSnapshot at h
    rw [if_pos hT] at h
    simp only [Except.ok.injEq, Prod.mk.injEq] at h
    obtain ⟨rfl, -, rfl⟩ := h
    exact .stale hT
  rw [installSnapshot_eq hT] at h
  have hsame := SameLog.receive rf args.term
  unfold installNewer at h
  rw [hsame.snapIndex] at h
  by_cases hidx : args.lastSnapshotIncludeIndex ≤ rf.lastSnapshotIncludeIndex
  · rw [if_pos hidx] at h
    simp only [pure_ok, Prod.mk.injEq] at h
    obtain ⟨rfl, -, rfl⟩ := h
    exact .old hT hidx
  · rw [if_neg hidx] at h
    obtain ⟨logs, hlogs, h⟩ := bind_ok.mp h
    simp only [pure_ok, Prod.mk.injEq] at h
    obtain ⟨rfl, -, rfl⟩ := h
    exact .installed hT hidx hlogs

theorem installSnapshot_cases {args : InstallSnapshotRequest n} {reply : InstallSnapshotResponse}
    {msg : Option ApplyMsg} (hc : rf.Contiguous)
    (h : rf.installSnapshot args = .ok (rf', reply, msg)) : InstallOutcome rf args rf' msg := by
  have hsame := SameLog.receive rf args.term
  have hvote := TermStep.receive rf args.term
  cases installSnapshot_step h with
  | stale term => exact .stale term rfl rfl
  | old term index => exact .old term hsame hvote (receive_term term) rfl index rfl
  | installed term index kept =>
    rw [not_le] at index
    obtain ⟨hnum, hmem, hlen⟩ := (hsame.contiguous hc).logsAbove_ok (hsame.snapIndex ▸ index) kept
    refine .installed term
      { contiguous := hnum
        mem := fun e => hsame.logs ▸ hmem e
        snapIndex := rfl
        snapTerm := rfl
        commit := by rw [← hsame.commit]; rfl
        applied := by rw [← hsame.applied]; rfl
        last := ?_ } ⟨hvote.me, hvote.cases⟩ (receive_term term) rfl index rfl
    rw [← hsame.last, ← hlen, Contiguous.getLastLogIndex_eq (by exact hnum)]
    rfl

theorem installSnapshot_ne_error (rf : Raft n) (args : InstallSnapshotRequest n) (a : AssertFail) :
    rf.installSnapshot args ≠ .error a := by
  intro h
  by_cases hT : args.term < rf.currentTerm
  · unfold installSnapshot at h
    rw [if_pos hT] at h
    cases h
  rw [installSnapshot_eq hT] at h
  unfold installNewer at h
  split_ifs at h with hidx
  · cases h
  · rcases bind_error.mp h with h | ⟨_, -, h⟩
    · exact logsAbove_ne_error (not_le.mp hidx) a h
    · cases h

theorem Contiguous.copy_ok (hc : rf.Contiguous) {i : ℤ} {k : ℕ}
    (hlo : rf.lastSnapshotIncludeIndex < i) (hhi : i + k ≤ rf.getLastLogIndex + 1) :
    ∃ logs, (List.range k).mapM (fun j : ℕ => rf.logAt (i + j)) = .ok logs ∧
      logs.length = k ∧ Numbered i logs ∧ ∀ e ∈ logs, e ∈ rf.logs := by
  induction k with
  | zero => exact ⟨[], rfl, rfl, Numbered.nil, by simp⟩
  | succ k ih =>
    obtain ⟨logs, hlogs, hlen, hnum, hsub⟩ := ih (by push_cast at hhi; omega)
    obtain ⟨e, he, hmem, hidx⟩ := hc.logAt_ne_error (i := i + k) (by omega)
      (by push_cast at hhi; omega)
    refine ⟨logs ++ [e], ?_, by simp [hlen], hnum.append (by rw [hlen]; exact hidx), ?_⟩
    · rw [List.range_succ, List.mapM_append, hlogs]
      simp only [List.mapM_cons, List.mapM_nil]
      rw [he]
      rfl
    · intro e' he'
      rcases List.mem_append.mp he' with he' | he'
      · exact hsub e' he'
      · exact List.mem_singleton.mp he' ▸ hmem

theorem snapshot_cases {index : ℤ} {str : String} (h : rf.snapshot index str = .ok rf') :
    (rf.lastSnapshotIncludeIndex ≥ index ∨ index > rf.commitIndex) ∧ rf' = rf ∨
      ¬(rf.lastSnapshotIncludeIndex ≥ index ∨ index > rf.commitIndex) ∧
        ∃ term logs, rf' = rf.snapshotted index term logs str := by
  unfold Raft.snapshot at h
  split_ifs at h with hguard
  · exact Or.inl ⟨hguard, (Except.ok.inj h).symm⟩
  · obtain ⟨e, -, h⟩ := bind_ok.mp h
    obtain ⟨logs, -, h⟩ := bind_ok.mp h
    obtain ⟨_, -, h⟩ := bind_ok.mp h
    exact Or.inr ⟨hguard, e.logTerm, logs, (pure_ok.mp h).symm⟩

theorem snapshot_ok (hc : rf.Contiguous) (hcommit : rf.commitIndex ≤ rf.getLastLogIndex)
    (index : ℤ) (snapshot : String) : ∃ rf', rf.snapshot index snapshot = .ok rf' ∧
      (rf' = rf ∨ rf.lastSnapshotIncludeIndex < index ∧ index ≤ rf.commitIndex ∧
        rf'.me = rf.me ∧ rf'.currentTerm = rf.currentTerm ∧ rf'.votedFor = rf.votedFor ∧
        rf'.status = rf.status ∧ ∃ t, Cut rf rf' index t ∧ rf.TermAt index t) := by
  unfold Raft.snapshot
  by_cases hguard : rf.lastSnapshotIncludeIndex ≥ index ∨ index > rf.commitIndex
  · exact ⟨rf, if_pos hguard, Or.inl rfl⟩
  rw [if_neg hguard]
  have hlo : rf.lastSnapshotIncludeIndex < index := not_le.mp fun hle => hguard (Or.inl hle)
  have hhi : index ≤ rf.commitIndex := not_lt.mp fun hlt => hguard (Or.inr hlt)
  -- a committed index above the snapshot is in the log: its term can be read and the rest copied
  obtain ⟨e, he, hmem, hidx⟩ := hc.logAt_ne_error hlo (hhi.trans hcommit)
  obtain ⟨logs, hlogs, hlen, hnum, hsub⟩ := hc.copy_ok (i := index + 1)
    (k := (rf.getLastLogIndex - index).toNat) (by omega) (by omega)
  have hall : ∀ e, e ∈ logs ↔ e ∈ rf.logs ∧ index < e.logIndex := by
    intro e'
    constructor
    · intro he'
      have := hnum.bounds he'
      exact ⟨hsub e' he', by omega⟩
    · rintro ⟨he', hgt⟩
      have := hc.mem_bounds he'
      obtain ⟨e₂, he₂, hi₂⟩ := hnum.exists_at (i := e'.logIndex) (by omega) (by omega)
      rw [← Numbered.unique hc (hsub e₂ he₂) he' hi₂]
      exact he₂
  rw [he]
  dsimp only [bind, Except.bind]
  rw [hlogs]
  dsimp only
  rw [myAssert, if_pos (by omega)]
  refine ⟨_, rfl, Or.inr ⟨hlo, hhi, rfl, rfl, rfl, rfl, e.logTerm, ?_, Or.inr ⟨e, hmem, hidx, rfl⟩⟩⟩
  refine
    { contiguous := hnum
      mem := hall
      snapIndex := rfl
      snapTerm := rfl
      commit := rfl
      applied := rfl
      last := ?_ }
  rw [Contiguous.getLastLogIndex_eq (by exact hnum)]
  dsimp only
  omega

def ReadFrom (rf : Raft n) (first : ℤ) (msgs : List ApplyMsg) : Prop :=
  ∀ (k : ℕ) (msg : ApplyMsg), msgs[k]? = some msg → ∃ e ∈ rf.logs, e.logIndex = first + k ∧
    msg = { commandValid := true, command := e.command, commandIndex := e.logIndex }

theorem applyLoop_ok (hc : rf.Contiguous) {k : ℕ}
    (hlo : rf.lastSnapshotIncludeIndex ≤ rf.lastApplied)
    (hhi : rf.lastApplied + k ≤ rf.getLastLogIndex) :
    ∃ msgs, applyLoop k rf = .ok ({ rf with lastApplied := rf.lastApplied + k }, msgs) ∧
      msgs.length = k ∧ ReadFrom rf (rf.lastApplied + 1) msgs := by
  induction k generalizing rf with
  | zero =>
    refine ⟨[], ?_, rfl, fun k msg h => by simp at h⟩
    simp [applyLoop]
  | succ k ih =>
    obtain ⟨e, he, hmem, hidx⟩ := hc.logAt_ne_error (i := rf.lastApplied + 1) (by omega)
      (by push_cast at hhi; omega)
    have hcong : Raft.getLastLogIndex { rf with lastApplied := rf.lastApplied + 1 } =
        rf.getLastLogIndex := getLastLogIndex_congr rfl rfl
    have hc' : Contiguous { rf with lastApplied := rf.lastApplied + 1 } := hc
    obtain ⟨msgs, hmsgs, hlen, hread⟩ := ih hc'
      (by dsimp only; omega) (by rw [hcong]; push_cast at hhi; dsimp only; omega)
    refine ⟨{ commandValid := true, command := e.command, commandIndex := e.logIndex } :: msgs,
      ?_, by simp [hlen], ?_⟩
    · unfold applyLoop
      dsimp only
      change (rf.logAt (rf.lastApplied + 1) >>= _) = _
      rw [he]
      simp only [bind, Except.bind, myAssert, if_pos hidx, hmsgs]
      push_cast
      rw [hidx, add_assoc, add_comm 1 (k : ℤ)]
      rfl
    · rintro (_ | k) msg hk
      · obtain rfl := Option.some.inj hk
        exact ⟨e, hmem, by push_cast; omega, rfl⟩
      · obtain ⟨e', he', hidx', rfl⟩ := hread k msg (by simpa using hk)
        exact ⟨e', he', by rw [hidx']; push_cast; omega, rfl⟩

theorem getApplyLogs_ok (hc : rf.Contiguous)
    (hlo : rf.lastSnapshotIncludeIndex ≤ rf.lastApplied) (hap : rf.lastApplied ≤ rf.commitIndex)
    (hcommit : rf.commitIndex ≤ rf.getLastLogIndex) :
    ∃ msgs, rf.getApplyLogs = .ok ({ rf with lastApplied := rf.commitIndex }, msgs) ∧
      rf.lastApplied + msgs.length = rf.commitIndex ∧ ReadFrom rf (rf.lastApplied + 1) msgs := by
  obtain ⟨msgs, hmsgs, hlen, hread⟩ := applyLoop_ok hc (k := (rf.commitIndex - rf.lastApplied).toNat)
    hlo (by omega)
  refine ⟨msgs, ?_, by omega, hread⟩
  unfold getApplyLogs
  rw [myAssert, if_pos hcommit]
  simp only [bind, Except.bind]
  rw [hmsgs, Int.toNat_of_nonneg (by omega), add_sub_cancel]

theorem leaderSendSnapShot_same (rf : Raft n) :
    SameLog rf rf.leaderSendSnapShot.1 ∧ TermStep rf rf.leaderSendSnapShot.1 :=
  ⟨⟨rfl, rfl, rfl, rfl, rfl⟩, ⟨rfl, Or.inr ⟨rfl, rfl, Or.inl rfl⟩⟩⟩

theorem leaderSendSnapShotReply_same (rf : Raft n) (server : Fin n)
    (args : InstallSnapshotRequest n) (reply : InstallSnapshotResponse) :
    SameLog rf (rf.leaderSendSnapShotReply server args reply) ∧
      TermStep rf (rf.leaderSendSnapShotReply server args reply) := by
  unfold leaderSendSnapShotReply
  split_ifs with hrole hterm
  · exact ⟨SameLog.refl rf, TermStep.refl rf⟩
  · exact ⟨(SameLog.stepDown rf _).persist, (TermStep.stepDown hterm).persist⟩
  · exact ⟨⟨rfl, rfl, rfl, rfl, rfl⟩, ⟨rfl, Or.inr ⟨rfl, rfl, Or.inl rfl⟩⟩⟩

end Raft
end RaftStorage
