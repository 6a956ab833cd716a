import RaftStorage.Cluster.Election

/-! Entry uniqueness. Entries are made by `Start` only, on the leader of their term, at an index
above everything made in the term before; every other copy, in a log or in a request, comes from
an earlier copy. -/

namespace RaftStorage
open Library
namespace Raft

variable {n : ℕ} {rf rf' : Raft n} {e : LogEntry}

/-- The node has the entry, or a snapshot that covers its index. -/
def Holds (rf : Raft n) (e : LogEntry) : Prop :=
  e ∈ rf.logs ∨ e.logIndex ≤ rf.lastSnapshotIncludeIndex

theorem Cut.holds {i t : ℤ} (h : Cut rf rf' i t) (hi : rf.lastSnapshotIncludeIndex ≤ i)
    (he : rf.Holds e) : rf'.Holds e := by
  unfold Holds
  rw [h.snapIndex, h.mem]
  rcases he with he | he
  · by_cases hlt : i < e.logIndex
    · exact Or.inl ⟨he, hlt⟩
    · exact Or.inr (not_lt.mp hlt)
  · exact Or.inr (he.trans hi)

theorem AppendMerged.holds {args : AppendEntriesArgs n} (h : AppendMerged rf rf' args)
    (hsame : ∀ e' ∈ args.entries, e'.logIndex = e.logIndex → e'.logTerm = e.logTerm)
    (he : rf.Holds e) : rf'.Holds e := by
  rcases he with he | he
  · exact Or.inl ((h.mem e).mpr (Or.inl ⟨he, hsame⟩))
  · exact Or.inr (h.snapIndex ▸ he)

end Raft

namespace Cluster

variable {n : ℕ} {s s' : Cluster n} {a : Action n} {e e' : LogEntry}

inductive LogMove (s : Cluster n) (a : Action n) (s' : Cluster n) (q : Fin n) : Prop
  | kept (logs : (s'.nodes q).logs = (s.nodes q).logs)
      (snapIndex : (s'.nodes q).lastSnapshotIncludeIndex = (s.nodes q).lastSnapshotIncludeIndex)
  | started {command : String} (action : a = .start q command)
      (leader : (s.nodes q).status = .leader)
      (logs : (s'.nodes q).logs = (s.nodes q).logs ++
        [⟨command, (s.nodes q).currentTerm, (s.nodes q).getLastLogIndex + 1⟩])
      (snapIndex : (s'.nodes q).lastSnapshotIncludeIndex = (s.nodes q).lastSnapshotIncludeIndex)
  | merged {r : HeartBeat n} {args : AppendEntriesArgs n} (mem : r ∈ s.heartBeats)
      (sent : r.Sent q args) (log : Raft.AppendMerged (s.nodes q) (s'.nodes q) args)
      (term : (s'.nodes q).currentTerm = args.term) (status : (s'.nodes q).status = .follower)
  | cut {i t : ℤ} (log : Raft.Cut (s.nodes q) (s'.nodes q) i t)
      (index : (s.nodes q).lastSnapshotIncludeIndex < i)

theorem LogMove.of_same {q : Fin n} (h : Raft.SameLog (s.nodes q) (s'.nodes q)) :
    LogMove s a s' q := .kept h.logs h.snapIndex

theorem LogMove.of_setNode (p : Fin n) (rf : Raft n) (hs' : s'.nodes = (s.setNode p rf).nodes)
    (h : s'.nodes p = rf → LogMove s a s' p) (q : Fin n) : LogMove s a s' q := by
  by_cases hq : q = p
  · subst hq
    exact h (by rw [hs', setNode_nodes_self])
  · refine .of_same ?_
    rw [hs', setNode_nodes_of_ne hq]
    exact Raft.SameLog.refl _

theorem Indexed.log_move (hI : s.Indexed) (hs : Step s a s') (q : Fin n) : LogMove s a s' q := by
  cases hs with
  | idle => exact .kept rfl rfl
  | exit => exact .kept rfl rfl
  | doElection eval =>
    refine .of_setNode _ _ (recordElection_nodes _) (fun hnode => .of_same ?_) q
    rcases Raft.doElection_cases eval with ⟨rfl, -⟩ | ⟨hsame, -⟩
    · exact hnode.symm ▸ Raft.SameLog.refl _
    · exact hnode.symm ▸ hsame
  | requestVote round call eval =>
    refine .of_setNode _ _ (by rfl) (fun hnode => .of_same ?_) q
    exact hnode.symm ▸ (Raft.requestVote_cases eval).1
  | sendRequestVote round call taken answer eval =>
    refine .of_setNode _ _ (by rfl) (fun hnode => .of_same ?_) q
    exact hnode.symm ▸ (Raft.sendRequestVote_cases eval).1
  | start eval =>
    refine .of_setNode _ _ (by rfl) (fun hnode => ?_) q
    rcases Raft.start_cases eval with ⟨rfl, -⟩ | ⟨hl, -, -, hlogs, hsnap, -⟩
    · exact .of_same (hnode.symm ▸ Raft.SameLog.refl _)
    · exact .started rfl hl (hnode.symm ▸ hlogs) (hnode.symm ▸ hsnap)
  | doHeartBeat => exact .of_same (by rw [recordHeartBeat_nodes]; exact Raft.SameLog.refl _)
  | appendEntries1 round call eval =>
    refine .of_setNode _ _ (by rfl) (fun hnode => ?_) q
    cases Raft.appendEntries1_cases (hI.node _).contiguous (hI.shaped round call).numbered eval with
    | stale _ same => exact .of_same (hnode.symm ▸ same ▸ Raft.SameLog.refl _)
    | rejected _ log => exact .of_same (hnode.symm ▸ log)
    | merged _ log _ term status =>
      exact .merged (List.mem_of_getElem? round) ⟨_, call, rfl⟩ (hnode.symm ▸ log)
        (hnode.symm ▸ term) (hnode.symm ▸ status)
  | sendAppendEntries round call taken answer eval =>
    refine .of_setNode _ _ (by rfl) (fun hnode => ?_) q
    obtain ⟨-, ⟨hsame, -⟩ | ⟨hlogs, hsnap, -⟩⟩ := Raft.sendAppendEntries_cases eval
    · exact .of_same (hnode.symm ▸ hsame)
    · exact .kept (hnode.symm ▸ hlogs) (hnode.symm ▸ hsnap)
  | leaderSendSnapShot =>
    refine .of_setNode _ _ (by rfl) (fun hnode => .of_same ?_) q
    exact hnode.symm ▸ (Raft.leaderSendSnapShot_same _).1
  | installSnapshot thread request eval =>
    refine .of_setNode _ _ (by rfl) (fun hnode => ?_) q
    cases Raft.installSnapshot_cases (hI.node _).contiguous eval with
    | stale _ same => exact .of_same (hnode.symm ▸ same ▸ Raft.SameLog.refl _)
    | old _ log => exact .of_same (hnode.symm ▸ log)
    | installed _ log _ _ _ index => exact .cut (hnode.symm ▸ log) index
  | leaderSendSnapShotReply =>
    refine .of_setNode _ _ (by rfl) (fun hnode => .of_same ?_) q
    exact hnode.symm ▸ (Raft.leaderSendSnapShotReply_same _ _ _ _).1
  | snapshot eval =>
    refine .of_setNode _ _ (by rfl) (fun hnode => ?_) q
    obtain ⟨rf, hok, hcases⟩ := Raft.snapshot_ok (hI.node _).contiguous (hI.node _).commit_le _ _
    obtain rfl := Except.ok.inj (hok.symm.trans eval)
    rcases hcases with rfl | ⟨hlo, -, -, -, -, -, t, hcut, -⟩
    · exact .of_same (hnode.symm ▸ Raft.SameLog.refl _)
    · exact .cut (hnode.symm ▸ hcut) hlo
  | getApplyLogs eval =>
    refine .of_setNode _ _ (by rfl) (fun hnode => ?_) q
    obtain ⟨msgs, hok, -⟩ := Raft.getApplyLogs_ok (hI.node _).contiguous (hI.node _).snap_le
      (hI.node _).applied_le (hI.node _).commit_le
    obtain ⟨rfl, -⟩ := Prod.mk.inj (Except.ok.inj (hok.symm.trans eval))
    exact .kept (hnode.symm ▸ rfl) (hnode.symm ▸ rfl)
  | push => exact .kept rfl rfl

def Requested (s : Cluster n) (e : LogEntry) : Prop :=
  ∃ r ∈ s.heartBeats, ∃ p args, r.Sent p args ∧ e ∈ args.entries

def Present (s : Cluster n) (e : LogEntry) : Prop :=
  (∃ p, e ∈ (s.nodes p).logs) ∨ s.Requested e

theorem Indexed.sent_step (hI : s.Indexed) (hs : Step s a s') {r' : HeartBeat n} {p : Fin n}
    {args : AppendEntriesArgs n} (hr' : r' ∈ s'.heartBeats) (hsent : r'.Sent p args) :
    (∃ r ∈ s.heartBeats, r.owner = r'.owner ∧ r.info = r'.info ∧ r.Sent p args) ∨
    a = .doHeartBeat r'.owner ∧ (s.nodes r'.owner).status = .leader ∧
      r'.info = ⟨(s.nodes r'.owner).currentTerm, (s.nodes r'.owner).getLastLogIndex⟩ ∧
      Raft.BuiltFrom (s.nodes r'.owner) args := by
  cases hs.heartBeat_origin r' hr' with
  | old mem => exact Or.inl ⟨r', mem, rfl, rfl, hsent⟩
  | sent leader eval => exact Or.inr ⟨rfl, leader, rfl, (hI.built eval hsent).2⟩
  | answered mem => exact Or.inl ⟨_, mem, rfl, rfl, Round.sent_respond.mp hsent⟩
  | taken mem => exact Or.inl ⟨_, mem, rfl, rfl, Round.sent_take.mp hsent⟩

theorem Indexed.present_step (hI : s.Indexed) (hs : Step s a s') (he : s'.Present e) :
    s.Present e ∨ ∃ p command, a = .start p command ∧ (s.nodes p).status = .leader ∧
      e = ⟨command, (s.nodes p).currentTerm, (s.nodes p).getLastLogIndex + 1⟩ ∧
      e ∈ (s'.nodes p).logs := by
  rcases he with ⟨p, he⟩ | ⟨r, hr, p, args, hsent, he⟩
  · cases hI.log_move hs p with
    | kept logs => exact Or.inl (Or.inl ⟨p, logs ▸ he⟩)
    | @started command action leader logs _ =>
      have he' := he
      rw [logs, List.mem_append, List.mem_singleton] at he
      rcases he with he | he
      · exact Or.inl (Or.inl ⟨p, he⟩)
      · exact Or.inr ⟨p, command, action, leader, he, he'⟩
    | merged mem sent log =>
      rcases (log.mem e).mp he with ⟨he, -⟩ | ⟨he, -⟩
      · exact Or.inl (Or.inl ⟨p, he⟩)
      · exact Or.inl (Or.inr ⟨_, mem, p, _, sent, he⟩)
    | cut log => exact Or.inl (Or.inl ⟨p, ((log.mem e).mp he).1⟩)
  · rcases hI.sent_step hs hr hsent with ⟨r₁, hr₁, -, -, hsent₁⟩ | ⟨-, -, -, hb⟩
    · exact Or.inl (Or.inr ⟨r₁, hr₁, p, args, hsent₁, he⟩)
    · exact Or.inl (Or.inl ⟨_, ((hb.mem (hI.node _).contiguous).mp he).1⟩)

structure Entries (s : Cluster n) : Prop where
  unique : ∀ e e', s.Present e → s.Present e' → e.logIndex = e'.logIndex →
    e.logTerm = e'.logTerm → e = e'
  elected : ∀ e, s.Present e → ∃ c, (c, e.logTerm) ∈ s.elected
  leader : ∀ p e, (s.nodes p).status = .leader → s.Present e →
    e.logTerm = (s.nodes p).currentTerm → (s.nodes p).Holds e
  round : ∀ r ∈ s.heartBeats, (r.owner, r.info.term) ∈ s.elected ∧
    r.info.lastLogIndex ≤ (s.nodes r.owner).getLastLogIndex
  covered : ∀ r ∈ s.heartBeats, ∀ p args, r.Sent p args → ∀ e, s.Present e →
    e.logTerm = r.info.term → args.prevLogIndex < e.logIndex →
    e.logIndex ≤ r.info.lastLogIndex → e ∈ args.entries

theorem not_present_init (n : ℕ) (e : LogEntry) : ¬(init n).Present e := by
  rintro (⟨p, he⟩ | ⟨r, hr, -⟩)
  · simp [init, Raft.init] at he
  · simp [init] at hr

theorem entries_init (n : ℕ) : (init n).Entries where
  unique := fun e _ he => absurd he (not_present_init n e)
  elected := fun e he => absurd he (not_present_init n e)
  leader := fun _ e _ he => absurd he (not_present_init n e)
  round := by simp [init]
  covered := by simp [init]

theorem Indexed.holds_le (hI : s.Indexed) {p : Fin n} (h : (s.nodes p).Holds e) :
    e.logIndex ≤ (s.nodes p).getLastLogIndex := by
  have hp := hI.node p
  rcases h with he | he
  · exact (hp.contiguous.mem_bounds he).2
  · have := hp.snap_le
    have := hp.applied_le
    have := hp.commit_le
    omega

theorem Entries.unique_step (h : s.Entries) (hI : s.Indexed) (hs : Step s a s') :
    ∀ e e', s'.Present e → s'.Present e' → e.logIndex = e'.logIndex → e.logTerm = e'.logTerm →
      e = e' := by
  -- the index of an entry made now is above all entries of its term
  have hnew : ∀ {e e' : LogEntry} {p : Fin n} {command : String}, (s.nodes p).status = .leader →
      e = ⟨command, (s.nodes p).currentTerm, (s.nodes p).getLastLogIndex + 1⟩ → s.Present e' →
      e.logIndex = e'.logIndex → e.logTerm = e'.logTerm → False := by
    rintro e e' p command hl rfl he' hidx hterm
    have := hI.holds_le (h.leader p e' hl he' hterm.symm)
    simp only at hidx
    omega
  intro e e' he he' hidx hterm
  rcases hI.present_step hs he with he | ⟨p, command, ha, hl, heq, -⟩
  · rcases hI.present_step hs he' with he' | ⟨p', command', -, hl', heq', -⟩
    · exact h.unique e e' he he' hidx hterm
    · exact (hnew hl' heq' he hidx.symm hterm.symm).elim
  · rcases hI.present_step hs he' with he' | ⟨p', command', ha', -, heq', -⟩
    · exact (hnew hl heq he' hidx hterm).elim
    · obtain ⟨rfl, rfl⟩ := Action.start.inj (ha.symm.trans ha')
      exact heq.trans heq'.symm

theorem Entries.elected_step (h : s.Entries) (hI : s.Indexed) (hE : s.Elections)
    (hs : Step s a s') (e : LogEntry) (he : s'.Present e) : ∃ c, (c, e.logTerm) ∈ s'.elected := by
  rcases hI.present_step hs he with he | ⟨p, command, -, hl, rfl, -⟩
  · obtain ⟨c, hc⟩ := h.elected e he
    exact ⟨c, hs.elected_mono _ hc⟩
  · exact ⟨p, hs.elected_mono _ (hE.leader p hl)⟩

theorem Entries.leader_step (h : s.Entries) (hI : s.Indexed) (hE : s.Elections)
    (hs : Step s a s') (p : Fin n) (e : LogEntry) (hl' : (s'.nodes p).status = .leader)
    (he : s'.Present e) (hterm : e.logTerm = (s'.nodes p).currentTerm) : (s'.nodes p).Holds e := by
  obtain ⟨hT, hcases⟩ := hE.leader_cases hI hs hl'
  rw [hT] at hterm
  rcases hI.present_step hs he with he | ⟨p', command, -, hl, rfl, hmem⟩
  · rcases hcases with hl | hfresh
    · have hold := h.leader p e hl he hterm
      cases hI.log_move hs p with
      | kept logs snap =>
        unfold Raft.Holds
        rwa [logs, snap]
      | started _ _ logs snap =>
        unfold Raft.Holds
        rw [logs, snap]
        exact hold.imp_left (List.mem_append_left _)
      | merged _ _ _ _ status =>
        rw [hl'] at status
        cases status
      | cut log index => exact log.holds index.le hold
    · obtain ⟨c, hc⟩ := h.elected e he
      rw [hterm] at hc
      exact absurd hc (hfresh c)
  · have hel := hE.leader p' hl
    rcases hcases with hl₀ | hfresh
    · have hel₀ := hE.leader p hl₀
      rw [← hterm] at hel₀
      exact Or.inl (hE.elected_unique hel₀ hel ▸ hmem)
    · rw [← hterm] at hfresh
      exact absurd hel (hfresh p')

theorem Entries.round_step (h : s.Entries) (hI : s.Indexed) (hE : s.Elections)
    (hs : Step s a s') : ∀ r ∈ s'.heartBeats, (r.owner, r.info.term) ∈ s'.elected ∧
      r.info.lastLogIndex ≤ (s'.nodes r.owner).getLastLogIndex := by
  have hold : ∀ r ∈ s.heartBeats, (r.owner, r.info.term) ∈ s'.elected ∧
      r.info.lastLogIndex ≤ (s'.nodes r.owner).getLastLogIndex := by
    intro r hr
    obtain ⟨hel, hle⟩ := h.round r hr
    exact ⟨hs.elected_mono _ hel, hle.trans (hI.advances hs _).last⟩
  intro r hr
  cases hs.heartBeat_origin r hr with
  | old mem => exact hold r mem
  | sent leader =>
    exact ⟨hs.elected_mono _ (hE.leader _ leader), (hI.advances hs _).last⟩
  | answered mem => simpa using hold _ mem
  | taken mem => simpa using hold _ mem

theorem Entries.covered_step (h : s.Entries) (hI : s.Indexed) (hE : s.Elections)
    (hs : Step s a s') : ∀ r ∈ s'.heartBeats, ∀ p args, r.Sent p args → ∀ e, s'.Present e →
      e.logTerm = r.info.term → args.prevLogIndex < e.logIndex →
      e.logIndex ≤ r.info.lastLogIndex → e ∈ args.entries := by
  intro r' hr' p args hsent e he hterm hlo hhi
  rcases hI.sent_step hs hr' hsent with ⟨r, hr, hown, hinfo, hsent⟩ | ⟨ha, hl, hinfo, hb⟩
  · rw [← hinfo] at hterm hhi
    rcases hI.present_step hs he with he | ⟨q, command, -, hlead, rfl, -⟩
    · exact h.covered r hr p args hsent e he hterm hlo hhi
    · -- the round's leader makes the entry after the round was sent
      obtain ⟨hel, hle⟩ := h.round r hr
      rw [← hterm] at hel
      rw [hE.elected_unique hel (hE.leader q hlead)] at hle
      simp only at hhi
      omega
  · rcases hI.present_step hs he with he | ⟨q, command, hq, -⟩
    · rw [hinfo] at hterm
      have hp := hI.node r'.owner
      rcases h.leader _ e hl he hterm with he | he
      · exact (hb.mem hp.contiguous).mpr ⟨he, hlo⟩
      · have := hb.snap_le
        omega
    · rw [hq] at ha
      cases ha

theorem Entries.step (h : s.Entries) (hI : s.Indexed) (hE : s.Elections) (hs : Step s a s') :
    s'.Entries where
  unique := h.unique_step hI hs
  elected := h.elected_step hI hE hs
  leader := h.leader_step hI hE hs
  round := h.round_step hI hE hs
  covered := h.covered_step hI hE hs

theorem entries_runOf (acts : List (Action n)) : (runOf acts).Entries := by
  have h := run_invariant (P := fun s : Cluster n => s.Indexed ∧ s.Elections ∧ s.Entries)
    ⟨indexed_init n, elections_init n, entries_init n⟩
    (fun s a h => ⟨h.1.step (step_spec s a), h.2.1.step h.1 (step_spec s a),
      h.2.2.step h.1 h.2.1 (step_spec s a)⟩) acts
  exact h.2.2

/-- Index and term determine the command of an entry, wherever its copies are, so the merge loop
never finds two commands for one index and term. -/
theorem entry_determined (acts : List (Action n)) :
    (∀ e e', (runOf acts).Present e → (runOf acts).Present e' → e.logIndex = e'.logIndex →
      e.logTerm = e'.logTerm → e.command = e'.command) ∧
    ∀ p, (runOf acts).exited p ≠ some .appendCommand := by
  refine ⟨fun e e' he he' hidx hterm => ?_, fun p hp => ?_⟩
  · rw [(entries_runOf acts).unique e e' he he' hidx hterm]
  · obtain ⟨pre, a, hf⟩ := exited_fails hp
    rcases (indexed_runOf pre).fails_cases hf with
      ⟨hsite, -⟩ | ⟨-, r, hr, args, hsent, old, hold, e, he, hidx, hterm, hne⟩ | hsite
    · cases hsite
    · refine hne (congrArg LogEntry.command ((entries_runOf pre).unique old e (Or.inl ⟨p, hold⟩)
        (Or.inr ⟨r, hr, p, args, hsent, he⟩) hidx hterm))
    · simp at hsite

end Cluster
end RaftStorage
