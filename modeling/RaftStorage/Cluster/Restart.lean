import RaftStorage.Cluster.Authority
import RaftStorage.Raft.PersisterFiles

/-! What a new process finds of the node before it. A node that has saved anything has left term 0,
and a new process begins in term 0, since constructing its `Persister` empties the files. -/

namespace RaftStorage
open Library

namespace Raft

variable {n : ℕ} {rf' : Raft n}

theorem requestVote_term_le {rf : Raft n} {args : RequestVoteArgs n} {reply : RequestVoteReply}
    (h : rf.requestVote args = .ok (rf', reply)) : args.term ≤ rf'.currentTerm := by
  unfold requestVote at h
  split_ifs at h with hlt
  · obtain ⟨rfl, -⟩ := Prod.mk.inj (Except.ok.inj h)
    exact hlt.le
  · have hterm : args.term ≤ (rf.catchUp args.term).currentTerm := (catchUp_term hlt).ge
    obtain ⟨_, -, h⟩ := bind_ok.mp h
    split_ifs at h <;>
    · obtain ⟨rfl, -⟩ := Prod.mk.inj (pure_ok.mp h)
      exact hterm

theorem snapshot_init {me : Fin n} {index : ℤ} {str : String}
    (h : (init me).snapshot index str = .ok rf') : rf' = init me := by
  have hguard : (init me).lastSnapshotIncludeIndex ≥ index ∨ index > (init me).commitIndex :=
    le_or_gt index 0
  rcases snapshot_cases h with ⟨-, hsame⟩ | ⟨hcut, -⟩
  · exact hsame
  · exact absurd hguard hcut

theorem getApplyLogs_init {me : Fin n} {msgs : List ApplyMsg}
    (h : (init me).getApplyLogs = .ok (rf', msgs)) : rf' = init me := by
  obtain ⟨_, -, h⟩ := bind_ok.mp h
  exact (congrArg Prod.fst (Except.ok.inj h)).symm

end Raft

namespace Cluster

variable {n : ℕ} {s s' : Cluster n} {a : Action n}

/-- A node is in its first state or has left term 0, as has every node that sent something. -/
structure Begun (s : Cluster n) : Prop where
  node : ∀ p, 1 ≤ (s.nodes p).currentTerm ∨ s.nodes p = Raft.init p
  election : ∀ r ∈ s.elections, 1 ≤ r.info.term ∧ 1 ≤ (s.nodes r.owner).currentTerm
  heartBeat : ∀ r ∈ s.heartBeats, 1 ≤ (s.nodes r.owner).currentTerm
  thread : ∀ th ∈ s.snapShots, 1 ≤ (s.nodes th.owner).currentTerm
  request : ∀ slot env, s.request slot = some env → 1 ≤ env.term

theorem begun_init (n : ℕ) : (init n).Begun where
  node := fun p => Or.inr rfl
  election := by simp [init]
  heartBeat := by simp [init]
  thread := by simp [init]
  request := by
    intro slot env h
    cases slot <;> simp [Cluster.request, init] at h

theorem Begun.leader (h : s.Begun) {p : Fin n} (hl : (s.nodes p).status = .leader) :
    1 ≤ (s.nodes p).currentTerm := by
  rcases h.node p with hT | hinit
  · exact hT
  · rw [hinit] at hl
    cases hl

theorem Begun.term_nonneg (h : s.Begun) (p : Fin n) : 0 ≤ (s.nodes p).currentTerm := by
  rcases h.node p with hT | hinit
  · omega
  · rw [hinit]
    exact le_rfl

theorem Begun.moves (h : s.Begun) (hI : s.Indexed) (hs : Step s a s') (q : Fin n) :
    s'.nodes q = s.nodes q ∨ 1 ≤ (s'.nodes q).currentTerm := by
  by_cases hq : 1 ≤ (s.nodes q).currentTerm
  · exact Or.inr (hq.trans (hI.vote_move hs q).term_le)
  have hinit : s.nodes q = Raft.init q := (h.node q).resolve_left hq
  -- the owner of a round or a thread has left term 0
  have howner : ∀ {p : Fin n} {rf : Raft n}, 1 ≤ (s.nodes p).currentTerm →
      (s.setNode p rf).nodes q = s.nodes q := by
    rintro p rf hp
    refine setNode_nodes_of_ne ?_
    rintro rfl
    exact hq hp
  have hset : ∀ {p : Fin n} {rf : Raft n},
      (p = q → rf = s.nodes q ∨ 1 ≤ rf.currentTerm) →
      (s.setNode p rf).nodes q = s.nodes q ∨ 1 ≤ ((s.setNode p rf).nodes q).currentTerm := by
    intro p rf hrf
    by_cases hp : q = p
    · subst hp
      rw [setNode_nodes_self]
      exact hrf rfl
    · exact Or.inl (setNode_nodes_of_ne hp)
  cases hs with
  | @doElection p rf out eval =>
    rw [recordElection_nodes]
    refine hset ?_
    rintro rfl
    rcases Raft.doElection_cases eval with ⟨rfl, -⟩ | ⟨-, -, -, hterm, -⟩
    · exact Or.inl rfl
    · have hnonneg := h.term_nonneg p
      exact Or.inr (by omega)
  | requestVote round call eval =>
    refine hset fun _ => Or.inr ?_
    exact (h.election _ (List.mem_of_getElem? round)).1.trans (Raft.requestVote_term_le eval)
  | sendRequestVote round => exact Or.inl (howner (h.election _ (List.mem_of_getElem? round)).2)
  | start eval =>
    refine hset ?_
    rintro rfl
    rcases Raft.start_cases eval with ⟨rfl, -⟩ | ⟨hl, -⟩
    · exact Or.inl rfl
    · exact absurd (h.leader hl) hq
  | doHeartBeat => exact Or.inl (by rw [recordHeartBeat_nodes])
  | @appendEntries1 i p r c rf reply round call eval =>
    refine hset ?_
    rintro rfl
    have hterm : 1 ≤ c.args.term :=
      h.request (.append i p) ⟨r.owner, p, c.args.term⟩ (by simp [Cluster.request, round, call])
    have hcases := Raft.appendEntries1_cases (hI.node p).contiguous (hI.shaped round call).numbered
      eval
    cases hcases with
    | stale _ same => exact Or.inl same
    | rejected _ _ _ currentTerm => exact Or.inr (currentTerm ▸ hterm)
    | merged _ _ _ currentTerm => exact Or.inr (currentTerm ▸ hterm)
  | sendAppendEntries round => exact Or.inl (howner (h.heartBeat _ (List.mem_of_getElem? round)))
  | leaderSendSnapShot thread => exact Or.inl (howner (h.thread _ (List.mem_of_getElem? thread)))
  | @installSnapshot t th args rf reply msg thread request eval =>
    refine hset ?_
    rintro rfl
    have hterm : 1 ≤ args.term :=
      h.request (.install t) ⟨th.owner, th.server, args.term⟩
        (by simp [Cluster.request, thread, request])
    cases Raft.installSnapshot_cases (hI.node _).contiguous eval with
    | stale _ same => exact Or.inl same
    | old _ _ _ currentTerm => exact Or.inr (currentTerm ▸ hterm)
    | installed _ _ _ currentTerm => exact Or.inr (currentTerm ▸ hterm)
  | leaderSendSnapShotReply thread =>
    exact Or.inl (howner (h.thread _ (List.mem_of_getElem? thread)))
  | snapshot eval =>
    refine hset ?_
    rintro rfl
    rw [hinit] at eval ⊢
    exact Or.inl (Raft.snapshot_init eval)
  | getApplyLogs eval =>
    refine hset ?_
    rintro rfl
    rw [hinit] at eval ⊢
    exact Or.inl (Raft.getApplyLogs_init eval)
  | _ => exact Or.inl rfl

theorem Begun.step (h : s.Begun) (hI : s.Indexed) (hs : Step s a s') : s'.Begun where
  node := by
    intro p
    rcases h.moves hI hs p with heq | hT
    · rw [heq]
      exact h.node p
    · exact Or.inl hT
  election := by
    intro r hr
    have hmono := fun p => (hI.vote_move hs p).term_le
    cases hs.election_origin r hr with
    | old mem => exact (h.election r mem).imp_right fun hT => hT.trans (hmono _)
    | @stood p rf args _ eval node =>
      rcases Raft.doElection_cases eval with ⟨-, hnone⟩ | ⟨-, -, -, hterm, -, hargs⟩
      · cases hnone
      · have hnonneg := h.term_nonneg p
        obtain rfl := Option.some.inj hargs
        refine ⟨by dsimp only [newElection]; omega, ?_⟩
        change 1 ≤ (s'.nodes p).currentTerm
        rw [node, hterm]
        omega
    | answered mem => exact (h.election _ mem).imp_right fun hT => hT.trans (hmono _)
    | taken mem => exact (h.election _ mem).imp_right fun hT => hT.trans (hmono _)
  heartBeat := by
    intro r hr
    refine le_trans ?_ (hI.vote_move hs r.owner).term_le
    cases hs.heartBeat_origin r hr with
    | old mem => exact h.heartBeat r mem
    | sent leader => exact h.leader leader
    | answered mem =>
      rw [Round.respond_owner]
      exact h.heartBeat _ mem
    | taken mem =>
      rw [Round.take_owner]
      exact h.heartBeat _ mem
  thread := by
    intro th hth
    refine le_trans ?_ (hI.vote_move hs th.owner).term_le
    rcases hs.thread_origin hI th hth with ⟨th₀, hth₀, howner, -⟩ | ⟨-, hl⟩
    · exact howner ▸ h.thread th₀ hth₀
    · exact h.leader hl
  request := by
    intro slot env henv
    rcases hs.request_built henv with hold | ⟨-, hbuilt⟩
    · exact h.request slot env hold
    · cases hbuilt with
      | heartBeat leader eval =>
        have hterm := (Raft.heartBeatTo_append (hI.node _).contiguous eval).2.term
        exact hterm ▸ h.leader leader
      | snapShot thread => exact h.thread _ (List.mem_of_getElem? thread)

theorem begun_runOf (acts : List (Action n)) : (runOf acts).Begun :=
  (run_invariant (P := fun s : Cluster n => s.Indexed ∧ s.Begun) ⟨indexed_init n, begun_init n⟩
    (fun s a h => ⟨h.1.step (step_spec s a), h.2.step h.1 (step_spec s a)⟩) acts).2

/-! ## Restart -/

/-- The new process has the persistent fields of the node before it and the snapshot on record. -/
def Recovers (ar : Persister.NodeArchive n) (rf : Raft n) (disk : Persister.Disk) : Prop :=
  (Raft.restart ar rf.me disk).1.persistData = rf.persistData ∧
    (Raft.restart ar rf.me disk).2 = rf.persister.snapshotFile

/-- No new process recovers what a node of the cluster has just saved, whatever files it finds. -/
theorem restart_loses_saved (acts : List (Action n)) (p : Fin n)
    (hsaved : ((runOf acts).nodes p).persister.raftState = some ((runOf acts).nodes p).persistData)
    (ar : Persister.NodeArchive n) (disk : Persister.Disk) :
    ¬Recovers ar ((runOf acts).nodes p) disk := by
  rintro ⟨hdata, -⟩
  rw [Raft.restart_eq] at hdata
  have hterm : (0 : ℤ) = ((runOf acts).nodes p).currentTerm :=
    congrArg BoostPersistRaftNode.currentTerm hdata
  rcases (begun_runOf acts).node p with hT | hinit
  · omega
  · -- a node in its first state has saved nothing
    rw [hinit] at hsaved
    cases hsaved

/-- The text that node 0 saves when it stands for the first time. -/
def firstArchive : Persister.NodeArchive 3 where
  save := fun _ => "22 serialization::archive 17 0 0 1 0 0 0 0 0"
  load := fun _ => ⟨1, some leading, 0, 0, []⟩

theorem restart_loses_first_term :
    ((runOf [.doElection leading]).nodes leading).persister.raftState =
        some ⟨1, some leading, 0, 0, []⟩ ∧
      ¬Recovers firstArchive ((runOf [.doElection leading]).nodes leading)
        ⟨"22 serialization::archive 17 0 0 1 0 0 0 0 0".toList, []⟩ :=
  ⟨rfl, restart_loses_saved [.doElection leading] leading rfl firstArchive _⟩

theorem first_term_forgotten :
    ¬∀ (n : ℕ) (acts : List (Action n)) (p : Fin n) (ar : Persister.NodeArchive n)
      (data : BoostPersistRaftNode n), ((runOf acts).nodes p).persistData = data →
      ((runOf acts).nodes p).persister.raftState = some data → ar.load (ar.save data) = data →
      Recovers ar ((runOf acts).nodes p)
        ⟨(ar.save data).toList, ((runOf acts).nodes p).persister.snapshotFile.toList⟩ := by
  intro h
  have hdata := (h 3 [.doElection leading] leading firstArchive ⟨1, some leading, 0, 0, []⟩ rfl rfl
    rfl).1
  rw [Raft.restart_eq] at hdata
  exact absurd hdata (by decide)

end Cluster
end RaftStorage
