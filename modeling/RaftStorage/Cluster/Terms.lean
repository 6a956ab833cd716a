import RaftStorage.Cluster.Restart
import RaftStorage.Raft.PeerSpecs

/-! Where terms come from. A message carries no later term than some node has, so a new term is
begun by an election and by nothing else, and a leader whose term no other node has passed leads on
until the next election. -/

namespace RaftStorage
open Library

namespace Raft

variable {n : ℕ} {rf rf' : Raft n}

theorem catchUp_currentTerm (rf : Raft n) (T : ℤ) :
    (rf.catchUp T).currentTerm = max rf.currentTerm T := by
  unfold catchUp
  split_ifs with hT
  · exact (max_eq_right hT.le).symm
  · exact (max_eq_left (not_lt.mp hT)).symm

theorem catchUp_of_le {T : ℤ} (hT : T ≤ rf.currentTerm) : rf.catchUp T = rf := by
  unfold catchUp
  rw [if_neg hT.not_gt]

theorem requestVote_term {args : RequestVoteArgs n} {reply : RequestVoteReply}
    (h : rf.requestVote args = .ok (rf', reply)) :
    rf'.currentTerm = max rf.currentTerm args.term ∧ reply.term = rf'.currentTerm := by
  unfold requestVote at h
  split_ifs at h with hlt
  · obtain ⟨rfl, rfl⟩ := Prod.mk.inj (Except.ok.inj h)
    exact ⟨(max_eq_left hlt.le).symm, rfl⟩
  · have hterm := catchUp_currentTerm rf args.term
    obtain ⟨_, -, h⟩ := bind_ok.mp h
    split_ifs at h <;>
    · obtain ⟨rfl, rfl⟩ := Prod.mk.inj (pure_ok.mp h)
      exact ⟨hterm, rfl⟩

theorem requestVote_status {args : RequestVoteArgs n} {reply : RequestVoteReply}
    (h : rf.requestVote args = .ok (rf', reply)) (hT : args.term ≤ rf.currentTerm) :
    rf'.status = rf.status := by
  unfold requestVote at h
  rw [catchUp_of_le hT] at h
  split_ifs at h with hlt
  · obtain ⟨rfl, -⟩ := Prod.mk.inj (Except.ok.inj h)
    rfl
  · obtain ⟨_, -, h⟩ := bind_ok.mp h
    split_ifs at h <;>
    · obtain ⟨rfl, -⟩ := Prod.mk.inj (pure_ok.mp h)
      rfl

theorem sendRequestVote_term {reply : RequestVoteReply} {votedNum votedNum' : ℤ} {won : Bool}
    (h : rf.sendRequestVote reply votedNum = .ok (rf', votedNum', won)) :
    rf'.currentTerm = max rf.currentTerm reply.term ∧
      (rf.status = .leader → reply.term ≤ rf.currentTerm → rf'.status = .leader) := by
  unfold sendRequestVote at h
  by_cases hgt : reply.term > rf.currentTerm
  · rw [if_pos hgt] at h
    obtain ⟨rfl, -⟩ := Prod.mk.inj (Except.ok.inj h)
    exact ⟨(max_eq_right hgt.le).symm, fun _ hle => absurd hgt hle.not_gt⟩
  have hterm : rf.currentTerm = max rf.currentTerm reply.term := (max_eq_left (not_lt.mp hgt)).symm
  rw [if_neg hgt] at h
  by_cases hlt : reply.term < rf.currentTerm
  · rw [if_pos hlt] at h
    obtain ⟨rfl, -⟩ := Prod.mk.inj (Except.ok.inj h)
    exact ⟨hterm, fun hl _ => hl⟩
  rw [if_neg hlt] at h
  obtain ⟨_, -, h⟩ := bind_ok.mp h
  split_ifs at h
  · obtain ⟨rfl, -⟩ := Prod.mk.inj (pure_ok.mp h)
    exact ⟨hterm, fun hl _ => hl⟩
  · dsimp only at h
    split_ifs at h
    · obtain ⟨_, -, h⟩ := bind_ok.mp h
      obtain ⟨rfl, -⟩ := Prod.mk.inj (pure_ok.mp h)
      exact ⟨hterm, fun _ _ => rfl⟩
    · obtain ⟨rfl, -⟩ := Prod.mk.inj (pure_ok.mp h)
      exact ⟨hterm, fun hl _ => hl⟩

theorem appendEntries1_term {args : AppendEntriesArgs n} {reply : AppendEntriesReply}
    (hc : rf.Contiguous) (hn : Numbered (args.prevLogIndex + 1) args.entries)
    (h : rf.appendEntries1 args = .ok (rf', reply)) :
    rf'.currentTerm = max rf.currentTerm args.term ∧ reply.term = rf'.currentTerm ∧
      (args.term < rf.currentTerm → rf' = rf) := by
  cases appendEntries1_cases hc hn h with
  | stale term same answer =>
    exact ⟨same ▸ (max_eq_left term.le).symm, by rw [answer, same], fun _ => same⟩
  | rejected term _ _ currentTerm _ success =>
    rcases appendEntries1_hint hc h success with ⟨hlt, -⟩ | ⟨hreply, -⟩
    · exact absurd hlt term
    · exact ⟨by rw [currentTerm, max_eq_right (not_lt.mp term)], hreply.trans currentTerm.symm,
        fun hlt => absurd hlt term⟩
  | merged term _ _ currentTerm _ _ replyTerm =>
    exact ⟨by rw [currentTerm, max_eq_right (not_lt.mp term)], replyTerm.trans currentTerm.symm,
      fun hlt => absurd hlt term⟩

theorem sendAppendEntries_term {server : Fin n} {args : AppendEntriesArgs n}
    {reply : AppendEntriesReply} {appendNums appendNums' : ℤ}
    (h : rf.sendAppendEntries server args reply appendNums = .ok (rf', appendNums')) :
    rf'.currentTerm ≤ max rf.currentTerm reply.term ∧
      (rf.status = .leader → reply.term ≤ rf.currentTerm → rf'.status = .leader) := by
  by_cases hhears : rf.Hears reply
  · have hsame : rf'.currentTerm = rf.currentTerm ∧ rf'.status = rf.status := by
      cases hs : reply.success with
      | false =>
        rw [sendAppendEntries_reject hhears hs] at h
        obtain ⟨rfl, -⟩ := Prod.mk.inj (Except.ok.inj h)
        unfold reject
        split_ifs <;> exact ⟨rfl, rfl⟩
      | true =>
        rw [sendAppendEntries_success hhears hs] at h
        obtain ⟨_, -, h⟩ := bind_ok.mp h
        split_ifs at h
        · obtain ⟨_, -, h⟩ := bind_ok.mp h
          obtain ⟨rfl, -⟩ := Prod.mk.inj (pure_ok.mp h)
          exact ⟨rfl, rfl⟩
        · obtain ⟨rfl, -⟩ := Prod.mk.inj (pure_ok.mp h)
          exact ⟨rfl, rfl⟩
    exact ⟨hsame.1 ▸ le_max_left _ _, fun hl _ => hsame.2.trans hl⟩
  · rcases sendAppendEntries_not_hears hhears server args appendNums with heq | ⟨hlt, heq⟩
    · obtain ⟨rfl, -⟩ := Prod.mk.inj (Except.ok.inj (heq.symm.trans h))
      exact ⟨le_max_left _ _, fun hl _ => hl⟩
    · obtain ⟨rfl, -⟩ := Prod.mk.inj (Except.ok.inj (heq.symm.trans h))
      exact ⟨le_max_right _ _, fun _ hle => absurd hlt hle.not_gt⟩

theorem installSnapshot_term {args : InstallSnapshotRequest n} {reply : InstallSnapshotResponse}
    {msg : Option ApplyMsg} (h : rf.installSnapshot args = .ok (rf', reply, msg)) :
    rf'.currentTerm = max rf.currentTerm args.term ∧
      (reply.term = rf'.currentTerm ∨ reply.term = 0) ∧
      (args.term < rf.currentTerm → rf' = rf) := by
  by_cases hT : args.term < rf.currentTerm
  · unfold installSnapshot at h
    rw [if_pos hT] at h
    obtain ⟨rfl, hout⟩ := Prod.mk.inj (Except.ok.inj h)
    exact ⟨(max_eq_left hT.le).symm, Or.inl (congrArg (·.1.term) hout).symm, fun _ => rfl⟩
  · have hterm : (rf.receive args.term).currentTerm = max rf.currentTerm args.term := by
      rw [receive_term hT, max_eq_right (not_lt.mp hT)]
    rw [installSnapshot_eq hT] at h
    unfold installNewer at h
    split_ifs at h
    · obtain ⟨rfl, hout⟩ := Prod.mk.inj (pure_ok.mp h)
      exact ⟨hterm, Or.inr (congrArg (·.1.term) hout).symm, fun hlt => absurd hlt hT⟩
    · obtain ⟨logs, -, h⟩ := bind_ok.mp h
      obtain ⟨rfl, hout⟩ := Prod.mk.inj (pure_ok.mp h)
      exact ⟨hterm, Or.inl (congrArg (·.1.term) hout).symm, fun hlt => absurd hlt hT⟩

theorem leaderSendSnapShotReply_term (rf : Raft n) (server : Fin n)
    (args : InstallSnapshotRequest n) (reply : InstallSnapshotResponse) :
    (rf.leaderSendSnapShotReply server args reply).currentTerm ≤ max rf.currentTerm reply.term ∧
      (rf.status = .leader → reply.term ≤ rf.currentTerm →
        (rf.leaderSendSnapShotReply server args reply).status = .leader) := by
  unfold leaderSendSnapShotReply
  split_ifs with hrole hterm
  · exact ⟨le_max_left _ _, fun hl _ => hl⟩
  · exact ⟨le_max_right _ _, fun _ hle => absurd hterm hle.not_gt⟩
  · exact ⟨le_max_left _ _, fun hl _ => hl⟩

theorem snapshot_term {index : ℤ} {str : String} (h : rf.snapshot index str = .ok rf') :
    rf'.currentTerm = rf.currentTerm ∧ rf'.status = rf.status := by
  rw [snapshot_frame h]
  exact ⟨rfl, rfl⟩

end Raft

namespace Cluster

variable {n : ℕ} {s s' : Cluster n} {a : Action n} {p q : Fin n} {T : ℤ}

/-! ## No message is ahead of every node -/

def Reached (s : Cluster n) (T : ℤ) : Prop := ∃ p, T ≤ (s.nodes p).currentTerm

/-- The terms in messages have been reached, and each term of a node was begun by a round. -/
structure Current (s : Cluster n) : Prop where
  node : ∀ p, (s.nodes p).currentTerm ≤ s.elections.length
  vote : ∀ r ∈ s.elections, s.Reached r.info.term
  voteReply : ∀ r ∈ s.elections, ∀ p reply, r.Answered p reply → s.Reached reply.term
  request : ∀ slot env, s.request slot = some env → s.Reached env.term
  appendReply : ∀ r ∈ s.heartBeats, ∀ p reply, r.Answered p reply → s.Reached reply.term
  installReply : ∀ th ∈ s.snapShots, ∀ reply ∈ th.replies, s.Reached reply.term

theorem current_init (n : ℕ) : (init n).Current where
  node := fun _ => le_rfl
  vote := by simp [init]
  voteReply := by simp [init]
  request := by
    intro slot env h
    cases slot <;> simp [Cluster.request, init] at h
  appendReply := by simp [init]
  installReply := by simp [init]

theorem Reached.mono (h : s.Reached T) (hI : s.Indexed) (hs : Step s a s') : s'.Reached T := by
  obtain ⟨p, hp⟩ := h
  exact ⟨p, hp.trans (hI.vote_move hs p).term_le⟩

theorem Reached.max (h : s.Reached T) (p : Fin n) :
    s.Reached (max (s.nodes p).currentTerm T) := by
  rcases max_choice (s.nodes p).currentTerm T with heq | heq
  · exact ⟨p, heq.le⟩
  · rw [heq]
    exact h

theorem Current.append (h : s.Current) {i : ℕ} {r : HeartBeat n}
    {c : Call (AppendEntriesArgs n) AppendEntriesReply} (round : s.heartBeats[i]? = some r)
    (call : r.calls p = some c) : s.Reached c.args.term :=
  h.request (.append i p) ⟨r.owner, p, c.args.term⟩ (by simp [Cluster.request, round, call])

theorem Current.install (h : s.Current) {t : ℕ} {th : SnapShotThread n}
    {args : InstallSnapshotRequest n} (thread : s.snapShots[t]? = some th)
    (request : th.request = some args) : s.Reached args.term :=
  h.request (.install t) ⟨th.owner, th.server, args.term⟩
    (by simp [Cluster.request, thread, request])

/-! ## What begins a term -/

/-- A step stands for election with a new term, or leaves every node in a term that was reached. -/
inductive Moves (s : Cluster n) (a : Action n) (s' : Cluster n) : Prop
  | stood {p : Fin n} (action : a = .doElection p) (status : (s.nodes p).status ≠ .leader)
      (owners : s'.elections.map Round.owner = s.elections.map Round.owner ++ [p])
      (term : (s'.nodes p).currentTerm = (s.nodes p).currentTerm + 1)
      (others : ∀ q, q ≠ p → s'.nodes q = s.nodes q)
  | kept (owners : s'.elections.map Round.owner = s.elections.map Round.owner)
      (terms : ∀ q, s.Reached (s'.nodes q).currentTerm)

theorem Current.moves (h : s.Current) (hI : s.Indexed) (a : Action n) : Moves s a (s.step a) := by
  have hset : ∀ {p : Fin n} {rf : Raft n} (T : ℤ), s.Reached T →
      rf.currentTerm ≤ max (s.nodes p).currentTerm T → ∀ q,
      s.Reached ((s.setNode p rf).nodes q).currentTerm := by
    intro p rf T hT hle q
    by_cases hq : q = p
    · subst hq
      obtain ⟨o, ho⟩ := hT.max q
      rw [setNode_nodes_self]
      exact ⟨o, hle.trans ho⟩
    · rw [setNode_nodes_of_ne hq]
      exact ⟨q, le_rfl⟩
  have hsame : ∀ {p : Fin n} {rf : Raft n}, rf.currentTerm = (s.nodes p).currentTerm → ∀ q,
      s.Reached ((s.setNode p rf).nodes q).currentTerm :=
    fun {p rf} heq => hset (s.nodes p).currentTerm ⟨p, le_rfl⟩ (heq.le.trans (le_max_left _ _))
  have hs := step_spec s a
  generalize hs' : s.step a = s' at hs
  cases hs with
  | @doElection p rf out eval =>
    rcases Raft.doElection_cases eval with ⟨rfl, rfl⟩ | ⟨-, -, -, hterm, -, rfl⟩
    · exact .kept rfl (hsame rfl)
    · refine .stood rfl (fun hl => ?_) ?_ ?_ fun q hq => setNode_nodes_of_ne hq
      · simp [Raft.doElection, hl] at eval
      · simp [recordElection, setNode, newElection]
      · change ((s.setNode p rf).nodes p).currentTerm = _
        rw [setNode_nodes_self]
        exact hterm
  | @requestVote e p r rf reply round call eval =>
    have hargs := h.vote r (List.mem_of_getElem? round)
    refine .kept ?_ (hset _ hargs (Raft.requestVote_term eval).1.le)
    show (s.elections.modify e (·.respond p reply)).map _ = _
    rw [map_modify (by intro; rfl)]
  | @sendRequestVote e p k r c reply rf num won round call taken answer eval =>
    have hreply := h.voteReply r (List.mem_of_getElem? round) p reply
      ⟨c, call, List.mem_of_getElem? answer⟩
    refine .kept ?_ (hset _ hreply (Raft.sendRequestVote_term eval).1.le)
    show (s.elections.modify e (·.take p reply num)).map _ = _
    rw [map_modify (by intro; rfl)]
  | @start p command rf out eval =>
    refine .kept rfl (hsame ?_)
    rcases Raft.start_cases eval with ⟨rfl, -⟩ | ⟨-, ht, hl, -⟩
    · rfl
    · exact (ht.leader hl).2
  | @doHeartBeat p out eval =>
    refine .kept (by cases out <;> rfl) fun q => ?_
    rw [recordHeartBeat_nodes]
    exact ⟨q, le_rfl⟩
  | appendEntries1 round call eval =>
    exact .kept rfl (hset _ (h.append round call) (Raft.appendEntries1_term (hI.node _).contiguous
      (hI.shaped round call).numbered eval).1.le)
  | @sendAppendEntries i p k r c reply rf num round call taken answer eval =>
    have hreply := h.appendReply r (List.mem_of_getElem? round) p reply
      ⟨c, call, List.mem_of_getElem? answer⟩
    exact .kept rfl (hset _ hreply (Raft.sendAppendEntries_term eval).1)
  | leaderSendSnapShot => exact .kept rfl (hsame rfl)
  | installSnapshot thread request eval =>
    exact .kept rfl (hset _ (h.install thread request) (Raft.installSnapshot_term eval).1.le)
  | @leaderSendSnapShotReply t k =>
    rw [← hs']
    rcases step_leaderSendSnapShotReply s t k with heq |
      ⟨th, args, reply, hth, -, -, hreply, -, heq⟩
    · rw [heq]
      exact .kept rfl fun q => ⟨q, le_rfl⟩
    · rw [heq]
      exact .kept rfl (hset _ (h.installReply th (List.mem_of_getElem? hth) reply
        (List.mem_of_getElem? hreply)) (Raft.leaderSendSnapShotReply_term _ _ _ _).1)
  | snapshot eval => exact .kept rfl (hsame (Raft.snapshot_term eval).1)
  | getApplyLogs eval =>
    obtain ⟨msgs, hok, -⟩ := Raft.getApplyLogs_ok (hI.node _).contiguous (hI.node _).snap_le
      (hI.node _).applied_le (hI.node _).commit_le
    obtain ⟨rfl, -⟩ := Prod.mk.inj (Except.ok.inj (hok.symm.trans eval))
    exact .kept rfl (hsame rfl)
  | _ => exact .kept rfl fun q => ⟨q, le_rfl⟩

theorem Current.node_step (h : s.Current) (hI : s.Indexed) (a : Action n) (p : Fin n) :
    ((s.step a).nodes p).currentTerm ≤ (s.step a).elections.length := by
  cases h.moves hI a with
  | @stood q _ _ owners term others =>
    have hlen := congrArg List.length owners
    simp only [List.length_map, List.length_append, List.length_singleton] at hlen
    by_cases hp : p = q
    · have hq := h.node q
      rw [hp, term, hlen]
      omega
    · have hold := h.node p
      rw [others p hp, hlen]
      omega
  | kept owners terms =>
    have hlen := congrArg List.length owners
    simp only [List.length_map] at hlen
    obtain ⟨q, hq⟩ := terms p
    rw [hlen]
    exact hq.trans (h.node q)

theorem Current.step (h : s.Current) (hB : s.Begun) (hI : s.Indexed) (a : Action n) :
    (s.step a).Current where
  node := h.node_step hI a
  vote := by
    intro r hr
    have hs := step_spec s a
    cases hs.election_origin r hr with
    | old mem => exact (h.vote r mem).mono hI hs
    | @stood p rf args _ eval node =>
      rcases Raft.doElection_cases eval with ⟨-, hnone⟩ | ⟨-, -, -, hterm, -, hargs⟩
      · cases hnone
      · obtain rfl := Option.some.inj hargs
        refine ⟨p, ?_⟩
        rw [node, hterm]
        exact le_rfl
    | answered mem => exact (h.vote _ mem).mono hI hs
    | taken mem => exact (h.vote _ mem).mono hI hs
  voteReply := by
    intro r hr p reply hans
    have hs := step_spec s a
    cases hs.election_origin r hr with
    | old mem => exact (h.voteReply r mem p reply hans).mono hI hs
    | stood =>
      obtain ⟨c, hc, hmem⟩ := hans
      simp only [newElection] at hc
      split_ifs at hc
      obtain rfl := Option.some.inj hc
      simp [Call.start] at hmem
    | @answered i q r rf reply' _ mem eval node =>
      rcases Round.answered_respond hans with hold | ⟨rfl, rfl⟩
      · exact (h.voteReply r mem p reply hold).mono hI hs
      · exact ⟨p, by rw [node, (Raft.requestVote_term eval).2]⟩
    | taken mem =>
      exact (h.voteReply _ mem p reply (Round.answered_take.mp hans)).mono hI hs
  request := by
    intro slot env henv
    have hs := step_spec s a
    rcases hs.request_built henv with hold | ⟨-, hbuilt⟩
    · exact (h.request slot env hold).mono hI hs
    · refine Reached.mono ?_ hI hs
      cases hbuilt with
      | heartBeat leader eval =>
        exact ⟨_, (Raft.heartBeatTo_append (hI.node _).contiguous eval).2.term.le⟩
      | snapShot => exact ⟨_, le_rfl⟩
  appendReply := by
    intro r hr p reply hans
    have hs := step_spec s a
    cases hs.heartBeat_origin r hr with
    | old mem => exact (h.appendReply r mem p reply hans).mono hI hs
    | sent => exact absurd hans not_answered_newHeartBeat
    | @answered i q r c rf reply' _ mem call eval node round =>
      rcases Round.answered_respond hans with hold | ⟨rfl, rfl⟩
      · exact (h.appendReply r mem p reply hold).mono hI hs
      · have hterm := Raft.appendEntries1_term (hI.node _).contiguous
          (hI.shaped round call).numbered eval
        exact ⟨p, by rw [node, hterm.2.1]⟩
    | taken mem =>
      exact (h.appendReply _ mem p reply (Round.answered_take.mp hans)).mono hI hs
  installReply := by
    have hs := step_spec s a
    have hold : ∀ th ∈ s.snapShots, ∀ reply ∈ th.replies, (s.step a).Reached reply.term :=
      fun th hth reply hreply => (h.installReply th hth reply hreply).mono hI hs
    have hmono : ∀ {T}, s.Reached T → (s.step a).Reached T := fun hT => hT.mono hI hs
    generalize s.step a = s' at hs hold hmono
    cases hs with
    | @doElection p rf out eval => cases out <;> exact hold
    | @doHeartBeat p out eval =>
      cases out with
      | none => exact hold
      | some sends =>
        intro th hth reply hreply
        rcases List.mem_append.mp hth with hth | hth
        · exact hold th hth reply hreply
        · obtain ⟨i, -, hi⟩ := List.mem_filterMap.mp hth
          split at hi
          · obtain rfl := Option.some.inj hi
            cases hreply
          · cases hi
    | leaderSendSnapShot =>
      exact forall_mem_modify hold fun th hth => hold th (List.mem_of_getElem? hth)
    | @installSnapshot t th args rf reply' msg thread request eval =>
      refine forall_mem_modify hold fun th' hth' reply hreply => ?_
      rcases List.mem_append.mp hreply with hreply | hreply
      · exact hold th' (List.mem_of_getElem? hth') reply hreply
      · obtain rfl := List.mem_singleton.mp hreply
        refine ⟨th.server, ?_⟩
        change reply.term ≤ ((s.setNode th.server rf).nodes th.server).currentTerm
        have hterm := Raft.installSnapshot_term eval
        have hnonneg := hB.term_nonneg th.server
        have hle : (s.nodes th.server).currentTerm ≤ rf.currentTerm := by
          rw [hterm.1]
          exact le_max_left _ _
        rw [setNode_nodes_self]
        rcases hterm.2.1 with heq | heq
        · exact heq.le
        · rw [heq]
          exact hnonneg.trans hle
    | leaderSendSnapShotReply =>
      exact forall_mem_modify hold fun th hth => hold th (List.mem_of_getElem? hth)
    | _ => exact hold

theorem current_runOf (acts : List (Action n)) : (runOf acts).Current :=
  (run_invariant (P := fun s : Cluster n => (s.Indexed ∧ s.Begun) ∧ s.Current)
    ⟨⟨indexed_init n, begun_init n⟩, current_init n⟩
    (fun s a h => ⟨⟨h.1.1.step (step_spec s a), h.1.2.step h.1.1 (step_spec s a)⟩,
      h.2.step h.1.2 h.1.1 a⟩) acts).2

/-! ## A leader in the latest term -/

theorem Reached.le (h : s.Reached T)
    (htop : ∀ q, (s.nodes q).currentTerm ≤ (s.nodes p).currentTerm) :
    T ≤ (s.nodes p).currentTerm := by
  obtain ⟨q, hq⟩ := h
  exact hq.trans (htop q)

theorem Current.keeps_status (h : s.Current) (hI : s.Indexed) (hE : s.Elections) (hS : s.Spoken)
    (hl : (s.nodes p).status = .leader)
    (htop : ∀ q, (s.nodes q).currentTerm ≤ (s.nodes p).currentTerm) (a : Action n) :
    ((s.step a).nodes p).status = .leader := by
  have hset : ∀ {o : Fin n} {rf : Raft n}, (o = p → rf.status = .leader) →
      ((s.setNode o rf).nodes p).status = .leader := by
    intro o rf hrf
    by_cases ho : p = o
    · subst ho
      rw [setNode_nodes_self]
      exact hrf rfl
    · rw [setNode_nodes_of_ne ho]
      exact hl
  have hrespects := hS.respects hE (a := a)
  have hs := step_spec s a
  generalize hs' : s.step a = s' at hs
  cases hs with
  | @doElection o rf out eval =>
    rw [recordElection_nodes]
    refine hset ?_
    rintro rfl
    rw [Raft.doElection, if_pos hl] at eval
    obtain rfl := (Prod.mk.inj eval).1
    exact hl
  | requestVote round call eval =>
    refine hset ?_
    rintro rfl
    exact (Raft.requestVote_status eval
      ((h.vote _ (List.mem_of_getElem? round)).le htop)).trans hl
  | @sendRequestVote e q k r c reply rf num won round call taken answer eval =>
    refine hset ?_
    rintro rfl
    exact (Raft.sendRequestVote_term eval).2 hl ((h.voteReply r (List.mem_of_getElem? round) q reply
      ⟨c, call, List.mem_of_getElem? answer⟩).le htop)
  | start eval =>
    refine hset ?_
    rintro rfl
    rcases Raft.start_cases eval with ⟨rfl, -⟩ | ⟨-, -, hl', -⟩
    · exact hl
    · exact hl'
  | doHeartBeat =>
    rw [recordHeartBeat_nodes]
    exact hl
  | @appendEntries1 i o r c rf reply round call eval =>
    by_cases ho : o = p
    · subst ho
      have hterm := Raft.appendEntries1_term (hI.node _).contiguous (hI.shaped round call).numbered
        eval
      rcases ((h.append round call).le htop).lt_or_eq with hlt | heq
      · exact hset fun _ => (congrArg Raft.status (hterm.2.2 hlt)).trans hl
      · rw [← hs']
        exact hrespects (.append i o) rfl ⟨r.owner, o, c.args.term⟩
          (by simp [Cluster.request, round, call]) hl heq.symm
    · exact hset fun heq => absurd heq ho
  | @sendAppendEntries i q k r c reply rf num round call taken answer eval =>
    refine hset ?_
    rintro rfl
    exact (Raft.sendAppendEntries_term eval).2 hl ((h.appendReply r (List.mem_of_getElem? round) q
      reply ⟨c, call, List.mem_of_getElem? answer⟩).le htop)
  | leaderSendSnapShot =>
    refine hset ?_
    rintro rfl
    exact hl
  | @installSnapshot t th args rf reply msg thread request eval =>
    by_cases ho : th.server = p
    · subst ho
      have hterm := Raft.installSnapshot_term eval
      rcases ((h.install thread request).le htop).lt_or_eq with hlt | heq
      · exact hset fun _ => (congrArg Raft.status (hterm.2.2 hlt)).trans hl
      · rw [← hs']
        exact hrespects (.install t) rfl ⟨th.owner, th.server, args.term⟩
          (by simp [Cluster.request, thread, request]) hl heq.symm
    · exact hset fun heq => absurd heq ho
  | @leaderSendSnapShotReply t k =>
    rw [← hs']
    rcases step_leaderSendSnapShotReply s t k with heq |
      ⟨th, args, reply, hth, -, -, hreply, -, heq⟩
    · rw [heq]
      exact hl
    · rw [heq]
      refine hset ?_
      rintro rfl
      exact (Raft.leaderSendSnapShotReply_term _ _ _ _).2 hl
        ((h.installReply th (List.mem_of_getElem? hth) reply (List.mem_of_getElem? hreply)).le htop)
  | snapshot eval =>
    refine hset ?_
    rintro rfl
    exact (Raft.snapshot_term eval).2.trans hl
  | getApplyLogs eval =>
    obtain ⟨msgs, hok, -⟩ := Raft.getApplyLogs_ok (hI.node _).contiguous (hI.node _).snap_le
      (hI.node _).applied_le (hI.node _).commit_le
    obtain ⟨rfl, -⟩ := Prod.mk.inj (Except.ok.inj (hok.symm.trans eval))
    refine hset ?_
    rintro rfl
    exact hl
  | _ => exact hl

theorem Spoken.prompt_step (h : s.Spoken) (hI : s.Indexed) (hE : s.Elections) (ha : s.Prompt a) :
    (s.step a).Spoken := h.step hI (ha.authorised hI hE)

def Rules (s : Cluster n) (p : Fin n) (T : ℤ) : Prop :=
  (s.nodes p).status = .leader ∧ (s.nodes p).currentTerm = T ∧ ∀ q, (s.nodes q).currentTerm ≤ T

theorem Current.rules (h : s.Current) (hI : s.Indexed) (hE : s.Elections) (hS : s.Spoken)
    (hR : s.Rules p T) (ha : ∀ q, a = .doElection q → q = p) :
    (s.step a).Rules p T ∧
      (s.step a).elections.map Round.owner = s.elections.map Round.owner := by
  obtain ⟨hl, rfl, htop⟩ := hR
  cases h.moves hI a with
  | stood action status =>
    rw [ha _ action] at status
    exact absurd hl status
  | kept owners terms =>
    have hle : ∀ q, ((s.step a).nodes q).currentTerm ≤ (s.nodes p).currentTerm :=
      fun q => (terms q).le htop
    refine ⟨⟨h.keeps_status hI hE hS hl htop a, ?_, hle⟩, owners⟩
    exact le_antisymm (hle p) (hI.vote_move (step_spec s a) p).term_le

end Cluster
end RaftStorage
