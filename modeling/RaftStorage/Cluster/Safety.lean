import RaftStorage.Cluster.Coupling

/-! Log matching and state machine safety, on the runs in which no handler leaves entries behind
that do not continue what it has just written. Two handlers can: `AppendEntries1` overwrites
conflicting entries one by one and keeps whatever lies above the request, and `InstallSnapshot`
keeps the entries above the snapshot without a look at the entry they follow. -/

namespace RaftStorage
open Library
namespace Raft

variable {n : ℕ} {rf rf' : Raft n}

/-- The request overwrites an entry of another term and ends below the end of the log. -/
def Strands (rf : Raft n) (args : AppendEntriesArgs n) : Prop :=
  ¬args.term < rf.currentTerm ∧ rf.matchLog args.prevLogIndex args.prevLogTerm = .ok true ∧
    args.prevLogIndex + args.entries.length < rf.getLastLogIndex ∧
    ∃ old ∈ rf.logs, ∃ e ∈ args.entries, old.logIndex = e.logIndex ∧ old.logTerm ≠ e.logTerm

/-- The snapshot ends inside the log, at an entry that is not the snapshot's last one. -/
def Misfits (rf : Raft n) (args : InstallSnapshotRequest n) : Prop :=
  ¬args.term < rf.currentTerm ∧ rf.lastSnapshotIncludeIndex < args.lastSnapshotIncludeIndex ∧
    args.lastSnapshotIncludeIndex < rf.getLastLogIndex ∧
    ¬∃ e ∈ rf.logs, e.logIndex = args.lastSnapshotIncludeIndex ∧
      e.logTerm = args.lastSnapshotIncludeTerm

instance (rf : Raft n) (args : AppendEntriesArgs n) : Decidable (rf.Strands args) :=
  inferInstanceAs (Decidable (_ ∧ _ ∧ _ ∧ _))

instance (rf : Raft n) (args : InstallSnapshotRequest n) : Decidable (rf.Misfits args) :=
  inferInstanceAs (Decidable (_ ∧ _ ∧ _ ∧ _))

end Raft

namespace Cluster

variable {n : ℕ} {s s' : Cluster n} {a : Action n} {H H' : Ghost n} {p : Fin n} {rf : Raft n}

/-- The step strands no entry. -/
def Clean (s : Cluster n) (a : Action n) : Prop :=
  match a with
  | .appendEntries1 h p =>
    ∀ args ∈ ((s.heartBeats[h]?).bind (·.calls p)).map Call.args, ¬(s.nodes p).Strands args
  | .installSnapshot t =>
    ∀ th ∈ s.snapShots[t]?, ∀ args ∈ th.request, ¬(s.nodes th.server).Misfits args
  | _ => True

instance Clean.decidable (s : Cluster n) : ∀ a, Decidable (Clean s a)
  | .appendEntries1 h p =>
    inferInstanceAs (Decidable (∀ args ∈ ((s.heartBeats[h]?).bind (·.calls p)).map Call.args,
      ¬(s.nodes p).Strands args))
  | .installSnapshot t =>
    inferInstanceAs (Decidable (∀ th ∈ s.snapShots[t]?, ∀ args ∈ th.request,
      ¬(s.nodes th.server).Misfits args))
  | .doElection _ | .requestVote _ _ | .sendRequestVote _ _ _ | .start _ _ | .doHeartBeat _
  | .sendAppendEntries _ _ _ | .leaderSendSnapShot _ | .leaderSendSnapShotReply _ _
  | .snapshot _ _ _ | .getApplyLogs _ | .applierPush _ | .pushMsgToKvServer _ _ =>
    inferInstanceAs (Decidable True)

theorem Clean.append {h : ℕ} {r : HeartBeat n} {c : Call (AppendEntriesArgs n) AppendEntriesReply}
    (hclean : Clean s (.appendEntries1 h p)) (hr : s.heartBeats[h]? = some r)
    (hc : r.calls p = some c) : ¬(s.nodes p).Strands c.args := by
  refine hclean c.args ?_
  rw [hr, Option.bind_some, hc]
  rfl

theorem Clean.install {t : ℕ} {th : SnapShotThread n} {args : InstallSnapshotRequest n}
    (hclean : Clean s (.installSnapshot t)) (hth : s.snapShots[t]? = some th)
    (hreq : th.request = some args) : ¬(s.nodes th.server).Misfits args :=
  hclean th hth args hreq

/-! ## Terms and votes -/

theorem NodeOk.term_le (h : NodeOk H p (s.nodes p)) (ht : Raft.TermStep (s.nodes p) rf) :
    H.term p ≤ rf.currentTerm := by
  rw [h.term]
  exact ht.term_le

theorem NodeOk.bump (h : NodeOk H p (s.nodes p)) (hlog : Raft.SameLog (s.nodes p) rf)
    (ht : Raft.TermStep (s.nodes p) rf) : NodeOk (H.bump p rf.currentTerm) p rf where
  term := by simp [History.bump]
  window := h.window.same hlog
  commit := by
    have hg : Grows H (H.bump p rf.currentTerm) := History.grows_bump (h.term_le ht)
    rw [hlog.commit]
    exact h.commit.grows hg ht.term_le
  leader := by
    intro hl
    obtain ⟨hl', hterm⟩ := ht.leader hl
    rw [hterm]
    exact h.leader hl'

theorem Coupled.term_step (h : Coupled s H) (hI : s.Indexed) (hs : Step s a s')
    (hnodes : s'.nodes = (s.setNode p rf).nodes) (hlog : Raft.SameLog (s.nodes p) rf)
    (ht : Raft.TermStep (s.nodes p) rf) (hel : s'.elected = s.elected) (hvotes : SameVotes s s')
    (hack : ∀ i q r c rf reply, a = .appendEntries1 i q → s.heartBeats[i]? = some r →
      r.calls q = some c → (s.nodes q).appendEntries1 c.args = .ok (rf, reply) →
      reply.success = false) : ∃ H', Grows H H' ∧ Coupled s' H' := by
  have hle := (h.node p).term_le ht
  have hg : Grows H (H.bump p rf.currentTerm) := History.grows_bump hle
  refine ⟨_, hg, h.of_node hI hs hnodes (h.safe.bump_le hle) hg ((h.node p).bump hlog ht) ?_
    (h.votes.frame hI hs rfl rfl hvotes) (h.leaders.frame hg rfl hel) ?_⟩
  · intro q hq
    exact ⟨by simp [History.bump, hq], rfl, fun _ => rfl⟩
  · intro i q r c rf' reply ha hr hc he hsucc
    rw [hack i q r c rf' reply ha hr hc he] at hsucc
    cases hsucc

theorem Coupled.node_step (h : Coupled s H) (hI : s.Indexed) (hs : Step s a s')
    (hnodes : s'.nodes = (s.setNode p rf).nodes) (hnode : NodeOk H p rf)
    (hel : s'.elected = s.elected) (hvotes : SameVotes s s')
    (ha : ∀ i q, a ≠ .appendEntries1 i q) : ∃ H', Grows H H' ∧ Coupled s' H' := by
  have hg := Grows.refl H
  refine ⟨H, hg, h.of_node hI hs hnodes h.safe hg hnode (fun q hq => ⟨rfl, rfl, fun _ => rfl⟩)
    (h.votes.frame hI hs rfl rfl hvotes) (h.leaders.frame hg rfl hel) ?_⟩
  intro i q r c rf' reply heq
  exact absurd heq (ha i q)

theorem Coupled.idle_step (h : Coupled s H) (hI : s.Indexed) (hs : Step s a s')
    (hnodes : s'.nodes = s.nodes) (hel : s'.elected = s.elected)
    (helections : s'.elections = s.elections) (ha : ∀ i q, a ≠ .appendEntries1 i q) (p : Fin n) :
    ∃ H', Grows H H' ∧ Coupled s' H' :=
  h.node_step hI hs (hnodes.trans (by rw [setNode_self])) (h.node p) hel (.of_eq helections) ha

theorem Coupled.doElection (h : Coupled s H) (hI : s.Indexed) (hE : s.Elections)
    {out : Option (RequestVoteArgs n)} (eval : (s.nodes p).doElection = (rf, out))
    (hs : Step s (.doElection p) (recordElection p (s.setNode p rf) out)) :
    ∃ H', Grows H H' ∧ Coupled (recordElection p (s.setNode p rf) out) H' := by
  have hnode := h.node p
  rcases Raft.doElection_cases eval with ⟨rfl, rfl⟩ | ⟨hlog, -, hst, hterm, -, rfl⟩
  · exact h.node_step hI hs (recordElection_nodes _) hnode rfl (.of_eq rfl) (by simp)
  have hlt : H.term p < (s.nodes p).currentTerm + 1 := by rw [hnode.term]; omega
  -- nobody has voted for `p` in a term that `p` has not reached
  have hno : ∀ q, ¬H.vote q ((s.nodes p).currentTerm + 1) p := by
    intro q hv
    have := h.votes.candidate q _ p hv
    omega
  have hg : Grows H (H.stand p ((s.nodes p).currentTerm + 1)) := History.grows_stand hlt.le
  refine ⟨_, hg, h.of_node hI hs (recordElection_nodes _) (h.safe.stand hlt hno) hg ?_ ?_ ?_
    (h.leaders.frame hg rfl rfl) (by simp)⟩
  · exact
      { term := by simp [History.stand, hterm]
        window := hnode.window.same hlog
        commit := by
          rw [hlog.commit]
          exact hnode.commit.grows hg (by omega)
        leader := fun hl => by
          rw [hst] at hl
          cases hl }
  · exact fun q hq => ⟨by simp [History.stand, hq], rfl, fun _ => rfl⟩
  · have hmono := fun q => (hI.vote_move hs q).term_le
    have hself : ((recordElection p (s.setNode p rf) (some
        ⟨(s.nodes p).currentTerm + 1, (s.nodes p).me, (s.nodes p).getLastLogIndex,
          (s.nodes p).getLastLogTerm⟩)).nodes p).currentTerm = (s.nodes p).currentTerm + 1 := by
      simp [hterm]
    refine
      { vote := ?_
        candidate := ?_
        offer := ?_
        positive := ?_
        nonneg := fun q => (h.votes.nonneg q).trans (hmono q) }
    · intro r hr q hgr
      rcases List.mem_append.mp hr with hr | hr
      · exact Or.inl (h.votes.vote r hr q hgr)
      · obtain rfl := List.mem_singleton.mp hr
        rcases hgr with rfl | ⟨reply, ⟨c, hc, hmem⟩, -⟩
        · exact Or.inr ⟨rfl, rfl, rfl⟩
        · simp only [newElection] at hc
          split_ifs at hc
          obtain rfl := Option.some.inj hc
          simp [Call.start] at hmem
    · rintro q T c (hv | ⟨rfl, rfl, rfl⟩)
      · exact (h.votes.candidate q T c hv).trans (hmono c)
      · exact hself.ge
    · intro r hr
      rcases List.mem_append.mp hr with hr | hr
      · have hold : ¬(r.owner = p ∧ r.info.term = (s.nodes p).currentTerm + 1) := by
          rintro ⟨rfl, hT⟩
          have := (hE.vote r hr r.owner (Or.inl rfl)).1
          omega
        simp only [History.stand, if_neg hold]
        exact h.votes.offer r hr
      · obtain rfl := List.mem_singleton.mp hr
        simp only [History.stand, newElection, and_self, if_true]
        exact hnode.window.endsAt
    · intro r hr
      rcases List.mem_append.mp hr with hr | hr
      · exact h.votes.positive r hr
      · obtain rfl := List.mem_singleton.mp hr
        have := h.votes.nonneg p
        simp only [newElection]
        omega

theorem Coupled.requestVote (h : Coupled s H) (hI : s.Indexed) (hE : s.Elections) {i : ℕ}
    {r : Election n} {reply : RequestVoteReply} (round : s.elections[i]? = some r)
    (call : (r.calls p).isSome) (eval : (s.nodes p).requestVote r.info = .ok (rf, reply))
    (hs : Step s (.requestVote i p) (recordVote i p (s.setNode p rf) reply)) :
    ∃ H', Grows H H' ∧ Coupled (recordVote i p (s.setNode p rf) reply) H' := by
  have hr := List.mem_of_getElem? round
  have hnode := h.node p
  obtain ⟨hlog, ⟨hno, ht⟩ | ⟨hgr, -, hle, -, hcur, -, hst, -, hup⟩⟩ := Raft.requestVote_cases eval
  · -- a refusal adds an answer that is no vote
    refine h.term_step hI hs rfl hlog ht rfl ?_ (by simp)
    refine forall_mem_modify (fun x hx => ⟨x, hx, rfl, rfl, fun _ hg => hg⟩) fun x hx => ?_
    refine ⟨x, List.mem_of_getElem? hx, rfl, rfl, fun q hg => ?_⟩
    rcases hg with rfl | ⟨reply', hans, hgr'⟩
    · exact Or.inl rfl
    · rcases Round.answered_respond hans with hans | ⟨-, rfl⟩
      · exact Or.inr ⟨reply', hans, hgr'⟩
      · rw [hno] at hgr'
        cases hgr'
  -- a grant moves the voter into the candidate's term and then records its vote
  have hle' : H.term p ≤ r.info.term := by rw [hnode.term]; exact hle
  have hne : p ≠ r.owner := by
    rintro rfl
    obtain ⟨c, hc⟩ := Option.isSome_iff_exists.mp call
    exact (hE.owner r hr).2 ⟨c, hc, rfl⟩
  have hsafe := h.safe.bump_le hle'
  have hterm : (H.bump p r.info.term).term p = r.info.term := by simp [History.bump]
  have hUp : UpToDate LogEntry.logTerm ((H.bump p r.info.term).offer r.owner
      ((H.bump p r.info.term).term p)) ((H.bump p r.info.term).log p) := by
    rw [hterm]
    refine (h.votes.offer r hr).upToDate hnode.window.endsAt hnode.window.positive ?_
    unfold Raft.upToDate at hup
    simpa [Raft.getLastLogIndex, Raft.getLastLogTerm] using hup
  have hg : Grows H ((H.bump p r.info.term).castVote p r.owner) :=
    (History.grows_bump hle').trans (History.grows_castVote _ p r.owner)
  refine ⟨_, hg, h.of_node hI hs rfl (hsafe.castVote hne hUp) hg ?_ ?_ ?_
    (h.leaders.frame hg rfl rfl) (by simp)⟩
  · exact
      { term := by rw [hcur]; exact hterm
        window := hnode.window.same hlog
        commit := by
          rw [hlog.commit, hcur]
          exact hnode.commit.grows hg hle
        leader := fun hl => by
          rw [hst] at hl
          obtain ⟨hl', hsame⟩ := (Raft.TermStep.catchUp (s.nodes p) r.info.term).leader hl
          rw [Raft.catchUp_term (not_lt.mpr hle)] at hsame
          rw [hcur, hsame]
          exact hnode.leader hl' }
  · exact fun q hq => ⟨by simp [History.castVote, History.bump, hq], rfl, fun _ => rfl⟩
  · have hmono := fun q => (hI.vote_move hs q).term_le
    refine
      { vote := ?_
        candidate := ?_
        offer := ?_
        positive := ?_
        nonneg := fun q => (h.votes.nonneg q).trans (hmono q) }
    · refine forall_mem_modify (fun x hx q hg => Or.inl (h.votes.vote x hx q hg)) fun x hx q hg => ?_
      obtain rfl := Option.some.inj (round.symm.trans hx)
      rcases hg with rfl | ⟨reply', hans, hgr'⟩
      · exact Or.inl (h.votes.vote r hr _ (Or.inl rfl))
      · rcases Round.answered_respond hans with hans | ⟨rfl, -⟩
        · exact Or.inl (h.votes.vote r hr q (Or.inr ⟨reply', hans, hgr'⟩))
        · exact Or.inr ⟨rfl, hterm.symm, rfl⟩
    · rintro q T c (hv | ⟨rfl, hT, rfl⟩)
      · exact (h.votes.candidate q T c hv).trans (hmono c)
      · rw [hT, hterm]
        exact ((hE.vote r hr r.owner (Or.inl rfl)).1).trans (hmono r.owner)
    · exact forall_mem_modify h.votes.offer fun x hx => h.votes.offer x (List.mem_of_getElem? hx)
    · exact forall_mem_modify h.votes.positive fun x hx =>
        h.votes.positive x (List.mem_of_getElem? hx)

theorem sameVotes_take (s : Cluster n) (i : ℕ) (q : Fin n) (reply : RequestVoteReply) (v : ℤ)
    (h : s'.elections = s.elections.modify i (·.take q reply v)) : SameVotes s s' := by
  unfold SameVotes
  rw [h]
  refine forall_mem_modify (fun x hx => ⟨x, hx, rfl, rfl, fun _ hg => hg⟩) fun x hx => ?_
  refine ⟨x, List.mem_of_getElem? hx, rfl, rfl, fun p hg => ?_⟩
  rcases hg with rfl | ⟨reply', hans, hgr⟩
  · exact Or.inl rfl
  · exact Or.inr ⟨reply', Round.answered_take.mp hans, hgr⟩

theorem Coupled.win (h : Coupled s H) (hI : s.Indexed) (hE : s.Elections) {i : ℕ} {r : Election n}
    {q : Fin n} {c : Call Unit RequestVoteReply} {reply : RequestVoteReply}
    (hw : Wins s s' i r q c reply) (hs : Step s a s') (ha : ∀ i q, a ≠ .appendEntries1 i q)
    (hnodes : s'.nodes = (s.setNode r.owner rf).nodes)
    (hlog : Raft.SameLog (s.nodes r.owner) rf)
    (hcur : rf.currentTerm = (s.nodes r.owner).currentTerm) : ∃ H', Grows H H' ∧ Coupled s' H' := by
  have hr := List.mem_of_getElem? hw.round
  have hnode := h.node r.owner
  have hT : H.term r.owner = r.info.term := by rw [hnode.term, hw.term]
  -- a second leader of the term would have needed some of the same votes
  have hnone : H.leaderLog (H.term r.owner) = none := by
    rw [hT, Option.eq_none_iff_forall_not_mem]
    intro L hL
    obtain ⟨c', hc'⟩ := h.leaders.elected _ L hL
    exact hE.wins_fresh hw c' hc'
  obtain ⟨S, hS, hgrants⟩ := hE.majority hw
  have hmaj : IsMajority S := by
    unfold IsMajority
    rwa [Fintype.card_fin]
  have hvote : ∀ p, Grants r p → H.vote p (H.term r.owner) r.owner := by
    intro p hg
    rw [hT]
    exact h.votes.vote r hr p hg
  have hg : Grows H (H.win r.owner) := History.grows_win hnone
  have hsafe := h.safe.win hmaj (fun p hp => hvote p (hgrants p hp)) (hvote _ (Or.inl rfl)) hnone
  have hel : (r.owner, H.term r.owner) ∈ s'.elected := by
    rw [hw.elected, hT]
    simp
  refine ⟨_, hg, h.of_node hI hs hnodes hsafe hg ?_ ?_
    (h.votes.frame hI hs rfl rfl (sameVotes_take s i q reply 0 hw.elections)) ?_
    (fun i q _ _ _ _ heq => absurd heq (ha i q))⟩
  · exact
      { term := hnode.term.trans hcur.symm
        window := hnode.window.same hlog
        commit := by
          rw [hlog.commit, hcur]
          exact hnode.commit.grows hg le_rfl
        leader := fun _ => by
          rw [hcur, ← hnode.term]
          simp [History.win] }
  · refine fun p hp => ⟨rfl, rfl, fun hl => ?_⟩
    have hne : (s.nodes p).currentTerm ≠ H.term r.owner := by
      intro heq
      have := (h.node p).leader hl
      rw [heq, hnone] at this
      cases this
    simp [History.win, hne]
  · refine
      { elected := fun T L hL => ?_
        own := fun c' T L k hc' hL hcl => ?_
        log := fun T L hL => ?_ }
    · rcases History.win_leaderLog hL with hL | ⟨rfl, -⟩
      · obtain ⟨c', hc'⟩ := h.leaders.elected T L hL
        exact ⟨c', hs.elected_mono _ hc'⟩
      · exact ⟨r.owner, hel⟩
    · rcases History.win_leaderLog hL with hL | ⟨rfl, rfl⟩
      · rw [hw.elected, List.mem_append, List.mem_singleton] at hc'
        rcases hc' with hc' | hc'
        · exact h.leaders.own c' T L k hc' hL hcl
        · obtain ⟨-, rfl⟩ := Prod.mk.inj hc'
          rw [← hT, hnone] at hL
          cases hL
      · exact absurd hcl (h.safe.not_closes_of_none hnone)
    · rcases History.win_leaderLog hL with hL | ⟨-, rfl⟩
      · exact h.leaders.log T L hL
      · exact ⟨hnode.window.numbered, hnode.window.positive⟩

theorem Coupled.sendRequestVote (h : Coupled s H) (hI : s.Indexed) (hE : s.Elections) {i k : ℕ}
    {r : Election n} {c : Call Unit RequestVoteReply} {reply : RequestVoteReply} {num : ℤ}
    {won : Bool} (round : s.elections[i]? = some r) (call : r.calls p = some c)
    (taken : c.taken = none) (answer : c.replies[k]? = some reply)
    (eval : (s.nodes r.owner).sendRequestVote reply r.counter = .ok (rf, num, won))
    (hs : Step s (.sendRequestVote i p k)
      (recordVoteReply i r.owner p reply (s.setNode r.owner rf) (num, won))) :
    ∃ H', Grows H H' ∧
      Coupled (recordVoteReply i r.owner p reply (s.setNode r.owner rf) (num, won)) H' := by
  obtain ⟨hlog, ⟨rfl, -, ht⟩ | ⟨rfl, -, -, -, rfl⟩ | ⟨rfl, -, -, -, -, -, hcur, -, -⟩⟩ :=
    Raft.sendRequestVote_cases eval
  · exact h.term_step hI hs rfl hlog ht rfl (sameVotes_take s i p reply num rfl) (by simp)
  · exact h.node_step hI hs rfl (h.node _) rfl (sameVotes_take s i p reply num rfl) (by simp)
  · exact h.win hI hE (hE.wins round call taken answer eval) hs (by simp) rfl hlog hcur

theorem VotesOk.one_le (h : VotesOk s H) (hE : s.Elections)
    (hl : (s.nodes p).status = .leader) : 1 ≤ (s.nodes p).currentTerm := by
  obtain ⟨r, hr, -, hterm, -⟩ := hE.quorum _ _ (hE.leader p hl)
  rw [← hterm]
  exact h.positive r hr

theorem Coupled.start (h : Coupled s H) (hI : s.Indexed) (hE : s.Elections) {command : String}
    {out : Option (ℤ × ℤ)} (eval : (s.nodes p).start command = (rf, out))
    (hs : Step s (.start p command) (s.setNode p rf)) :
    ∃ H', Grows H H' ∧ Coupled (s.setNode p rf) H' := by
  have hnode := h.node p
  rcases Raft.start_cases eval with
    ⟨rfl, -⟩ | ⟨hl, ht, hl', hlogs, hsnap, hsnapT, hcommit, -, -⟩
  · exact h.node_step hI hs rfl hnode rfl (.of_eq rfl) (by simp)
  have hcur := (ht.leader hl').2
  have hpos := h.votes.one_le hE hl
  set e : LogEntry := ⟨command, (s.nodes p).currentTerm, (s.nodes p).getLastLogIndex + 1⟩ with he
  -- the history's log of this leader is still the leader's own
  have hlead : H.leaderLog (H.term p) = some (H.log p) := by rw [hnode.term, hnode.leader hl]
  have htm : LogEntry.logTerm e = H.term p := hnode.term.symm
  have hg : Grows H (H.append p e) := h.safe.grows_append hlead
  have hwin : rf.Window (H.log p ++ [e]) :=
    hnode.window.append (hI.node p) ((hI.node p).start eval).indexed hlogs hsnap hsnapT hpos
  have hel : (p, H.term p) ∈ s.elected := by
    rw [hnode.term]
    exact hE.leader p hl
  refine ⟨_, hg, h.of_node hI hs rfl (h.safe.append hlead htm) hg ?_ ?_
    (h.votes.frame hI hs rfl rfl (.of_eq rfl)) ?_ (by simp)⟩
  · exact
      { term := hnode.term.trans hcur.symm
        window := by simpa [History.append] using hwin
        commit := by
          have hle := (hI.node p).commit_le
          have hlen := hnode.window.length
          simp only [History.append, Function.update_self]
          rw [List.take_append_of_le_length (by omega), hcommit, hcur]
          exact hnode.commit.grows hg le_rfl
        leader := fun _ => by
          rw [hcur, ← hnode.term]
          simp [History.append] }
  · intro q hq
    refine ⟨rfl, by simp [History.append, hq], fun hlq => ?_⟩
    have hne : (s.nodes q).currentTerm ≠ H.term p := by
      intro heq
      have := hE.leader q hlq
      rw [heq] at this
      exact hq (hE.elected_unique this hel)
    simp [History.append, hne]
  · refine
      { elected := fun T L hL => ?_
        own := fun c T L k hc hL hcl => ?_
        log := fun T L hL => ?_ }
    · rcases History.append_leaderLog hL with ⟨rfl, -⟩ | ⟨-, hL⟩
      · exact ⟨p, hel⟩
      · exact h.leaders.elected T L hL
    · rcases History.append_leaderLog hL with ⟨rfl, rfl⟩ | ⟨-, hL⟩
      · obtain rfl := hE.elected_unique hc hel
        have hle := hcl.le_length
        simp only [History.append, and_self, if_true]
        simpa using hle
      · exact (h.leaders.own c T L k hc hL hcl).trans (hg.ack c T)
    · rcases History.append_leaderLog hL with ⟨-, rfl⟩ | ⟨-, hL⟩
      · exact ⟨hwin.numbered, hwin.positive⟩
      · exact h.leaders.log T L hL

/-! ## Replication -/

theorem Coupled.merged_log (h : Coupled s H) (hI : s.Indexed) (hN : s.Entries) {r : HeartBeat n}
    {args : AppendEntriesArgs n} {L : List LogEntry} (hr : r ∈ s.heartBeats)
    (hsent : r.Sent p args) (hL : H.leaderLog r.info.term = some L)
    (hlast : r.info.lastLogIndex ≤ L.length)
    (hx : Raft.Excerpt L r.info.lastLogIndex args) (hT : ¬args.term < (s.nodes p).currentTerm)
    (hm : Raft.AppendMerged (s.nodes p) rf args) (hclean : ¬(s.nodes p).Strands args) :
    ∃ l, rf.Window l ∧ (l = H.log p ∧ L.take r.info.lastLogIndex.toNat <+: H.log p ∨
      l = L.take r.info.lastLogIndex.toNat ∧
        (H.log p).length ≤ r.info.lastLogIndex.toNat) := by
  have hshape := hI.request r hr p args hsent
  have hc := (hI.node p).contiguous
  have hw := (h.node p).window
  have hlen := hw.length
  obtain ⟨hnL, hposL⟩ := h.leaders.log _ L hL
  have hcl := h.safe.log_consistent p
  have hcL := h.safe.leaderLog_consistent _ L hL
  by_cases hle : (s.nodes p).getLastLogIndex ≤ r.info.lastLogIndex
  · refine ⟨_, hm.window_take hw hx hnL hposL hshape.numbered hshape.length hlast
      (agree_of_termIn hcl hcL hw.numbered hnL (hw.termIn hm.prevTerm) hx.prevTerm) ?_ hle,
      Or.inr ⟨rfl, by omega⟩⟩
    intro o ho e he hidx hterm
    exact hN.unique o e (Or.inl ⟨p, ho⟩) (Or.inr ⟨r, hr, p, args, hsent, he⟩) hidx hterm
  · rw [not_le] at hle
    have hmatch : (s.nodes p).matchLog args.prevLogIndex args.prevLogTerm = .ok true :=
      hc.matchLog_ok.mpr ⟨hm.snap_le, hm.le_last, by simpa using hm.prevTerm⟩
    have hsame : ∀ o ∈ (s.nodes p).logs, ∀ e ∈ args.entries, o.logIndex = e.logIndex →
        o.logTerm = e.logTerm := by
      intro o ho e he hidx
      by_contra hne
      exact hclean ⟨hT, hmatch, by rw [hshape.length]; exact hle, o, ho, e, he, hidx, hne⟩
    exact ⟨H.log p, hm.window_same hw hc hshape.numbered hshape.length hle hsame,
      Or.inl ⟨rfl, hm.prefix_same hw hc hx hnL hcl hcL hshape.numbered hshape.length hle hsame⟩⟩

theorem Coupled.merged_commit (h : Coupled s H) (hI : s.Indexed) {r : HeartBeat n}
    {args : AppendEntriesArgs n} {L l : List LogEntry} (hr : r ∈ s.heartBeats)
    (hsent : r.Sent p args) (hL : H.leaderLog args.term = some L)
    (hlast : r.info.lastLogIndex ≤ L.length) (hlc : args.leaderCommit ≤ r.info.lastLogIndex)
    (hcert : Certified LogEntry.logTerm H args.term (L.take args.leaderCommit.toNat))
    (hT : (s.nodes p).currentTerm ≤ args.term) (hm : Raft.AppendMerged (s.nodes p) rf args)
    (hl : l = H.log p ∧ L.take r.info.lastLogIndex.toNat <+: H.log p ∨
      l = L.take r.info.lastLogIndex.toNat ∧ (H.log p).length ≤ r.info.lastLogIndex.toNat) :
    Certified LogEntry.logTerm H args.term (l.take rf.commitIndex.toNat) := by
  have hshape := hI.request r hr p args hsent
  have hlen := hshape.length
  have hlast' := hm.last
  have hold := (h.node p).commit.grows (Grows.refl H) hT
  have hpre : L.take r.info.lastLogIndex.toNat <+: l := by
    rcases hl with ⟨rfl, hpre⟩ | ⟨rfl, -⟩
    · exact hpre
    · exact List.prefix_rfl
  rw [hm.commit]
  split_ifs with hgt
  · rw [min_eq_left (by omega), take_eq_of_isPrefix hpre (by rw [List.length_take]; omega),
      List.take_take, min_eq_left (by omega)]
    exact hcert
  · rcases hl with ⟨rfl, -⟩ | ⟨rfl, hle⟩
    · exact hold
    · -- what the receiver has committed is in the leader's log already
      have hsub := hold.prefix_leaderLog h.safe hL
      have hcl := (hI.node p).commit_le
      have hwl := (h.node p).window.length
      have heq := List.prefix_iff_eq_take.mp hsub
      rw [List.length_take, min_eq_left (by omega)] at heq
      rw [List.take_take, min_eq_left (by omega), ← heq]
      exact hold

theorem Coupled.appendEntries1 (h : Coupled s H) (hI : s.Indexed) (hN : s.Entries) {i : ℕ}
    {r : HeartBeat n} {c : Call (AppendEntriesArgs n) AppendEntriesReply}
    {reply : AppendEntriesReply} (round : s.heartBeats[i]? = some r) (call : r.calls p = some c)
    (eval : (s.nodes p).appendEntries1 c.args = .ok (rf, reply))
    (hclean : ¬(s.nodes p).Strands c.args)
    (hs : Step s (.appendEntries1 i p) (recordAppend i p (s.setNode p rf) reply)) :
    ∃ H', Grows H H' ∧ Coupled (recordAppend i p (s.setNode p rf) reply) H' := by
  have hr := List.mem_of_getElem? round
  have hsent : r.Sent p c.args := ⟨c, call, rfl⟩
  have hshape := hI.request r hr p c.args hsent
  have hdet : ∀ i' q r' c' rf' reply', Action.appendEntries1 i p = .appendEntries1 i' q →
      s.heartBeats[i']? = some r' → r'.calls q = some c' →
      (s.nodes q).appendEntries1 c'.args = .ok (rf', reply') → q = p ∧ r' = r ∧ reply' = reply := by
    intro i' q r' c' rf' reply' ha hr' hc' he'
    obtain ⟨rfl, rfl⟩ := Action.appendEntries1.inj ha
    obtain rfl := Option.some.inj (round.symm.trans hr')
    obtain rfl := Option.some.inj (call.symm.trans hc')
    exact ⟨rfl, rfl, (Prod.mk.inj (Except.ok.inj (he'.symm.trans eval))).2⟩
  cases Raft.appendEntries1_cases (hI.node p).contiguous hshape.numbered eval with
  | stale _ same answer =>
    subst same
    refine h.term_step hI hs rfl (Raft.SameLog.refl _) (Raft.TermStep.refl _) rfl (.of_eq rfl) ?_
    intro i' q r' c' rf' reply' ha hr' hc' he'
    obtain ⟨-, -, rfl⟩ := hdet i' q r' c' rf' reply' ha hr' hc' he'
    rw [answer]
  | rejected _ log vote _ _ success =>
    refine h.term_step hI hs rfl log vote rfl (.of_eq rfl) ?_
    intro i' q r' c' rf' reply' ha hr' hc' he'
    obtain ⟨-, -, rfl⟩ := hdet i' q r' c' rf' reply' ha hr' hc' he'
    exact success
  | merged hT log vote currentTerm status =>
    obtain ⟨L, hL, hlast, hreq⟩ := h.messages.round r hr
    obtain ⟨hx, hlc, hcert⟩ := hreq p c.args hsent
    obtain ⟨l, hwin, hl⟩ := h.merged_log hI hN hr hsent hL hlast hx hT log hclean
    rw [← hshape.term] at hL hcert
    have hcommit := h.merged_commit hI hr hsent hL hlast hlc hcert (not_lt.mp hT) log hl
    have hle : H.term p ≤ c.args.term := by rw [(h.node p).term]; exact not_lt.mp hT
    have hterm : (H.bump p c.args.term).term p = c.args.term := by simp [History.bump]
    have hL₁ : (H.bump p c.args.term).leaderLog ((H.bump p c.args.term).term p) = some L := by
      rw [hterm]
      exact hL
    have hsafe := (h.safe.bump_le hle).accept hL₁ (by omega) hl
    have hg : Grows H ((H.bump p c.args.term).accept p l r.info.lastLogIndex.toNat) :=
      (History.grows_bump hle).trans (History.grows_accept _ p l _)
    refine ⟨_, hg, h.of_node hI hs rfl hsafe hg ?_ ?_ (h.votes.frame hI hs rfl rfl (.of_eq rfl))
      (h.leaders.frame hg rfl rfl) ?_⟩
    · exact
        { term := by rw [currentTerm]; exact hterm
          window := by simpa [History.accept] using hwin
          commit := by
            rw [currentTerm]
            simp only [History.accept, Function.update_self]
            exact hcommit.grows hg le_rfl
          leader := fun hl => by
            rw [status] at hl
            cases hl }
    · intro q hq
      exact ⟨by simp [History.accept, History.bump, hq], by simp [History.accept, History.bump, hq],
        fun _ => rfl⟩
    · intro i' q r' c' rf' reply' ha hr' hc' he' _
      obtain ⟨rfl, rfl, -⟩ := hdet i' q r' c' rf' reply' ha hr' hc' he'
      simp only [History.accept, true_and]
      rw [if_pos (by rw [hterm, hshape.term])]
      exact le_max_right _ _

theorem Coupled.committed (h : Coupled s H) (hI : s.Indexed) (hE : s.Elections)
    (hR : s.Replication) {r : HeartBeat n} {c : Call (AppendEntriesArgs n) AppendEntriesReply}
    {reply : AppendEntriesReply} {e : LogEntry} (hr : r ∈ s.heartBeats) (hc : r.calls p = some c)
    (ht : c.taken = none) (hmem : reply ∈ c.replies) (hsucc : reply.success = true)
    (hq : ((1 + n / 2 : ℕ) : ℤ) ≤ r.counter + 1) (hl : (s.nodes r.owner).status = .leader)
    (hrt : reply.term = (s.nodes r.owner).currentTerm) (he : c.args.entries.getLast? = some e)
    (heT : e.logTerm = (s.nodes r.owner).currentTerm) :
    Committed LogEntry.logTerm H (s.nodes r.owner).currentTerm r.info.lastLogIndex.toNat := by
  have hsent : r.Sent p c.args := ⟨c, hc, rfl⟩
  have hshape := hI.request r hr p c.args hsent
  have hT : r.info.term = (s.nodes r.owner).currentTerm :=
    (hR.replyTerm r hr p reply ⟨c, hc, hmem⟩ hsucc).symm.trans hrt
  obtain ⟨L, hL, -, hreq⟩ := h.messages.round r hr
  obtain ⟨hx, -⟩ := hreq p c.args hsent
  have hlead := (h.node r.owner).leader hl
  rw [hT] at hL
  have hidx : e.logIndex = r.info.lastLogIndex := by
    have hlen := hshape.length
    rw [List.getLast?_eq_getElem?] at he
    have hlt := (List.getElem?_eq_some_iff.mp he).1
    have := hshape.numbered _ e he
    omega
  have hcl : Closes LogEntry.logTerm L (s.nodes r.owner).currentTerm r.info.lastLogIndex.toNat := by
    have hbounds := (h.leaders.log _ L hL).1.bounds ((hx.mem e).mp (List.mem_of_getLast? he)).1
    refine ⟨r.info.lastLogIndex.toNat - 1, e, by omega, ?_, heT⟩
    refine (h.leaders.log _ L hL).1.getElem?_iff.mpr ⟨?_, by omega⟩
    exact ((hx.mem e).mp (List.mem_of_getLast? he)).1
  obtain ⟨Q, hcard, -, hQ⟩ := hR.majority hI hr hc ht hmem hsucc hq
  refine ⟨⟨L, hL, hcl⟩, Q, ?_, fun q hq => ?_⟩
  · unfold IsMajority
    rwa [Fintype.card_fin]
  · rcases hQ q hq with rfl | ⟨reply', hans, hsucc'⟩
    · exact h.leaders.own _ _ L _ (hE.leader _ hl) hL hcl
    · rw [← hT]
      exact h.messages.ack r hr q reply' hans hsucc'

theorem Coupled.sendAppendEntries (h : Coupled s H) (hI : s.Indexed) (hE : s.Elections)
    (hR : s.Replication) {i k : ℕ} {r : HeartBeat n}
    {c : Call (AppendEntriesArgs n) AppendEntriesReply} {reply : AppendEntriesReply} {num : ℤ}
    (round : s.heartBeats[i]? = some r) (call : r.calls p = some c) (taken : c.taken = none)
    (answer : c.replies[k]? = some reply)
    (eval : (s.nodes r.owner).sendAppendEntries p c.args reply r.counter = .ok (rf, num))
    (hs : Step s (.sendAppendEntries i p k)
      (recordAppendReply i p reply (s.setNode r.owner rf) num)) :
    ∃ H', Grows H H' ∧ Coupled (recordAppendReply i p reply (s.setNode r.owner rf) num) H' := by
  have hr := List.mem_of_getElem? round
  have hnode := h.node r.owner
  obtain ⟨hterm, ⟨hlog, -⟩ | ⟨hlogs, hsnap, hsnapT, -, hl, -, hcur, hrt, hsucc, -, hq,
    ⟨e, he, heT⟩, hcommit, -⟩⟩ := Raft.sendAppendEntries_cases eval
  · exact h.term_step hI hs rfl hlog hterm rfl (.of_eq rfl) (by simp)
  refine h.node_step hI hs rfl ?_ rfl (.of_eq rfl) (by simp)
  have hC := h.committed hI hE hR hr call taken (List.mem_of_getElem? answer) hsucc hq hl hrt he heT
  have hlead := hnode.leader hl
  refine
    { term := hnode.term.trans hcur.symm
      window := hnode.window.congr hlogs hsnap hsnapT
      commit := ?_
      leader := fun _ => by rw [hcur]; exact hlead }
  rw [hcur, hcommit, (hI.shaped round call).length]
  rcases max_choice (s.nodes r.owner).commitIndex r.info.lastLogIndex with hmax | hmax
  · rw [hmax]
    exact hnode.commit
  · rw [hmax]
    exact Or.inr ⟨_, le_rfl, _, _, hlead, hC, List.prefix_rfl⟩

/-! ## Snapshots -/

theorem Coupled.installSnapshot (h : Coupled s H) (hI : s.Indexed) {t : ℕ} {th : SnapShotThread n}
    {args : InstallSnapshotRequest n} {reply : InstallSnapshotResponse} {msg : Option ApplyMsg}
    (thread : s.snapShots[t]? = some th) (request : th.request = some args)
    (eval : (s.nodes th.server).installSnapshot args = .ok (rf, reply, msg))
    (hclean : ¬(s.nodes th.server).Misfits args)
    (hs : Step s (.installSnapshot t)
      (recordInstall t th.server (s.setNode th.server rf) (reply, msg))) :
    ∃ H', Grows H H' ∧
      Coupled (recordInstall t th.server (s.setNode th.server rf) (reply, msg)) H' := by
  have hnode := h.node th.server
  have hi := hI.node th.server
  cases Raft.installSnapshot_cases hi.contiguous eval with
  | stale _ same =>
    subst same
    exact h.node_step hI hs rfl hnode rfl (.of_eq rfl) (by simp)
  | old _ log vote => exact h.term_step hI hs rfl log vote rfl (.of_eq rfl) (by simp)
  | installed hT log vote currentTerm status index =>
    obtain ⟨l, hcert, hends, hpos⟩ := h.messages.install th (List.mem_of_getElem? thread) args request
    have hle : H.term th.server ≤ args.term := by rw [hnode.term]; exact not_lt.mp hT
    have hterm : (H.bump th.server args.term).term th.server = args.term := by simp [History.bump]
    have hgb : Grows H (H.bump th.server args.term) := History.grows_bump hle
    have hsafe := h.safe.bump_le hle
    have hlen := hends.length
    have hwl := hnode.window.length
    have hsnap := hi.snap_nonneg
    have hcl := hi.commit_le
    by_cases hlast : (s.nodes th.server).getLastLogIndex ≤ args.lastSnapshotIncludeIndex
    · -- the snapshot replaces the whole log
      have hcert' : Certified LogEntry.logTerm (H.bump th.server args.term)
          ((H.bump th.server args.term).term th.server) l := by
        rw [hterm]
        exact hcert.grows hgb le_rfl
      have hg := hgb.trans (History.grows_install _ th.server l)
      refine ⟨_, hg, h.of_node hI hs rfl (hsafe.install hcert' (by
        simp only [History.bump]
        omega)) hg ?_ ?_ (h.votes.frame hI hs rfl rfl (.of_eq rfl)) (h.leaders.frame hg rfl rfl)
        (by simp)⟩
      · exact
          { term := by rw [currentTerm]; exact hterm
            window := by simpa [History.install] using log.window hi hlast hends hpos
            commit := by
              rw [currentTerm, log.commit, max_eq_right (hcl.trans hlast)]
              simp only [History.install, Function.update_self]
              rw [List.take_of_length_le (by omega)]
              exact hcert.grows hg le_rfl
            leader := fun hl => by
              rw [status] at hl
              cases hl }
      · intro q hq
        exact ⟨by simp [History.install, History.bump, hq],
          by simp [History.install, History.bump, hq], fun _ => rfl⟩
    · -- the log continues the snapshot: its entry there has the snapshot's term
      rw [not_le] at hlast
      have hfit : ∃ e ∈ (s.nodes th.server).logs,
          e.logIndex = args.lastSnapshotIncludeIndex ∧ e.logTerm = args.lastSnapshotIncludeTerm := by
        by_contra hno
        exact hclean ⟨hT, index, hlast, hno⟩
      obtain ⟨e, he, hidx, het⟩ := hfit
      have htin : TermIn (H.log th.server) args.lastSnapshotIncludeIndex
          args.lastSnapshotIncludeTerm := Or.inr ⟨e, ((hnode.window.mem e).mp he).1, hidx, het⟩
      have hagree : (H.log th.server).take args.lastSnapshotIncludeIndex.toNat = l := by
        have hcons : Consistent LogEntry.logTerm H l := by
          rcases hcert with rfl | ⟨T₀, -, L₀, k₀, hL₀, -, hpre⟩
          · exact fun j e hj => by simp at hj
          · exact (h.safe.leaderLog_consistent T₀ L₀ hL₀).of_isPrefix
              (hpre.trans (List.take_prefix _ _))
        rw [agree_of_termIn (h.safe.log_consistent th.server) hcons hnode.window.numbered
          hends.numbered htin hends.term, List.take_of_length_le (by omega)]
      refine ⟨_, hgb, h.of_node hI hs rfl hsafe hgb ?_ ?_ (h.votes.frame hI hs rfl rfl (.of_eq rfl))
        (h.leaders.frame hgb rfl rfl) (by simp)⟩
      · refine
          { term := by rw [currentTerm]; exact hterm
            window := hnode.window.cut log index hlast.le htin
            commit := ?_
            leader := fun hl => by
              rw [status] at hl
              cases hl }
        rw [currentTerm, log.commit]
        rcases max_choice (s.nodes th.server).commitIndex args.lastSnapshotIncludeIndex with hmax | hmax
        · rw [hmax]
          exact hnode.commit.grows hgb (not_lt.mp hT)
        · rw [hmax]
          change Certified _ _ _ ((H.log th.server).take _)
          rw [hagree]
          exact hcert.grows hgb le_rfl
      · exact fun q hq => ⟨by simp [History.bump, hq], rfl, fun _ => rfl⟩

theorem Coupled.snapshot (h : Coupled s H) (hI : s.Indexed) {index : ℤ} {str : String}
    (eval : (s.nodes p).snapshot index str = .ok rf)
    (hs : Step s (.snapshot p index str) (s.setNode p rf)) :
    ∃ H', Grows H H' ∧ Coupled (s.setNode p rf) H' := by
  have hnode := h.node p
  have hi := hI.node p
  obtain ⟨rf', hok, hcases⟩ := Raft.snapshot_ok hi.contiguous hi.commit_le index str
  obtain rfl := Except.ok.inj (hok.symm.trans eval)
  refine h.node_step hI hs rfl ?_ rfl (.of_eq rfl) (by simp)
  rcases hcases with rfl | ⟨hlo, hhi, -, hcur, -, hst, t, hcut, htat⟩
  · exact hnode
  · exact
      { term := hnode.term.trans hcur.symm
        window := hnode.window.cut hcut hlo (hhi.trans hi.commit_le) (hnode.window.termIn htat)
        commit := by
          rw [hcur, hcut.commit, max_eq_left hhi]
          exact hnode.commit
        leader := fun hl => by
          rw [hcur]
          exact hnode.leader (hst ▸ hl) }

theorem Coupled.step (h : Coupled s H) (hI : s.Indexed) (hE : s.Elections) (hN : s.Entries)
    (hR : s.Replication) (hs : Step s a s') (hclean : Clean s a) :
    ∃ H', Grows H H' ∧ Coupled s' H' := by
  cases id hs with
  | idle => exact ⟨H, .refl H, h⟩
  | exit fail =>
    exact ⟨H, .refl H, h.safe, h.node, ⟨h.votes.vote, h.votes.candidate, h.votes.offer,
      h.votes.positive, h.votes.nonneg⟩, ⟨h.leaders.elected, h.leaders.own, h.leaders.log⟩,
      ⟨h.messages.round, h.messages.ack, h.messages.install, h.messages.applied⟩⟩
  | doElection eval => exact h.doElection hI hE eval hs
  | requestVote round call eval => exact h.requestVote hI hE round call eval hs
  | sendRequestVote round call taken answer eval =>
    exact h.sendRequestVote hI hE round call taken answer eval hs
  | start eval => exact h.start hI hE eval hs
  | @doHeartBeat p out eval =>
    have hsame : (recordHeartBeat p s out).elected = s.elected ∧
        (recordHeartBeat p s out).elections = s.elections := by cases out <;> exact ⟨rfl, rfl⟩
    exact h.idle_step hI hs (recordHeartBeat_nodes out) hsame.1 hsame.2 (by simp) p
  | appendEntries1 round call eval =>
    exact h.appendEntries1 hI hN round call eval (hclean.append round call) hs
  | sendAppendEntries round call taken answer eval =>
    exact h.sendAppendEntries hI hE hR round call taken answer eval hs
  | leaderSendSnapShot =>
    exact h.term_step hI hs rfl (Raft.leaderSendSnapShot_same _).1 (Raft.leaderSendSnapShot_same _).2
      rfl (.of_eq rfl) (by simp)
  | installSnapshot thread request eval =>
    exact h.installSnapshot hI thread request eval (hclean.install thread request) hs
  | leaderSendSnapShotReply =>
    exact h.term_step hI hs rfl (Raft.leaderSendSnapShotReply_same _ _ _ _).1
      (Raft.leaderSendSnapShotReply_same _ _ _ _).2 rfl (.of_eq rfl) (by simp)
  | snapshot eval => exact h.snapshot hI eval hs
  | @getApplyLogs p rf msgs eval =>
    have hi := hI.node p
    obtain ⟨msgs', hok, -⟩ := Raft.getApplyLogs_ok hi.contiguous hi.snap_le hi.applied_le hi.commit_le
    obtain ⟨rfl, -⟩ := Prod.mk.inj (Except.ok.inj (hok.symm.trans eval))
    obtain ⟨h1, h2, h3, h4⟩ := h.node p
    exact h.node_step hI hs rfl ⟨h1, h2.congr rfl rfl rfl, h3, h4⟩ rfl (.of_eq rfl) (by simp)
  | @push _ p _ _ _ message action =>
    refine h.idle_step hI hs rfl rfl rfl ?_ p
    rintro i q rfl
    rcases action with ⟨hact, -⟩ | hact <;> cases hact

theorem Coupled.run {acts : List (Action n)} (h : Coupled s H) (hI : s.Indexed) (hE : s.Elections)
    (hN : s.Entries) (hR : s.Replication) (hclean : Along Cluster.step Clean s acts) :
    ∃ H', Grows H H' ∧ Coupled (Library.run Cluster.step s acts) H' := by
  have hrun := run_invariant_along (P := fun s : Cluster n =>
      s.Indexed ∧ s.Elections ∧ s.Entries ∧ s.Replication ∧ ∃ H', Grows H H' ∧ Coupled s H')
    ⟨hI, hE, hN, hR, H, .refl H, h⟩ (fun s a ⟨hI, hE, hN, hR, H₁, hg, h⟩ hc => by
      have hs := step_spec s a
      obtain ⟨H₂, hg', h'⟩ := h.step hI hE hN hR hs hc
      exact ⟨hI.step hs, hE.step hI hs, hN.step hI hE hs, hR.step hI hs, H₂, hg.trans hg', h'⟩)
    hclean
  exact hrun.2.2.2.2

theorem coupled_runOf {acts : List (Action n)} (hclean : Along step Clean (init n) acts) :
    ∃ H, Coupled (runOf acts) H := by
  obtain ⟨H, -, h⟩ := (coupled_init n).run (indexed_init n) (elections_init n) (entries_init n)
    (replication_init n) hclean
  exact ⟨H, h⟩

/-- Where two logs have entries of one term at an index, they agree at every index up to it that
both still hold. -/
def LogsMatch (s : Cluster n) : Prop :=
  ∀ p q, ∀ e ∈ (s.nodes p).logs, ∀ e' ∈ (s.nodes q).logs, e.logIndex = e'.logIndex →
    e.logTerm = e'.logTerm → ∀ j, (s.nodes p).lastSnapshotIncludeIndex < j →
      (s.nodes q).lastSnapshotIncludeIndex < j → j ≤ e.logIndex →
      ∃ x ∈ (s.nodes p).logs, ∃ x' ∈ (s.nodes q).logs, x.logIndex = j ∧ x'.logIndex = j ∧
        x.logTerm = x'.logTerm ∧ x.command = x'.command

/-- The commands that any two nodes have handed out for one index are the same. -/
def AppliedAgree (s : Cluster n) : Prop :=
  ∀ p q msg msg', (p, msg) ∈ s.applied → (q, msg') ∈ s.applied →
    msg.commandIndex = msg'.commandIndex → msg.command = msg'.command

theorem Coupled.logsMatch (h : Coupled s H) (hI : s.Indexed) : s.LogsMatch := by
  intro p q e he e' he' hidx hterm j hp hq hj
  have hwp := (h.node p).window
  have hwq := (h.node q).window
  have hagree := agree_of_termIn (h.safe.log_consistent p) (h.safe.log_consistent q) hwp.numbered
    hwq.numbered (Or.inr ⟨e, ((hwp.mem e).mp he).1, rfl, rfl⟩)
    (Or.inr ⟨e', ((hwq.mem e').mp he').1, hidx.symm, hterm.symm⟩)
  have hpos := (hI.node p).snap_nonneg
  have hb := (hI.node p).contiguous.mem_bounds he
  obtain ⟨x, hx, hxj⟩ := (hI.node p).contiguous.exists_at hp (hj.trans hb.2)
  -- the same entry is in the other full log, above the other snapshot
  have hxq : x ∈ H.log q := by
    have hmem := hwp.numbered.mem_take.mpr
      ⟨((hwp.mem x).mp hx).1, show x.logIndex < 1 + (e.logIndex.toNat : ℤ) by omega⟩
    rw [hagree] at hmem
    exact List.mem_of_mem_take hmem
  exact ⟨x, hx, x, (hwq.mem x).mpr ⟨hxq, by omega⟩, hxj, hxj, rfl, rfl⟩

theorem Coupled.appliedAgree (h : Coupled s H) : s.AppliedAgree := by
  intro p q msg msg' hmsg hmsg' hidx
  obtain ⟨T, l, hl, hn, e, he, hei, hec⟩ := h.messages.applied _ hmsg
  obtain ⟨T', l', hl', hn', e', he', hei', hec'⟩ := h.messages.applied _ hmsg'
  have heq : e = e' := by
    rcases hl.comparable h.safe hl' with hpre | hpre
    · exact hn'.unique (hpre.subset he) he' (by rw [hei, hei', hidx])
    · exact hn.unique he (hpre.subset he') (by rw [hei, hei', hidx])
  rw [← hec, ← hec', heq]

/-- Log matching, for every run of clean steps. -/
theorem logsMatch_of_clean {acts : List (Action n)} (hclean : Along step Clean (init n) acts) :
    (runOf acts).LogsMatch := by
  obtain ⟨H, h⟩ := coupled_runOf hclean
  exact h.logsMatch (indexed_runOf acts)

/-- State machine safety, for every run of clean steps. -/
theorem appliedAgree_of_clean {acts : List (Action n)} (hclean : Along step Clean (init n) acts) :
    (runOf acts).AppliedAgree := by
  obtain ⟨H, h⟩ := coupled_runOf hclean
  exact h.appliedAgree

def appliedRun : List (Action 3) := compactedRun ++ [.getApplyLogs leading]

theorem logsMatch_appliedRun : (runOf appliedRun).LogsMatch := logsMatch_of_clean (by decide)

theorem appliedAgree_appliedRun :
    (runOf appliedRun).applied.length = 2 ∧ (runOf appliedRun).AppliedAgree :=
  ⟨by decide, appliedAgree_of_clean (by decide)⟩

/-- Five nodes. The leader of term 1 sends two entries to one follower only; the leader of term 2
sends its single entry to the leader of term 1, which overwrites its first entry and keeps the
second. -/
def strandedRun : List (Action 5) :=
  [.doElection 0, .requestVote 0 1, .requestVote 0 2, .sendRequestVote 0 1 0, .sendRequestVote 0 2 0,
    .start 0 "a", .start 0 "b", .doHeartBeat 0, .appendEntries1 0 1,
    .doElection 4, .doElection 4, .requestVote 2 2, .requestVote 2 3, .sendRequestVote 2 2 0,
    .sendRequestVote 2 3 0, .start 4 "x", .doHeartBeat 4, .appendEntries1 1 0]

/-- The term-2 leader commits and applies its entry; then the follower that has both old entries
is elected in term 4 over the stranded log and commits the old first entry. -/
def divergedRun : List (Action 5) :=
  strandedRun ++ [.appendEntries1 1 3, .sendAppendEntries 1 0 0, .sendAppendEntries 1 3 0,
    .getApplyLogs 4, .doElection 1, .doElection 1, .requestVote 4 0, .requestVote 4 2,
    .sendRequestVote 4 0 0, .sendRequestVote 4 2 0, .start 1 "y", .doHeartBeat 1,
    .appendEntries1 2 2, .sendAppendEntries 2 2 0, .doHeartBeat 1, .appendEntries1 3 0,
    .appendEntries1 3 2, .sendAppendEntries 3 0 0, .sendAppendEntries 3 2 0, .getApplyLogs 1]

theorem stranded_logs : ((runOf strandedRun).nodes 0).logs = [⟨"x", 2, 1⟩, ⟨"b", 1, 2⟩] ∧
    ((runOf strandedRun).nodes 1).logs = [⟨"a", 1, 1⟩, ⟨"b", 1, 2⟩] ∧
    ((runOf strandedRun).nodes 0).lastSnapshotIncludeIndex = 0 ∧
    ((runOf strandedRun).nodes 1).lastSnapshotIncludeIndex = 0 := by
  decide

theorem not_logsMatch_strandedRun :
    ¬∀ (n : ℕ) (acts : List (Action n)), (runOf acts).LogsMatch := by
  intro h
  obtain ⟨h0, h1, hs0, hs1⟩ := stranded_logs
  obtain ⟨x, hx, x', hx', hi, hi', ht, -⟩ := h 5 strandedRun 0 1 ⟨"b", 1, 2⟩ (by rw [h0]; simp)
    ⟨"b", 1, 2⟩ (by rw [h1]; simp) rfl rfl 1 (by rw [hs0]; decide) (by rw [hs1]; decide) (by decide)
  rw [h0] at hx
  rw [h1] at hx'
  simp only [List.mem_cons, List.not_mem_nil, or_false] at hx hx'
  rcases hx with rfl | rfl
  · rcases hx' with rfl | rfl
    · cases ht
    · cases hi'
  · cases hi

theorem not_appliedAgree_divergedRun :
    ¬∀ (n : ℕ) (acts : List (Action n)), (runOf acts).AppliedAgree := by
  intro h
  have h4 : (4, { commandValid := true, command := "x", commandIndex := 1 }) ∈
      (runOf divergedRun).applied := by decide
  have h1 : (1, { commandValid := true, command := "a", commandIndex := 1 }) ∈
      (runOf divergedRun).applied := by decide
  have hxa : "x" = "a" := h 5 divergedRun 4 1 _ _ h4 h1 rfl
  exact absurd hxa (by decide)

end Cluster
end RaftStorage
