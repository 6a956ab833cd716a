import RaftStorage.Cluster.FullLog

/-! How a state of the cluster shows the abstract history of leaders, votes and acknowledgements:
what it says of each node, of the election rounds, of the leaders and of what is in flight, and
how each of these survives a step. -/

namespace RaftStorage
open Library
namespace Cluster

abbrev Ghost (n : ℕ) := History (Fin n) ℤ LogEntry

variable {n : ℕ} {s s' : Cluster n} {a : Action n} {H H' : Ghost n} {p : Fin n} {rf : Raft n}

structure NodeOk (H : Ghost n) (p : Fin n) (rf : Raft n) : Prop where
  term : H.term p = rf.currentTerm
  window : rf.Window (H.log p)
  commit : Certified LogEntry.logTerm H rf.currentTerm ((H.log p).take rf.commitIndex.toNat)
  leader : rf.status = .leader → H.leaderLog rf.currentTerm = some (H.log p)

structure VotesOk (s : Cluster n) (H : Ghost n) : Prop where
  vote : ∀ r ∈ s.elections, ∀ p, Grants r p → H.vote p r.info.term r.owner
  candidate : ∀ p T c, H.vote p T c → T ≤ (s.nodes c).currentTerm
  offer : ∀ r ∈ s.elections,
    EndsAt (H.offer r.owner r.info.term) r.info.lastLogIndex r.info.lastLogTerm
  positive : ∀ r ∈ s.elections, 1 ≤ r.info.term
  nonneg : ∀ p, 0 ≤ (s.nodes p).currentTerm

structure LeadersOk (s : Cluster n) (H : Ghost n) : Prop where
  elected : ∀ T L, H.leaderLog T = some L → ∃ c, (c, T) ∈ s.elected
  own : ∀ c T L k, (c, T) ∈ s.elected → H.leaderLog T = some L →
    Closes LogEntry.logTerm L T k → k ≤ H.ack c T
  log : ∀ T L, H.leaderLog T = some L → Numbered 1 L ∧ ∀ e ∈ L, 1 ≤ e.logTerm

/-- The requests of the round are taken from the log of the leader of its term. -/
def RoundOk (H : Ghost n) (r : HeartBeat n) : Prop :=
  ∃ L, H.leaderLog r.info.term = some L ∧ r.info.lastLogIndex ≤ L.length ∧
    ∀ p args, r.Sent p args → Raft.Excerpt L r.info.lastLogIndex args ∧
      args.leaderCommit ≤ r.info.lastLogIndex ∧
      Certified LogEntry.logTerm H r.info.term (L.take args.leaderCommit.toNat)

def AckOk (H : Ghost n) (r : HeartBeat n) : Prop :=
  ∀ p reply, r.Answered p reply → reply.success = true →
    r.info.lastLogIndex.toNat ≤ H.ack p r.info.term

def InstallOk (H : Ghost n) (args : InstallSnapshotRequest n) : Prop :=
  ∃ l, Certified LogEntry.logTerm H args.term l ∧
    EndsAt l args.lastSnapshotIncludeIndex args.lastSnapshotIncludeTerm ∧ ∀ e ∈ l, 1 ≤ e.logTerm

/-- The message carries the command of a committed full log at its index. -/
def AppliedOk (H : Ghost n) (msg : ApplyMsg) : Prop :=
  ∃ T l, Certified LogEntry.logTerm H T l ∧ Numbered 1 l ∧
    ∃ e ∈ l, e.logIndex = msg.commandIndex ∧ e.command = msg.command

structure MessagesOk (s : Cluster n) (H : Ghost n) : Prop where
  round : ∀ r ∈ s.heartBeats, RoundOk H r
  ack : ∀ r ∈ s.heartBeats, AckOk H r
  install : ∀ th ∈ s.snapShots, ∀ args, th.request = some args → InstallOk H args
  applied : ∀ x ∈ s.applied, AppliedOk H x.2

structure Coupled (s : Cluster n) (H : Ghost n) : Prop where
  safe : Safe LogEntry.logTerm H
  node : ∀ p, NodeOk H p (s.nodes p)
  votes : VotesOk s H
  leaders : LeadersOk s H
  messages : MessagesOk s H

def emptyGhost (n : ℕ) : Ghost n where
  term := fun _ => 0
  log := fun _ => []
  leaderLog := fun _ => none
  ack := fun _ _ => 0
  vote := fun _ _ _ => False
  offer := fun _ _ => []

theorem safe_emptyGhost (n : ℕ) : Safe LogEntry.logTerm (emptyGhost n) where
  log_consistent := fun p j e hj => by simp [emptyGhost] at hj
  leaderLog_consistent := fun T L hL => by cases hL
  offer_consistent := fun c T j e hj => by simp [emptyGhost] at hj
  leaderLog_le := fun T L hL => by cases hL
  log_le := fun p e he => by cases he
  ack_term := fun p T h => absurd h (lt_irrefl _)
  ack_length := fun p T h => absurd h (lt_irrefl _)
  ack_prefix := fun p T L k hL => by cases hL
  complete := fun T T' L L' k _ hL => by cases hL
  elected := fun T L hL => by cases hL
  vote_term := fun p T c h => h.elim
  vote_prefix := fun p T' c h => h.elim
  candidate := fun c T h => h.elim

theorem coupled_init (n : ℕ) : Coupled (init n) (emptyGhost n) where
  safe := safe_emptyGhost n
  node := fun p =>
    { term := rfl
      window := Raft.window_init p
      commit := Or.inl (by simp [emptyGhost])
      leader := fun h => by cases h }
  votes :=
    { vote := by simp [init]
      candidate := fun p T c h => h.elim
      offer := by simp [init]
      positive := by simp [init]
      nonneg := fun p => le_rfl }
  leaders :=
    { elected := fun T L hL => by cases hL
      own := fun c T L k h => by cases h
      log := fun T L hL => by cases hL }
  messages :=
    { round := by simp [init]
      ack := by simp [init]
      install := by simp [init]
      applied := by simp [init] }

/-! ## What a growing history keeps -/

theorem NodeOk.frame {q : Fin n} (h : NodeOk H q rf) (hg : Grows H H') (hterm : H'.term q = H.term q)
    (hlog : H'.log q = H.log q)
    (hlead : rf.status = .leader → H'.leaderLog rf.currentTerm = H.leaderLog rf.currentTerm) :
    NodeOk H' q rf where
  term := hterm.trans h.term
  window := hlog ▸ h.window
  commit := hlog ▸ h.commit.grows hg le_rfl
  leader := fun hl => by rw [hlead hl, hlog, h.leader hl]

theorem RoundOk.grows {r : HeartBeat n} (h : RoundOk H r) (hg : Grows H H')
    (hn : ∀ T L, H'.leaderLog T = some L → Numbered 1 L) : RoundOk H' r := by
  obtain ⟨L, hL, hlast, hreq⟩ := h
  obtain ⟨L', hL', hpre⟩ := hg.leaderLog _ L hL
  have hlen := hpre.length_le
  refine ⟨L', hL', by omega, fun p args hsent => ?_⟩
  obtain ⟨hx, hc, hcert⟩ := hreq p args hsent
  refine ⟨hx.extend (hn _ _ hL') hpre hlast, hc, ?_⟩
  rw [take_eq_of_isPrefix hpre (by omega)]
  exact hcert.grows hg le_rfl

theorem AckOk.grows {r : HeartBeat n} (h : AckOk H r) (hg : Grows H H') : AckOk H' r :=
  fun p reply hans hsucc => (h p reply hans hsucc).trans (hg.ack p _)

theorem InstallOk.grows {args : InstallSnapshotRequest n} (h : InstallOk H args)
    (hg : Grows H H') : InstallOk H' args := by
  obtain ⟨l, hcert, hrest⟩ := h
  exact ⟨l, hcert.grows hg le_rfl, hrest⟩

theorem AppliedOk.grows {msg : ApplyMsg} (h : AppliedOk H msg) (hg : Grows H H') :
    AppliedOk H' msg := by
  obtain ⟨T, l, hcert, hrest⟩ := h
  exact ⟨T, l, hcert.grows hg le_rfl, hrest⟩

/-! ## What is in flight -/

theorem NodeOk.round (h : NodeOk H p (s.nodes p)) (hI : s.Indexed)
    {sends : Fin n → Option (Raft.HeartBeatSend n)} (hl : (s.nodes p).status = .leader)
    (hsends : ∀ i, (s.nodes p).heartBeatTo i = .ok (sends i)) :
    RoundOk H (newHeartBeat p (s.nodes p) sends) := by
  refine ⟨H.log p, h.leader hl, h.window.length.ge, fun q args hsent => ?_⟩
  obtain ⟨-, hb⟩ := hI.built hsends hsent
  refine ⟨hb.excerpt (hI.node p) h.window, ?_, ?_⟩
  · rw [hb.commit]
    exact (hI.node p).commit_le
  · rw [hb.commit]
    exact h.commit

theorem NodeOk.install (h : NodeOk H p rf) (hi : rf.Indexed) :
    InstallOk H rf.leaderSendSnapShot.2 := by
  have hsnap := hi.snap_nonneg
  have hle : rf.lastSnapshotIncludeIndex ≤ rf.commitIndex := hi.snap_le.trans hi.applied_le
  have hlast := hi.commit_le
  have hlen := h.window.length
  refine ⟨(H.log p).take rf.lastSnapshotIncludeIndex.toNat, h.commit.of_isPrefix ?_,
    ⟨h.window.numbered.take _, ?_, ?_⟩, fun e he => h.window.positive e (List.mem_of_mem_take he)⟩
  · exact List.take_prefix_take_left (by omega)
  · rw [List.length_take]
    simp only [Raft.leaderSendSnapShot]
    omega
  · rcases h.window.snapTerm with h0 | ⟨e, he, hidx, hterm⟩
    · exact Or.inl h0
    · exact Or.inr ⟨e, h.window.numbered.mem_take.mpr ⟨he, by omega⟩, hidx, hterm⟩

theorem NodeOk.applied (h : NodeOk H p rf) (hi : rf.Indexed) {rf' : Raft n}
    {msgs : List ApplyMsg} (he : rf.getApplyLogs = .ok (rf', msgs)) :
    ∀ msg ∈ msgs, AppliedOk H msg := by
  obtain ⟨msgs', hok, hlen, hread⟩ := Raft.getApplyLogs_ok hi.contiguous hi.snap_le hi.applied_le
    hi.commit_le
  obtain ⟨-, rfl⟩ := Prod.mk.inj (Except.ok.inj (hok.symm.trans he))
  intro msg hmsg
  obtain ⟨k, hk⟩ := List.mem_iff_getElem?.mp hmsg
  obtain ⟨e, hmem, hidx, rfl⟩ := hread k msg hk
  have hlt := (List.getElem?_eq_some_iff.mp hk).1
  refine ⟨rf.currentTerm, _, h.commit, h.window.numbered.take _, e, ?_, rfl, rfl⟩
  exact h.window.numbered.mem_take.mpr ⟨((h.window.mem e).mp hmem).1, by omega⟩

theorem MessagesOk.step (h : MessagesOk s H) (hI : s.Indexed) (hN : ∀ p, NodeOk H p (s.nodes p))
    (hs : Step s a s') (hg : Grows H H')
    (hn : ∀ T L, H'.leaderLog T = some L → Numbered 1 L)
    (hack : ∀ i p r c rf reply, a = .appendEntries1 i p → s.heartBeats[i]? = some r →
      r.calls p = some c → (s.nodes p).appendEntries1 c.args = .ok (rf, reply) →
      reply.success = true → r.info.lastLogIndex.toNat ≤ H'.ack p r.info.term) :
    MessagesOk s' H' where
  round := by
    intro r hr
    cases hs.heartBeat_origin r hr with
    | old mem => exact (h.round r mem).grows hg hn
    | sent leader eval => exact ((hN _).round hI leader eval).grows hg hn
    | @answered i q r c rf reply _ mem =>
      obtain ⟨L, hL, hlast, hreq⟩ := (h.round r mem).grows hg hn
      exact ⟨L, hL, hlast, fun p args hsent => hreq p args (Round.sent_respond.mp hsent)⟩
    | @taken i q k r c reply rf num _ mem =>
      obtain ⟨L, hL, hlast, hreq⟩ := (h.round r mem).grows hg hn
      exact ⟨L, hL, hlast, fun p args hsent => hreq p args (Round.sent_take.mp hsent)⟩
  ack := by
    intro r hr
    cases hs.heartBeat_origin r hr with
    | old mem => exact (h.ack r mem).grows hg
    | sent => exact fun p reply hans => absurd hans not_answered_newHeartBeat
    | @answered i q r c rf reply _ mem call eval node round =>
      intro p reply' hans hsucc
      rcases Round.answered_respond hans with hans | ⟨rfl, rfl⟩
      · exact (h.ack r mem).grows hg p reply' hans hsucc
      · exact hack i p r c rf reply' rfl round call eval hsucc
    | @taken i q k r c reply rf num _ mem =>
      intro p reply' hans hsucc
      exact (h.ack r mem).grows hg p reply' (Round.answered_take.mp hans) hsucc
  install := by
    intro th hth args hreq
    rcases hs.request_origin th hth args hreq with ⟨th₀, hth₀, -, hreq₀⟩ | rfl
    · exact (h.install th₀ hth₀ args hreq₀).grows hg
    · exact ((hN th.owner).install (hI.node th.owner)).grows hg
  applied := by
    intro x hx
    rcases hs.applied_origin hx with hx | ⟨rf, msgs, eval, hmsg⟩
    · exact (h.applied x hx).grows hg
    · exact ((hN x.1).applied (hI.node x.1) eval x.2 hmsg).grows hg

/-! ## Leaders and votes -/

theorem LeadersOk.frame (h : LeadersOk s H) (hg : Grows H H') (hll : H'.leaderLog = H.leaderLog)
    (hel : s'.elected = s.elected) : LeadersOk s' H' where
  elected := by rw [hll, hel]; exact h.elected
  own := by
    rw [hll, hel]
    exact fun c T L k hc hL hcl => (h.own c T L k hc hL hcl).trans (hg.ack c T)
  log := by rw [hll]; exact h.log

def SameVotes (s s' : Cluster n) : Prop :=
  ∀ r' ∈ s'.elections, ∃ r ∈ s.elections, r.owner = r'.owner ∧ r.info = r'.info ∧
    ∀ p, Grants r' p → Grants r p

theorem SameVotes.of_eq (h : s'.elections = s.elections) : SameVotes s s' :=
  fun r hr => ⟨r, h ▸ hr, rfl, rfl, fun _ hg => hg⟩

theorem VotesOk.frame (h : VotesOk s H) (hI : s.Indexed) (hs : Step s a s')
    (hv : H'.vote = H.vote) (ho : H'.offer = H.offer)
    (hold : SameVotes s s') : VotesOk s' H' where
  vote := by
    intro r' hr' p hgr
    obtain ⟨r, hr, hown, hinfo, hgrants⟩ := hold r' hr'
    rw [hv, ← hown, ← hinfo]
    exact h.vote r hr p (hgrants p hgr)
  candidate := by
    rw [hv]
    exact fun p T c hvote => (h.candidate p T c hvote).trans (hI.vote_move hs c).term_le
  offer := by
    intro r' hr'
    obtain ⟨r, hr, hown, hinfo, -⟩ := hold r' hr'
    rw [ho, ← hown, ← hinfo]
    exact h.offer r hr
  positive := by
    intro r' hr'
    obtain ⟨r, hr, -, hinfo, -⟩ := hold r' hr'
    rw [← hinfo]
    exact h.positive r hr
  nonneg := fun p => (h.nonneg p).trans (hI.vote_move hs p).term_le

theorem Coupled.of_node (h : Coupled s H) (hI : s.Indexed) (hs : Step s a s')
    (hnodes : s'.nodes = (s.setNode p rf).nodes) (safe : Safe LogEntry.logTerm H')
    (hg : Grows H H') (node : NodeOk H' p rf)
    (hframe : ∀ q, q ≠ p → H'.term q = H.term q ∧ H'.log q = H.log q ∧
      ((s.nodes q).status = .leader →
        H'.leaderLog (s.nodes q).currentTerm = H.leaderLog (s.nodes q).currentTerm))
    (votes : VotesOk s' H') (leaders : LeadersOk s' H')
    (hack : ∀ i p r c rf reply, a = .appendEntries1 i p → s.heartBeats[i]? = some r →
      r.calls p = some c → (s.nodes p).appendEntries1 c.args = .ok (rf, reply) →
      reply.success = true → r.info.lastLogIndex.toNat ≤ H'.ack p r.info.term) :
    Coupled s' H' where
  safe := safe
  node := by
    intro q
    rw [hnodes]
    by_cases hq : q = p
    · subst hq
      rw [setNode_nodes_self]
      exact node
    · rw [setNode_nodes_of_ne hq]
      obtain ⟨hterm, hlog, hlead⟩ := hframe q hq
      exact (h.node q).frame hg hterm hlog hlead
  votes := votes
  leaders := leaders
  messages := h.messages.step hI h.node hs hg (fun T L hL => (leaders.log T L hL).1) hack

end Cluster
end RaftStorage
