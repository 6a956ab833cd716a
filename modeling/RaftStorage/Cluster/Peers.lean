import RaftStorage.Cluster.Replication
import RaftStorage.Raft.Repair

/-! What a leader knows of its peers, over whole runs. The arrays `m_nextIndex` and `m_matchIndex`
are set when an election is won and by replies, which other nodes computed from older logs and
which may be processed late. -/

namespace RaftStorage
open Library
namespace Cluster

variable {n : ℕ} {s s' : Cluster n} {a : Action n} {p : Fin n}

/-- The reply that a `sendAppendEntries` thread hands to a live leader of the reply's term, with the
round and the call it belongs to. -/
def heard (s : Cluster n) (i : ℕ) (q : Fin n) (k : ℕ) :
    Option (HeartBeat n × Call (AppendEntriesArgs n) AppendEntriesReply × AppendEntriesReply) :=
  (s.heartBeats[i]?).bind fun r => (r.calls q).bind fun c => (c.replies[k]?).bind fun reply =>
    if c.taken = none ∧ s.exited r.owner = none ∧ (s.nodes r.owner).Hears reply then
      some (r, c, reply)
    else none

theorem heard_eq_some {i k : ℕ} {q : Fin n} {r : HeartBeat n}
    {c : Call (AppendEntriesArgs n) AppendEntriesReply} {reply : AppendEntriesReply} :
    s.heard i q k = some (r, c, reply) ↔ s.heartBeats[i]? = some r ∧ r.calls q = some c ∧
      c.replies[k]? = some reply ∧ c.taken = none ∧ s.exited r.owner = none ∧
      (s.nodes r.owner).Hears reply := by
  unfold heard
  simp only [Option.bind_eq_some_iff, Option.ite_none_right_eq_some, Option.some.injEq,
    Prod.mk.injEq]
  constructor
  · rintro ⟨_, hr, _, hc, _, hk, hrest, rfl, rfl, rfl⟩
    exact ⟨hr, hc, hk, hrest⟩
  · rintro ⟨hr, hc, hk, hrest⟩
    exact ⟨r, hr, c, hc, reply, hk, hrest, rfl, rfl, rfl⟩

/-- The snapshot thread whose reply a live leader of the request's term takes. -/
def installed (s : Cluster n) (t k : ℕ) : Option (SnapShotThread n × InstallSnapshotRequest n) :=
  (s.snapShots[t]?).bind fun th => th.request.bind fun args => (th.replies[k]?).bind fun reply =>
    if th.taken = none ∧ s.exited th.owner = none ∧ (s.nodes th.owner).status = .leader ∧
        (s.nodes th.owner).currentTerm = args.term ∧
        reply.term ≤ (s.nodes th.owner).currentTerm then
      some (th, args)
    else none

theorem installed_eq_some {t k : ℕ} {th : SnapShotThread n} {args : InstallSnapshotRequest n} :
    s.installed t k = some (th, args) ↔ s.snapShots[t]? = some th ∧ th.request = some args ∧
      ∃ reply, th.replies[k]? = some reply ∧ th.taken = none ∧ s.exited th.owner = none ∧
        (s.nodes th.owner).status = .leader ∧ (s.nodes th.owner).currentTerm = args.term ∧
        reply.term ≤ (s.nodes th.owner).currentTerm := by
  unfold installed
  simp only [Option.bind_eq_some_iff, Option.ite_none_right_eq_some, Option.some.injEq,
    Prod.mk.injEq]
  constructor
  · rintro ⟨_, hth, _, hreq, reply, hk, hrest, rfl, rfl⟩
    exact ⟨hth, hreq, reply, hk, hrest⟩
  · rintro ⟨hth, hreq, reply, hk, hrest⟩
    exact ⟨th, hth, args, hreq, reply, hk, hrest, rfl, rfl⟩

inductive LeaderStep (s : Cluster n) (a : Action n) (p : Fin n) (rf' : Raft n) : Prop
  | kept (leader : (s.nodes p).status = .leader)
      (term : rf'.currentTerm = (s.nodes p).currentTerm)
      (commit : rf'.commitIndex = (s.nodes p).commitIndex)
      (peers : Raft.SamePeers (s.nodes p) rf')
  | won (waiting : (s.nodes p).status ≠ .leader) (log : Raft.SameLog (s.nodes p) rf')
      (term : rf'.currentTerm = (s.nodes p).currentTerm)
      (next : rf'.nextIndex = fun _ => (s.nodes p).getLastLogIndex + 1)
      (matched : rf'.matchIndex = fun _ => 0)
  | rejected {i q k r c reply} (action : a = .sendAppendEntries i q k)
      (take : s.heard i q k = some (r, c, reply)) (owner : r.owner = p)
      (success : reply.success = false) (state : rf' = (s.nodes p).reject q reply)
  | accepted {i q k r c reply} (action : a = .sendAppendEntries i q k)
      (take : s.heard i q k = some (r, c, reply)) (owner : r.owner = p)
      (success : reply.success = true) (state : rf' = (s.nodes p).accept q c.args r.counter)
      (le : (s.nodes p).matchedBy q c.args ≤ (s.nodes p).getLastLogIndex)
  | installed {t k th args} (action : a = .leaderSendSnapShotReply t k)
      (take : s.installed t k = some (th, args)) (owner : th.owner = p)
      (state : rf' = { s.nodes p with
        matchIndex := Function.update (s.nodes p).matchIndex th.server args.lastSnapshotIncludeIndex
        nextIndex := Function.update (s.nodes p).nextIndex th.server
          (args.lastSnapshotIncludeIndex + 1) })

theorem LeaderStep.of_eq {rf' : Raft n} (h : rf' = s.nodes p) (hl : rf'.status = .leader) :
    LeaderStep s a p rf' := by
  subst h
  exact .kept hl rfl rfl (Raft.SamePeers.refl _)

theorem LeaderStep.of_setNode {q : Fin n} {rf : Raft n} (hs' : s'.nodes = (s.setNode q rf).nodes)
    (hl : (s'.nodes p).status = .leader)
    (h : q = p → rf.status = .leader → LeaderStep s a p rf) : LeaderStep s a p (s'.nodes p) := by
  by_cases hp : q = p
  · subst hp
    have hrf : s'.nodes q = rf := by rw [hs', setNode_nodes_self]
    rw [hrf] at hl ⊢
    exact h rfl hl
  · refine .of_eq ?_ hl
    rw [hs', setNode_nodes_of_ne (Ne.symm hp)]

theorem LeaderStep.of_termStep {rf' : Raft n} (hterm : Raft.TermStep (s.nodes p) rf')
    (hlog : Raft.SameLog (s.nodes p) rf') (hpeers : Raft.SamePeers (s.nodes p) rf')
    (hl : rf'.status = .leader) : LeaderStep s a p rf' := by
  obtain ⟨hlead, hcur⟩ := hterm.leader hl
  exact .kept hlead hcur hlog.commit hpeers

theorem Indexed.leader_step (hI : s.Indexed) (hl : ((s.step a).nodes p).status = .leader) :
    LeaderStep s a p ((s.step a).nodes p) := by
  by_cases hex : s.exited p = none
  case neg =>
    rw [nodes_step_of_exited hex] at hl ⊢
    exact .of_eq rfl hl
  -- what `Step` leaves out of a snapshot reply is read off the step function
  by_cases hsnap : ∃ t k, a = .leaderSendSnapShotReply t k
  · obtain ⟨t, k, rfl⟩ := hsnap
    rcases step_leaderSendSnapShotReply s t k with heq | ⟨th, args, reply, hth, hreq, ht, hk, -, heq⟩
    · rw [heq] at hl ⊢
      exact .of_eq rfl hl
    · rw [heq] at hl ⊢
      refine .of_setNode (by rfl) hl ?_
      rintro rfl hl
      rcases Raft.leaderSendSnapShotReply_leader hl with hsame | ⟨hlead, hterm, hle, hstate⟩
      · exact .of_eq hsame hl
      · exact .installed rfl (installed_eq_some.mpr
          ⟨hth, hreq, reply, hk, ht, hex, hlead, hterm, hle⟩) rfl hstate
  generalize hs' : s.step a = s' at hl ⊢
  have hs : Step s a s' := hs' ▸ step_spec s a
  cases hs with
  | idle => exact .of_eq rfl hl
  | exit => exact .of_eq rfl hl
  | push => exact .of_eq rfl hl
  | doElection eval =>
    refine .of_setNode (recordElection_nodes _) hl ?_
    rintro rfl hl
    rcases Raft.doElection_cases eval with ⟨rfl, -⟩ | ⟨-, -, hst, -⟩
    · exact .of_eq rfl hl
    · rw [hl] at hst
      cases hst
  | requestVote round call eval =>
    refine .of_setNode (by rfl) hl ?_
    rintro rfl hl
    obtain ⟨hlog, ⟨-, hterm⟩ | ⟨-, -, hle, -, hcur, -, hst, -⟩⟩ := Raft.requestVote_cases eval
    · exact .of_termStep hterm hlog (Raft.requestVote_peers eval) hl
    · -- a node that grants its vote and still leads has not changed its term
      obtain ⟨hlead, hsame⟩ := (Raft.TermStep.catchUp _ _).leader (hst.symm.trans hl)
      have hterm := (Raft.catchUp_term (not_lt.mpr hle)).symm.trans hsame
      exact .kept hlead (hcur.trans hterm) hlog.commit (Raft.requestVote_peers eval)
  | sendRequestVote round call taken answer eval =>
    refine .of_setNode (by rfl) hl ?_
    rintro rfl hlead
    obtain ⟨hlog, hcases⟩ := Raft.sendRequestVote_cases eval
    rcases Raft.sendRequestVote_peers eval with ⟨rfl, hpeers⟩ | ⟨rfl, hwait, hnext, hmatch⟩
    · rcases hcases with ⟨-, -, hterm⟩ | ⟨-, -, -, -, rfl⟩ | ⟨hwon, -⟩
      · exact .of_termStep hterm hlog hpeers hlead
      · exact .of_eq rfl hlead
      · cases hwon
    · rcases hcases with ⟨hwon, -⟩ | ⟨hwon, -⟩ | ⟨-, -, -, -, -, -, hcur, -⟩
      · cases hwon
      · cases hwon
      · exact .won hwait hlog hcur hnext hmatch
  | start eval =>
    refine .of_setNode (by rfl) hl ?_
    rintro rfl hl
    rcases Raft.start_cases eval with ⟨rfl, -⟩ | ⟨hlead, hterm, -, -, -, -, hcommit, -⟩
    · exact .of_eq rfl hl
    · exact .kept hlead (hterm.leader hl).2 hcommit (Raft.start_peers eval)
  | doHeartBeat => exact .of_eq (by rw [recordHeartBeat_nodes]) hl
  | appendEntries1 round call eval =>
    refine .of_setNode (by rfl) hl ?_
    rintro rfl hl
    cases Raft.appendEntries1_cases (hI.node _).contiguous (hI.shaped round call).numbered eval with
    | stale _ same => exact .of_eq same hl
    | rejected _ _ _ _ status =>
      rw [hl] at status
      cases status
    | merged _ _ _ _ status =>
      rw [hl] at status
      cases status
  | sendAppendEntries round call taken answer eval =>
    refine .of_setNode (by rfl) hl ?_
    rintro rfl hl
    rcases Raft.sendAppendEntries_leader eval hl with
      ⟨-, -, hsame⟩ | ⟨hh, hsucc, -, hstate⟩ | ⟨hh, hsucc, hstate, -, hle⟩
    · exact .of_eq hsame hl
    · exact .rejected rfl (heard_eq_some.mpr ⟨round, call, answer, taken, hex, hh⟩) rfl hsucc hstate
    · exact .accepted rfl (heard_eq_some.mpr ⟨round, call, answer, taken, hex, hh⟩) rfl hsucc hstate
        hle
  | leaderSendSnapShot =>
    refine .of_setNode (by rfl) hl ?_
    rintro rfl hl
    exact .kept hl rfl rfl ⟨rfl, rfl⟩
  | installSnapshot thread request eval =>
    refine .of_setNode (by rfl) hl ?_
    rintro rfl hl
    cases Raft.installSnapshot_cases (hI.node _).contiguous eval with
    | stale _ same => exact .of_eq same hl
    | old _ _ _ _ status =>
      rw [hl] at status
      cases status
    | installed _ _ _ _ status =>
      rw [hl] at status
      cases status
  | leaderSendSnapShotReply => exact absurd ⟨_, _, rfl⟩ hsnap
  | snapshot eval =>
    refine .of_setNode (by rfl) hl ?_
    rintro rfl hl
    obtain ⟨rf₁, hok, hcases⟩ := Raft.snapshot_ok (hI.node _).contiguous (hI.node _).commit_le _ _
    obtain rfl := Except.ok.inj (hok.symm.trans eval)
    rcases hcases with rfl | ⟨-, hle, -, hcur, -, hst, t, hcut, -⟩
    · exact .of_eq rfl hl
    · exact .kept (hst ▸ hl) hcur (hcut.commit.trans (max_eq_left hle)) (Raft.snapshot_peers eval)
  | getApplyLogs eval =>
    refine .of_setNode (by rfl) hl ?_
    rintro rfl hl
    obtain ⟨msgs, hok, -⟩ := Raft.getApplyLogs_ok (hI.node _).contiguous (hI.node _).snap_le
      (hI.node _).applied_le (hI.node _).commit_le
    obtain ⟨rfl, -⟩ := Prod.mk.inj (Except.ok.inj (hok.symm.trans eval))
    exact .kept hl rfl rfl ⟨rfl, rfl⟩

theorem Indexed.snapTerm_step (hI : s.Indexed) (hs : Step s a s') (p : Fin n)
    (hidx : (s'.nodes p).lastSnapshotIncludeIndex = (s.nodes p).lastSnapshotIncludeIndex) :
    (s'.nodes p).lastSnapshotIncludeTerm = (s.nodes p).lastSnapshotIncludeTerm := by
  have hset : ∀ q rf, (rf.lastSnapshotIncludeIndex = (s.nodes q).lastSnapshotIncludeIndex →
      rf.lastSnapshotIncludeTerm = (s.nodes q).lastSnapshotIncludeTerm) →
      s'.nodes = (s.setNode q rf).nodes →
      (s'.nodes p).lastSnapshotIncludeTerm = (s.nodes p).lastSnapshotIncludeTerm := by
    intro q rf h hnodes
    rw [hnodes] at hidx ⊢
    exact setNode_rel (R := fun rf rf' =>
      rf'.lastSnapshotIncludeIndex = rf.lastSnapshotIncludeIndex →
        rf'.lastSnapshotIncludeTerm = rf.lastSnapshotIncludeTerm) (fun _ _ => rfl) h p hidx
  -- a cut moves the position forward
  have hcut : ∀ {q rf i t}, Raft.Cut (s.nodes q) rf i t →
      (s.nodes q).lastSnapshotIncludeIndex < i →
      rf.lastSnapshotIncludeIndex = (s.nodes q).lastSnapshotIncludeIndex →
      rf.lastSnapshotIncludeTerm = (s.nodes q).lastSnapshotIncludeTerm := by
    intro q rf i t hcut hlt heq
    rw [hcut.snapIndex] at heq
    exact absurd heq hlt.ne'
  cases hs with
  | idle => rfl
  | exit => rfl
  | push => rfl
  | doHeartBeat => rw [recordHeartBeat_nodes]
  | doElection eval =>
    refine hset _ _ (fun _ => ?_) (recordElection_nodes _)
    rcases Raft.doElection_cases eval with ⟨rfl, -⟩ | ⟨hlog, -⟩
    · rfl
    · exact hlog.snapTerm
  | requestVote round call eval =>
    exact hset _ _ (fun _ => (Raft.requestVote_cases eval).1.snapTerm) (by rfl)
  | sendRequestVote round call taken answer eval =>
    exact hset _ _ (fun _ => (Raft.sendRequestVote_cases eval).1.snapTerm) (by rfl)
  | start eval =>
    refine hset _ _ (fun _ => ?_) (by rfl)
    rcases Raft.start_cases eval with ⟨rfl, -⟩ | ⟨-, -, -, -, -, hterm, -⟩
    · rfl
    · exact hterm
  | appendEntries1 round call eval =>
    refine hset _ _ (fun _ => ?_) (by rfl)
    cases Raft.appendEntries1_cases (hI.node _).contiguous (hI.shaped round call).numbered eval with
    | stale _ same => rw [same]
    | rejected _ log => exact log.snapTerm
    | merged _ log => exact log.snapTerm
  | sendAppendEntries round call taken answer eval =>
    refine hset _ _ (fun _ => ?_) (by rfl)
    obtain ⟨-, ⟨hlog, -⟩ | ⟨-, -, hterm, -⟩⟩ := Raft.sendAppendEntries_cases eval
    · exact hlog.snapTerm
    · exact hterm
  | leaderSendSnapShot =>
    exact hset _ _ (fun _ => (Raft.leaderSendSnapShot_same _).1.snapTerm) (by rfl)
  | installSnapshot thread request eval =>
    refine hset _ _ (fun heq => ?_) (by rfl)
    cases Raft.installSnapshot_cases (hI.node _).contiguous eval with
    | stale _ same => rw [same]
    | old _ log => exact log.snapTerm
    | installed _ log _ _ _ index => exact hcut log index heq
  | leaderSendSnapShotReply =>
    exact hset _ _ (fun _ => (Raft.leaderSendSnapShotReply_same _ _ _ _).1.snapTerm) (by rfl)
  | snapshot eval =>
    refine hset _ _ (fun heq => ?_) (by rfl)
    obtain ⟨rf₁, hok, hcases⟩ := Raft.snapshot_ok (hI.node _).contiguous (hI.node _).commit_le _ _
    obtain rfl := Except.ok.inj (hok.symm.trans eval)
    rcases hcases with rfl | ⟨hlt, -, -, -, -, -, t, hc, -⟩
    · rfl
    · exact hcut hc hlt heq
  | getApplyLogs eval =>
    refine hset _ _ (fun _ => ?_) (by rfl)
    obtain ⟨msgs, hok, -⟩ := Raft.getApplyLogs_ok (hI.node _).contiguous (hI.node _).snap_le
      (hI.node _).applied_le (hI.node _).commit_le
    obtain ⟨rfl, -⟩ := Prod.mk.inj (Except.ok.inj (hok.symm.trans eval))
    rfl

/-! ## Bounds -/

def HintOk (r : HeartBeat n) (reply : AppendEntriesReply) : Prop :=
  reply.updateNextIndex = -100 ∨
    1 ≤ reply.updateNextIndex ∧ reply.updateNextIndex ≤ r.info.lastLogIndex

structure PeersOk (rf : Raft n) (q : Fin n) : Prop where
  next_pos : 1 ≤ rf.nextIndex q
  next_le : rf.nextIndex q ≤ rf.getLastLogIndex + 1
  match_nonneg : 0 ≤ rf.matchIndex q
  match_le : rf.matchIndex q ≤ rf.getLastLogIndex

structure Bounded (s : Cluster n) : Prop where
  snapTerm : ∀ p, (s.nodes p).lastSnapshotIncludeIndex = 0 →
    (s.nodes p).lastSnapshotIncludeTerm = 0
  request : ∀ r ∈ s.heartBeats, ∀ p args, r.Sent p args → 0 ≤ args.prevLogIndex ∧
    (args.prevLogIndex = 0 → args.prevLogTerm = 0)
  hint : ∀ r ∈ s.heartBeats, ∀ p reply, r.Answered p reply → reply.success = false →
    HintOk r reply
  thread : ∀ th ∈ s.snapShots, ∀ args, th.request = some args →
    0 ≤ args.lastSnapshotIncludeIndex ∧
      args.lastSnapshotIncludeIndex ≤ (s.nodes th.owner).lastSnapshotIncludeIndex
  leader : ∀ p, (s.nodes p).status = .leader → ∀ q, PeersOk (s.nodes p) q

theorem bounded_init (n : ℕ) : (init n).Bounded where
  snapTerm := fun _ _ => rfl
  request := by simp [init]
  hint := by simp [init]
  thread := by simp [init]
  leader := fun p h => by cases h

theorem Bounded.snapTerm_step (h : s.Bounded) (hI : s.Indexed) (hs : Step s a s') (p : Fin n)
    (hp : (s'.nodes p).lastSnapshotIncludeIndex = 0) :
    (s'.nodes p).lastSnapshotIncludeTerm = 0 := by
  have hmono := (hI.advances hs p).snap
  have hnonneg := (hI.node p).snap_nonneg
  have hzero : (s.nodes p).lastSnapshotIncludeIndex = 0 := by omega
  rw [hI.snapTerm_step hs p (hp.trans hzero.symm)]
  exact h.snapTerm p hzero

theorem Bounded.termAt_zero (h : s.Bounded) (hI : s.Indexed) {t : ℤ}
    (ht : (s.nodes p).TermAt 0 t) : t = 0 := by
  have hnonneg := (hI.node p).snap_nonneg
  rcases ht with ⟨hidx, hterm⟩ | ⟨e, he, hidx, -⟩
  · exact hterm.trans (h.snapTerm p hidx.symm)
  · have := ((hI.node p).contiguous.mem_bounds he).1
    omega

theorem Bounded.request_step (h : s.Bounded) (hI : s.Indexed) (hs : Step s a s') :
    ∀ r ∈ s'.heartBeats, ∀ p args, r.Sent p args → 0 ≤ args.prevLogIndex ∧
      (args.prevLogIndex = 0 → args.prevLogTerm = 0) := by
  intro r' hr' p args hsent
  rcases hI.sent_step hs hr' hsent with ⟨r, hr, -, -, hsent⟩ | ⟨-, -, -, hb⟩
  · exact h.request r hr p args hsent
  · refine ⟨(hI.node _).snap_nonneg.trans hb.snap_le, fun hzero => ?_⟩
    have hterm := hb.prevTerm
    rw [hzero] at hterm
    exact h.termAt_zero hI hterm

theorem Indexed.last_nonneg (hI : s.Indexed) (p : Fin n) : 0 ≤ (s.nodes p).getLastLogIndex :=
  (hI.node p).snap_nonneg.trans
    ((hI.node p).snap_le.trans ((hI.node p).applied_le.trans (hI.node p).commit_le))

theorem Bounded.hint_ok (h : s.Bounded) (hI : s.Indexed) {r : HeartBeat n}
    {args : AppendEntriesArgs n} {rf : Raft n} {reply : AppendEntriesReply}
    (hr : r ∈ s.heartBeats) (hsent : r.Sent p args)
    (heval : (s.nodes p).appendEntries1 args = .ok (rf, reply)) (hsucc : reply.success = false) :
    HintOk r reply := by
  have hlen := (hI.request r hr p args hsent).length
  obtain ⟨hprev, hzero⟩ := h.request r hr p args hsent
  have hlast := hI.last_nonneg p
  have hsnap := (hI.node p).snap_nonneg
  rcases Raft.appendEntries1_hint (hI.node p).contiguous heval hsucc with ⟨-, hnone⟩ | ⟨-, -, hint⟩
  · exact Or.inl hnone
  refine Or.inr ?_
  cases hint with
  | short last hint => exact ⟨by omega, by omega⟩
  | mismatch snap _ term le lower =>
    have hpos : args.prevLogIndex ≠ 0 := by
      intro h0
      have hidx : (s.nodes p).lastSnapshotIncludeIndex = 0 := by omega
      refine term (Or.inl ⟨h0.trans hidx.symm, ?_⟩)
      rw [hzero h0, h.snapTerm p hidx]
    exact ⟨by omega, by omega⟩

theorem Bounded.hint_step (h : s.Bounded) (hI : s.Indexed) (hs : Step s a s') :
    ∀ r ∈ s'.heartBeats, ∀ p reply, r.Answered p reply → reply.success = false →
      HintOk r reply := by
  intro r hr p reply hans hsucc
  cases hs.heartBeat_origin r hr with
  | old mem => exact h.hint r mem p reply hans hsucc
  | sent => exact absurd hans not_answered_newHeartBeat
  | answered mem call eval =>
    rcases Round.answered_respond hans with hans | ⟨rfl, rfl⟩
    · exact h.hint _ mem p reply hans hsucc
    · have hok := h.hint_ok hI mem ⟨_, call, rfl⟩ eval hsucc
      exact hok
  | taken mem => exact h.hint _ mem p reply (Round.answered_take.mp hans) hsucc

theorem Bounded.thread_step (h : s.Bounded) (hI : s.Indexed) (hs : Step s a s') :
    ∀ th ∈ s'.snapShots, ∀ args, th.request = some args →
      0 ≤ args.lastSnapshotIncludeIndex ∧
        args.lastSnapshotIncludeIndex ≤ (s'.nodes th.owner).lastSnapshotIncludeIndex := by
  intro th hth args hreq
  have hmono := (hI.advances hs th.owner).snap
  rcases hs.request_origin th hth args hreq with ⟨th₀, hth₀, hown, hreq₀⟩ | rfl
  · obtain ⟨hnonneg, hle⟩ := h.thread th₀ hth₀ args hreq₀
    rw [hown] at hle
    exact ⟨hnonneg, hle.trans hmono⟩
  · exact ⟨(hI.node th.owner).snap_nonneg, hmono⟩

theorem PeersOk.of_same {rf rf' : Raft n} {q : Fin n} (h : PeersOk rf q)
    (hn : rf'.nextIndex q = rf.nextIndex q) (hm : rf'.matchIndex q = rf.matchIndex q)
    (hlast : rf.getLastLogIndex ≤ rf'.getLastLogIndex) : PeersOk rf' q := by
  obtain ⟨h1, h2, h3, h4⟩ := h
  exact ⟨by omega, by omega, by omega, by omega⟩

theorem Bounded.leader_step (h : s.Bounded) (hI : s.Indexed) (hN : s.Entries) (p : Fin n)
    (hl : ((s.step a).nodes p).status = .leader) (q : Fin n) : PeersOk ((s.step a).nodes p) q := by
  have hlast := (hI.advances (step_spec s a) p).last
  have hpos := hI.last_nonneg p
  have hstep := hI.leader_step hl
  generalize (s.step a).nodes p = rf' at hlast hstep ⊢
  cases hstep with
  | kept leader _ _ peers =>
    exact (h.leader p leader q).of_same (congrFun peers.next q) (congrFun peers.matched q) hlast
  | won _ _ _ next matched =>
    have hn := congrFun next q
    have hm := congrFun matched q
    exact ⟨by omega, by omega, by omega, by omega⟩
  | @rejected i q' k r c reply _ take owner success state =>
    obtain ⟨round, call, answer, -, -, hears⟩ := heard_eq_some.mp take
    have hq := h.leader p (owner ▸ hears.2.2) q
    have hr := List.mem_of_getElem? round
    have hhint := h.hint r hr q' reply ⟨c, call, List.mem_of_getElem? answer⟩ success
    have hround := (hN.round r hr).2
    rw [owner] at hround
    subst state
    unfold Raft.reject at hlast ⊢
    split_ifs at hlast ⊢ with hnone
    · exact hq
    · obtain ⟨hlo, hhi⟩ := hhint.resolve_left hnone
      by_cases hqq : q = q'
      · subst hqq
        refine ⟨?_, ?_, hq.match_nonneg, hq.match_le.trans hlast⟩
        · simpa using hlo
        · simp only [Function.update_self]
          omega
      · exact hq.of_same (Function.update_of_ne hqq _ _) rfl hlast
  | @accepted i q' k r c reply _ take owner _ state le =>
    have hq := h.leader p (owner ▸ (heard_eq_some.mp take).2.2.2.2.2.2.2) q
    subst state
    by_cases hqq : q = q'
    · subst hqq
      have hmax : (s.nodes p).matchIndex q ≤ (s.nodes p).matchedBy q c.args := le_max_left _ _
      have := hq.match_nonneg
      refine ⟨?_, ?_, ?_, ?_⟩ <;> simp only [Raft.accept, Function.update_self] at hlast ⊢ <;> omega
    · exact hq.of_same (Function.update_of_ne hqq _ _) (Function.update_of_ne hqq _ _) hlast
  | @installed t k th args _ take owner state =>
    obtain ⟨thread, request, -, -, -, -, leader, -⟩ := installed_eq_some.mp take
    have hq := h.leader p (owner ▸ leader) q
    obtain ⟨hnonneg, hle⟩ := h.thread th (List.mem_of_getElem? thread) args request
    rw [owner] at hle
    have hsnap : (s.nodes p).lastSnapshotIncludeIndex ≤ (s.nodes p).getLastLogIndex :=
      (hI.node p).snap_le.trans ((hI.node p).applied_le.trans (hI.node p).commit_le)
    subst state
    by_cases hqq : q = th.server
    · subst hqq
      refine ⟨?_, ?_, ?_, ?_⟩ <;> simp only [Function.update_self] at hlast ⊢ <;> omega
    · exact hq.of_same (Function.update_of_ne hqq _ _) (Function.update_of_ne hqq _ _) hlast

theorem Bounded.step (h : s.Bounded) (hI : s.Indexed) (hN : s.Entries) : (s.step a).Bounded where
  snapTerm := h.snapTerm_step hI (step_spec s a)
  request := h.request_step hI (step_spec s a)
  hint := h.hint_step hI (step_spec s a)
  thread := h.thread_step hI (step_spec s a)
  leader := h.leader_step hI hN

theorem bounded_runOf (acts : List (Action n)) : (runOf acts).Bounded := by
  induction acts using List.reverseRecOn with
  | nil => exact bounded_init n
  | append_singleton acts a ih =>
    rw [runOf_concat]
    exact ih.step (indexed_runOf acts) (entries_runOf acts)

theorem Bounded.fails (h : s.Bounded) (hI : s.Indexed) (hN : s.Entries) {err : AssertFail}
    (hf : Fails s a p err) : err ∉ [.heartBeatNextIndex, .heartBeatLength, .sliceLow, .sliceHigh,
      .vectorRange, .appendReplyTerm, .appendReplyNextIndex, .appendReplyCommit] := by
  have hc := fun p => (hI.node p).contiguous
  cases hf with
  | sendRequestVote _ _ _ _ eval =>
    obtain ⟨-, -, -, -, rfl⟩ := Raft.sendRequestVote_error eval
    simp
  | doHeartBeat eval =>
    refine absurd eval (Raft.doHeartBeat_ne_error (hc p) (fun hl i _ => ?_) err)
    exact ⟨(h.leader p hl i).next_pos, (h.leader p hl i).next_le⟩
  | appendEntries1 round call eval =>
    obtain ⟨-, -, ⟨-, rfl⟩ | ⟨-, rfl, -⟩⟩ := Raft.appendEntries1_error (hc p)
      (hI.shaped round call).numbered (hI.node p).commit_le eval
    · simp
    · simp
  | @sendAppendEntries i q k r c reply _ round call _ _ eval =>
    have hlen := (hI.shaped round call).length
    have hround := (hN.round r (List.mem_of_getElem? round)).2
    refine absurd eval (Raft.sendAppendEntries_ne_error (fun hl => ?_) (hI.node _).commit_le err)
    exact max_le (h.leader _ hl q).match_le (by omega)
  | snapshot eval =>
    obtain ⟨rf, hok, -⟩ := Raft.snapshot_ok (hc p) (hI.node _).commit_le _ _
    cases hok.symm.trans eval
  | getApplyLogs eval =>
    obtain ⟨msgs, hok, -⟩ := Raft.getApplyLogs_ok (hc p) (hI.node _).snap_le
      (hI.node _).applied_le (hI.node _).commit_le
    cases hok.symm.trans eval

/-- In every reachable state a leader's arrays stay within its log, so none of the assertions on
them, and no access to the log on the way of a heartbeat, ever ends a process. -/
theorem leader_index_bounds (acts : List (Action n)) (p : Fin n) :
    (((runOf acts).nodes p).status = .leader → ∀ q,
      1 ≤ ((runOf acts).nodes p).nextIndex q ∧
      ((runOf acts).nodes p).nextIndex q ≤ ((runOf acts).nodes p).getLastLogIndex + 1 ∧
      0 ≤ ((runOf acts).nodes p).matchIndex q ∧
      ((runOf acts).nodes p).matchIndex q ≤ ((runOf acts).nodes p).getLastLogIndex) ∧
    ∀ err ∈ [AssertFail.heartBeatNextIndex, .heartBeatLength, .sliceLow, .sliceHigh, .vectorRange,
      .appendReplyTerm, .appendReplyNextIndex, .appendReplyCommit],
      (runOf acts).exited p ≠ some err := by
  refine ⟨fun hl q => ?_, fun err herr hp => ?_⟩
  · obtain ⟨h1, h2, h3, h4⟩ := (bounded_runOf acts).leader p hl q
    exact ⟨h1, h2, h3, h4⟩
  · obtain ⟨pre, a, hf⟩ := exited_fails hp
    exact (bounded_runOf pre).fails (indexed_runOf pre) (entries_runOf pre) hf herr

/-- What log repair takes for granted holds of every leader and every node behind it that have
compacted nothing. -/
theorem repairable_runOf (acts : List (Action n)) {q : Fin n}
    (hl : ((runOf acts).nodes p).status = .leader) (hq : q ≠ p)
    (hterm : ((runOf acts).nodes q).currentTerm ≤ ((runOf acts).nodes p).currentTerm)
    (hp₀ : ((runOf acts).nodes p).lastSnapshotIncludeIndex = 0)
    (hq₀ : ((runOf acts).nodes q).lastSnapshotIncludeIndex = 0)
    (hagree : ∀ e ∈ ((runOf acts).nodes p).logs, ∀ f ∈ ((runOf acts).nodes q).logs,
      e.logIndex = f.logIndex → e.logTerm = f.logTerm →
      ((runOf acts).nodes p).logs.take e.logIndex.toNat =
        ((runOf acts).nodes q).logs.take e.logIndex.toNat) :
    Raft.Repairable q ((runOf acts).nodes p) ((runOf acts).nodes q) := by
  have hI := indexed_runOf acts
  have hB := bounded_runOf acts
  have hpeer := hB.leader p hl q
  exact
    { leader := hl
      other := by rw [hI.me]; exact hq
      term := hterm
      leaderLog := (hI.node p).contiguous
      followerLog := (hI.node q).contiguous
      leaderSnap := ⟨hp₀, hB.snapTerm p hp₀⟩
      followerSnap := ⟨hq₀, hB.snapTerm q hq₀⟩
      leaderCommit := (hI.node p).commit_le
      followerCommit := (hI.node q).commit_le
      matched := hpeer.match_le
      next_pos := hpeer.next_pos
      next_le := hpeer.next_le
      agree := hagree }

/-! ## Progress -/

/-- The reply that the step hands to its leader is not behind what the leader knows of the peer: a
rejection hints above the matched index, and a snapshot reaches it. -/
def InOrder (s : Cluster n) (a : Action n) : Prop :=
  match a with
  | .sendAppendEntries i q k => ∀ x ∈ s.heard i q k, x.2.2.success = false →
      x.2.2.updateNextIndex ≠ -100 → (s.nodes x.1.owner).matchIndex q < x.2.2.updateNextIndex
  | .leaderSendSnapShotReply t k => ∀ x ∈ s.installed t k,
      (s.nodes x.1.owner).matchIndex x.1.server ≤ x.2.lastSnapshotIncludeIndex
  | _ => True

def Leads (s : Cluster n) (p : Fin n) (T : ℤ) : Prop :=
  (s.nodes p).status = .leader ∧ (s.nodes p).currentTerm = T

def Ahead (s : Cluster n) : Prop :=
  ∀ p, (s.nodes p).status = .leader → ∀ q, (s.nodes p).matchIndex q < (s.nodes p).nextIndex q

theorem step_heard_reject {i k : ℕ} {q : Fin n} {r : HeartBeat n}
    {c : Call (AppendEntriesArgs n) AppendEntriesReply} {reply : AppendEntriesReply}
    (h : s.heard i q k = some (r, c, reply)) (hs : reply.success = false) :
    (s.step (.sendAppendEntries i q k)).nodes r.owner = (s.nodes r.owner).reject q reply := by
  obtain ⟨hr, hc, hk, ht, hex, hh⟩ := heard_eq_some.mp h
  simp only [step, hr, hc, ht, hk, onNode, hex, Raft.sendAppendEntries_reject hh hs]
  exact Function.update_self _ _ _

theorem step_installed {t k : ℕ} {th : SnapShotThread n} {args : InstallSnapshotRequest n}
    (h : s.installed t k = some (th, args)) :
    (s.step (.leaderSendSnapShotReply t k)).nodes th.owner = { s.nodes th.owner with
      matchIndex := Function.update (s.nodes th.owner).matchIndex th.server
        args.lastSnapshotIncludeIndex
      nextIndex := Function.update (s.nodes th.owner).nextIndex th.server
        (args.lastSnapshotIncludeIndex + 1) } := by
  obtain ⟨hth, hreq, reply, hk, ht, hex, hl, hterm, hle⟩ := installed_eq_some.mp h
  have hguard : ¬((s.nodes th.owner).status ≠ .leader ∨
      (s.nodes th.owner).currentTerm ≠ args.term) := by
    rintro (hne | hne)
    · exact hne hl
    · exact hne hterm
  simp only [step, hth, hreq, ht, hk, onNode, hex, Raft.leaderSendSnapShotReply, if_neg hguard,
    if_neg (not_lt.mpr hle)]
  exact Function.update_self _ _ _

theorem Indexed.match_mono (hI : s.Indexed) (hl : (s.nodes p).status = .leader)
    (hl' : ((s.step a).nodes p).status = .leader)
    (hsnap : ∀ t k, a = .leaderSendSnapShotReply t k → ∀ x ∈ s.installed t k,
      (s.nodes x.1.owner).matchIndex x.1.server ≤ x.2.lastSnapshotIncludeIndex) (q : Fin n) :
    (s.nodes p).matchIndex q ≤ ((s.step a).nodes p).matchIndex q := by
  have hstep := hI.leader_step hl'
  generalize (s.step a).nodes p = rf' at hstep ⊢
  cases hstep with
  | kept _ _ _ peers => rw [peers.matched]
  | won waiting => exact absurd hl waiting
  | rejected _ _ _ _ state =>
    subst state
    unfold Raft.reject
    split_ifs <;> exact le_rfl
  | @accepted i q' k r c reply _ _ _ _ state =>
    subst state
    by_cases hqq : q = q'
    · subst hqq
      simp only [Raft.accept, Function.update_self]
      exact le_max_left _ _
    · simp only [Raft.accept, Function.update_of_ne hqq, le_refl]
  | @installed t k th args action take owner state =>
    subst state
    have hin := hsnap t k action _ take
    rw [owner] at hin
    by_cases hqq : q = th.server
    · subst hqq
      simpa using hin
    · simp only [Function.update_of_ne hqq, le_refl]

theorem InOrder.match_mono (h : s.InOrder a) (hI : s.Indexed) (hl : (s.nodes p).status = .leader)
    (hl' : ((s.step a).nodes p).status = .leader) (q : Fin n) :
    (s.nodes p).matchIndex q ≤ ((s.step a).nodes p).matchIndex q := by
  refine hI.match_mono hl hl' ?_ q
  rintro t k rfl
  exact h

theorem InOrder.ahead (h : s.InOrder a) (hI : s.Indexed) (hA : s.Ahead) : (s.step a).Ahead := by
  intro p hl q
  have hstep := hI.leader_step hl
  generalize (s.step a).nodes p = rf' at hstep ⊢
  cases hstep with
  | kept leader _ _ peers =>
    rw [peers.next, peers.matched]
    exact hA p leader q
  | won _ _ _ next matched =>
    have hpos := hI.last_nonneg p
    rw [next, matched]
    dsimp only
    omega
  | @rejected i q' k r c reply action take owner success state =>
    have hq := hA p (owner ▸ (heard_eq_some.mp take).2.2.2.2.2.2.2) q
    subst action state
    have hin := h _ take success
    rw [owner] at hin
    unfold Raft.reject
    split_ifs with hnone
    · exact hq
    · by_cases hqq : q = q'
      · subst hqq
        simpa using hin hnone
      · simpa [hqq] using hq
  | @accepted i q' k r c reply _ take owner _ state =>
    have hq := hA p (owner ▸ (heard_eq_some.mp take).2.2.2.2.2.2.2) q
    subst state
    by_cases hqq : q = q'
    · subst hqq
      simp only [Raft.accept, Function.update_self]
      omega
    · simpa only [Raft.accept, Function.update_of_ne hqq] using hq
  | @installed t k th args _ take owner state =>
    obtain ⟨-, -, -, -, -, -, leader, -⟩ := installed_eq_some.mp take
    have hq := hA p (owner ▸ leader) q
    subst state
    by_cases hqq : q = th.server
    · subst hqq
      simp only [Function.update_self]
      omega
    · simpa only [Function.update_of_ne hqq] using hq

theorem ahead_of_inOrder {acts : List (Action n)} (h : Along step InOrder (init n) acts) :
    (runOf acts).Ahead := by
  have hP := run_invariant_along (P := fun s : Cluster n => s.Indexed ∧ s.Ahead)
    ⟨indexed_init n, fun p hl => by cases hl⟩
    (fun s a hP hC => ⟨hP.1.step (step_spec s a), hC.ahead hP.1 hP.2⟩) h
  exact hP.2

theorem elected_run (before later : List (Action n)) {x : Fin n × ℤ}
    (hx : x ∈ (runOf before).elected) : x ∈ (runOf (before ++ later)).elected := by
  induction later using List.reverseRecOn with
  | nil => simpa using hx
  | append_singleton later a ih =>
    rw [← List.append_assoc, runOf_concat]
    exact (step_spec _ a).elected_mono x ih

theorem Leads.before_last {before later : List (Action n)} {a : Action n} {T : ℤ}
    (h : (runOf before).Leads p T) (h' : (runOf (before ++ later ++ [a])).Leads p T) :
    (runOf (before ++ later)).Leads p T := by
  rw [runOf_concat] at h'
  obtain ⟨hl, rfl⟩ := h'
  have hE := elections_runOf (before ++ later)
  obtain ⟨hterm, hlead⟩ := hE.leader_cases (indexed_runOf _) (step_spec _ a) hl
  refine ⟨hlead.resolve_right fun hfresh => ?_, hterm.symm⟩
  have hel := elected_run before later ((elections_runOf before).leader p h.1)
  rw [h.2, hterm] at hel
  exact hfresh p hel

def ProgressKept (acts : List (Action n)) : Prop :=
  (∀ before later after, acts = before ++ later ++ after → ∀ p T, (runOf before).Leads p T →
    (runOf (before ++ later)).Leads p T → ∀ q,
    ((runOf before).nodes p).matchIndex q ≤ ((runOf (before ++ later)).nodes p).matchIndex q) ∧
  ∀ before after, acts = before ++ after → (runOf before).Ahead

/-- What a leader knows of a peer's progress is never forgotten exactly when every reply is
processed in order. -/
theorem progress_kept_iff (acts : List (Action n)) :
    ProgressKept acts ↔ Along step InOrder (init n) acts := by
  constructor
  · rintro ⟨hmono, hahead⟩
    refine along_iff.mpr fun before a after heq => ?_
    have hcat : acts = before ++ [a] ++ after := by simp [heq]
    change (runOf before).InOrder a
    cases a with
    | sendAppendEntries i q k =>
      intro x hx hsucc hne
      obtain ⟨r, c, reply⟩ := x
      have hx : (runOf before).heard i q k = some (r, c, reply) := hx
      have hnode := step_heard_reject hx hsucc
      have hlt := hahead (before ++ [.sendAppendEntries i q k]) after hcat r.owner
      rw [runOf_concat, hnode, Raft.reject, if_neg hne] at hlt
      simpa using hlt (heard_eq_some.mp hx).2.2.2.2.2.2.2 q
    | leaderSendSnapShotReply t k =>
      intro x hx
      obtain ⟨th, args⟩ := x
      have hx : (runOf before).installed t k = some (th, args) := hx
      obtain ⟨-, -, -, -, -, -, leader, -⟩ := installed_eq_some.mp hx
      have hnode := step_installed hx
      have hle := hmono before [.leaderSendSnapShotReply t k] after hcat th.owner _ ⟨leader, rfl⟩
      rw [runOf_concat, Leads, hnode] at hle
      simpa using hle ⟨leader, rfl⟩ th.server
    | _ => trivial
  · intro h
    refine ⟨?_, fun before after heq => ?_⟩
    · intro before later after heq p T hp
      -- along the stretch, one step after the other
      induction later using List.reverseRecOn generalizing after with
      | nil =>
        intro _ q
        rw [List.append_nil]
      | append_singleton later a ih =>
        intro hp' q
        rw [← List.append_assoc] at hp' ⊢
        have hlead := hp.before_last hp'
        have hsplit : acts = (before ++ later) ++ a :: after := by simp [heq]
        have hin : (runOf (before ++ later)).InOrder a := along_iff.mp h _ a after hsplit
        rw [runOf_concat] at hp' ⊢
        exact (ih (a :: after) (by simp [heq]) hlead q).trans
          (hin.match_mono (indexed_runOf _) hlead.1 hp'.1 q)
    · exact ahead_of_inOrder (along_append.mp (heq ▸ h)).1

/-- The third node acknowledges two entries while a snapshot of the first one is on its way. -/
def lateSnapShotRun : List (Action 3) :=
  commitRun ++ [.sendAppendEntries 0 following 0, .getApplyLogs leading, .snapshot leading 1 "s",
    .doHeartBeat leading, .leaderSendSnapShot 0, .appendEntries1 0 lagging,
    .sendAppendEntries 0 lagging 0, .start leading "b", .doHeartBeat leading,
    .appendEntries1 2 lagging, .sendAppendEntries 2 lagging 0, .installSnapshot 0]

theorem late_snapShot_forgets :
    ¬∀ (n : ℕ) (acts : List (Action n)), ProgressKept acts := by
  intro h
  have hle := (h 3 _).1 lateSnapShotRun [.leaderSendSnapShotReply 0 0] [] rfl leading 1
    ⟨by decide +kernel, by decide +kernel⟩ ⟨by decide +kernel, by decide +kernel⟩ lagging
  exact absurd hle (by decide +kernel)

end Cluster
end RaftStorage
