import RaftStorage.Cluster.Peers

/-! The two commit rules. `leaderUpdateCommitIndex`, which nothing calls, commits the last entry of
the leader's term that a majority has matched; `sendAppendEntries` counts the successes of one
heartbeat round and looks at the request of the success that completes it. -/

namespace RaftStorage
open Library Finset
namespace Raft

variable {n : ℕ} {rf rf' : Raft n} {e : LogEntry} {server : Fin n} {args : AppendEntriesArgs n}

def holders (rf : Raft n) (index : ℤ) : Finset (Fin n) :=
  univ.filter fun i => i = rf.me ∨ index ≤ rf.matchIndex i

/-- The loop of `leaderUpdateCommitIndex` from `index = m_lastSnapshotIncludeIndex + k` down. -/
def commitScan (rf : Raft n) : ℕ → Except AssertFail ℤ
  | 0 => .ok rf.lastSnapshotIncludeIndex
  | k + 1 => do
    let index := rf.lastSnapshotIncludeIndex + (k + 1 : ℕ)
    -- the term is read only when the count suffices
    if n / 2 + 1 ≤ (rf.holders index).card then
      if (← rf.getLogTermFromLogIndex index) = rf.currentTerm then return index
      else rf.commitScan k
    else rf.commitScan k

def leaderUpdateCommitIndex (rf : Raft n) : Except AssertFail (Raft n) := do
  let commitIndex ← rf.commitScan (rf.getLastLogIndex - rf.lastSnapshotIncludeIndex).toNat
  return { rf with commitIndex := commitIndex }

structure Acknowledged (rf : Raft n) (e : LogEntry) : Prop where
  mem : e ∈ rf.logs
  term : e.logTerm = rf.currentTerm
  majority : n / 2 + 1 ≤ (rf.holders e.logIndex).card

theorem mem_holders {i : Fin n} {index : ℤ} :
    i ∈ rf.holders index ↔ i = rf.me ∨ index ≤ rf.matchIndex i := by
  simp [holders]

theorem commitScan_ok (hc : rf.Contiguous) {k : ℕ}
    (hk : rf.lastSnapshotIncludeIndex + k ≤ rf.getLastLogIndex) :
    ∃ v, rf.commitScan k = .ok v ∧
      (v = rf.lastSnapshotIncludeIndex ∨ ∃ e, rf.Acknowledged e ∧ e.logIndex = v) ∧
      ∀ e, rf.Acknowledged e → e.logIndex ≤ rf.lastSnapshotIncludeIndex + k → e.logIndex ≤ v := by
  induction k with
  | zero => exact ⟨_, rfl, Or.inl rfl, fun e _ hle => by simpa using hle⟩
  | succ k ih =>
    obtain ⟨v, hv, hcase, hmax⟩ := ih (by push_cast at hk; omega)
    obtain ⟨e, he, hidx⟩ := hc.exists_at (i := rf.lastSnapshotIncludeIndex + (k + 1 : ℕ))
      (by push_cast; omega) hk
    have hterm : rf.getLogTermFromLogIndex (rf.lastSnapshotIncludeIndex + (k + 1 : ℕ)) =
        .ok e.logTerm := hc.getLogTerm_ok.mpr (Or.inr ⟨e, he, hidx, rfl⟩)
    -- the entry at this index either is acknowledged or leaves the search to the rest
    have hrest : ¬rf.Acknowledged e → ∀ e', rf.Acknowledged e' →
        e'.logIndex ≤ rf.lastSnapshotIncludeIndex + (k + 1 : ℕ) → e'.logIndex ≤ v := by
      intro hnot e' he' hle
      refine hmax e' he' ?_
      rcases hle.eq_or_lt with heq | hlt
      · exact absurd (Numbered.unique hc he'.mem he (heq.trans hidx.symm) ▸ he') hnot
      · push_cast at hlt
        omega
    simp only [commitScan]
    split_ifs with hq
    · rw [hterm]
      by_cases hcur : e.logTerm = rf.currentTerm
      · refine ⟨_, if_pos hcur, Or.inr ⟨e, ⟨he, hcur, by rw [hidx]; exact hq⟩, hidx⟩, ?_⟩
        exact fun e' _ hle => hle
      · exact ⟨v, (if_neg hcur).trans hv, hcase, hrest fun hack => hcur hack.term⟩
    · refine ⟨v, hv, hcase, hrest fun hack => hq ?_⟩
      rw [← hidx]
      exact hack.majority

theorem leaderUpdateCommitIndex_ok (hc : rf.Contiguous)
    (hle : rf.lastSnapshotIncludeIndex ≤ rf.getLastLogIndex) :
    ∃ v, rf.leaderUpdateCommitIndex = .ok { rf with commitIndex := v } ∧
      (v = rf.lastSnapshotIncludeIndex ∨ ∃ e, rf.Acknowledged e ∧ e.logIndex = v) ∧
      ∀ e, rf.Acknowledged e → e.logIndex ≤ v := by
  obtain ⟨v, hv, hcase, hmax⟩ := commitScan_ok hc
    (k := (rf.getLastLogIndex - rf.lastSnapshotIncludeIndex).toNat) (by omega)
  refine ⟨v, ?_, hcase, fun e he => hmax e he ?_⟩
  · unfold leaderUpdateCommitIndex
    rw [hv]
    rfl
  · have := (hc.mem_bounds he.mem).2
    omega

/-- The success brings an entry of the leader's term that is not yet committed to a majority. -/
def Tips (rf : Raft n) (server : Fin n) (args : AppendEntriesArgs n) : Prop :=
  ∃ e ∈ rf.logs, e.logTerm = rf.currentTerm ∧ rf.commitIndex < e.logIndex ∧
    e.logIndex ≤ args.prevLogIndex + args.entries.length ∧
    n / 2 + 1 ≤ (insert server (rf.holders e.logIndex)).card

instance (rf : Raft n) (server : Fin n) (args : AppendEntriesArgs n) :
    Decidable (rf.Tips server args) :=
  inferInstanceAs (Decidable (∃ e ∈ rf.logs, _))

theorem holders_accept {num index : ℤ} : (rf.accept server args num).holders index =
    if index ≤ args.prevLogIndex + args.entries.length then insert server (rf.holders index)
    else rf.holders index := by
  ext i
  have hmax : rf.matchedBy server args = max (rf.matchIndex server)
    (args.prevLogIndex + args.entries.length) := rfl
  rw [mem_holders]
  by_cases hi : i = server
  · subst hi
    simp only [accept, Function.update_self]
    split_ifs with hle
    · simp only [mem_insert_self, iff_true]
      exact Or.inr (by omega)
    · rw [mem_holders]
      refine or_congr Iff.rfl ?_
      omega
  · simp only [accept, Function.update_of_ne hi]
    split_ifs with hle
    · rw [mem_insert, mem_holders]
      simp [hi]
    · rw [mem_holders]

theorem accept_committed {num : ℤ} (h : ∀ e, rf.Acknowledged e → e.logIndex ≤ rf.commitIndex)
    (htally : rf.Tips server args → rf.Completes args num)
    (he : (rf.accept server args num).Acknowledged e) :
    e.logIndex ≤ (rf.accept server args num).commitIndex := by
  obtain ⟨hmem, hterm, hmaj⟩ := he
  rw [holders_accept] at hmaj
  have hraise : rf.commitIndex ≤ (rf.accept server args num).commitIndex := by
    unfold accept
    dsimp only
    split_ifs
    · exact le_max_left _ _
    · exact le_rfl
  split_ifs at hmaj with hle
  · by_cases hold : e.logIndex ≤ rf.commitIndex
    · exact hold.trans hraise
    · have hcomp := htally ⟨e, hmem, hterm, not_le.mp hold, hle, hmaj⟩
      simp only [accept, if_pos hcomp]
      exact hle.trans (le_max_right _ _)
  · exact (h e ⟨hmem, hterm, hmaj⟩).trans hraise

end Raft

namespace Cluster

variable {n : ℕ} {s s' : Cluster n} {a : Action n} {p : Fin n}

/-- A success that brings an uncommitted entry of the leader's term to a majority also completes
the majority of its own round, and no reply to a snapshot moves a matched index back. -/
def Tallies (s : Cluster n) (a : Action n) : Prop :=
  match a with
  | .sendAppendEntries i q k => ∀ x ∈ s.heard i q k, x.2.2.success = true →
      (s.nodes x.1.owner).Tips q x.2.1.args → (s.nodes x.1.owner).Completes x.2.1.args x.1.counter
  | .leaderSendSnapShotReply t k => ∀ x ∈ s.installed t k,
      (s.nodes x.1.owner).matchIndex x.1.server ≤ x.2.lastSnapshotIncludeIndex
  | _ => True

instance Tallies.decidable (s : Cluster n) : ∀ a, Decidable (Tallies s a)
  | .sendAppendEntries i q k =>
    inferInstanceAs (Decidable (∀ x ∈ s.heard i q k, x.2.2.success = true →
      (s.nodes x.1.owner).Tips q x.2.1.args →
        (s.nodes x.1.owner).Completes x.2.1.args x.1.counter))
  | .leaderSendSnapShotReply t k =>
    inferInstanceAs (Decidable (∀ x ∈ s.installed t k,
      (s.nodes x.1.owner).matchIndex x.1.server ≤ x.2.lastSnapshotIncludeIndex))
  | .doElection _ | .requestVote _ _ | .sendRequestVote _ _ _ | .start _ _ | .doHeartBeat _
  | .appendEntries1 _ _ | .leaderSendSnapShot _ | .installSnapshot _
  | .snapshot _ _ _ | .getApplyLogs _ | .applierPush _ | .pushMsgToKvServer _ _ =>
    inferInstanceAs (Decidable True)

/-- Every success taken while its leader still leads shows in the matched indexes, and a leader has
committed what they acknowledge. A single node is left out: it has nobody to hear from. -/
structure Counted (s : Cluster n) : Prop where
  alive : ∀ r ∈ s.heartBeats, ∀ p reply, r.Answered p reply → reply.appState = .appNormal
  known : ∀ r ∈ s.heartBeats, s.Leads r.owner r.info.term → ∀ q ∈ r.passed (·.success),
    r.info.lastLogIndex ≤ (s.nodes r.owner).matchIndex q
  committed : n ≠ 1 → ∀ p, (s.nodes p).status = .leader → ∀ e, (s.nodes p).Acknowledged e →
    e.logIndex ≤ (s.nodes p).commitIndex

theorem counted_init (n : ℕ) : (init n).Counted where
  alive := by simp [init]
  known := by simp [init]
  committed := fun _ p h => by cases h

theorem Counted.alive_step (h : s.Counted) (hs : Step s a s') :
    ∀ r ∈ s'.heartBeats, ∀ p reply, r.Answered p reply → reply.appState = .appNormal := by
  intro r hr p reply hans
  cases hs.heartBeat_origin r hr with
  | old mem => exact h.alive r mem p reply hans
  | sent => exact absurd hans not_answered_newHeartBeat
  | answered mem call eval =>
    rcases Round.answered_respond hans with hans | ⟨rfl, rfl⟩
    · exact h.alive _ mem p reply hans
    · exact Raft.appendEntries1_appState eval
  | taken mem => exact h.alive _ mem p reply (Round.answered_take.mp hans)

theorem Tallies.leads_step (h : s.Tallies a) (hI : s.Indexed) (hE : s.Elections) {T : ℤ}
    {c : Fin n} (hel : (c, T) ∈ s.elected) (hl : (s.step a).Leads p T) :
    s.Leads p T ∧ ∀ q, (s.nodes p).matchIndex q ≤ ((s.step a).nodes p).matchIndex q := by
  obtain ⟨hl, rfl⟩ := hl
  obtain ⟨hterm, hlead⟩ := hE.leader_cases hI (step_spec s a) hl
  have hold := hlead.resolve_right fun hfresh => hfresh c (hterm ▸ hel)
  refine ⟨⟨hold, hterm.symm⟩, hI.match_mono hold hl ?_⟩
  rintro t k rfl
  exact h

theorem Counted.known_step (h : s.Counted) (htally : s.Tallies a) (hI : s.Indexed)
    (hE : s.Elections) (hN : s.Entries) (hR : s.Replication) :
    ∀ r ∈ (s.step a).heartBeats, (s.step a).Leads r.owner r.info.term →
      ∀ q ∈ r.passed (·.success),
        r.info.lastLogIndex ≤ ((s.step a).nodes r.owner).matchIndex q := by
  have hleads : ∀ r ∈ s.heartBeats, (s.step a).Leads r.owner r.info.term →
      s.Leads r.owner r.info.term ∧
        ∀ q, (s.nodes r.owner).matchIndex q ≤ ((s.step a).nodes r.owner).matchIndex q :=
    fun r hr => htally.leads_step hI hE (hN.round r hr).1
  have hold : ∀ r ∈ s.heartBeats, (s.step a).Leads r.owner r.info.term →
      ∀ q ∈ r.passed (·.success),
        r.info.lastLogIndex ≤ ((s.step a).nodes r.owner).matchIndex q := by
    intro r hr hl q hq
    obtain ⟨hl₀, hmono⟩ := hleads r hr hl
    exact (h.known r hr hl₀ q hq).trans (hmono q)
  generalize hs' : s.step a = s' at hleads hold ⊢
  have hs : Step s a s' := hs' ▸ step_spec s a
  cases hs with
  | doElection => rename_i out _; cases out <;> exact hold
  | doHeartBeat eval =>
    rcases Raft.doHeartBeat_cases eval with rfl | ⟨sends, rfl, -, -⟩
    · exact hold
    · intro r hr hl q hq
      rcases List.mem_append.mp hr with hr | hr
      · exact hold r hr hl q hq
      · -- a new round has not taken any answer
        obtain rfl := List.mem_singleton.mp hr
        obtain ⟨reply, hans, -⟩ := matched_newHeartBeat.answered hq
        exact absurd hans not_answered_newHeartBeat
  | appendEntries1 round =>
    refine forall_mem_modify hold fun r hr hl q hq => ?_
    rw [Round.passed_respond] at hq
    exact hold r (List.mem_of_getElem? hr) hl q hq
  | @sendAppendEntries i q' k r₀ c reply rf num round call taken answer eval =>
    refine forall_mem_modify hold fun r hr hl q hq => ?_
    obtain rfl := Option.some.inj (round.symm.trans hr)
    have hr := List.mem_of_getElem? hr
    rcases (Round.mem_passed_take call taken).mp hq with ⟨rfl, hsucc⟩ | hq
    swap
    · exact hold r₀ hr hl q hq
    -- the success is heard: the leader is still in the term of the round
    obtain ⟨hl₀, hterm₀⟩ := (hleads r₀ hr hl).1
    have hans : r₀.Answered q reply := ⟨c, call, List.mem_of_getElem? answer⟩
    have hh : (s.nodes r₀.owner).Hears reply := by
      refine ⟨?_, ?_, hl₀⟩
      · rw [h.alive r₀ hr q reply hans]
        exact nofun
      · exact (hR.replyTerm r₀ hr q reply hans hsucc).trans hterm₀.symm
    have hnode : (recordAppendReply i q reply (s.setNode r₀.owner rf) num).nodes r₀.owner = rf :=
      setNode_nodes_self
    have hlen := (hI.shaped round call).length
    rw [Round.take_owner, Leads, hnode] at hl
    rw [Round.take_owner, Round.take_info, hnode]
    rcases Raft.sendAppendEntries_leader eval hl.1 with
      ⟨hno, -⟩ | ⟨-, hfail, -⟩ | ⟨-, -, rfl, -, -⟩
    · exact absurd hh hno
    · rw [hsucc] at hfail
      cases hfail
    · simp only [Raft.accept, Function.update_self]
      exact hlen.ge.trans (le_max_right _ _)
  | _ => exact hold

theorem Indexed.leader_logs (hI : s.Indexed) (hs : Step s a s')
    (hl : (s'.nodes p).status = .leader) : ∀ e ∈ (s'.nodes p).logs,
      e ∈ (s.nodes p).logs ∨ e.logIndex = (s.nodes p).getLastLogIndex + 1 := by
  intro e he
  cases hI.log_move hs p with
  | kept logs => exact Or.inl (logs ▸ he)
  | started _ _ logs =>
    rw [logs, List.mem_append, List.mem_singleton] at he
    exact he.imp_right fun heq => by rw [heq]
  | merged _ _ _ _ status =>
    rw [hl] at status
    cases status
  | cut log => exact Or.inl ((log.mem e).mp he).1

theorem Counted.committed_step (h : s.Counted) (htally : s.Tallies a) (hI : s.Indexed)
    (hE : s.Elections) (hN : s.Entries) (hB : s.Bounded) (hn : n ≠ 1) (p : Fin n)
    (hl : ((s.step a).nodes p).status = .leader) (e : LogEntry)
    (he : ((s.step a).nodes p).Acknowledged e) :
    e.logIndex ≤ ((s.step a).nodes p).commitIndex := by
  have hs := step_spec s a
  have hmem := hI.leader_logs hs hl e he.mem
  have hcases := (hE.leader_cases hI hs hl).2
  have hme : ((s.step a).nodes p).me = (s.nodes p).me := (hI.advances hs p).me
  have hstep := hI.leader_step hl
  generalize (s.step a).nodes p = rf' at hme hstep he ⊢
  cases hstep with
  | kept leader term commit peers =>
    have hholders : ∀ index, rf'.holders index = (s.nodes p).holders index := by
      intro index
      unfold Raft.holders
      rw [hme, peers.matched]
    have hmaj := he.majority
    rw [hholders] at hmaj
    rw [commit]
    rcases hmem with hmem | hnew
    · exact h.committed hn p leader e ⟨hmem, he.term.trans term, hmaj⟩
    · -- nobody but the leader has an entry that it has just made
      have hone : (s.nodes p).holders e.logIndex ⊆ {(s.nodes p).me} := by
        intro i hi
        have hle := (hB.leader p leader i).match_le
        refine mem_singleton.mpr ((Raft.mem_holders.mp hi).resolve_right ?_)
        omega
      have hcard := card_le_card hone
      rw [card_singleton] at hcard
      have hpos := p.pos
      omega
  | won waiting log term =>
    -- no entry of the term is there before anybody is elected in it
    have hpres : s.Present e := Or.inl ⟨p, log.logs ▸ he.mem⟩
    obtain ⟨c, hc⟩ := hN.elected e hpres
    rw [he.term, term] at hc
    exact absurd hc (hcases.resolve_left waiting c)
  | rejected _ take owner _ state =>
    have hlead := owner ▸ (heard_eq_some.mp take).2.2.2.2.2.2.2
    subst state
    unfold Raft.reject at he ⊢
    split_ifs at he ⊢
    · exact h.committed hn p hlead e he
    · exact h.committed hn p hlead e ⟨he.mem, he.term, he.majority⟩
  | accepted action take owner success state =>
    have hlead := owner ▸ (heard_eq_some.mp take).2.2.2.2.2.2.2
    subst action owner state
    exact Raft.accept_committed (h.committed hn _ hlead) (htally _ take success) he
  | @installed t k th args _ take owner state =>
    obtain ⟨thread, request, -, -, -, -, leader, -⟩ := installed_eq_some.mp take
    subst owner
    have hlogs : rf'.logs = (s.nodes th.owner).logs := by rw [state]
    have hterm : rf'.currentTerm = (s.nodes th.owner).currentTerm := by rw [state]
    have hcommit : rf'.commitIndex = (s.nodes th.owner).commitIndex := by rw [state]
    have hin := hlogs ▸ he.mem
    have hle := (hB.thread th (List.mem_of_getElem? thread) args request).2
    have hlo := ((hI.node th.owner).contiguous.mem_bounds hin).1
    -- what the snapshot covers is not in the log any more
    have hsub : rf'.holders e.logIndex ⊆ (s.nodes th.owner).holders e.logIndex := by
      intro i hi
      rw [Raft.mem_holders, hme, state] at hi
      refine Raft.mem_holders.mpr (hi.imp_right fun hi => ?_)
      by_cases hserver : i = th.server
      · subst hserver
        simp only [Function.update_self] at hi
        omega
      · simpa only [Function.update_of_ne hserver] using hi
    rw [hcommit]
    exact h.committed hn _ leader e
      ⟨hin, he.term.trans hterm, he.majority.trans (card_le_card hsub)⟩

theorem Counted.step (h : s.Counted) (htally : s.Tallies a) (hI : s.Indexed) (hE : s.Elections)
    (hN : s.Entries) (hR : s.Replication) (hB : s.Bounded) : (s.step a).Counted where
  alive := h.alive_step (step_spec s a)
  known := h.known_step htally hI hE hN hR
  committed := h.committed_step htally hI hE hN hB

theorem counted_runOf {acts : List (Action n)} (h : Along step Tallies (init n) acts) :
    (runOf acts).Counted := by
  induction acts using List.reverseRecOn with
  | nil => exact counted_init n
  | append_singleton acts a ih =>
    obtain ⟨hacts, ha, -⟩ := along_append.mp h
    rw [runOf_concat]
    exact (ih hacts).step ha (indexed_runOf acts) (elections_runOf acts) (entries_runOf acts)
      (replication_runOf acts) (bounded_runOf acts)

theorem step_heard_accept {i k : ℕ} {q : Fin n} {r : HeartBeat n}
    {c : Call (AppendEntriesArgs n) AppendEntriesReply} {reply : AppendEntriesReply}
    (hI : s.Indexed) (hN : s.Entries) (hB : s.Bounded) (h : s.heard i q k = some (r, c, reply))
    (hsucc : reply.success = true) : (s.step (.sendAppendEntries i q k)).nodes r.owner =
      (s.nodes r.owner).accept q c.args r.counter := by
  obtain ⟨hr, hc, hk, ht, hex, hh⟩ := heard_eq_some.mp h
  have hlen := (hI.shaped hr hc).length
  have hround := (hN.round r (List.mem_of_getElem? hr)).2
  have hcommit := (hI.node r.owner).commit_le
  have hm : (s.nodes r.owner).matchedBy q c.args ≤ (s.nodes r.owner).getLastLogIndex :=
    max_le (hB.leader _ hh.2.2 q).match_le (by omega)
  have hc' : ((s.nodes r.owner).accept q c.args r.counter).commitIndex ≤
      (s.nodes r.owner).getLastLogIndex := by
    simp only [Raft.accept]
    split_ifs <;> omega
  simp only [step, hr, hc, ht, hk, onNode, hex, Raft.sendAppendEntries_accept hh hsucc hm hc']
  exact Function.update_self _ _ _

theorem Counted.acknowledged (h : s.Counted) (hI : s.Indexed) (hN : s.Entries)
    (hR : s.Replication) {i k : ℕ} {q : Fin n} {r : HeartBeat n}
    {c : Call (AppendEntriesArgs n) AppendEntriesReply} {reply : AppendEntriesReply}
    (hheard : s.heard i q k = some (r, c, reply)) (hsucc : reply.success = true)
    (hcomp : (s.nodes r.owner).Completes c.args r.counter)
    (hlt : (s.nodes r.owner).commitIndex < r.info.lastLogIndex) :
    ∃ e, ((s.nodes r.owner).accept q c.args r.counter).Acknowledged e ∧
      e.logIndex = r.info.lastLogIndex := by
  obtain ⟨round, call, answer, taken, -, happ, hterm, hl⟩ := heard_eq_some.mp hheard
  have hr := List.mem_of_getElem? round
  have hshape := hI.shaped round call
  have hlen := hshape.length
  obtain ⟨e, he, heT⟩ := (Option.any_eq_true _ _).mp hcomp.2
  rw [decide_eq_true_iff] at heT
  have hidx : e.logIndex = r.info.lastLogIndex := by
    have hlast := hshape.numbered.getLast he
    omega
  have hreq : s.Requested e := ⟨r, hr, q, c.args, ⟨c, call, rfl⟩, List.mem_of_getLast? he⟩
  have hmem : e ∈ (s.nodes r.owner).logs := by
    refine (hN.leader r.owner e hl (Or.inr hreq) heT).resolve_right fun hle => ?_
    have := (hI.node r.owner).snap_le
    have := (hI.node r.owner).applied_le
    omega
  refine ⟨e, ⟨hmem, heT, ?_⟩, hidx⟩
  have hlead : s.Leads r.owner r.info.term := by
    refine ⟨hl, hterm.symm.trans ?_⟩
    exact hR.replyTerm r hr q reply ⟨c, call, List.mem_of_getElem? answer⟩ hsucc
  rw [Raft.holders_accept, if_pos (by omega)]
  have hsub : insert r.owner ((r.take q reply 0).passed (·.success)) ⊆
      insert q ((s.nodes r.owner).holders e.logIndex) := by
    intro q' hq'
    rw [mem_insert, Raft.mem_holders]
    rcases mem_insert.mp hq' with rfl | hq'
    · exact Or.inr (Or.inl (hI.me _).symm)
    · rcases (Round.mem_passed_take call taken).mp hq' with ⟨rfl, -⟩ | hq'
      · exact Or.inl rfl
      · exact Or.inr (Or.inr (hidx.le.trans (h.known r hr hlead q' hq')))
  have hcard := card_le_card hsub
  have htally := hR.tally hI hr call taken hsucc
  have hq := hcomp.1
  omega

def RulesAgree (acts : List (Action n)) : Prop :=
  ∀ before i q k after, acts = before ++ Action.sendAppendEntries i q k :: after →
    ∀ r c reply, (runOf before).heard i q k = some (r, c, reply) → reply.success = true →
      ∃ rf, ((runOf (before ++ [.sendAppendEntries i q k])).nodes r.owner).leaderUpdateCommitIndex =
          .ok rf ∧
        ((runOf (before ++ [.sendAppendEntries i q k])).nodes r.owner).commitIndex =
          max ((runOf before).nodes r.owner).commitIndex rf.commitIndex

theorem rulesAgree_of_tallies {acts : List (Action n)} (h : Along step Tallies (init n) acts) :
    RulesAgree acts := by
  intro before i q k after heq r c reply hheard hsucc
  have hI := indexed_runOf before
  have hN := entries_runOf before
  have hnode := step_heard_accept hI hN (bounded_runOf before) hheard hsucc
  have hI' := indexed_runOf (before ++ [.sendAppendEntries i q k])
  have hsplit : acts = (before ++ [.sendAppendEntries i q k]) ++ after := by simp [heq]
  have hcounted := counted_runOf (along_append.mp (heq ▸ h)).1
  have hcounted' := counted_runOf (along_append.mp (hsplit ▸ h)).1
  obtain ⟨round, call, -, -, -, -, -, hl⟩ := heard_eq_some.mp hheard
  have hshape := hI.shaped round call
  have hlen := hshape.length
  have hn : n ≠ 1 := by
    rintro rfl
    exact hshape.other (Subsingleton.elim _ _)
  have hidx := hI'.node r.owner
  obtain ⟨v, hv, hcase, hmax⟩ := Raft.leaderUpdateCommitIndex_ok hidx.contiguous
    (hidx.snap_le.trans (hidx.applied_le.trans hidx.commit_le))
  refine ⟨_, hv, ?_⟩
  have hsnap := hidx.snap_le.trans hidx.applied_le
  have hmono := (hI.advances (step_spec _ (.sendAppendEntries i q k)) r.owner).commit
  have hack := hcounted'.committed hn r.owner
  rw [runOf_concat] at hcase hmax hsnap hack ⊢
  rw [hnode] at hcase hmax hsnap hmono hack ⊢
  apply le_antisymm
  · by_cases hraise : ((runOf before).nodes r.owner).Completes c.args r.counter ∧
        ((runOf before).nodes r.owner).commitIndex < r.info.lastLogIndex
    · obtain ⟨e, he, heidx⟩ := hcounted.acknowledged hI hN (replication_runOf before) hheard hsucc
        hraise.1 hraise.2
      have hle := hmax e he
      have hcommit : ((runOf before).nodes r.owner |>.accept q c.args r.counter).commitIndex =
          r.info.lastLogIndex := by
        simp only [Raft.accept, if_pos hraise.1]
        omega
      rw [hcommit]
      exact le_max_of_le_right (heidx ▸ hle)
    · refine le_max_of_le_left ?_
      simp only [Raft.accept]
      split_ifs with hcomp
      · exact max_le le_rfl (hlen.trans_le (not_lt.mp fun hlt => hraise ⟨hcomp, hlt⟩))
      · exact le_rfl
  · refine max_le hmono ?_
    rcases hcase with rfl | ⟨e, he, rfl⟩
    · exact hsnap
    · exact hack hl e he

theorem rulesAgree_commitRun :
    RulesAgree (commitRun ++ [.sendAppendEntries 0 1 0, .start 0 "b", .doHeartBeat 0,
      .appendEntries1 1 1, .sendAppendEntries 1 1 0]) :=
  rulesAgree_of_tallies (by decide +kernel)

/-- The nodes `p` and `q` acknowledge the same entry of the leader in two different rounds. -/
def spreadRun (leader p q : Fin 5) : List (Action 5) :=
  [.doElection leader, .requestVote 0 p, .requestVote 0 q, .sendRequestVote 0 p 0,
    .sendRequestVote 0 q 0, .start leader "a", .doHeartBeat leader, .appendEntries1 0 p,
    .sendAppendEntries 0 p 0, .doHeartBeat leader, .appendEntries1 1 q]

theorem spread_acknowledgements_uncommitted :
    ¬∀ (n : ℕ) (acts : List (Action n)), RulesAgree acts := by
  intro h
  have hsome : ((runOf (spreadRun 0 1 2)).heard 1 2 0).any
      (fun x => x.1.owner = 0 ∧ x.2.2.success = true) = true := by decide +kernel
  obtain ⟨⟨r, c, reply⟩, hheard, hx⟩ := (Option.any_eq_true _ _).mp hsome
  obtain ⟨hown, hsucc⟩ := of_decide_eq_true hx
  dsimp only at hown hsucc
  obtain ⟨rf, hrf, hcommit⟩ := h 5 _ (spreadRun 0 1 2) 1 2 0 [] rfl r c reply hheard hsucc
  rw [hown] at hrf hcommit
  have hrule : ((runOf (spreadRun 0 1 2 ++ [.sendAppendEntries 1 2 0])).nodes
      0).leaderUpdateCommitIndex.map (·.commitIndex) = .ok 1 := by decide +kernel
  rw [hrf] at hrule
  have hone : rf.commitIndex = 1 := Except.ok.inj hrule
  rw [hone] at hcommit
  exact absurd hcommit (by decide +kernel)

end Cluster
end RaftStorage
