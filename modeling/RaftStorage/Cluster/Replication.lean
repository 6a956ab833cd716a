import RaftStorage.Cluster.Entries

/-! Delivering `AppendEntries` and counting the answers. An acknowledgement means that the follower
holds the last entry of the round; as long as the follower stays in the term it keeps holding it,
however the requests of the term are delivered. -/

namespace RaftStorage
open Library Finset
namespace Cluster

variable {n : ℕ} {s s' : Cluster n} {a : Action n} {e : LogEntry} {p : Fin n}

theorem Step.requested_mono (hs : Step s a s') (he : s.Requested e) : s'.Requested e := by
  obtain ⟨r, hr, p, args, hsent, hmem⟩ := he
  cases hs with
  | doElection => rename_i out _; cases out <;> exact ⟨r, hr, p, args, hsent, hmem⟩
  | doHeartBeat =>
    rename_i out _
    cases out with
    | none => exact ⟨r, hr, p, args, hsent, hmem⟩
    | some sends => exact ⟨r, List.mem_append_left _ hr, p, args, hsent, hmem⟩
  | appendEntries1 =>
    rename_i i q _ _ _ reply _ _ _
    rcases mem_modify_of_mem hr i (·.respond q reply) with hr | ⟨-, hr⟩
    · exact ⟨r, hr, p, args, hsent, hmem⟩
    · exact ⟨_, hr, p, args, Round.sent_respond.mpr hsent, hmem⟩
  | sendAppendEntries =>
    rename_i i q _ _ _ reply _ num _ _ _ _ _
    rcases mem_modify_of_mem hr i (·.take q reply num) with hr | ⟨-, hr⟩
    · exact ⟨r, hr, p, args, hsent, hmem⟩
    · exact ⟨_, hr, p, args, Round.sent_take.mpr hsent, hmem⟩
  | _ => exact ⟨r, hr, p, args, hsent, hmem⟩

def Keeps (s : Cluster n) (p : Fin n) (e : LogEntry) : Prop :=
  e.logTerm ≤ (s.nodes p).currentTerm ∧
    ((s.nodes p).currentTerm = e.logTerm → (s.nodes p).Holds e)

theorem Keeps.step (h : s.Keeps p e) (hN : s.Entries) (hI : s.Indexed) (he : s.Requested e)
    (hs : Step s a s') : s'.Keeps p e := by
  have hmono := (hI.vote_move hs p).term_le
  refine ⟨h.1.trans hmono, fun hterm => ?_⟩
  have hold := h.2 (le_antisymm (hterm ▸ hmono) h.1)
  cases hI.log_move hs p with
  | kept logs snap =>
    unfold Raft.Holds
    rwa [logs, snap]
  | started _ _ logs snap =>
    unfold Raft.Holds
    rw [logs, snap]
    exact hold.imp_left (List.mem_append_left _)
  | @merged r args mem sent log term =>
    refine log.holds (fun e' he' hidx => ?_) hold
    have hshape := hI.request r mem p args sent
    have hb := hshape.numbered.bounds he'
    have hlen := hshape.length
    -- the request has the leader's entries of the term from its first index on, so also `e`
    have hmem := hN.covered r mem p args sent e (Or.inr he) (by rw [← hshape.term, ← term, hterm])
      (by omega) (by omega)
    rw [hshape.numbered.unique he' hmem hidx]
  | cut log index => exact log.holds index.le hold

theorem Keeps.run {acts : List (Action n)} (h : (runOf acts).Keeps p e)
    (he : (runOf acts).Requested e) (post : List (Action n)) : (runOf (acts ++ post)).Keeps p e := by
  have hboth : (runOf (acts ++ post)).Keeps p e ∧ (runOf (acts ++ post)).Requested e := by
    induction post using List.reverseRecOn with
    | nil => simpa using ⟨h, he⟩
    | append_singleton post a ih =>
      rw [← List.append_assoc, runOf_concat]
      exact ⟨ih.1.step (entries_runOf _) (indexed_runOf _) ih.2 (step_spec _ a),
        (step_spec _ a).requested_mono ih.2⟩
  exact hboth.1

/-- The entry at the round's last index, of the round's own term. -/
def Closing (r : HeartBeat n) (e : LogEntry) : Prop :=
  (∃ p args, r.Sent p args ∧ e ∈ args.entries) ∧ e.logIndex = r.info.lastLogIndex ∧
    e.logTerm = r.info.term

structure Replication (s : Cluster n) : Prop where
  matched : ∀ r ∈ s.heartBeats, r.Matched
  replyTerm : ∀ r ∈ s.heartBeats, ∀ p reply, r.Answered p reply → reply.success = true →
    reply.term = r.info.term
  counter : ∀ r ∈ s.heartBeats, r.counter ≤ 1 + (r.passed (·.success)).card
  closing : ∀ r ∈ s.heartBeats, ∀ p args, r.Sent p args → ∀ e, Closing r e →
    e ∈ args.entries ∨ args.prevLogIndex = e.logIndex ∧ args.prevLogTerm = e.logTerm

theorem replication_init (n : ℕ) : (init n).Replication where
  matched := by simp [init]
  replyTerm := by simp [init]
  counter := by simp [init]
  closing := by simp [init]

theorem not_answered_newHeartBeat {q : Fin n} {rf : Raft n} {reply : AppendEntriesReply}
    {sends : Fin n → Option (Raft.HeartBeatSend n)} :
    ¬(newHeartBeat p rf sends).Answered q reply := by
  rintro ⟨c, hc, hmem⟩
  simp only [newHeartBeat] at hc
  split at hc
  · obtain rfl := Option.some.inj hc
    simp [Call.start] at hmem
  · cases hc

theorem matched_newHeartBeat {rf : Raft n} {sends : Fin n → Option (Raft.HeartBeatSend n)} :
    (newHeartBeat p rf sends).Matched := by
  intro q c reply hc ht
  simp only [newHeartBeat] at hc
  split at hc
  · obtain rfl := Option.some.inj hc
    cases ht
  · cases hc

theorem Closing.congr {r r' : HeartBeat n} (h : Closing r' e) (hinfo : r'.info = r.info)
    (hsent : ∀ p args, r'.Sent p args → r.Sent p args) : Closing r e := by
  obtain ⟨⟨p, args, hs, he⟩, hidx, hterm⟩ := h
  exact ⟨⟨p, args, hsent p args hs, he⟩, hinfo ▸ hidx, hinfo ▸ hterm⟩

theorem Replication.closing_step (h : s.Replication) (hI : s.Indexed) (hs : Step s a s') :
    ∀ r ∈ s'.heartBeats, ∀ p args, r.Sent p args → ∀ e, Closing r e →
      e ∈ args.entries ∨ args.prevLogIndex = e.logIndex ∧ args.prevLogTerm = e.logTerm := by
  intro r hr p args hsent e hcl
  cases hs.heartBeat_origin r hr with
  | old mem => exact h.closing r mem p args hsent e hcl
  | @sent o sends _ leader eval =>
    obtain ⟨⟨q, args', hsent', he⟩, hidx, -⟩ := hcl
    have hb := (hI.built eval hsent).2
    have hc := (hI.node o).contiguous
    have hmem := (((hI.built eval hsent').2.mem hc).mp he).1
    by_cases hlt : args.prevLogIndex < e.logIndex
    · exact Or.inl ((hb.mem hc).mpr ⟨hmem, hlt⟩)
    · -- the request is empty: its previous entry is the leader's last one
      have hlen := hb.length
      have hlast : e.logIndex = (s.nodes o).getLastLogIndex := hidx
      have heq : args.prevLogIndex = e.logIndex := by omega
      refine Or.inr ⟨heq, hc.termAt_unique hb.prevTerm ?_⟩
      exact Or.inr ⟨e, hmem, heq.symm, rfl⟩
  | @answered i q r c rf reply _ mem =>
    exact h.closing r mem p args (Round.sent_respond.mp hsent) e
      (hcl.congr rfl fun _ _ => Round.sent_respond.mp)
  | @taken i q k r c reply rf num _ mem =>
    exact h.closing r mem p args (Round.sent_take.mp hsent) e
      (hcl.congr rfl fun _ _ => Round.sent_take.mp)

theorem Replication.replies_step (h : s.Replication) (hI : s.Indexed) (hs : Step s a s') :
    ∀ r ∈ s'.heartBeats, r.Matched ∧ ∀ p reply, r.Answered p reply → reply.success = true →
      reply.term = r.info.term := by
  intro r hr
  cases hs.heartBeat_origin r hr with
  | old mem => exact ⟨h.matched r mem, h.replyTerm r mem⟩
  | sent =>
    exact ⟨matched_newHeartBeat, fun p reply hans => absurd hans not_answered_newHeartBeat⟩
  | @answered i q r c rf reply _ mem call eval =>
    refine ⟨(h.matched r mem).respond _ _, fun p reply' hans hsucc => ?_⟩
    rcases Round.answered_respond hans with hans | ⟨rfl, rfl⟩
    · exact h.replyTerm r mem p reply' hans hsucc
    · have hshape := hI.request r mem p c.args ⟨c, call, rfl⟩
      cases Raft.appendEntries1_cases (hI.node p).contiguous hshape.numbered eval with
      | stale _ _ answer =>
        rw [answer] at hsucc
        cases hsucc
      | rejected _ _ _ _ _ success =>
        rw [hsucc] at success
        cases success
      | merged _ _ _ _ _ _ replyTerm => exact replyTerm.trans hshape.term
  | taken mem call taken answer =>
    exact ⟨(h.matched _ mem).take ⟨_, call, answer⟩ _, fun p reply hans hsucc =>
      h.replyTerm _ mem p reply (Round.answered_take.mp hans) hsucc⟩

theorem Replication.counter_step (h : s.Replication) (hs : Step s a s') :
    ∀ r ∈ s'.heartBeats, r.counter ≤ 1 + (r.passed (·.success)).card := by
  intro r hr
  cases hs.heartBeat_origin r hr with
  | old mem => exact h.counter r mem
  | sent =>
    simp only [newHeartBeat]
    omega
  | answered mem =>
    rw [Round.passed_respond]
    exact h.counter _ mem
  | taken mem call taken answer eval =>
    have hcount := h.counter _ mem
    rw [Round.card_passed_take call taken, Round.take_counter]
    obtain ⟨-, ⟨-, rfl | ⟨rfl, hsucc⟩ | ⟨rfl, -⟩⟩ | ⟨-, -, -, -, -, -, -, -, -, rfl, -⟩⟩ :=
      Raft.sendAppendEntries_cases eval
    · push_cast
      split_ifs <;> omega
    · rw [if_pos hsucc]
      push_cast
      omega
    · omega
    · omega

theorem Replication.step (h : s.Replication) (hI : s.Indexed) (hs : Step s a s') :
    s'.Replication where
  matched := fun r hr => (h.replies_step hI hs r hr).1
  replyTerm := fun r hr => (h.replies_step hI hs r hr).2
  counter := h.counter_step hs
  closing := h.closing_step hI hs

theorem replication_runOf (acts : List (Action n)) : (runOf acts).Replication := by
  have h := run_invariant (P := fun s : Cluster n => s.Indexed ∧ s.Replication)
    ⟨indexed_init n, replication_init n⟩
    (fun s a h => ⟨h.1.step (step_spec s a), h.2.step h.1 (step_spec s a)⟩) acts
  exact h.2

theorem Entries.holds_closing (hN : s.Entries) (hI : s.Indexed) (hR : s.Replication)
    {r : HeartBeat n} {args : AppendEntriesArgs n} {rf : Raft n} (hr : r ∈ s.heartBeats)
    (hsent : r.Sent p args) (hcl : Closing r e) (hm : Raft.AppendMerged (s.nodes p) rf args) :
    rf.Holds e := by
  have hshape := hI.request r hr p args hsent
  have hpres : s.Present e := by
    obtain ⟨⟨q, args', hsent', he⟩, -⟩ := hcl
    exact Or.inr ⟨r, hr, q, args', hsent', he⟩
  -- an entry of the follower with the same index and term is the closing entry itself
  have hown : ∀ o ∈ (s.nodes p).logs, o.logIndex = e.logIndex → o.logTerm = e.logTerm → o = e :=
    fun o ho hidx hterm => hN.unique o e (Or.inl ⟨p, ho⟩) hpres hidx hterm
  rcases hR.closing r hr p args hsent e hcl with he | ⟨hprev, hpterm⟩
  · by_cases hold : e ∈ (s.nodes p).logs
    · refine Or.inl ((hm.mem e).mpr (Or.inl ⟨hold, fun e' he' hidx => ?_⟩))
      rw [hshape.numbered.unique he' he hidx]
    · refine Or.inl ((hm.mem e).mpr (Or.inr ⟨he, fun o ho hidx hterm => hold ?_⟩))
      exact hown o ho hidx hterm ▸ ho
  · rcases hm.prevTerm with ⟨hsnap, -⟩ | ⟨o, ho, hidx, hterm⟩
    · exact Or.inr (by rw [hm.snapIndex, ← hsnap, hprev])
    · obtain rfl := hown o ho (hidx.trans hprev) (hterm.trans hpterm)
      refine Or.inl ((hm.mem o).mpr (Or.inl ⟨ho, fun e' he' hi => ?_⟩))
      have := hshape.numbered.bounds he'
      omega

theorem acknowledged_held (acts : List (Action n)) : ∀ r ∈ (runOf acts).heartBeats, ∀ q reply,
    r.Answered q reply → reply.success = true → ∀ e, Closing r e → ∃ pre, pre <+: acts ∧
      (runOf pre).Requested e ∧ ((runOf pre).nodes q).currentTerm = e.logTerm ∧
      ((runOf pre).nodes q).Holds e := by
  -- the step that answers is found from the end of the run; every other step keeps the answers
  induction acts using List.reverseRecOn with
  | nil =>
    intro r hr
    cases hr
  | append_singleton acts a ih =>
    rw [runOf_concat]
    intro r hr q reply hans hsucc e hcl
    have hs := step_spec (runOf acts) a
    have hI := indexed_runOf acts
    have hweaken : (∃ pre, pre <+: acts ∧ (runOf pre).Requested e ∧
        ((runOf pre).nodes q).currentTerm = e.logTerm ∧ ((runOf pre).nodes q).Holds e) →
        ∃ pre, pre <+: acts ++ [a] ∧ (runOf pre).Requested e ∧
          ((runOf pre).nodes q).currentTerm = e.logTerm ∧ ((runOf pre).nodes q).Holds e := by
      rintro ⟨pre, hpre, hrest⟩
      exact ⟨pre, hpre.trans (List.prefix_append _ _), hrest⟩
    cases hs.heartBeat_origin r hr with
    | old mem => exact hweaken (ih r mem q reply hans hsucc e hcl)
    | sent => exact absurd hans not_answered_newHeartBeat
    | @answered i p r c rf reply' _ mem call eval node =>
      have hcl' : Closing r e := hcl.congr rfl fun _ _ => Round.sent_respond.mp
      rcases Round.answered_respond hans with hans | ⟨rfl, rfl⟩
      · exact hweaken (ih r mem q reply hans hsucc e hcl')
      · have hshape := hI.request r mem q c.args ⟨c, call, rfl⟩
        refine ⟨acts ++ [Action.appendEntries1 i q], List.prefix_rfl, ?_⟩
        rw [runOf_concat]
        obtain ⟨⟨p', args', hsent', he'⟩, -, hterm⟩ := id hcl'
        refine ⟨hs.requested_mono ⟨r, mem, p', args', hsent', he'⟩, ?_⟩
        rw [node]
        cases Raft.appendEntries1_cases (hI.node q).contiguous hshape.numbered eval with
        | stale _ _ answer =>
          rw [answer] at hsucc
          cases hsucc
        | rejected _ _ _ _ _ success =>
          rw [hsucc] at success
          cases success
        | merged _ log _ term =>
          exact ⟨by rw [term, hshape.term, hterm], (entries_runOf acts).holds_closing hI
            (replication_runOf acts) mem ⟨c, call, rfl⟩ hcl' log⟩
    | taken mem =>
      exact hweaken (ih _ mem q reply (Round.answered_take.mp hans) hsucc e
        (hcl.congr rfl fun _ _ => Round.sent_take.mp))

theorem Replication.tally (h : s.Replication) (hI : s.Indexed) {r : HeartBeat n}
    {c : Call (AppendEntriesArgs n) AppendEntriesReply} {reply : AppendEntriesReply}
    (hr : r ∈ s.heartBeats) (hc : r.calls p = some c) (ht : c.taken = none)
    (hsucc : reply.success = true) : r.counter + 1 ≤
      (insert r.owner ((r.take p reply 0).passed (·.success))).card := by
  have hcount := h.counter r hr
  have hcard : ((r.take p reply 0).passed (·.success)).card = _ := Round.card_passed_take hc ht
  rw [if_pos hsucc] at hcard
  have ho : r.owner ∉ (r.take p reply 0).passed (·.success) := by
    intro hown
    obtain ⟨c₁, _, hc₁, -⟩ := Round.mem_passed.mp hown
    exact (hI.request r hr _ c₁.args (Round.sent_take.mp ⟨c₁, hc₁, rfl⟩)).other rfl
  rw [card_insert_of_notMem ho]
  omega

theorem Replication.majority (h : s.Replication) (hI : s.Indexed) {r : HeartBeat n}
    {c : Call (AppendEntriesArgs n) AppendEntriesReply} {reply : AppendEntriesReply}
    (hr : r ∈ s.heartBeats) (hc : r.calls p = some c) (ht : c.taken = none)
    (hmem : reply ∈ c.replies) (hsucc : reply.success = true)
    (hq : ((1 + n / 2 : ℕ) : ℤ) ≤ r.counter + 1) :
    ∃ Q : Finset (Fin n), n / 2 + 1 ≤ Q.card ∧ r.owner ∈ Q ∧
      ∀ q ∈ Q, q = r.owner ∨ ∃ reply, r.Answered q reply ∧ reply.success = true := by
  have htally := h.tally hI hr hc ht hsucc
  refine ⟨insert r.owner ((r.take p reply 0).passed (·.success)), ?_, mem_insert_self _ _, ?_⟩
  · omega
  · intro q hq
    rcases mem_insert.mp hq with rfl | hq
    · exact Or.inl rfl
    · obtain ⟨reply', hans, hsucc'⟩ := ((h.matched r hr).take ⟨c, hc, hmem⟩ 0).answered hq
      exact Or.inr ⟨reply', Round.answered_take.mp hans, hsucc'⟩

/-- A majority with `L` that has held the entry in its term by the end of the run `acts`, each
member of which holds it at the end of every longer run that finds it in the term. -/
def Backed (acts : List (Action n)) (L : Fin n) (e : LogEntry) : Prop :=
  ∃ Q : Finset (Fin n), n / 2 + 1 ≤ Q.card ∧ L ∈ Q ∧ ∀ q ∈ Q,
    (∃ pre, pre <+: acts ∧ ((runOf pre).nodes q).currentTerm = e.logTerm ∧
      ((runOf pre).nodes q).Holds e) ∧
    ∀ post, ((runOf (acts ++ post)).nodes q).currentTerm = e.logTerm →
      ((runOf (acts ++ post)).nodes q).Holds e

theorem held_later {pre acts : List (Action n)} (hpre : pre <+: acts)
    (hreq : (runOf pre).Requested e) (hterm : ((runOf pre).nodes p).currentTerm = e.logTerm)
    (hold : ((runOf pre).nodes p).Holds e) (post : List (Action n))
    (hlater : ((runOf (acts ++ post)).nodes p).currentTerm = e.logTerm) :
    ((runOf (acts ++ post)).nodes p).Holds e := by
  obtain ⟨rest, rfl⟩ := hpre
  rw [List.append_assoc] at hlater ⊢
  have hkeep : (runOf pre).Keeps p e := ⟨hterm.ge, fun _ => hold⟩
  exact (hkeep.run hreq _).2 hlater

/-- Whenever an answer makes the leader raise its commit index, the entry there is of its term and
a majority backs it. -/
theorem commit_backed (acts : List (Action n)) (i : ℕ) (p : Fin n) (k : ℕ) (L : Fin n)
    (hraise : ((runOf acts).nodes L).commitIndex <
      ((runOf (acts ++ [.sendAppendEntries i p k])).nodes L).commitIndex) :
    let rf := (runOf (acts ++ [.sendAppendEntries i p k])).nodes L
    rf.status = .leader ∧ ∃ e ∈ rf.logs, e.logIndex = rf.commitIndex ∧
      e.logTerm = rf.currentTerm ∧ Backed (acts ++ [.sendAppendEntries i p k]) L e := by
  intro rf
  have hI := indexed_runOf acts
  have hs := step_spec (runOf acts) (.sendAppendEntries i p k)
  rw [← runOf_concat] at hs
  have hrf : rf = (runOf (acts ++ [.sendAppendEntries i p k])).nodes L := rfl
  rw [← hrf] at hraise
  clear_value rf
  generalize hs' : runOf (acts ++ [.sendAppendEntries i p k]) = s' at hs hrf
  cases hs with
  | idle => exact absurd hraise (hrf ▸ lt_irrefl _)
  | exit => exact absurd hraise (hrf ▸ lt_irrefl _)
  | push message action =>
    rcases action with ⟨h, -⟩ | h <;> cases h
  | @sendAppendEntries _ _ _ r c reply rf₁ num round call taken answer eval =>
    have hL : L = r.owner := by
      by_contra hne
      rw [hrf] at hraise
      exact absurd hraise (by
        change ¬_ < ((setNode _ r.owner rf₁).nodes L).commitIndex
        rw [setNode_nodes_of_ne hne]
        exact lt_irrefl _)
    subst hL
    have hnode : rf = rf₁ := hrf.trans setNode_nodes_self
    subst hnode
    obtain ⟨-, ⟨hsame, -⟩ | ⟨hlogs, -, -, -, hl, hl', hcur, hrt, hsucc, -, hq, ⟨e, he, heT⟩, hcom, -⟩⟩ :=
      Raft.sendAppendEntries_cases eval
    -- only the answer that reaches the threshold moves the commit index
    · rw [hsame.commit] at hraise
      exact absurd hraise (lt_irrefl _)
    have hr := List.mem_of_getElem? round
    have hshape := hI.shaped round call
    have hR := replication_runOf acts
    have hans : r.Answered p reply := ⟨c, call, List.mem_of_getElem? answer⟩
    have hmem := List.mem_of_getLast? he
    have hlen := hshape.length
    have hidx : e.logIndex = r.info.lastLogIndex := by
      have hlast := hshape.numbered.getLast he
      omega
    have hcommit : rf.commitIndex = r.info.lastLogIndex := by omega
    have hT : e.logTerm = r.info.term := by
      rw [heT, ← hrt]
      exact hR.replyTerm r hr p reply hans hsucc
    have hcl : Closing r e := ⟨⟨p, c.args, ⟨c, call, rfl⟩, hmem⟩, hidx, hT⟩
    have hreq : (runOf acts).Requested e := ⟨r, hr, p, c.args, ⟨c, call, rfl⟩, hmem⟩
    -- the owner still leads the term of the entry, so it has not dropped it
    have hlead := (entries_runOf acts).leader r.owner e hl (Or.inr hreq) heT
    refine ⟨hl', e, ?_, by omega, by rw [hcur, heT], ?_⟩
    · rw [hlogs]
      refine hlead.resolve_right fun hle => ?_
      have hp := hI.node r.owner
      have := hp.snap_le
      have := hp.applied_le
      omega
    obtain ⟨Q, hcard, hown, hQ⟩ := hR.majority hI hr call taken (List.mem_of_getElem? answer) hsucc hq
    refine ⟨Q, hcard, hown, fun q hq => ?_⟩
    have hheld : ∃ pre, pre <+: acts ∧ (runOf pre).Requested e ∧
        ((runOf pre).nodes q).currentTerm = e.logTerm ∧ ((runOf pre).nodes q).Holds e := by
      rcases hQ q hq with rfl | ⟨reply', hans', hsucc'⟩
      · exact ⟨acts, List.prefix_rfl, hreq, heT.symm, hlead⟩
      · exact acknowledged_held acts r hr q reply' hans' hsucc' e hcl
    obtain ⟨pre, hpre, hreq', hterm, hold⟩ := hheld
    have hpre' := hpre.trans (List.prefix_append acts [Action.sendAppendEntries i p k])
    exact ⟨⟨pre, hpre', hterm, hold⟩, held_later hpre' hreq' hterm hold⟩

abbrev leading : Fin 3 := 0

abbrev following : Fin 3 := 1

abbrev lagging : Fin 3 := 2

/-- The first node is elected, gets one command and replicates it to the second. -/
def commitRun : List (Action 3) :=
  [.doElection leading, .requestVote 0 following, .sendRequestVote 0 following 0,
    .start leading "a", .doHeartBeat leading, .appendEntries1 0 following]

theorem commit_backed_commitRun :
    ((runOf commitRun).nodes 0).commitIndex = 0 ∧
      ∃ e ∈ ((runOf (commitRun ++ [.sendAppendEntries 0 1 0])).nodes 0).logs,
        Backed (commitRun ++ [.sendAppendEntries 0 1 0]) 0 e := by
  refine ⟨by decide, ?_⟩
  obtain ⟨-, e, he, -, -, hb⟩ := commit_backed commitRun 0 1 0 0 (by decide)
  exact ⟨e, he, hb⟩

/-! ## Requests below the snapshot -/

/-- The request is answered, and one that starts below the snapshot is refused with a hint and
leaves the log and the commit index alone. -/
def Answers (rf : Raft n) (args : AppendEntriesArgs n) : Prop :=
  ∃ rf' reply, rf.appendEntries1 args = .ok (rf', reply) ∧
    (args.prevLogIndex < rf.lastSnapshotIncludeIndex →
      reply.success = false ∧ reply.updateNextIndex = rf.lastSnapshotIncludeIndex + 1 ∧
        rf'.logs = rf.logs ∧ rf'.commitIndex = rf.commitIndex)

/-- A delivered request is answered so exactly when it does not start below the snapshot; one that
does ends the process unless its term is outdated. -/
theorem delivered_answers_iff (acts : List (Action n)) {r : HeartBeat n} {p : Fin n}
    {args : AppendEntriesArgs n} (hr : r ∈ (runOf acts).heartBeats) (hsent : r.Sent p args) :
    (Answers ((runOf acts).nodes p) args ↔
      ((runOf acts).nodes p).lastSnapshotIncludeIndex ≤ args.prevLogIndex) ∧
    ((∃ err, ((runOf acts).nodes p).appendEntries1 args = .error err) ↔
      ¬args.term < ((runOf acts).nodes p).currentTerm ∧
        args.prevLogIndex < ((runOf acts).nodes p).lastSnapshotIncludeIndex) := by
  have hI := indexed_runOf acts
  have hp := hI.node p
  have hnum := (hI.request r hr p args hsent).numbered
  have hsnap := hp.snap_nonneg
  have hlast : ((runOf acts).nodes p).lastSnapshotIncludeIndex ≤
      ((runOf acts).nodes p).getLastLogIndex :=
    hp.snap_le.trans (hp.applied_le.trans hp.commit_le)
  have herr : ∀ err, ((runOf acts).nodes p).appendEntries1 args = .error err →
      ¬args.term < ((runOf acts).nodes p).currentTerm ∧
        args.prevLogIndex < ((runOf acts).nodes p).lastSnapshotIncludeIndex := by
    intro err h
    obtain ⟨hT, -, ⟨hlo, -⟩ | ⟨-, -, old, hold, e, he, hidx, hterm, hne⟩⟩ :=
      Raft.appendEntries1_error hp.contiguous hnum hp.commit_le h
    · exact ⟨hT, hlo⟩
    -- an assertion on equal commands cannot fail: index and term fix the entry
    · have heq := (entries_runOf acts).unique old e (Or.inl ⟨p, hold⟩)
        (Or.inr ⟨r, hr, p, args, hsent, he⟩) hidx hterm
      exact absurd (congrArg LogEntry.command heq) hne
  refine ⟨⟨fun h => ?_, fun hle => ?_⟩, ⟨fun ⟨err, h⟩ => herr err h, fun ⟨hT, hlo⟩ => ?_⟩⟩
  · by_contra hlo
    rw [not_le] at hlo
    obtain ⟨rf', reply, hok, himp⟩ := h
    by_cases hT : args.term < ((runOf acts).nodes p).currentTerm
    · rw [Raft.appendEntries1_stale hT] at hok
      obtain ⟨-, rfl⟩ := Prod.mk.inj (Except.ok.inj hok)
      have := (himp hlo).2.1
      dsimp only at this
      omega
    · rw [Raft.appendEntries1_below hT hlo hlast] at hok
      cases hok
  · cases h : ((runOf acts).nodes p).appendEntries1 args with
    | error err => exact absurd (herr err h).2 (not_lt.mpr hle)
    | ok out => exact ⟨out.1, out.2, h, fun hlo => absurd hlo (not_lt.mpr hle)⟩
  · exact ⟨_, Raft.appendEntries1_below hT hlo hlast⟩

/-- After `commitRun` the second node learns of the commit, applies the command and takes a
snapshot, while the first request may be delivered once more. -/
def compactedRun : List (Action 3) :=
  commitRun ++ [.sendAppendEntries 0 following 0, .doHeartBeat leading,
    .appendEntries1 1 following, .getApplyLogs following, .snapshot following 1 "s"]

theorem exists_sent {s : Cluster n} {i : ℕ} {p : Fin n} {args : AppendEntriesArgs n}
    (h : ((s.heartBeats[i]?).bind (·.calls p)).map Call.args = some args) :
    ∃ r ∈ s.heartBeats, r.Sent p args := by
  obtain ⟨c, hc, rfl⟩ := Option.map_eq_some_iff.mp h
  obtain ⟨r, hr, hcall⟩ := Option.bind_eq_some_iff.mp hc
  exact ⟨r, List.mem_of_getElem? hr, c, hcall, rfl⟩

theorem delivered_answers_compactedRun :
    ∃ r ∈ (runOf compactedRun).heartBeats, ∃ args, r.Sent 1 args ∧
      Answers ((runOf compactedRun).nodes 1) args := by
  have heval : (((runOf compactedRun).heartBeats[1]?).bind (·.calls 1)).map Call.args =
      some ⟨1, 0, 1, 1, [], 1⟩ := by decide
  obtain ⟨r, hr, hsent⟩ := exists_sent heval
  exact ⟨r, hr, _, hsent, (delivered_answers_iff compactedRun hr hsent).1.mpr (by decide)⟩

theorem delayed_request_aborts :
    ¬∀ (n : ℕ) (acts : List (Action n)) (r : HeartBeat n) (p : Fin n) (args : AppendEntriesArgs n),
      r ∈ (runOf acts).heartBeats → r.Sent p args → Answers ((runOf acts).nodes p) args := by
  intro h
  have heval : (((runOf compactedRun).heartBeats[0]?).bind (·.calls 1)).map Call.args =
      some ⟨1, 0, 0, 0, [⟨"a", 1, 1⟩], 0⟩ := by decide
  obtain ⟨r, hr, hsent⟩ := exists_sent heval
  obtain ⟨rf', reply, hok, -⟩ := h 3 compactedRun r 1 _ hr hsent
  rw [Raft.appendEntries1_below (by decide) (by decide) (by decide)] at hok
  cases hok

end Cluster
end RaftStorage
