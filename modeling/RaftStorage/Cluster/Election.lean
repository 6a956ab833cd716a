import RaftStorage.Cluster.Index
import RaftStorage.Library.Quorum

/-! Election safety. A vote that a node has granted in a term binds the node as long as it stays in
the term, so a voter grants one candidate per term; the counter of a round never exceeds the number
of votes that the round has taken, also across the reset after a win. -/

namespace RaftStorage
open Library Finset
namespace Cluster

variable {n : ℕ} {s s' : Cluster n} {a : Action n}

inductive VoteMove (s s' : Cluster n) (q : Fin n) : Prop
  | plain (step : Raft.TermStep (s.nodes q) (s'.nodes q))
  | stood (term : (s'.nodes q).currentTerm = (s.nodes q).currentTerm + 1)
      (status : (s'.nodes q).status = .candidate)
  | voted {c : Fin n} (term : (s.nodes q).currentTerm ≤ (s'.nodes q).currentTerm)
      (vote : (s'.nodes q).votedFor = some c)
      (before : (s'.nodes q).currentTerm = (s.nodes q).currentTerm →
        (s.nodes q).votedFor = none ∨ (s.nodes q).votedFor = some c)
      (status : (s'.nodes q).status = .leader →
        (s.nodes q).status = .leader ∧ (s'.nodes q).currentTerm = (s.nodes q).currentTerm)
  | won (term : (s'.nodes q).currentTerm = (s.nodes q).currentTerm)
      (vote : (s'.nodes q).votedFor = (s.nodes q).votedFor)
      (elected : s'.elected = s.elected ++ [(q, (s'.nodes q).currentTerm)])

theorem VoteMove.of_setNode {p : Fin n} {rf : Raft n} (h : Raft.TermStep (s.nodes p) rf)
    (hs' : s'.nodes = (s.setNode p rf).nodes) (q : Fin n) : VoteMove s s' q := by
  refine .plain ?_
  rw [hs']
  exact setNode_rel (fun q => Raft.TermStep.refl _) h q

theorem VoteMove.of_ne {p q : Fin n} {rf : Raft n} (hq : q ≠ p)
    (hs' : s'.nodes = (s.setNode p rf).nodes) : VoteMove s s' q := by
  refine .plain ?_
  rw [hs', setNode_nodes_of_ne hq]
  exact Raft.TermStep.refl _

theorem Indexed.vote_move (hI : s.Indexed) (hs : Step s a s') (q : Fin n) : VoteMove s s' q := by
  cases hs with
  | idle => exact .plain (Raft.TermStep.refl _)
  | exit => exact .plain (Raft.TermStep.refl _)
  | doElection eval =>
    rename_i p rf out
    by_cases hq : q = p
    · subst hq
      have hnode : (recordElection q (s.setNode q rf) out).nodes q = rf := by simp
      rcases Raft.doElection_cases eval with ⟨rfl, -⟩ | ⟨-, -, hst, hterm, -⟩
      · exact .plain (hnode.symm ▸ Raft.TermStep.refl _)
      · exact .stood (hnode.symm ▸ hterm) (hnode.symm ▸ hst)
    · exact .of_ne hq (recordElection_nodes out)
  | requestVote round call eval =>
    rename_i e p r rf reply
    obtain ⟨-, ⟨-, ht⟩ | ⟨-, -, hle, -, hcur, hvote, hst, hfree, -⟩⟩ := Raft.requestVote_cases eval
    · exact .of_setNode ht (by rfl) q
    · by_cases hq : q = p
      · subst hq
        have hnode : (recordVote e q (s.setNode q rf) reply).nodes q = rf := setNode_nodes_self
        have hcatch := Raft.TermStep.catchUp (s.nodes q) r.info.term
        have hcu : ((s.nodes q).catchUp r.info.term).currentTerm = r.info.term :=
          Raft.catchUp_term (not_lt.mpr hle)
        refine .voted (by rw [hnode, hcur]; exact hle) (hnode.symm ▸ hvote) (fun heq => ?_)
          fun hl => ?_
        · rw [hnode, hcur] at heq
          have hsame : (s.nodes q).catchUp r.info.term = s.nodes q := by
            unfold Raft.catchUp
            rw [if_neg (by omega)]
          rwa [hsame] at hfree
        · rw [hnode, hst] at hl
          obtain ⟨h1, h2⟩ := hcatch.leader hl
          exact ⟨h1, by rw [hnode, hcur, ← h2, hcu]⟩
      · exact .of_ne hq (by rfl)
  | sendRequestVote round call taken answer eval =>
    rename_i e p k r c reply rf num won
    obtain ⟨-, ⟨-, -, ht⟩ | ⟨-, -, -, -, rfl⟩ | ⟨rfl, -, -, -, -, -, hcur, hvote, -⟩⟩ :=
      Raft.sendRequestVote_cases eval
    · exact .of_setNode ht (by rfl) q
    · exact .of_setNode (Raft.TermStep.refl _) (by rfl) q
    · by_cases hq : q = r.owner
      · subst hq
        have hnode : (s.setNode r.owner rf).nodes r.owner = rf := setNode_nodes_self
        exact .won (hnode.symm ▸ hcur) (hnode.symm ▸ hvote) rfl
      · exact .of_ne hq (by rfl)
  | start eval =>
    rcases Raft.start_cases eval with ⟨rfl, -⟩ | ⟨-, ht, -⟩
    · exact .of_setNode (Raft.TermStep.refl _) (by rfl) q
    · exact .of_setNode ht (by rfl) q
  | doHeartBeat eval => exact .plain (by rw [recordHeartBeat_nodes]; exact Raft.TermStep.refl _)
  | appendEntries1 round call eval =>
    refine .of_setNode ?_ (by rfl) q
    cases Raft.appendEntries1_cases (hI.node _).contiguous (hI.shaped round call).numbered eval with
    | stale _ same => exact same ▸ Raft.TermStep.refl _
    | rejected _ _ vote => exact vote
    | merged _ _ vote => exact vote
  | sendAppendEntries round call taken answer eval =>
    exact .of_setNode (Raft.sendAppendEntries_cases eval).1 (by rfl) q
  | leaderSendSnapShot => exact .of_setNode (Raft.leaderSendSnapShot_same _).2 (by rfl) q
  | installSnapshot thread request eval =>
    refine .of_setNode ?_ (by rfl) q
    cases Raft.installSnapshot_cases (hI.node _).contiguous eval with
    | stale _ same => exact same ▸ Raft.TermStep.refl _
    | old _ _ vote => exact vote
    | installed _ _ vote => exact vote
  | leaderSendSnapShotReply => exact .of_setNode (Raft.leaderSendSnapShotReply_same _ _ _ _).2 (by rfl) q
  | snapshot eval =>
    refine .of_setNode ?_ (by rfl) q
    obtain ⟨rf, hok, hcases⟩ := Raft.snapshot_ok (hI.node _).contiguous (hI.node _).commit_le _ _
    obtain rfl := Except.ok.inj (hok.symm.trans eval)
    rcases hcases with rfl | ⟨-, -, hme, hterm, hvote, hst, -⟩
    · exact Raft.TermStep.refl _
    · exact ⟨hme, Or.inr ⟨hterm, hvote, Or.inl hst⟩⟩
  | getApplyLogs eval =>
    refine .of_setNode ?_ (by rfl) q
    obtain ⟨msgs, hok, -⟩ := Raft.getApplyLogs_ok (hI.node _).contiguous (hI.node _).snap_le
      (hI.node _).applied_le (hI.node _).commit_le
    obtain ⟨rfl, -⟩ := Prod.mk.inj (Except.ok.inj (hok.symm.trans eval))
    exact ⟨rfl, Or.inr ⟨rfl, rfl, Or.inl rfl⟩⟩
  | push => exact .plain (Raft.TermStep.refl _)

theorem VoteMove.term_le {q : Fin n} (h : VoteMove s s' q) :
    (s.nodes q).currentTerm ≤ (s'.nodes q).currentTerm := by
  cases h with
  | plain step => exact step.term_le
  | stood term => omega
  | voted term => exact term
  | won term => exact term.ge

theorem VoteMove.keeps_vote {q c : Fin n} (h : VoteMove s s' q)
    (hterm : (s'.nodes q).currentTerm = (s.nodes q).currentTerm)
    (hvote : (s.nodes q).votedFor = some c) : (s'.nodes q).votedFor = some c := by
  cases h with
  | plain step =>
    rcases step.cases with ⟨hlt, -⟩ | ⟨-, heq, -⟩
    · omega
    · exact heq.trans hvote
  | stood term => omega
  | voted term vote before =>
    rcases before hterm with hnone | hsome
    · rw [hnone] at hvote
      cases hvote
    · rw [vote, ← hsome, hvote]
  | won term vote => exact vote.trans hvote

/-- The voters of a round: its owner, and everyone who answered with a vote. -/
def Grants (r : Election n) (p : Fin n) : Prop :=
  p = r.owner ∨ ∃ reply, r.Answered p reply ∧ reply.voteGranted = true

def voters (r : Election n) : Finset (Fin n) := r.passed (·.voteGranted)

structure Elections (s : Cluster n) : Prop where
  leader : ∀ p, (s.nodes p).status = .leader → (p, (s.nodes p).currentTerm) ∈ s.elected
  distinct : (s.elections.map fun r => (r.owner, r.info.term)).Nodup
  owner : ∀ r ∈ s.elections, r.info.candidateId = r.owner ∧ ¬r.Sent r.owner ()
  matched : ∀ r ∈ s.elections, r.Matched
  replyTerm : ∀ r ∈ s.elections, ∀ p reply, r.Answered p reply → reply.voteGranted = true →
    reply.term = r.info.term
  vote : ∀ r ∈ s.elections, ∀ p, Grants r p → r.info.term ≤ (s.nodes p).currentTerm ∧
    ((s.nodes p).currentTerm = r.info.term → (s.nodes p).votedFor = some r.owner)
  unique : ∀ r ∈ s.elections, ∀ r' ∈ s.elections, ∀ p, Grants r p → Grants r' p →
    r.info.term = r'.info.term → r.owner = r'.owner
  counter : ∀ r ∈ s.elections,
    r.counter + (if (r.owner, r.info.term) ∈ s.elected then ((n / 2 + 1 : ℕ) : ℤ) else 0) ≤
      1 + (voters r).card
  quorum : ∀ c T, (c, T) ∈ s.elected → ∃ r ∈ s.elections, r.owner = c ∧ r.info.term = T ∧
    n / 2 + 1 ≤ 1 + (voters r).card
  once : (s.elected.map Prod.snd).Nodup

theorem elections_init (n : ℕ) : (init n).Elections where
  leader := fun p h => by cases h
  distinct := List.nodup_nil
  owner := by simp [init]
  matched := by simp [init]
  replyTerm := by simp [init]
  vote := by simp [init]
  unique := by simp [init]
  counter := by simp [init]
  quorum := by simp [init]
  once := List.nodup_nil

theorem Step.elected_mono (hs : Step s a s') : ∀ x ∈ s.elected, x ∈ s'.elected := by
  intro x hx
  cases hs with
  | doElection => rename_i out _; cases out <;> exact hx
  | doHeartBeat => rename_i out _; cases out <;> exact hx
  | sendRequestVote =>
    simp only [recordVoteReply]
    split_ifs
    · exact List.mem_append_left _ hx
    · exact hx
  | _ => exact hx

theorem Elections.leader_step (h : s.Elections) (hI : s.Indexed) (hs : Step s a s') (p : Fin n)
    (hl : (s'.nodes p).status = .leader) : (p, (s'.nodes p).currentTerm) ∈ s'.elected := by
  cases hI.vote_move hs p with
  | plain step =>
    obtain ⟨hl', hterm⟩ := step.leader hl
    exact hterm ▸ hs.elected_mono _ (h.leader p hl')
  | stood _ status =>
    rw [hl] at status
    cases status
  | voted _ _ _ status =>
    obtain ⟨hl', hterm⟩ := status hl
    exact hterm ▸ hs.elected_mono _ (h.leader p hl')
  | won _ _ elected => simp [elected]

theorem Elections.grants_step (h : s.Elections) (hI : s.Indexed) (hs : Step s a s')
    {r' : Election n} (hr' : r' ∈ s'.elections) {q : Fin n} (hg : Grants r' q) :
    (∃ r ∈ s.elections, r.owner = r'.owner ∧ r.info = r'.info ∧ Grants r q) ∨
    (s.nodes q).currentTerm ≤ r'.info.term ∧
      ((s.nodes q).currentTerm = r'.info.term →
        (s.nodes q).votedFor = none ∨ (s.nodes q).votedFor = some r'.owner) ∧
      (s'.nodes q).currentTerm = r'.info.term ∧ (s'.nodes q).votedFor = some r'.owner := by
  cases hs.election_origin r' hr' with
  | old mem => exact Or.inl ⟨r', mem, rfl, rfl, hg⟩
  | stood eval node =>
    rename_i p rf args
    have hq : q = p := by
      rcases hg with rfl | ⟨reply, ⟨c, hc, hmem⟩, -⟩
      · rfl
      · simp only [newElection] at hc
        split_ifs at hc
        rw [← Option.some.inj hc] at hmem
        simp [Call.start] at hmem
    subst hq
    rcases Raft.doElection_cases eval with ⟨-, hnone⟩ | ⟨-, -, -, hterm, hvote, hargs⟩
    · cases hnone
    · obtain rfl := Option.some.inj hargs
      refine Or.inr ⟨by simp only [newElection]; omega, fun heq => ?_, ?_, ?_⟩
      · simp only [newElection] at heq
        omega
      · rw [node]
        exact hterm
      · rw [node, hvote, hI.me q]
        rfl
  | answered mem eval node =>
    rename_i i p r rf reply
    have hcases : Grants r q ∨ q = p ∧ reply.voteGranted = true := by
      rcases hg with rfl | ⟨reply', hans, hgr⟩
      · exact Or.inl (Or.inl rfl)
      · rcases Round.answered_respond hans with hans | ⟨rfl, rfl⟩
        · exact Or.inl (Or.inr ⟨reply', hans, hgr⟩)
        · exact Or.inr ⟨rfl, hgr⟩
    rcases hcases with hg | ⟨rfl, hgr⟩
    · exact Or.inl ⟨r, mem, rfl, rfl, hg⟩
    · obtain ⟨-, ⟨hno, -⟩ | ⟨-, -, hle, -, hcur, hvote, -, hfree, -⟩⟩ := Raft.requestVote_cases eval
      · rw [hgr] at hno
        cases hno
      · have hown : r.info.candidateId = r.owner := (h.owner r mem).1
        refine Or.inr ⟨hle, fun heq => ?_, by rw [node]; exact hcur, by rw [node, hvote, hown]; rfl⟩
        have hsame : (s.nodes q).catchUp r.info.term = s.nodes q := by
          unfold Raft.catchUp
          rw [if_neg (by simp only [Round.respond_info] at heq; omega)]
        rw [hsame, hown] at hfree
        exact hfree
  | taken mem call taken answer eval =>
    refine Or.inl ⟨_, mem, rfl, rfl, ?_⟩
    rcases hg with rfl | ⟨reply, hans, hgr⟩
    · exact Or.inl rfl
    · exact Or.inr ⟨reply, Round.answered_take.mp hans, hgr⟩

theorem Elections.vote_step (h : s.Elections) (hI : s.Indexed) (hs : Step s a s') :
    ∀ r ∈ s'.elections, ∀ p, Grants r p → r.info.term ≤ (s'.nodes p).currentTerm ∧
      ((s'.nodes p).currentTerm = r.info.term → (s'.nodes p).votedFor = some r.owner) := by
  intro r' hr' p hg
  rcases h.grants_step hI hs hr' hg with ⟨r, hr, hown, hinfo, hg⟩ | ⟨-, -, hterm, hvote⟩
  · obtain ⟨hle, hv⟩ := h.vote r hr p hg
    have hmove := hI.vote_move hs p
    have hmono := hmove.term_le
    rw [← hinfo, ← hown]
    exact ⟨hle.trans hmono, fun heq => hmove.keeps_vote (by omega) (hv (by omega))⟩
  · exact ⟨hterm.ge, fun _ => hvote⟩

theorem Elections.unique_step (h : s.Elections) (hI : s.Indexed) (hs : Step s a s') :
    ∀ r ∈ s'.elections, ∀ r' ∈ s'.elections, ∀ p, Grants r p → Grants r' p →
      r.info.term = r'.info.term → r.owner = r'.owner := by
  -- an earlier vote binds the voter that votes now
  have hmixed : ∀ {r r₁ : Election n} {p : Fin n} {c : Fin n}, r₁ ∈ s.elections → Grants r₁ p →
      r₁.owner = r.owner → r₁.info.term = r.info.term → (s.nodes p).currentTerm ≤ r.info.term →
      ((s.nodes p).currentTerm = r.info.term →
        (s.nodes p).votedFor = none ∨ (s.nodes p).votedFor = some c) → r.owner = c := by
    intro r r₁ p c hr₁ hg hown hterm hle hfree
    obtain ⟨hle', hv⟩ := h.vote r₁ hr₁ p hg
    have hv := hv (by omega)
    rcases hfree (by omega) with hf | hf
    · rw [hv] at hf
      cases hf
    · rw [← hown]
      exact Option.some.inj (hv.symm.trans hf)
  intro r hr r' hr' p hg hg' hterm
  rcases h.grants_step hI hs hr hg with ⟨r₁, hr₁, hown₁, hinfo₁, hg₁⟩ | ⟨hle, hfree, -, hvote⟩
  · rcases h.grants_step hI hs hr' hg' with ⟨r₂, hr₂, hown₂, hinfo₂, hg₂⟩ | ⟨hle', hfree', -, -⟩
    · rw [← hown₁, ← hown₂]
      exact h.unique r₁ hr₁ r₂ hr₂ p hg₁ hg₂ (by rw [hinfo₁, hinfo₂, hterm])
    · exact hmixed hr₁ hg₁ hown₁ (by rw [hinfo₁]) (hterm ▸ hle') (hterm ▸ hfree')
  · rcases h.grants_step hI hs hr' hg' with ⟨r₂, hr₂, hown₂, hinfo₂, hg₂⟩ | ⟨-, -, -, hvote'⟩
    · exact (hmixed hr₂ hg₂ hown₂ (by rw [hinfo₂]) (hterm ▸ hle) (hterm ▸ hfree)).symm
    · exact Option.some.inj (hvote.symm.trans hvote')

theorem Elections.distinct_step (h : s.Elections) (hs : Step s a s') :
    (s'.elections.map fun r => (r.owner, r.info.term)).Nodup := by
  cases hs with
  | doElection eval =>
    rename_i p rf out
    rcases Raft.doElection_cases eval with ⟨-, rfl⟩ | ⟨-, -, -, -, -, rfl⟩
    · exact h.distinct
    · simp only [recordElection, setNode, List.map_append, List.map_cons, List.map_nil]
      refine List.nodup_append.mpr ⟨h.distinct, List.nodup_singleton _, ?_⟩
      rintro _ hx _ hy rfl
      obtain ⟨r, hr, hkey⟩ := List.mem_map.mp hx
      obtain ⟨hown, hterm⟩ := Prod.mk.inj (hkey.trans (List.mem_singleton.mp hy))
      have hle := (h.vote r hr r.owner (Or.inl rfl)).1
      rw [hown] at hle
      simp only [newElection] at hterm hle
      omega
  | requestVote =>
    rename_i e p _ _ reply _ _ _
    show (List.map _ (s.elections.modify e (·.respond p reply))).Nodup
    rw [map_modify (by intro; rfl)]
    exact h.distinct
  | sendRequestVote =>
    rename_i e p _ _ _ reply _ num _ _ _ _ _ _
    show (List.map _ (s.elections.modify e (·.take p reply num))).Nodup
    rw [map_modify (by intro; rfl)]
    exact h.distinct
  | doHeartBeat => rename_i out _; cases out <;> exact h.distinct
  | _ => exact h.distinct

theorem Elections.owner_step (h : s.Elections) (hI : s.Indexed) (hs : Step s a s') :
    ∀ r ∈ s'.elections, r.info.candidateId = r.owner ∧ ¬r.Sent r.owner () := by
  intro r hr
  cases hs.election_origin r hr with
  | old mem => exact h.owner r mem
  | stood eval =>
    rcases Raft.doElection_cases eval with ⟨-, hnone⟩ | ⟨-, -, -, -, -, hargs⟩
    · cases hnone
    · obtain rfl := Option.some.inj hargs
      exact ⟨hI.me _, by simp [newElection, Round.Sent]⟩
  | answered mem => exact ⟨(h.owner _ mem).1, by simpa using (h.owner _ mem).2⟩
  | taken mem => exact ⟨(h.owner _ mem).1, by simpa using (h.owner _ mem).2⟩

theorem Elections.replies_step (h : s.Elections) (hs : Step s a s') :
    ∀ r ∈ s'.elections, r.Matched ∧ ∀ p reply, r.Answered p reply → reply.voteGranted = true →
      reply.term = r.info.term := by
  intro r hr
  cases hs.election_origin r hr with
  | old mem => exact ⟨h.matched r mem, h.replyTerm r mem⟩
  | stood =>
    refine ⟨fun p c reply hc ht => ?_, fun p reply ⟨c, hc, hmem⟩ => ?_⟩ <;>
    · simp only [newElection] at hc
      split_ifs at hc
      obtain rfl := Option.some.inj hc
      simp [Call.start] at *
  | answered mem eval =>
    refine ⟨(h.matched _ mem).respond _ _, fun p reply hans hgr => ?_⟩
    rcases Round.answered_respond hans with hans | ⟨rfl, rfl⟩
    · exact h.replyTerm _ mem p reply hans hgr
    · obtain ⟨-, ⟨hno, -⟩ | ⟨-, hterm, -⟩⟩ := Raft.requestVote_cases eval
      · rw [hgr] at hno
        cases hno
      · exact hterm
  | taken mem call taken answer =>
    exact ⟨(h.matched _ mem).take ⟨_, call, answer⟩ _, fun p reply hans hgr =>
      h.replyTerm _ mem p reply (Round.answered_take.mp hans) hgr⟩

theorem Elections.card_voters (h : s.Elections) {r : Election n} (hr : r ∈ s.elections)
    {p : Fin n} {c : Call Unit RequestVoteReply} (hc : r.calls p = some c) (ht : c.taken = none) :
    (voters r).card + 2 ≤ n := by
  have hcalls : ∀ q ∈ voters r, q ≠ r.owner ∧ q ≠ p := by
    intro q hq
    obtain ⟨c', reply, hc', ht', -⟩ := Round.mem_passed.mp hq
    constructor
    · rintro rfl
      exact (h.owner r hr).2 ⟨c', hc', rfl⟩
    · rintro rfl
      rw [hc] at hc'
      rw [← Option.some.inj hc', ht] at ht'
      cases ht'
  have hp : p ≠ r.owner := by
    rintro rfl
    exact (h.owner r hr).2 ⟨c, hc, rfl⟩
  have hp' : p ∉ voters r := fun hmem => (hcalls p hmem).2 rfl
  have ho : r.owner ∉ insert p (voters r) := by
    rw [mem_insert]
    rintro (heq | hmem)
    · exact hp heq.symm
    · exact (hcalls _ hmem).1 rfl
  have hle := card_le_univ (insert r.owner (insert p (voters r)))
  rw [card_insert_of_notMem ho, card_insert_of_notMem hp', Fintype.card_fin] at hle
  exact hle

theorem Elections.not_elected (h : s.Elections) {r : Election n} (hr : r ∈ s.elections)
    {p : Fin n} {c : Call Unit RequestVoteReply} (hc : r.calls p = some c) (ht : c.taken = none)
    (hq : ((n / 2 + 1 : ℕ) : ℤ) ≤ r.counter + 1) : (r.owner, r.info.term) ∉ s.elected := by
  intro hel
  have hcount := h.counter r hr
  rw [if_pos hel] at hcount
  have hcard := h.card_voters hr hc ht
  omega

theorem voters_take {r : Election n} {p : Fin n} {c : Call Unit RequestVoteReply}
    (hc : r.calls p = some c) (ht : c.taken = none) (reply : RequestVoteReply) (v : ℤ) :
    (voters (r.take p reply v)).card =
      (voters r).card + if reply.voteGranted = true then 1 else 0 :=
  Round.card_passed_take hc ht

theorem Elections.same_owner (h : s.Elections) {r r' : Election n} (hr : r ∈ s.elections)
    (hr' : r' ∈ s.elections) (hterm : r.info.term = r'.info.term) {S : Finset (Fin n)}
    (hS : n / 2 + 1 ≤ S.card) (hg : ∀ p ∈ S, Grants r p)
    (hq' : n / 2 + 1 ≤ 1 + (voters r').card) : r.owner = r'.owner := by
  have ho : r'.owner ∉ voters r' := by
    intro hmem
    obtain ⟨c, reply, hc, -⟩ := Round.mem_passed.mp hmem
    exact (h.owner r' hr').2 ⟨c, hc, rfl⟩
  have hmaj : IsMajority S := by
    unfold IsMajority
    rwa [Fintype.card_fin]
  have hmaj' : IsMajority (insert r'.owner (voters r')) := by
    unfold IsMajority
    rw [Fintype.card_fin, card_insert_of_notMem ho]
    omega
  obtain ⟨p, hp, hp'⟩ := hmaj.exists_common hmaj'
  refine h.unique r hr r' hr' p (hg p hp) ?_ hterm
  rcases mem_insert.mp hp' with rfl | hp'
  · exact Or.inl rfl
  · exact Or.inr ((h.matched r' hr').answered hp')

theorem Step.election_kept (hs : Step s a s') {r : Election n} (hr : r ∈ s.elections) :
    ∃ r' ∈ s'.elections, r'.owner = r.owner ∧ r'.info = r.info ∧
      (voters r).card ≤ (voters r').card ∧ ∀ p, Grants r p → Grants r' p := by
  have hself : ∀ r' : Election n, r' = r → r'.owner = r.owner ∧ r'.info = r.info ∧
      (voters r).card ≤ (voters r').card ∧ ∀ p, Grants r p → Grants r' p := by
    rintro _ rfl
    exact ⟨rfl, rfl, le_rfl, fun _ hg => hg⟩
  cases hs with
  | doElection =>
    rename_i out _
    cases out with
    | none => exact ⟨r, hr, hself r rfl⟩
    | some args => exact ⟨r, List.mem_append_left _ hr, hself r rfl⟩
  | requestVote round call eval =>
    rename_i e p _ _ reply
    rcases mem_modify_of_mem hr e (·.respond p reply) with hmem | ⟨-, hmem⟩
    · exact ⟨r, hmem, hself r rfl⟩
    · refine ⟨_, hmem, rfl, rfl, (congrArg card (Round.passed_respond _)).ge, ?_⟩
      rintro q (rfl | ⟨reply', hans, hgr⟩)
      · exact Or.inl rfl
      · exact Or.inr ⟨reply', hans.respond _ _, hgr⟩
  | sendRequestVote round call taken answer eval =>
    rename_i e p _ _ _ reply _ num _
    rcases mem_modify_of_mem hr e (·.take p reply num) with hmem | ⟨hr', hmem⟩
    · exact ⟨r, hmem, hself r rfl⟩
    · obtain rfl := Option.some.inj (round.symm.trans hr')
      refine ⟨_, hmem, rfl, rfl, ?_, ?_⟩
      · rw [voters_take call taken]
        exact Nat.le_add_right _ _
      · rintro q (rfl | ⟨reply', hans, hgr⟩)
        · exact Or.inl rfl
        · exact Or.inr ⟨reply', Round.answered_take.mpr hans, hgr⟩
  | doHeartBeat => rename_i out _; cases out <;> exact ⟨r, hr, hself r rfl⟩
  | _ => exact ⟨r, hr, hself r rfl⟩

/-- The round with number `i` takes the vote that makes its owner leader. -/
structure Wins (s s' : Cluster n) (i : ℕ) (r : Election n) (p : Fin n)
    (c : Call Unit RequestVoteReply) (reply : RequestVoteReply) : Prop where
  round : s.elections[i]? = some r
  call : r.calls p = some c
  taken : c.taken = none
  answer : reply ∈ c.replies
  granted : reply.voteGranted = true
  quorum : ((n / 2 + 1 : ℕ) : ℤ) ≤ r.counter + 1
  term : (s.nodes r.owner).currentTerm = r.info.term
  elected : s'.elected = s.elected ++ [(r.owner, r.info.term)]
  elections : s'.elections = s.elections.modify i (·.take p reply 0)

theorem Elections.wins (h : s.Elections) {i : ℕ} {r : Election n} {p : Fin n} {k : ℕ}
    {c : Call Unit RequestVoteReply} {reply : RequestVoteReply} {rf : Raft n} {num : ℤ}
    (round : s.elections[i]? = some r) (call : r.calls p = some c) (taken : c.taken = none)
    (answer : c.replies[k]? = some reply)
    (eval : (s.nodes r.owner).sendRequestVote reply r.counter = .ok (rf, num, true)) :
    Wins s (recordVoteReply i r.owner p reply (s.setNode r.owner rf) (num, true)) i r p c reply := by
  obtain ⟨-, ⟨hno, -⟩ | ⟨hno, -⟩ | ⟨-, hgr, hterm, rfl, hq, -, hcur, -, -⟩⟩ :=
    Raft.sendRequestVote_cases eval
  · cases hno
  · cases hno
  · have hans : r.Answered p reply := ⟨c, call, List.mem_of_getElem? answer⟩
    have hT := h.replyTerm r (List.mem_of_getElem? round) p reply hans hgr
    refine ⟨round, call, taken, List.mem_of_getElem? answer, hgr, hq, by omega, ?_, rfl⟩
    simp only [recordVoteReply, if_true, setNode_nodes_self, hcur, ← hterm, hT]
    rfl

theorem Elections.elected_cases (h : s.Elections) (hs : Step s a s') :
    s'.elected = s.elected ∨ ∃ i r p c reply, Wins s s' i r p c reply := by
  cases hs with
  | doElection => rename_i out _; cases out <;> exact Or.inl rfl
  | doHeartBeat => rename_i out _; cases out <;> exact Or.inl rfl
  | @sendRequestVote e p k r c reply rf num won round call taken answer eval =>
    cases won with
    | false => exact Or.inl rfl
    | true => exact Or.inr ⟨e, r, p, c, reply, h.wins round call taken answer eval⟩
  | _ => exact Or.inl rfl

theorem Elections.majority (h : s.Elections) {i : ℕ} {r : Election n} {p : Fin n}
    {c : Call Unit RequestVoteReply} {reply : RequestVoteReply} (hw : Wins s s' i r p c reply) :
    ∃ S : Finset (Fin n), n / 2 + 1 ≤ S.card ∧ ∀ q ∈ S, Grants r q := by
  have hr := List.mem_of_getElem? hw.round
  have hcount := h.counter r hr
  have hq := hw.quorum
  rw [if_neg (h.not_elected hr hw.call hw.taken hq)] at hcount
  have hcard := voters_take hw.call hw.taken reply 0
  rw [if_pos hw.granted] at hcard
  have ho : r.owner ∉ voters (r.take p reply 0) := by
    intro hmem
    obtain ⟨c₁, _, hc₁, -⟩ := Round.mem_passed.mp hmem
    exact (h.owner r hr).2 (Round.sent_take.mp ⟨c₁, hc₁, rfl⟩)
  refine ⟨insert r.owner (voters (r.take p reply 0)), ?_, fun q hq => ?_⟩
  · rw [card_insert_of_notMem ho]
    omega
  · rcases mem_insert.mp hq with rfl | hq
    · exact Or.inl rfl
    · obtain ⟨reply', hans, hgr⟩ :=
        ((h.matched r hr).take ⟨c, hw.call, hw.answer⟩ 0).answered hq
      exact Or.inr ⟨reply', Round.answered_take.mp hans, hgr⟩

theorem Elections.wins_fresh (h : s.Elections) {i : ℕ} {r : Election n} {p : Fin n}
    {c : Call Unit RequestVoteReply} {reply : RequestVoteReply} (hw : Wins s s' i r p c reply)
    (c' : Fin n) : (c', r.info.term) ∉ s.elected := by
  intro hel
  have hr := List.mem_of_getElem? hw.round
  obtain ⟨r', hr', hown', hterm', hq'⟩ := h.quorum _ _ hel
  obtain ⟨S, hS, hg⟩ := h.majority hw
  have howner := h.same_owner hr hr' hterm'.symm hS hg hq'
  rw [← hown', ← howner] at hel
  exact h.not_elected hr hw.call hw.taken hw.quorum hel

theorem Elections.counter_step (h : s.Elections) (hs : Step s a s') :
    ∀ r ∈ s'.elections, r.counter +
      (if (r.owner, r.info.term) ∈ s'.elected then ((n / 2 + 1 : ℕ) : ℤ) else 0) ≤
        1 + (voters r).card := by
  rcases h.elected_cases hs with hel | ⟨i, r, p, c, reply, hw⟩
  · rw [hel]
    intro r hr
    cases hs.election_origin r hr with
    | old mem => exact h.counter r mem
    | stood eval =>
      rename_i p rf args
      rcases Raft.doElection_cases eval with ⟨-, hnone⟩ | ⟨-, -, -, -, -, hargs⟩
      · cases hnone
      obtain rfl := Option.some.inj hargs
      rw [if_neg]
      · simp only [newElection]
        omega
      -- a candidate stands in a term above every one it was elected in
      · intro hmem
        obtain ⟨r', hr', hown', hterm', -⟩ := h.quorum _ _ hmem
        have hle := (h.vote r' hr' r'.owner (Or.inl rfl)).1
        rw [hown', hterm'] at hle
        simp only [newElection] at hle
        omega
    | answered mem =>
      have := h.counter _ mem
      rw [voters, Round.passed_respond]
      exact this
    | taken mem call taken answer eval =>
      rename_i r c reply rf num won
      have hcount := h.counter r mem
      rw [voters_take call taken]
      change num + (if (r.owner, r.info.term) ∈ s.elected then _ else _) ≤ _
      obtain ⟨-, ⟨-, rfl, -⟩ | ⟨-, hgr, -, rfl, -⟩ | ⟨-, hgr, -, rfl, hq, -⟩⟩ :=
        Raft.sendRequestVote_cases eval
      · push_cast
        split_ifs at hcount ⊢ <;> omega
      · rw [if_pos hgr]
        push_cast
        split_ifs at hcount ⊢ <;> omega
      · rw [if_neg (h.not_elected mem call taken hq)]
        omega
  · have hr := List.mem_of_getElem? hw.round
    rw [hw.elections, hw.elected]
    -- the winner's counter starts again from zero, which pays for the quorum on the left
    refine forall_mem_modify_of_nodup h.distinct hw.round (fun x hx hkey => ?_) ?_
    · have hiff : (x.owner, x.info.term) ∈ s.elected ++ [(r.owner, r.info.term)] ↔
          (x.owner, x.info.term) ∈ s.elected := by
        rw [List.mem_append, List.mem_singleton]
        exact or_iff_left hkey
      have := h.counter x hx
      rwa [if_congr hiff rfl rfl]
    · have hcount := h.counter r hr
      have hq := hw.quorum
      rw [if_neg (h.not_elected hr hw.call hw.taken hq)] at hcount
      rw [voters_take hw.call hw.taken, if_pos hw.granted, if_pos (by simp)]
      simp only [Round.take_counter]
      push_cast
      omega

theorem Elections.quorum_step (h : s.Elections) (hs : Step s a s') :
    ∀ c T, (c, T) ∈ s'.elected → ∃ r ∈ s'.elections, r.owner = c ∧ r.info.term = T ∧
      n / 2 + 1 ≤ 1 + (voters r).card := by
  intro c T hmem
  have hkept : (c, T) ∈ s.elected → ∃ r ∈ s'.elections, r.owner = c ∧ r.info.term = T ∧
      n / 2 + 1 ≤ 1 + (voters r).card := by
    intro hmem
    obtain ⟨r, hr, hown, hterm, hq⟩ := h.quorum c T hmem
    obtain ⟨r', hr', hown', hinfo', hcard, -⟩ := hs.election_kept hr
    exact ⟨r', hr', hown'.trans hown, by rw [hinfo', hterm], by omega⟩
  rcases h.elected_cases hs with hel | ⟨i, r, p, call, reply, hw⟩
  · exact hkept (hel ▸ hmem)
  · rw [hw.elected, List.mem_append, List.mem_singleton] at hmem
    rcases hmem with hmem | hmem
    · exact hkept hmem
    · obtain ⟨rfl, rfl⟩ := Prod.mk.inj hmem
      have hr := List.mem_of_getElem? hw.round
      have hcount := h.counter r hr
      have hq := hw.quorum
      rw [if_neg (h.not_elected hr hw.call hw.taken hq)] at hcount
      refine ⟨r.take p reply 0, ?_, rfl, rfl, ?_⟩
      · rw [hw.elections]
        refine List.mem_of_getElem? (i := i) ?_
        rw [List.getElem?_modify_eq, hw.round]
        rfl
      · rw [voters_take hw.call hw.taken, if_pos hw.granted]
        omega

theorem Elections.once_step (h : s.Elections) (hs : Step s a s') :
    (s'.elected.map Prod.snd).Nodup := by
  rcases h.elected_cases hs with hel | ⟨i, r, p, c, reply, hw⟩
  · rw [hel]
    exact h.once
  · rw [hw.elected, List.map_append]
    refine List.nodup_append.mpr ⟨h.once, List.nodup_singleton _, ?_⟩
    rintro _ hx _ hy rfl
    obtain ⟨⟨c', T⟩, hmem, hT⟩ := List.mem_map.mp hx
    rw [List.mem_singleton.mp hy] at hT
    subst hT
    exact h.wins_fresh hw c' hmem

theorem Elections.step (h : s.Elections) (hI : s.Indexed) (hs : Step s a s') : s'.Elections where
  leader := h.leader_step hI hs
  distinct := h.distinct_step hs
  owner := h.owner_step hI hs
  matched := fun r hr => (h.replies_step hs r hr).1
  replyTerm := fun r hr => (h.replies_step hs r hr).2
  vote := h.vote_step hI hs
  unique := h.unique_step hI hs
  counter := h.counter_step hs
  quorum := h.quorum_step hs
  once := h.once_step hs

theorem elections_runOf (acts : List (Action n)) : (runOf acts).Elections := by
  have h := run_invariant (P := fun s : Cluster n => s.Indexed ∧ s.Elections)
    ⟨indexed_init n, elections_init n⟩
    (fun s a h => ⟨h.1.step (step_spec s a), h.2.step h.1 (step_spec s a)⟩) acts
  exact h.2

theorem Elections.elected_unique (h : s.Elections) {c c' : Fin n} {T : ℤ} (hc : (c, T) ∈ s.elected)
    (hc' : (c', T) ∈ s.elected) : c = c' :=
  congrArg Prod.fst (List.inj_on_of_nodup_map h.once hc hc' rfl)

theorem Elections.leader_cases (h : s.Elections) (hI : s.Indexed) (hs : Step s a s') {p : Fin n}
    (hl : (s'.nodes p).status = .leader) :
    (s'.nodes p).currentTerm = (s.nodes p).currentTerm ∧
      ((s.nodes p).status = .leader ∨ ∀ c, (c, (s.nodes p).currentTerm) ∉ s.elected) := by
  cases hI.vote_move hs p with
  | plain step => exact (step.leader hl).symm.imp_right Or.inl
  | stood _ status =>
    rw [hl] at status
    cases status
  | voted _ _ _ status => exact (status hl).symm.imp_right Or.inl
  | won term _ elected =>
    refine ⟨term, Or.inr fun c hc => ?_⟩
    rcases h.elected_cases hs with hel | ⟨i, r, q, call, reply, hw⟩
    · simp [hel] at elected
    · rw [hw.elected, List.append_cancel_left_eq] at elected
      obtain ⟨-, hT⟩ := Prod.mk.inj (List.singleton_inj.mp elected)
      exact h.wins_fresh hw c (by rw [hT, term]; exact hc)

/-- At most one node becomes leader in a term, and only once, so no node fails the assertion
against a second election. -/
theorem one_leader_per_term (acts : List (Action n)) :
    ((runOf acts).elected.map Prod.snd).Nodup ∧
      ∀ p, (runOf acts).exited p ≠ some .leaderTwice := by
  refine ⟨(elections_runOf acts).once, fun p hp => ?_⟩
  obtain ⟨pre, a, hf⟩ := exited_fails hp
  have hE := elections_runOf pre
  rcases (indexed_runOf pre).fails_cases hf with
    ⟨-, hl, r, hr, rfl, hq, q, c, reply, hc, ht, hmem, hgr, hterm⟩ | ⟨hsite, -⟩ | hsite
  · have hel := hE.leader _ hl
    rw [← hterm, hE.replyTerm r hr q reply ⟨c, hc, hmem⟩ hgr] at hel
    exact hE.not_elected hr hc ht hq hel
  · cases hsite
  · simp at hsite

end Cluster
end RaftStorage
