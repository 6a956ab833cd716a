import RaftStorage.Cluster.Peers
import Mathlib.Data.Prod.Lex
import Mathlib.Data.Finset.Max

/-! Elections can succeed. Among the processes of a majority one has a log that is up to date for all
the others; once it is not behind in its term either, one round of `doElection` makes it leader. -/

namespace RaftStorage
open Library
namespace Raft

variable {n : ℕ} {rf : Raft n} {args : RequestVoteArgs n}

theorem SameLog.trans {rf' rf'' : Raft n} (h : SameLog rf rf') (h' : SameLog rf' rf'') :
    SameLog rf rf'' :=
  ⟨h'.logs.trans h.logs, h'.snapIndex.trans h.snapIndex, h'.snapTerm.trans h.snapTerm,
    h'.commit.trans h.commit, h'.applied.trans h.applied⟩

theorem upToDate_iff {i t : ℤ} : rf.upToDate i t = true ↔
    rf.getLastLogTerm < t ∨ t = rf.getLastLogTerm ∧ rf.getLastLogIndex ≤ i := by
  simp [upToDate, getLastLogIndex, getLastLogTerm]

theorem SameLog.lastLog {rf' : Raft n} (h : SameLog rf rf') :
    rf'.getLastLogIndexAndTerm = rf.getLastLogIndexAndTerm := by
  unfold getLastLogIndexAndTerm
  rw [h.logs, h.snapIndex, h.snapTerm]

theorem requestVote_newer (hT : rf.currentTerm < args.term) : ∃ rf' reply,
    rf.requestVote args = .ok (rf', reply) ∧ SameLog rf rf' ∧ rf'.currentTerm = args.term ∧
      rf'.status = .follower ∧ (rf.upToDate args.lastLogIndex args.lastLogTerm = true →
        reply = { term := args.term, voteState := .normal, voteGranted := true }) := by
  have hcatch : rf.catchUp args.term = rf.stepDown args.term := by
    unfold catchUp
    rw [if_pos hT]
  have hup := (SameLog.stepDown rf args.term).upToDate args.lastLogIndex args.lastLogTerm
  have heq : rf.requestVote args =
      if (!(rf.stepDown args.term).upToDate args.lastLogIndex args.lastLogTerm) = true then
        .ok ((rf.stepDown args.term).persist,
          { term := args.term, voteState := .voted, voteGranted := false })
      else
        .ok ({ rf.stepDown args.term with votedFor := some args.candidateId }.persist,
          { term := args.term, voteState := .normal, voteGranted := true }) := by
    unfold requestVote
    have hassert : myAssert (args.term = (rf.stepDown args.term).currentTerm) .voteTerm = .ok () :=
      if_pos rfl
    rw [if_neg (not_lt.mpr hT.le), hcatch]
    dsimp only
    rw [hassert]
    rfl
  rw [heq, hup]
  cases rf.upToDate args.lastLogIndex args.lastLogTerm with
  | false => exact ⟨_, _, rfl, (SameLog.stepDown rf args.term).persist, rfl, rfl, nofun⟩
  | true =>
    have hsame : SameLog rf { rf.stepDown args.term with votedFor := some args.candidateId } :=
      ⟨rfl, rfl, rfl, rfl, rfl⟩
    exact ⟨_, _, rfl, hsame.persist, rfl, rfl, fun _ => rfl⟩

theorem sendRequestVote_granted {reply : RequestVoteReply} (hgr : reply.voteGranted = true)
    (hT : reply.term = rf.currentTerm) (hst : rf.status ≠ .leader) (votedNum : ℤ) :
    (¬((n / 2 + 1 : ℕ) : ℤ) ≤ votedNum + 1 →
      rf.sendRequestVote reply votedNum = .ok (rf, votedNum + 1, false)) ∧
    (((n / 2 + 1 : ℕ) : ℤ) ≤ votedNum + 1 → ∃ rf',
      rf.sendRequestVote reply votedNum = .ok (rf', 0, true) ∧ SameLog rf rf' ∧
        rf'.currentTerm = rf.currentTerm ∧ rf'.status = .leader) := by
  have hassert : myAssert (reply.term = rf.currentTerm) .voteReplyTerm = .ok () := if_pos hT
  have htwice : myAssert (rf.status ≠ .leader) .leaderTwice = .ok () := if_pos hst
  unfold sendRequestVote
  rw [if_neg (by omega), if_neg (by omega), hassert, hgr, htwice]
  dsimp only
  constructor
  · intro hfew
    change (if votedNum + 1 ≥ ((n / 2 + 1 : ℕ) : ℤ) then _ else _) = _
    rw [if_neg hfew]
    rfl
  · intro hmany
    refine ⟨_, if_pos hmany, ⟨rfl, rfl, rfl, rfl, rfl⟩, rfl, rfl⟩

end Raft

def Action.isProtocol {n : ℕ} : Action n → Bool
  | .doElection _ | .requestVote _ _ | .sendRequestVote _ _ _ => true
  | .doHeartBeat _ | .appendEntries1 _ _ | .sendAppendEntries _ _ _ => true
  | _ => false

namespace Cluster

variable {n : ℕ} {s s' : Cluster n} {p q : Fin n} {rf : Raft n} {e k : ℕ} {r : Election n}

theorem step_requestVote {reply : RequestVoteReply} (hround : s.elections[e]? = some r)
    (hcall : (r.calls q).isSome) (hlive : s.exited q = none)
    (hok : (s.nodes q).requestVote r.info = .ok (rf, reply)) :
    s.step (.requestVote e q) = recordVote e q (s.setNode q rf) reply := by
  simp only [step, hround, hcall, if_true, onNode, hlive, hok]
  rfl

theorem step_sendRequestVote {c : Call Unit RequestVoteReply} {reply : RequestVoteReply}
    {out : ℤ × Bool} (hround : s.elections[e]? = some r) (hcall : r.calls q = some c)
    (htaken : c.taken = none) (hanswer : c.replies[k]? = some reply)
    (hlive : s.exited r.owner = none)
    (hok : (s.nodes r.owner).sendRequestVote reply r.counter = .ok (rf, out)) :
    s.step (.sendRequestVote e q k) =
      recordVoteReply e r.owner q reply (s.setNode r.owner rf) out := by
  simp only [step, hround, hcall, htaken, hanswer, onNode, hlive, hok]
  rfl

/-- A round in which `k` votes have come in and the nodes of `voters` can still be asked. -/
structure Campaign (s : Cluster n) (p : Fin n) (e : ℕ) (args : RequestVoteArgs n) (k : ℕ)
    (voters : List (Fin n)) : Prop where
  round : ∃ r, s.elections[e]? = some r ∧ r.owner = p ∧ r.info = args ∧ r.counter = 1 + k ∧
    ∀ q ∈ voters, r.calls q = some (Call.start ())
  status : (s.nodes p).status ≠ .leader
  term : (s.nodes p).currentTerm = args.term
  live : s.exited p = none ∧ ∀ q ∈ voters, s.exited q = none
  other : p ∉ voters
  older : ∀ q ∈ voters, (s.nodes q).currentTerm < args.term
  upToDate : ∀ q ∈ voters, (s.nodes q).upToDate args.lastLogIndex args.lastLogTerm = true

structure Stands (s s' : Cluster n) (T : ℤ) : Prop where
  exited : s'.exited = s.exited
  log : ∀ q, Raft.SameLog (s.nodes q) (s'.nodes q)
  term : ∀ q, (s'.nodes q).currentTerm ≤ max (s.nodes q).currentTerm T

theorem Stands.refl (s : Cluster n) (T : ℤ) : Stands s s T :=
  ⟨rfl, fun _ => Raft.SameLog.refl _, fun _ => le_max_left _ _⟩

theorem Stands.mono {T T' : ℤ} (h : Stands s s' T) (hT : T ≤ T') : Stands s s' T' :=
  ⟨h.exited, h.log, fun q => (h.term q).trans (max_le_max le_rfl hT)⟩

theorem Stands.trans {s'' : Cluster n} {T : ℤ} (h : Stands s s' T) (h' : Stands s' s'' T) :
    Stands s s'' T where
  exited := h'.exited.trans h.exited
  log := fun q => (h.log q).trans (h'.log q)
  term := fun q => (h'.term q).trans (max_le (h.term q) (le_max_right _ _))

theorem Stands.of_setNode {T : ℤ} (hnodes : s'.nodes = (s.setNode q rf).nodes)
    (hexited : s'.exited = s.exited) (hlog : Raft.SameLog (s.nodes q) rf) (hT : rf.currentTerm ≤ T) :
    Stands s s' T where
  exited := hexited
  log := fun i => by
    rw [hnodes]
    exact setNode_rel (fun i => Raft.SameLog.refl _) hlog i
  term := fun i => by
    rw [hnodes]
    by_cases heq : i = q
    · subst heq
      rw [setNode_nodes_self]
      exact hT.trans (le_max_right _ _)
    · rw [setNode_nodes_of_ne heq]
      exact le_max_left _ _

variable {args : RequestVoteArgs n} {voters : List (Fin n)}

def Granted (s : Cluster n) (e : ℕ) (q : Fin n) (T : ℤ) : Prop :=
  ∃ r, s.elections[e]? = some r ∧
    r.calls q = some ⟨(), [{ term := T, voteState := .normal, voteGranted := true }], none⟩

theorem Campaign.frame {k' : ℕ} (h : Campaign s p e args k (q :: voters))
    (hround : ∃ r, s'.elections[e]? = some r ∧ r.owner = p ∧ r.info = args ∧ r.counter = 1 + k' ∧
      ∀ i ∈ voters, r.calls i = some (Call.start ()))
    (hexited : s'.exited = s.exited) (hnodes : ∀ i ∈ p :: voters, s'.nodes i = s.nodes i) :
    Campaign s' p e args k' voters where
  round := hround
  status := by
    rw [hnodes p List.mem_cons_self]
    exact h.status
  term := by
    rw [hnodes p List.mem_cons_self]
    exact h.term
  live := by
    rw [hexited]
    exact ⟨h.live.1, fun i hi => h.live.2 i (List.mem_cons_of_mem q hi)⟩
  other := fun hp => h.other (List.mem_cons_of_mem q hp)
  older := fun i hi => by
    rw [hnodes i (List.mem_cons_of_mem p hi)]
    exact h.older i (List.mem_cons_of_mem q hi)
  upToDate := fun i hi => by
    rw [hnodes i (List.mem_cons_of_mem p hi)]
    exact h.upToDate i (List.mem_cons_of_mem q hi)

theorem Campaign.vote (h : Campaign s p e args k (q :: voters)) (hq : q ∉ voters) :
    Stands s (s.step (.requestVote e q)) args.term ∧
      Granted (s.step (.requestVote e q)) e q args.term ∧
      Campaign (s.step (.requestVote e q)) p e args k voters := by
  obtain ⟨r, hround, howner, hinfo, hcounter, hcalls⟩ := h.round
  have hcall := hcalls q List.mem_cons_self
  obtain ⟨rf, reply, hok, hlog, hterm, -, hgrant⟩ :=
    Raft.requestVote_newer (h.older q List.mem_cons_self)
  obtain rfl := hgrant (h.upToDate q List.mem_cons_self)
  rw [step_requestVote hround (by rw [hcall]; rfl) (h.live.2 q List.mem_cons_self)
    (by rw [hinfo]; exact hok)]
  have hother : ∀ i ∈ p :: voters, i ≠ q := by
    intro i hi heq
    rcases List.mem_cons.mp hi with rfl | hi
    · exact h.other (heq ▸ List.mem_cons_self)
    · exact hq (heq ▸ hi)
  have hround' : ∀ reply, (recordVote e q (s.setNode q rf) reply).elections[e]? =
      some (r.respond q reply) := by
    intro reply
    simp [recordVote, setNode, hround]
  refine ⟨.of_setNode rfl rfl hlog hterm.le, ⟨_, hround' _, ?_⟩, h.frame ?_ rfl ?_⟩
  · simp [Round.respond, hcall, Call.start]
  · refine ⟨_, hround' _, howner, hinfo, hcounter, fun i hi => ?_⟩
    have hne := hother i (List.mem_cons_of_mem p hi)
    simp [Round.respond, hne, hcalls i (List.mem_cons_of_mem q hi)]
  · exact fun i hi => setNode_nodes_of_ne (hother i hi)

theorem Campaign.count (h : Campaign s p e args k voters) (hq : q ∉ voters)
    (hgranted : Granted s e q args.term) :
    Stands s (s.step (.sendRequestVote e q 0)) args.term ∧
      (((n / 2 + 1 : ℕ) : ℤ) ≤ 1 + k + 1 →
        (s.step (.sendRequestVote e q 0)).Leads p args.term) ∧
      (¬((n / 2 + 1 : ℕ) : ℤ) ≤ 1 + k + 1 →
        Campaign (s.step (.sendRequestVote e q 0)) p e args (k + 1) voters) := by
  obtain ⟨r, hround, rfl, hinfo, hcounter, hcalls⟩ := h.round
  obtain ⟨r', hround', hcall⟩ := hgranted
  obtain rfl := Option.some.inj (hround.symm.trans hround')
  set reply : RequestVoteReply := { term := args.term, voteState := .normal, voteGranted := true }
  have hgranted : reply.voteGranted = true := rfl
  obtain ⟨hfew, hmany⟩ := Raft.sendRequestVote_granted hgranted h.term.symm h.status r.counter
  rw [hcounter] at hfew hmany
  by_cases hwin : ((n / 2 + 1 : ℕ) : ℤ) ≤ 1 + k + 1
  · obtain ⟨rf, hok, hlog, hterm, hst⟩ := hmany hwin
    rw [step_sendRequestVote hround hcall rfl rfl h.live.1 (by rw [hcounter]; exact hok)]
    have hnode : (recordVoteReply e r.owner q reply (s.setNode r.owner rf) (0, true)).nodes r.owner =
        rf := setNode_nodes_self
    refine ⟨.of_setNode rfl rfl hlog (hterm.trans h.term).le, fun _ => ⟨?_, ?_⟩,
      fun hno => absurd hwin hno⟩
    · rw [hnode, hst]
    · rw [hnode, hterm, h.term]
  · rw [step_sendRequestVote hround hcall rfl rfl h.live.1 (by rw [hcounter]; exact hfew hwin),
      setNode_self]
    refine ⟨⟨rfl, fun _ => Raft.SameLog.refl _, fun _ => le_max_left _ _⟩, fun hyes => absurd hyes hwin,
      fun _ => ?_⟩
    refine
      { round := ⟨r.take q reply (1 + k + 1), ?_, rfl, hinfo, ?_, fun i hi => ?_⟩
        status := h.status
        term := h.term
        live := h.live
        other := h.other
        older := h.older
        upToDate := h.upToDate }
    · simp [recordVoteReply, hround]
    · rw [Round.take_counter]
      push_cast
      omega
    · have hne : i ≠ q := fun heq => hq (heq ▸ hi)
      simp [Round.take, hne, hcalls i hi]

def polls (e : ℕ) (voters : List (Fin n)) : List (Action n) :=
  voters.flatMap fun q => [.requestVote e q, .sendRequestVote e q 0]

theorem isProtocol_polls {a : Action n} (ha : a ∈ polls e voters) : a.isProtocol = true := by
  obtain ⟨q, -, ha⟩ := List.mem_flatMap.mp ha
  rcases List.mem_pair.mp ha with rfl | rfl <;> rfl

theorem Campaign.win (h : Campaign s p e args k voters) (hnodup : voters.Nodup)
    (hne : voters ≠ []) (hlen : k + voters.length = n / 2) :
    Stands s (run step s (polls e voters)) args.term ∧
      (run step s (polls e voters)).Leads p args.term := by
  induction voters generalizing s k with
  | nil => exact absurd rfl hne
  | cons q voters ih =>
    obtain ⟨hq, hnodup⟩ := List.nodup_cons.mp hnodup
    have hrun : run step s (polls e (q :: voters)) = run step
        ((s.step (.requestVote e q)).step (.sendRequestVote e q 0)) (polls e voters) := rfl
    rw [hrun]
    obtain ⟨hstands₁, hgranted, hcampaign⟩ := h.vote hq
    obtain ⟨hstands₂, hmany, hfew⟩ := hcampaign.count hq hgranted
    rw [List.length_cons] at hlen
    by_cases hlast : voters = []
    · subst hlast
      exact ⟨hstands₁.trans hstands₂, hmany (by push_cast; simp at hlen; omega)⟩
    · have hpos := List.length_pos_of_ne_nil hlast
      obtain ⟨hstands₃, hleads⟩ := ih (hfew (by push_cast; omega)) hnodup hlast (by omega)
      exact ⟨(hstands₁.trans hstands₂).trans hstands₃, hleads⟩

def voteArgs (rf : Raft n) : RequestVoteArgs n :=
  ⟨rf.currentTerm + 1, rf.me, rf.getLastLogIndex, rf.getLastLogTerm⟩

theorem step_doElection (hlive : s.exited p = none) (hst : (s.nodes p).status ≠ .leader) :
    ∃ rf, s.step (.doElection p) =
        recordElection p (s.setNode p rf) (some (voteArgs (s.nodes p))) ∧
      Raft.SameLog (s.nodes p) rf ∧ rf.status = .candidate ∧
      rf.currentTerm = (s.nodes p).currentTerm + 1 := by
  obtain ⟨rf, out, heval⟩ : ∃ rf out, (s.nodes p).doElection = (rf, out) := ⟨_, _, rfl⟩
  have hout : out ≠ none := by
    rintro rfl
    simp [Raft.doElection, hst] at heval
  rcases Raft.doElection_cases heval with ⟨-, rfl⟩ | ⟨hlog, -, hcand, hterm, -, rfl⟩
  · exact absurd rfl hout
  · refine ⟨rf, ?_, hlog, hcand, hterm⟩
    simp only [step, onNode, hlive, heval]
    rfl

theorem elections_recordElection (args : RequestVoteArgs n) :
    (recordElection p (s.setNode p rf) (some args)).elections[s.elections.length]? =
      some (newElection p args) := by
  simp [recordElection, setNode]

theorem calls_newElection (hq : q ≠ p) : (newElection p args).calls q = some (Call.start ()) := by
  simp [newElection, hq]

theorem win_election (hlive : s.exited p = none) (hst : (s.nodes p).status ≠ .leader)
    (hnodup : voters.Nodup) (hne : voters ≠ []) (hlen : voters.length = n / 2) (hp : p ∉ voters)
    (hvoters : ∀ q ∈ voters, s.exited q = none ∧
      (s.nodes q).currentTerm ≤ (s.nodes p).currentTerm ∧
      (s.nodes q).upToDate (s.nodes p).getLastLogIndex (s.nodes p).getLastLogTerm = true) :
    Stands s (run step s (.doElection p :: polls s.elections.length voters))
        ((s.nodes p).currentTerm + 1) ∧
      (run step s (.doElection p :: polls s.elections.length voters)).Leads p
        ((s.nodes p).currentTerm + 1) := by
  obtain ⟨rf, hstep, hlog, hcand, hterm⟩ := step_doElection hlive hst
  have hrun : run step s (.doElection p :: polls s.elections.length voters) =
      run step (s.step (.doElection p)) (polls s.elections.length voters) := rfl
  rw [hrun, hstep]
  have hother : ∀ q ∈ voters, q ≠ p := fun q hq heq => hp (heq ▸ hq)
  have hcampaign : Campaign (recordElection p (s.setNode p rf) (some (voteArgs (s.nodes p)))) p
      s.elections.length (voteArgs (s.nodes p)) 0 voters :=
    { round := ⟨_, elections_recordElection _, rfl, rfl, rfl,
        fun q hq => calls_newElection (hother q hq)⟩
      status := by
        rw [recordElection_nodes, setNode_nodes_self, hcand]
        exact nofun
      term := by
        rw [recordElection_nodes, setNode_nodes_self, hterm]
        rfl
      live := ⟨hlive, fun q hq => (hvoters q hq).1⟩
      other := hp
      older := fun q hq => by
        rw [recordElection_nodes, setNode_nodes_of_ne (hother q hq)]
        exact Int.lt_add_one_of_le (hvoters q hq).2.1
      upToDate := fun q hq => by
        rw [recordElection_nodes, setNode_nodes_of_ne (hother q hq)]
        exact (hvoters q hq).2.2 }
  obtain ⟨hstands, hleads⟩ := hcampaign.win hnodup hne (by omega)
  exact ⟨.trans (.of_setNode (recordElection_nodes _) rfl hlog hterm.le) hstands, hleads⟩

theorem catch_up (hlive : s.exited p = none ∧ s.exited q = none) (hst : (s.nodes q).status ≠ .leader)
    (hne : p ≠ q) (hle : (s.nodes p).currentTerm ≤ (s.nodes q).currentTerm) :
    Stands s (run step s [.doElection q, .requestVote s.elections.length p])
        ((s.nodes q).currentTerm + 1) ∧
      ((run step s [.doElection q, .requestVote s.elections.length p]).nodes p).status = .follower ∧
      ((run step s [.doElection q, .requestVote s.elections.length p]).nodes p).currentTerm =
        (s.nodes q).currentTerm + 1 := by
  obtain ⟨rf, hstep, hlog, -, hterm⟩ := step_doElection hlive.2 hst
  have hrun : run step s [.doElection q, .requestVote s.elections.length p] =
      (s.step (.doElection q)).step (.requestVote s.elections.length p) := rfl
  rw [hrun, hstep]
  have hstands : Stands s (recordElection q (s.setNode q rf) (some (voteArgs (s.nodes q))))
      ((s.nodes q).currentTerm + 1) := .of_setNode (recordElection_nodes _) rfl hlog hterm.le
  have hnode : (recordElection q (s.setNode q rf) (some (voteArgs (s.nodes q)))).nodes p =
      s.nodes p := by rw [recordElection_nodes, setNode_nodes_of_ne hne]
  have hnewer : (s.nodes p).currentTerm < (voteArgs (s.nodes q)).term := Int.lt_add_one_of_le hle
  obtain ⟨rf', reply, hok, hlog', hterm', hfollow, -⟩ := Raft.requestVote_newer hnewer
  rw [← hnode] at hok
  rw [step_requestVote (elections_recordElection _) (by rw [calls_newElection hne]; rfl)
    (by rw [hstands.exited]; exact hlive.1) hok]
  refine ⟨hstands.trans (.of_setNode rfl rfl (by rw [hnode]; exact hlog') hterm'.le), ?_, ?_⟩
  · exact (congrArg Raft.status setNode_nodes_self).trans hfollow
  · exact (congrArg Raft.currentTerm setNode_nodes_self).trans hterm'

theorem exists_upToDate (s : Cluster n) {M : Finset (Fin n)} (hM : M.Nonempty) :
    ∃ p ∈ M, ∀ q ∈ M,
      (s.nodes q).upToDate (s.nodes p).getLastLogIndex (s.nodes p).getLastLogTerm = true := by
  obtain ⟨p, hp, hmax⟩ := M.exists_max_image
    (fun q => toLex ((s.nodes q).getLastLogTerm, (s.nodes q).getLastLogIndex)) hM
  refine ⟨p, hp, fun q hq => ?_⟩
  have hle := hmax q hq
  rw [Prod.Lex.toLex_le_toLex] at hle
  exact Raft.upToDate_iff.mpr (hle.imp_right fun h => ⟨h.1.symm, h.2⟩)

theorem exists_election (s : Cluster n) (hn : 2 ≤ n) {M : Finset (Fin n)} (hM : n < 2 * M.card)
    (hlive : ∀ q ∈ M, s.exited q = none) :
    ∃ later T, (∀ a ∈ later, Action.isProtocol a = true) ∧ ∃ p ∈ M,
      (run step s later).Leads p T ∧ Stands s (run step s later) T ∧
      ∀ q ∈ M, ((run step s later).nodes q).currentTerm ≤ T := by
  have hne : M.Nonempty := Finset.card_pos.mp (by omega)
  obtain ⟨q₀, hq₀, hmax⟩ := M.exists_max_image (fun q => (s.nodes q).currentTerm) hne
  by_cases hlead : (s.nodes q₀).status = .leader
  · exact ⟨[], _, by simp, q₀, hq₀, ⟨hlead, rfl⟩, .refl _ _, hmax⟩
  obtain ⟨p, hp, hup⟩ := exists_upToDate s hne
  -- first the node with that log is brought up to the highest term
  obtain ⟨first, T₁, hfirst, hstands, hst, hterm, hle⟩ : ∃ first T₁,
      (∀ a ∈ first, Action.isProtocol a = true) ∧ Stands s (run step s first) T₁ ∧
      ((run step s first).nodes p).status ≠ .leader ∧
      ((run step s first).nodes p).currentTerm = T₁ ∧
      ∀ q ∈ M, ((run step s first).nodes q).currentTerm ≤ T₁ := by
    by_cases heq : p = q₀
    · subst heq
      exact ⟨[], _, by simp, .refl _ _, hlead, rfl, hmax⟩
    · obtain ⟨hstands, hfollow, hterm⟩ := catch_up ⟨hlive p hp, hlive q₀ hq₀⟩ hlead heq (hmax p hp)
      refine ⟨_, _, by simp [Action.isProtocol], hstands, ?_, hterm,
        fun q hq => (hstands.term q).trans ?_⟩
      · rw [hfollow]
        exact nofun
      · have := hmax q hq
        omega
  -- then half of the cluster votes for it
  obtain ⟨V, hV, hcard⟩ : ∃ V ⊆ M.erase p, V.card = n / 2 := by
    refine Finset.exists_subset_card_eq ?_
    rw [Finset.card_erase_of_mem hp]
    omega
  have hvoter : ∀ q ∈ V.toList, q ≠ p ∧ q ∈ M := fun q hq =>
    Finset.mem_erase.mp (hV (Finset.mem_toList.mp hq))
  have hlive' : (run step s first).exited p = none := by
    rw [hstands.exited]
    exact hlive p hp
  obtain ⟨hstands', hleads⟩ := win_election hlive' hst V.nodup_toList
    (by rw [← List.length_pos_iff, Finset.length_toList]; omega)
    (by rw [Finset.length_toList, hcard]) (fun h => (hvoter p h).1 rfl) (by
      intro q hq
      obtain ⟨-, hqM⟩ := hvoter q hq
      refine ⟨by rw [hstands.exited]; exact hlive q hqM, by rw [hterm]; exact hle q hqM, ?_⟩
      rw [(hstands.log q).upToDate, Raft.getLastLogIndex, Raft.getLastLogTerm,
        (hstands.log p).lastLog]
      exact hup q hqM)
  rw [hterm] at hstands' hleads
  refine ⟨first ++ .doElection p :: polls (run step s first).elections.length V.toList,
    T₁ + 1, fun a ha => ?_, p, hp, ?_⟩
  · rcases List.mem_append.mp ha with ha | ha
    · exact hfirst a ha
    · rcases List.mem_cons.mp ha with rfl | ha
      · rfl
      · exact isProtocol_polls ha
  rw [run_append]
  refine ⟨hleads, (hstands.mono (by omega)).trans hstands', fun q hq => ?_⟩
  have hq₁ := hle q hq
  have hq₂ := hstands'.term q
  omega

end Cluster
end RaftStorage
