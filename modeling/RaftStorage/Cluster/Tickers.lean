import RaftStorage.Cluster.Terms
import RaftStorage.Raft.Tickers
import Mathlib.Algebra.BigOperators.Group.Finset.Piecewise
import Mathlib.Algebra.BigOperators.Ring.Finset
import Mathlib.Algebra.Order.BigOperators.Group.Finset

/-! The cluster in time. Each node has a clock, the times of its last resets and its two tickers,
which alone call `doElection` and, apart from the thread that a won election starts, `doHeartBeat`.
How long a step takes is up to the scheduler and may be different on every clock. Two things are
taken for granted of the clocks: the system clock of a node, which `now()` reads, and the one of its
timers keep the same pace, and no clock reads the same in two steps. -/

namespace RaftStorage
open Library Finset

/-- The node that sets `m_lastResetElectionTime` in the action. -/
def Cluster.resetsElectionTime {n : ℕ} (s : Cluster n) : Action n → Option (Fin n)
  | .doElection p => if s.exited p = none ∧ (s.nodes p).status ≠ .leader then some p else none
  | .requestVote e p => (s.elections[e]?).bind fun r =>
    if s.exited p = none ∧ (r.calls p).isSome ∧
      ((s.nodes p).requestVote r.info).toOption.any (·.2.voteGranted) then some p else none
  | .appendEntries1 h p => ((s.heartBeats[h]?).bind fun r => r.calls p).bind fun c =>
    if s.exited p = none ∧ ¬c.args.term < (s.nodes p).currentTerm then some p else none
  | .installSnapshot t => (s.snapShots[t]?).bind fun th => th.request.bind fun args =>
    if s.exited th.server = none ∧ ¬args.term < (s.nodes th.server).currentTerm then some th.server
    else none
  | .leaderSendSnapShotReply t k => (s.snapShots[t]?).bind fun th => th.request.bind fun args =>
    (th.replies[k]?).bind fun reply =>
      let rf := s.nodes th.owner
      if s.exited th.owner = none ∧ th.taken = none ∧ rf.status = .leader ∧
        rf.currentTerm = args.term ∧ reply.term > rf.currentTerm then some th.owner else none
  | _ => none

def Cluster.resetsHearBeatTime {n : ℕ} (s : Cluster n) : Action n → Option (Fin n)
  | .doHeartBeat p => if s.exited p = none ∧ (s.nodes p).status = .leader then some p else none
  | _ => none

def Cluster.wins {n : ℕ} (s : Cluster n) (p : Fin n) : ℕ := (s.elected.map Prod.fst).count p

def Cluster.electionsOf {n : ℕ} (s : Cluster n) (p : Fin n) : ℕ :=
  (s.elections.map Round.owner).count p

def Cluster.heartBeatsOf {n : ℕ} (s : Cluster n) (p : Fin n) : ℕ :=
  (s.heartBeats.map Round.owner).count p

namespace Cluster

variable {n : ℕ} {s s' : Cluster n} {a : Action n}

theorem onNode_of_exited {β : Type} {p : Fin n} {f : Raft n → Except AssertFail (Raft n × β)}
    {k : Cluster n → β → Cluster n} (hp : s.exited p ≠ none) : s.onNode p f k = s := by
  unfold onNode
  split
  · rfl
  · exact absurd ‹_› hp

theorem Current.electionsOf_step (h : s.Current) (hI : s.Indexed) (a : Action n) (p : Fin n) :
    (s.step a).electionsOf p = s.electionsOf p ∨ a = .doElection p ∧
      s.resetsElectionTime a = some p ∧ (s.step a).electionsOf p = s.electionsOf p + 1 := by
  unfold electionsOf
  cases h.moves hI a with
  | @stood q action status owners term =>
    subst action
    rw [owners, List.count_append, List.count_singleton]
    by_cases hq : q = p
    · subst hq
      have hlive : s.exited q = none := by
        by_contra hex
        rw [nodes_step_of_exited hex] at term
        omega
      exact Or.inr ⟨rfl, by simp [resetsElectionTime, hlive, status], by simp⟩
    · exact Or.inl (by simp [hq])
  | kept owners => exact Or.inl (by rw [owners])

theorem heartBeatsOf_step (s : Cluster n) (a : Action n) (p : Fin n) :
    (s.step a).heartBeatsOf p = s.heartBeatsOf p ∨ a = .doHeartBeat p ∧
      s.resetsHearBeatTime a = some p ∧ (s.step a).heartBeatsOf p = s.heartBeatsOf p + 1 := by
  unfold heartBeatsOf
  have hs := step_spec s a
  generalize hs' : s.step a = s' at hs
  cases hs with
  | @doElection q rf out eval => cases out <;> exact Or.inl rfl
  | @doHeartBeat q out eval =>
    rcases Raft.doHeartBeat_cases eval with rfl | ⟨sends, rfl, hl, -⟩
    · exact Or.inl rfl
    by_cases hlive : s.exited q = none
    · change ((s.heartBeats ++ [newHeartBeat q (s.nodes q) sends]).map Round.owner).count p = _ ∨ _
      rw [List.map_append, List.count_append]
      by_cases hq : q = p
      · subst hq
        exact Or.inr ⟨rfl, by simp [resetsHearBeatTime, hlive, hl],
          by simp [recordHeartBeat, newHeartBeat]⟩
      · exact Or.inl (by simp [newHeartBeat, hq])
    · rw [← hs']
      exact Or.inl (by rw [step, onNode_of_exited hlive])
  | @appendEntries1 i q r c rf reply =>
    show ((s.heartBeats.modify i (·.respond q reply)).map _).count p = _ ∨ _
    rw [map_modify (by intro; rfl)]
    exact Or.inl rfl
  | @sendAppendEntries i q k r c reply rf num =>
    show ((s.heartBeats.modify i (·.take q reply num)).map _).count p = _ ∨ _
    rw [map_modify (by intro; rfl)]
    exact Or.inl rfl
  | _ => exact Or.inl rfl

theorem wins_step (s : Cluster n) (a : Action n) (p : Fin n) : s.wins p ≤ (s.step a).wins p := by
  have hgrows : s.elected <+: (s.step a).elected := by
    have hs := step_spec s a
    generalize s.step a = s' at hs
    cases hs with
    | @doElection q rf out => cases out <;> exact List.prefix_rfl
    | @doHeartBeat q out => cases out <;> exact List.prefix_rfl
    | sendRequestVote =>
      simp only [recordVoteReply]
      split_ifs
      · exact List.prefix_append _ _
      · exact List.prefix_rfl
    | _ => exact List.prefix_rfl
  exact (hgrows.map Prod.fst).sublist.count_le p

theorem sum_electionsOf (s : Cluster n) : ∑ p, s.electionsOf p = s.elections.length := by
  unfold electionsOf
  rw [← List.length_map Round.owner]
  induction s.elections.map Round.owner with
  | nil => simp
  | cons q owners ih =>
    simp only [List.count_cons, Finset.sum_add_distrib, ih, List.length_cons]
    simp

end Cluster

structure TimedCluster (n : ℕ) where
  cluster : Cluster n
  /-- what the timers' clock is ahead of `now()` -/
  boot : Fin n → ℤ
  clock : Fin n → ℤ
  lastResetElectionTime : Fin n → ℤ
  lastResetHearBeatTime : Fin n → ℤ
  electionTimeOutTicker : Fin n → Ticker
  leaderHearBeatTicker : Fin n → Ticker
  /-- the threads of `sendRequestVote` that have called `doHeartBeat` -/
  threads : Fin n → ℕ

/-- A turn of a ticker goes one phase further. -/
inductive TimedAction (n : ℕ) where
  | electionTimeOutTicker (p : Fin n) (timeout : ElectionTimeout)
  | leaderHearBeatTicker (p : Fin n)
  | doHeartBeat (p : Fin n)
  | handler (a : Action n)

namespace TimedCluster

variable {n : ℕ}

def init (boot clock : Fin n → ℤ) : TimedCluster n where
  cluster := Cluster.init n
  boot := boot
  clock := clock
  lastResetElectionTime := clock
  lastResetHearBeatTime := clock
  electionTimeOutTicker := fun _ => .resting
  leaderHearBeatTicker := fun _ => .resting
  threads := fun _ => 0

def calls (s : TimedCluster n) : TimedAction n → Option (Action n)
  | .electionTimeOutTicker p _ =>
    if s.cluster.exited p = none ∧ s.electionTimeOutTicker p = .acting then some (.doElection p)
    else none
  | .leaderHearBeatTicker p =>
    if s.cluster.exited p = none ∧ s.leaderHearBeatTicker p = .acting then some (.doHeartBeat p)
    else none
  | .doHeartBeat p =>
    if s.cluster.exited p = none ∧ s.threads p < s.cluster.wins p then some (.doHeartBeat p)
    else none
  | .handler (.doElection _) | .handler (.doHeartBeat _) => none
  | .handler a => some a

def turn (s : TimedCluster n) : TimedAction n → TimedCluster n
  | .electionTimeOutTicker p timeout =>
    if s.cluster.exited p = none then
      { s with
        electionTimeOutTicker := Function.update s.electionTimeOutTicker p
          ((s.cluster.nodes p).electionTimeOutTicker timeout (s.lastResetElectionTime p) (s.boot p)
            (s.clock p) (s.electionTimeOutTicker p)) }
    else s
  | .leaderHearBeatTicker p =>
    if s.cluster.exited p = none then
      { s with
        leaderHearBeatTicker := Function.update s.leaderHearBeatTicker p
          ((s.cluster.nodes p).leaderHearBeatTicker (s.lastResetHearBeatTime p) (s.boot p)
            (s.clock p) (s.leaderHearBeatTicker p)) }
    else s
  | .doHeartBeat p =>
    if s.cluster.exited p = none ∧ s.threads p < s.cluster.wins p then
      { s with threads := Function.update s.threads p (s.threads p + 1) }
    else s
  | .handler _ => s

/-- An action and, for each node, by how much its clock goes on, less one nanosecond. -/
def step (s : TimedCluster n) (x : TimedAction n × (Fin n → ℕ)) : TimedCluster n :=
  let a := s.calls x.1
  { s.turn x.1 with
    cluster := a.elim s.cluster s.cluster.step
    clock := fun p => s.clock p + x.2 p + 1
    lastResetElectionTime := fun p =>
      if a.bind s.cluster.resetsElectionTime = some p then s.clock p
      else s.lastResetElectionTime p
    lastResetHearBeatTime := fun p =>
      if a.bind s.cluster.resetsHearBeatTime = some p then s.clock p
      else s.lastResetHearBeatTime p }

def runOf (boot clock : Fin n → ℤ) (acts : List (TimedAction n × (Fin n → ℕ))) : TimedCluster n :=
  run step (init boot clock) acts

variable {s : TimedCluster n} {x : TimedAction n × (Fin n → ℕ)} {a : Action n} {p q : Fin n}
  {start : Fin n → ℤ}

theorem reached_step (h : ∃ acts, s.cluster = Cluster.runOf acts) :
    ∃ acts, (s.step x).cluster = Cluster.runOf acts := by
  obtain ⟨acts, hacts⟩ := h
  simp only [step]
  cases s.calls x.1 with
  | none => exact ⟨acts, hacts⟩
  | some a =>
    refine ⟨acts ++ [a], ?_⟩
    rw [Cluster.runOf, run_concat, ← Cluster.runOf, ← hacts]
    rfl

theorem reached_runOf (boot clock : Fin n → ℤ) (acts : List (TimedAction n × (Fin n → ℕ))) :
    ∃ acts', (runOf boot clock acts).cluster = Cluster.runOf acts' :=
  run_invariant (P := fun s : TimedCluster n => ∃ acts', s.cluster = Cluster.runOf acts') ⟨[], rfl⟩
    (fun _ _ h => reached_step h) acts

theorem turn_boot (s : TimedCluster n) (a : TimedAction n) : (s.turn a).boot = s.boot := by
  cases a <;> simp only [turn] <;> split_ifs <;> rfl

@[simp] theorem step_boot : (s.step x).boot = s.boot := turn_boot s x.1

/-! ## How often nodes begin a round -/

def electionWait : ℤ := milliseconds (minRandomizedElectionTime - 2)

/-- What the heartbeat ticker waits, at least, between two rounds. -/
def heartBeatWait : ℤ := milliseconds (heartBeatTimeout - 2)

/-- Since `start` every node had the time for its rounds. -/
structure Timely (start : Fin n → ℤ) (s : TimedCluster n) : Prop where
  election : ∀ p, (s.electionTimeOutTicker p).Paced electionWait (s.boot p) (start p)
    (s.lastResetElectionTime p) (s.clock p) (s.cluster.electionsOf p)
  heartBeat : ∀ p, (s.leaderHearBeatTicker p).Paced heartBeatWait (s.boot p) (start p)
    (s.lastResetHearBeatTime p) (s.clock p) (s.cluster.heartBeatsOf p - s.threads p)
  threads : ∀ p, s.threads p ≤ s.cluster.wins p

theorem timely_init (boot clock : Fin n → ℤ) : (init boot clock).Timely clock where
  election := fun _ => Ticker.paced_resting
  heartBeat := fun _ => Ticker.paced_resting
  threads := fun _ => Nat.zero_le _

theorem clock_lt_step : s.clock p < (s.step x).clock p := by
  change s.clock p < s.clock p + x.2 p + 1
  omega

theorem Timely.election_call (h : s.Timely start) (hC : s.cluster.Current) (hI : s.cluster.Indexed)
    (hcall : s.calls x.1 ≠ some (.doElection p)) :
    (s.electionTimeOutTicker p).Paced electionWait (s.boot p) (start p)
      ((s.step x).lastResetElectionTime p) (s.clock p) ((s.step x).cluster.electionsOf p) := by
  have hp := h.election p
  simp only [step]
  cases hx : s.calls x.1 with
  | none => simpa using hp
  | some a =>
    have hcount : (s.cluster.step a).electionsOf p = s.cluster.electionsOf p := by
      rcases hC.electionsOf_step hI a p with heq | ⟨rfl, -⟩
      · exact heq
      · exact absurd hx hcall
    simp only [Option.elim_some, Option.bind_some, hcount]
    split_ifs
    · exact hp.reset
    · exact hp

theorem Timely.election_other (h : s.Timely start) (hC : s.cluster.Current)
    (hI : s.cluster.Indexed) (hcall : s.calls x.1 ≠ some (.doElection p))
    (hticker : (s.turn x.1).electionTimeOutTicker p = s.electionTimeOutTicker p) :
    ((s.step x).electionTimeOutTicker p).Paced electionWait ((s.step x).boot p) (start p)
      ((s.step x).lastResetElectionTime p) ((s.step x).clock p)
      ((s.step x).cluster.electionsOf p) := by
  change ((s.turn x.1).electionTimeOutTicker p).Paced _ _ _ _ _ _
  rw [hticker, step_boot]
  exact (h.election_call hC hI hcall).later clock_lt_step.le

theorem Timely.election_step (h : s.Timely start) (hC : s.cluster.Current) (hI : s.cluster.Indexed)
    (x : TimedAction n × (Fin n → ℕ)) (p : Fin n) :
    ((s.step x).electionTimeOutTicker p).Paced electionWait ((s.step x).boot p) (start p)
      ((s.step x).lastResetElectionTime p) ((s.step x).clock p)
      ((s.step x).cluster.electionsOf p) := by
  obtain ⟨a, elapsed⟩ := x
  cases a with
  | electionTimeOutTicker q timeout =>
    by_cases hq : p = q ∧ s.cluster.exited q = none
    · obtain ⟨rfl, hlive⟩ := hq
      have hlt : s.clock p < (s.step (.electionTimeOutTicker p timeout, elapsed)).clock p :=
        clock_lt_step
      have hwait : electionWait + milliseconds 2 ≤ milliseconds timeout := by
        have hmin := timeout.2.1
        unfold electionWait milliseconds
        omega
      have hticker : (s.step (.electionTimeOutTicker p timeout, elapsed)).electionTimeOutTicker p =
          (s.cluster.nodes p).electionTimeOutTicker timeout (s.lastResetElectionTime p) (s.boot p)
            (s.clock p) (s.electionTimeOutTicker p) := by
        simp [step, turn, hlive]
      have hp := h.election p
      by_cases hact : s.electionTimeOutTicker p = .acting
      · have hcall : s.calls (.electionTimeOutTicker p timeout) = some (.doElection p) := by
          simp [calls, hlive, hact]
        rw [hact] at hp
        rw [hticker, hact, step_boot]
        simp only [step, hcall, Option.elim_some, Option.bind_some] at hlt ⊢
        rcases hC.electionsOf_step hI (.doElection p) p with hsame | ⟨-, hreset, hone⟩
        · rw [hsame]
          split_ifs
          · exact hp.reset.rest.later hlt.le
          · exact hp.rest.later hlt.le
        · rw [if_pos hreset, hone]
          push_cast
          exact hp.act.later hlt.le
      · have hcall : s.calls (.electionTimeOutTicker p timeout) = none := by simp [calls, hact]
        rw [hticker, step_boot]
        simp only [step, hcall, Option.elim_none, Option.bind_none] at hlt ⊢
        exact hp.step hwait hlt
    · refine h.election_other hC hI ?_ ?_
      · simp only [calls]
        split_ifs with hact
        · rintro heq
          obtain rfl := Action.doElection.inj (Option.some.inj heq)
          exact hq ⟨rfl, hact.1⟩
        · exact Option.some_ne_none _ |>.symm
      · simp only [turn]
        split_ifs with hlive
        · exact Function.update_of_ne (fun heq => hq ⟨heq, hlive⟩) _ _
        · rfl
  | leaderHearBeatTicker q =>
    refine h.election_other hC hI ?_ ?_
    · simp only [calls]
      split_ifs <;> simp
    · simp only [turn]
      split_ifs <;> rfl
  | doHeartBeat q =>
    refine h.election_other hC hI ?_ ?_
    · simp only [calls]
      split_ifs <;> simp
    · simp only [turn]
      split_ifs <;> rfl
  | handler b => exact h.election_other hC hI (by cases b <;> simp [calls]) rfl

theorem Timely.heartBeat_call (h : s.Timely start) (x : TimedAction n × (Fin n → ℕ)) (p : Fin n) :
    ∃ rounds : ℤ, (s.leaderHearBeatTicker p).Paced heartBeatWait (s.boot p) (start p)
        ((s.step x).lastResetHearBeatTime p) (s.clock p) (s.cluster.heartBeatsOf p - s.threads p) ∧
      ((s.step x).cluster.heartBeatsOf p : ℤ) = s.cluster.heartBeatsOf p + rounds ∧
      (rounds = 0 ∨ rounds = 1 ∧ s.calls x.1 = some (.doHeartBeat p) ∧
        (s.step x).lastResetHearBeatTime p = s.clock p) := by
  have hp := h.heartBeat p
  simp only [step]
  cases hx : s.calls x.1 with
  | none => exact ⟨0, by simpa using hp, by simp, Or.inl rfl⟩
  | some a =>
    have hreset : (s.leaderHearBeatTicker p).Paced heartBeatWait (s.boot p) (start p)
        (if s.cluster.resetsHearBeatTime a = some p then s.clock p else s.lastResetHearBeatTime p)
        (s.clock p) (s.cluster.heartBeatsOf p - s.threads p) := by
      split_ifs
      · exact hp.reset
      · exact hp
    simp only [Option.elim_some, Option.bind_some]
    rcases s.cluster.heartBeatsOf_step a p with hsame | ⟨rfl, hto, hone⟩
    · exact ⟨0, hreset, by rw [hsame, add_zero], Or.inl rfl⟩
    · exact ⟨1, hreset, by rw [hone]; rfl, Or.inr ⟨rfl, rfl, if_pos hto⟩⟩

theorem Timely.heartBeat_other (h : s.Timely start) (hcall : s.calls x.1 ≠ some (.doHeartBeat p))
    (hticker : (s.turn x.1).leaderHearBeatTicker p = s.leaderHearBeatTicker p)
    (hthreads : (s.turn x.1).threads p = s.threads p) :
    ((s.step x).leaderHearBeatTicker p).Paced heartBeatWait ((s.step x).boot p) (start p)
      ((s.step x).lastResetHearBeatTime p) ((s.step x).clock p)
      ((s.step x).cluster.heartBeatsOf p - (s.step x).threads p) := by
  obtain ⟨rounds, hp, hcount, hrounds⟩ := h.heartBeat_call x p
  obtain rfl : rounds = 0 := hrounds.resolve_right fun hone => hcall hone.2.1
  change ((s.turn x.1).leaderHearBeatTicker p).Paced _ _ _ _ _ (_ - ((s.turn x.1).threads p : ℤ))
  rw [hticker, hthreads, step_boot, hcount, add_zero]
  exact hp.later clock_lt_step.le

theorem Timely.heartBeat_step (h : s.Timely start) (x : TimedAction n × (Fin n → ℕ)) (p : Fin n) :
    ((s.step x).leaderHearBeatTicker p).Paced heartBeatWait ((s.step x).boot p) (start p)
      ((s.step x).lastResetHearBeatTime p) ((s.step x).clock p)
      ((s.step x).cluster.heartBeatsOf p - (s.step x).threads p) := by
  have hlt : s.clock p < (s.step x).clock p := clock_lt_step
  obtain ⟨rounds, hp, hcount, hrounds⟩ := h.heartBeat_call x p
  obtain ⟨a, elapsed⟩ := x
  cases a with
  | electionTimeOutTicker q timeout =>
    refine h.heartBeat_other ?_ ?_ ?_
    · simp only [calls]
      split_ifs <;> simp
    · simp only [turn]
      split_ifs <;> rfl
    · simp only [turn]
      split_ifs <;> rfl
  | leaderHearBeatTicker q =>
    have hthreads : (s.turn (.leaderHearBeatTicker q)).threads p = s.threads p := by
      simp only [turn]
      split_ifs <;> rfl
    by_cases hq : p = q ∧ s.cluster.exited q = none
    · obtain ⟨rfl, hlive⟩ := hq
      have hticker : (s.step (.leaderHearBeatTicker p, elapsed)).leaderHearBeatTicker p =
          (s.cluster.nodes p).leaderHearBeatTicker (s.lastResetHearBeatTime p) (s.boot p)
            (s.clock p) (s.leaderHearBeatTicker p) := by
        simp [step, turn, hlive]
      have hsame : (s.step (.leaderHearBeatTicker p, elapsed)).threads p = s.threads p := hthreads
      rw [hticker, hsame, step_boot, hcount]
      by_cases hact : s.leaderHearBeatTicker p = .acting
      · rw [hact] at hp ⊢
        rcases hrounds with rfl | ⟨rfl, -, hreset⟩
        · rw [add_zero]
          exact hp.rest.later hlt.le
        · rw [hreset, add_sub_right_comm]
          rw [hreset] at hp
          exact hp.act.later hlt.le
      · have hcall : s.calls (.leaderHearBeatTicker p) = none := by simp [calls, hact]
        obtain rfl : rounds = 0 := hrounds.resolve_right fun hone => by
          rw [hcall] at hone
          cases hone.2.1
        have hwait : heartBeatWait + milliseconds 2 ≤ milliseconds heartBeatTimeout := le_rfl
        rw [add_zero]
        simp only [step, hcall, Option.elim_none, Option.bind_none] at hlt hp ⊢
        exact hp.step hwait hlt
    · refine h.heartBeat_other ?_ ?_ hthreads
      · simp only [calls]
        split_ifs with hact
        · rintro heq
          obtain rfl := Action.doHeartBeat.inj (Option.some.inj heq)
          exact hq ⟨rfl, hact.1⟩
        · exact Option.some_ne_none _ |>.symm
      · simp only [turn]
        split_ifs with hlive
        · exact Function.update_of_ne (fun heq => hq ⟨heq, hlive⟩) _ _
        · rfl
  | doHeartBeat q =>
    have hticker : (s.turn (.doHeartBeat q)).leaderHearBeatTicker p = s.leaderHearBeatTicker p := by
      simp only [turn]
      split_ifs <;> rfl
    by_cases hq : p = q ∧ s.cluster.exited q = none ∧ s.threads q < s.cluster.wins q
    · obtain ⟨rfl, hopen⟩ := hq
      have hthreads : (s.step (.doHeartBeat p, elapsed)).threads p = s.threads p + 1 := by
        simp [step, turn, hopen]
      -- the round is the thread's, not the ticker's
      have hwait : 0 ≤ heartBeatWait := by decide
      have hle : s.cluster.heartBeatsOf p + rounds - (s.threads p + 1) ≤
          s.cluster.heartBeatsOf p - s.threads p := by
        rcases hrounds with rfl | ⟨rfl, -⟩ <;> omega
      change ((s.turn _).leaderHearBeatTicker p).Paced _ _ _ _ _ _
      rw [hticker, hthreads, step_boot, hcount]
      push_cast
      exact (hp.fewer hwait hle).later hlt.le
    · refine h.heartBeat_other ?_ hticker ?_
      · simp only [calls]
        split_ifs with hopen
        · rintro heq
          obtain rfl := Action.doHeartBeat.inj (Option.some.inj heq)
          exact hq ⟨rfl, hopen⟩
        · exact Option.some_ne_none _ |>.symm
      · simp only [turn]
        split_ifs with hopen
        · exact Function.update_of_ne (fun heq => hq ⟨heq, heq ▸ hopen⟩) _ _
        · rfl
  | handler b => exact h.heartBeat_other (by cases b <;> simp [calls]) rfl rfl

theorem Timely.threads_step (h : s.Timely start) (x : TimedAction n × (Fin n → ℕ)) (p : Fin n) :
    (s.step x).threads p ≤ (s.step x).cluster.wins p := by
  have hwins : s.cluster.wins p ≤ (s.step x).cluster.wins p := by
    simp only [step]
    cases s.calls x.1 with
    | none => exact le_rfl
    | some a => exact s.cluster.wins_step a p
  refine le_trans ?_ hwins
  change (s.turn x.1).threads p ≤ _
  obtain ⟨a, elapsed⟩ := x
  cases a with
  | doHeartBeat q =>
    simp only [turn]
    split_ifs with hopen
    · dsimp only
      by_cases hq : p = q
      · subst hq
        rw [Function.update_self]
        exact hopen.2
      · rw [Function.update_of_ne hq]
        exact h.threads p
    · exact h.threads p
  | handler => exact h.threads p
  | _ =>
    simp only [turn]
    split_ifs <;> exact h.threads p

theorem Timely.step (h : s.Timely start) (hreached : ∃ acts, s.cluster = Cluster.runOf acts)
    (x : TimedAction n × (Fin n → ℕ)) : (s.step x).Timely start := by
  obtain ⟨acts, hacts⟩ := hreached
  have hC : s.cluster.Current := hacts ▸ Cluster.current_runOf acts
  have hI : s.cluster.Indexed := hacts ▸ Cluster.indexed_runOf acts
  exact ⟨h.election_step hC hI x, h.heartBeat_step x, h.threads_step x⟩

theorem timely_runOf (boot clock : Fin n → ℤ) (acts : List (TimedAction n × (Fin n → ℕ))) :
    (runOf boot clock acts).Timely clock :=
  (run_invariant (P := fun s : TimedCluster n => s.Timely clock ∧
      ∃ acts, s.cluster = Cluster.runOf acts)
    ⟨timely_init boot clock, [], rfl⟩ (fun _ x h => ⟨h.1.step h.2 x, reached_step h.2⟩) acts).1

/-- Rounds and terms take time. By the node's own clock, `electionWait` went by for each election
that a node has begun, and `heartBeatWait` for each round of heartbeats, but for those that won
elections start; and the term of a node is no higher than what all clocks together leave room for. -/
theorem rounds_take_time (boot clock : Fin n → ℤ) (acts : List (TimedAction n × (Fin n → ℕ))) :
    let s := runOf boot clock acts
    (∀ p, s.cluster.electionsOf p * electionWait ≤ s.clock p - clock p) ∧
    (∀ p, (s.cluster.heartBeatsOf p - s.cluster.wins p) * heartBeatWait ≤ s.clock p - clock p) ∧
    ∀ p, (s.cluster.nodes p).currentTerm * electionWait ≤ ∑ q, (s.clock q - clock q) := by
  intro s
  have hT : s.Timely clock := timely_runOf boot clock acts
  have helection : ∀ p, s.cluster.electionsOf p * electionWait ≤ s.clock p - clock p := by
    intro p
    have hpast := (hT.election p).past
    have hlast := (hT.election p).last_le
    omega
  refine ⟨helection, fun p => ?_, fun p => ?_⟩
  · have hpast := (hT.heartBeat p).past
    have hlast := (hT.heartBeat p).last_le
    have hthreads : (s.threads p : ℤ) ≤ s.cluster.wins p := by exact_mod_cast hT.threads p
    have hwait : 0 ≤ heartBeatWait := by decide
    have hmul := mul_le_mul_of_nonneg_right
      (sub_le_sub_left hthreads (s.cluster.heartBeatsOf p : ℤ)) hwait
    omega
  · obtain ⟨acts', hacts⟩ := reached_runOf boot clock acts
    have hC : s.cluster.Current := hacts ▸ Cluster.current_runOf acts'
    have hwait : 0 ≤ electionWait := by decide
    calc (s.cluster.nodes p).currentTerm * electionWait
        ≤ s.cluster.elections.length * electionWait :=
          mul_le_mul_of_nonneg_right (hC.node p) hwait
      _ = ∑ q, s.cluster.electionsOf q * electionWait := by
          rw [← Cluster.sum_electionsOf, Nat.cast_sum, Finset.sum_mul]
      _ ≤ ∑ q, (s.clock q - clock q) := Finset.sum_le_sum fun q _ => helection q

/-! ## A leader that is heard -/

def Prompt (s : TimedCluster n) (x : TimedAction n × (Fin n → ℕ)) : Prop :=
  ∀ a ∈ s.calls x.1, s.cluster.Prompt a

def Heard (s : TimedCluster n) (p : Fin n) : Prop :=
  ∀ q, q ≠ p → s.cluster.exited q = none → s.clock q < s.lastResetElectionTime q + electionWait

def Quiet (s : TimedCluster n) (p : Fin n) : Prop :=
  ∀ q, q ≠ p → s.cluster.exited q = none → s.electionTimeOutTicker q ≠ .acting

theorem calls_doElection (hcall : s.calls x.1 = some (.doElection q)) :
    s.cluster.exited q = none ∧ s.electionTimeOutTicker q = .acting := by
  obtain ⟨a, elapsed⟩ := x
  cases a with
  | electionTimeOutTicker o timeout =>
    simp only [calls] at hcall
    split_ifs at hcall with hact
    obtain rfl := Action.doElection.inj (Option.some.inj hcall)
    exact hact
  | handler b => cases b <;> simp [calls] at hcall
  | _ => simp [calls] at hcall

theorem exited_of_step (hlive : (s.step x).cluster.exited q = none) :
    s.cluster.exited q = none := by
  by_contra hex
  revert hlive
  simp only [step]
  cases s.calls x.1 with
  | none => exact hex
  | some a => exact (Cluster.step_spec s.cluster a).exited_mono hex

theorem Timely.quiet_step (h : s.Timely start) (hheard : s.Heard p) (hquiet : s.Quiet p)
    (x : TimedAction n × (Fin n → ℕ)) : (s.step x).Quiet p := by
  intro q hq hstep
  have hlive : s.cluster.exited q = none := exited_of_step hstep
  change (s.turn x.1).electionTimeOutTicker q ≠ .acting
  have hold := hquiet q hq hlive
  obtain ⟨a, elapsed⟩ := x
  cases a with
  | electionTimeOutTicker o timeout =>
    simp only [turn]
    split_ifs
    · dsimp only
      by_cases ho : q = o
      · subst ho
        rw [Function.update_self]
        intro hact
        have hdue := (h.election q).waits.due hact
        have hsoon := hheard q hq hlive
        omega
      · rw [Function.update_of_ne ho]
        exact hold
    · exact hold
  | handler => exact hold
  | _ =>
    simp only [turn]
    split_ifs <;> exact hold

structure Ruled (s : TimedCluster n) (start : Fin n → ℤ) (p : Fin n) (T : ℤ)
    (owners : List (Fin n)) : Prop where
  timely : s.Timely start
  reached : ∃ acts, s.cluster = Cluster.runOf acts
  spoken : s.cluster.Spoken
  quiet : s.Quiet p
  rules : s.cluster.Rules p T
  owners : s.cluster.elections.map Round.owner = owners

theorem Ruled.step {T : ℤ} {owners : List (Fin n)} (h : s.Ruled start p T owners)
    (hprompt : s.Prompt x) (hheard : s.Heard p) : (s.step x).Ruled start p T owners := by
  have hstep : (s.step x).cluster.Spoken ∧ (s.step x).cluster.Rules p T ∧
      (s.step x).cluster.elections.map Round.owner = owners := by
    obtain ⟨acts, hacts⟩ := h.reached
    have hI : s.cluster.Indexed := hacts ▸ Cluster.indexed_runOf acts
    have hE : s.cluster.Elections := hacts ▸ Cluster.elections_runOf acts
    have hC : s.cluster.Current := hacts ▸ Cluster.current_runOf acts
    simp only [TimedCluster.step]
    cases hx : s.calls x.1 with
    | none => exact ⟨h.spoken, h.rules, h.owners⟩
    | some a =>
      have hown : ∀ q, a = .doElection q → q = p := by
        rintro q rfl
        by_contra hq
        obtain ⟨hlive, hact⟩ := calls_doElection hx
        exact h.quiet q hq hlive hact
      obtain ⟨hrules, howners⟩ := hC.rules hI hE h.spoken h.rules hown
      exact ⟨h.spoken.prompt_step hI hE (hprompt a hx), hrules, howners.trans h.owners⟩
  exact ⟨h.timely.step h.reached x, reached_step h.reached, hstep.1,
    h.timely.quiet_step hheard h.quiet x, hstep.2.1, hstep.2.2⟩

theorem spoken_runOf {boot clock : Fin n → ℤ} {acts : List (TimedAction n × (Fin n → ℕ))}
    (h : Along step Prompt (init boot clock) acts) : (runOf boot clock acts).cluster.Spoken := by
  refine (run_invariant_along (P := fun s : TimedCluster n => s.cluster.Spoken ∧
    ∃ acts, s.cluster = Cluster.runOf acts) ⟨Cluster.spoken_init n, [], rfl⟩ ?_ h).1
  rintro s x ⟨hS, hreached⟩ hprompt
  refine ⟨?_, reached_step hreached⟩
  obtain ⟨acts, hacts⟩ := hreached
  simp only [step]
  cases hx : s.calls x.1 with
  | none => exact hS
  | some a =>
    exact hS.prompt_step (hacts ▸ Cluster.indexed_runOf acts) (hacts ▸ Cluster.elections_runOf acts)
      (hprompt a hx)

/-- A leader that is heard keeps leading. Let node `p` lead in a term that no node has passed, with
no other running node about to stand, and let each of them be reset at least every `electionWait`
from then on. Then `p` leads the same term to the end, no node gets past it and nobody stands. -/
theorem heard_leader_keeps_leading {boot clock : Fin n → ℤ}
    {acts acts' : List (TimedAction n × (Fin n → ℕ))} {p : Fin n}
    (hprompt : Along step Prompt (init boot clock) (acts ++ acts'))
    (hlead : ((runOf boot clock acts).cluster.nodes p).status = .leader)
    (htop : ∀ q, ((runOf boot clock acts).cluster.nodes q).currentTerm ≤
      ((runOf boot clock acts).cluster.nodes p).currentTerm)
    (hquiet : (runOf boot clock acts).Quiet p)
    (hheard : Along step (fun s _ => s.Heard p) (runOf boot clock acts) acts') :
    let s := runOf boot clock acts
    let s' := runOf boot clock (acts ++ acts')
    (s'.cluster.nodes p).status = .leader ∧
      (s'.cluster.nodes p).currentTerm = (s.cluster.nodes p).currentTerm ∧
      (∀ q, (s'.cluster.nodes q).currentTerm ≤ (s.cluster.nodes p).currentTerm) ∧
      ∀ q, s'.cluster.electionsOf q = s.cluster.electionsOf q := by
  intro s s'
  obtain ⟨hbefore, hafter⟩ := along_append.mp hprompt
  have hstart : s.Ruled clock p (s.cluster.nodes p).currentTerm
      (s.cluster.elections.map Round.owner) :=
    ⟨timely_runOf boot clock acts, reached_runOf boot clock acts, spoken_runOf hbefore, hquiet,
      ⟨hlead, rfl, htop⟩, rfl⟩
  have hend : (run step s acts').Ruled clock p (s.cluster.nodes p).currentTerm
      (s.cluster.elections.map Round.owner) :=
    run_invariant_along (P := fun s' : TimedCluster n => s'.Ruled clock p
      (s.cluster.nodes p).currentTerm (s.cluster.elections.map Round.owner)) hstart
      (fun _ _ h hC => h.step hC.1 hC.2) (hafter.and hheard)
  have hs' : s' = run step s acts' := run_append step _ acts acts'
  rw [← hs'] at hend
  obtain ⟨hleads, hterm, htops⟩ := hend.rules
  refine ⟨hleads, hterm, htops, fun q => ?_⟩
  rw [Cluster.electionsOf, hend.owners, Cluster.electionsOf]

instance (s : Cluster n) : ∀ a, Decidable (s.Prompt a)
  | .leaderSendSnapShot t => inferInstanceAs (Decidable (∀ th ∈ s.snapShots[t]?, th.request = none →
      s.exited th.owner = none → (s.nodes th.owner).status = .leader))
  | .doElection _ | .requestVote _ _ | .sendRequestVote _ _ _ | .start _ _ | .doHeartBeat _
  | .appendEntries1 _ _ | .sendAppendEntries _ _ _ | .installSnapshot _
  | .leaderSendSnapShotReply _ _ | .snapshot _ _ _ | .getApplyLogs _ | .applierPush _
  | .pushMsgToKvServer _ _ => isTrue trivial

instance (s : TimedCluster n) (x : TimedAction n × (Fin n → ℕ)) : Decidable (s.Prompt x) :=
  inferInstanceAs (Decidable (∀ a ∈ s.calls x.1, s.cluster.Prompt a))

instance (s : TimedCluster n) (p : Fin n) : Decidable (s.Heard p) :=
  inferInstanceAs (Decidable (∀ _, _))

instance (s : TimedCluster n) (p : Fin n) : Decidable (s.Quiet p) :=
  inferInstanceAs (Decidable (∀ _, _))

def lasting (ms : ℕ) (a : TimedAction 3) : TimedAction 3 × (Fin 3 → ℕ) :=
  (a, fun _ => ms * 1000000)

def shortTimeout : ElectionTimeout := ⟨300, by decide⟩

open Cluster in
/-- Node 0 wakes up and is elected by node 1, and both others get its first heartbeat. -/
def electedRun : List (TimedAction 3 × (Fin 3 → ℕ)) :=
  (List.replicate 2 (.electionTimeOutTicker leading shortTimeout)).map (lasting 0) ++
  [lasting 300 (.electionTimeOutTicker leading shortTimeout)] ++
  (List.replicate 3 (.electionTimeOutTicker leading shortTimeout)).map (lasting 0) ++
  [.handler (.requestVote 0 following), .handler (.sendRequestVote 0 following 0),
    .doHeartBeat leading, .handler (.appendEntries1 0 following),
    .handler (.appendEntries1 0 lagging)].map (lasting 1)

open Cluster in
/-- Node 1 falls asleep. A heartbeat comes 200 ms later, so that it does not stand when it wakes up
after 300 ms. -/
def heardRun : List (TimedAction 3 × (Fin 3 → ℕ)) :=
  (List.replicate 3 (.electionTimeOutTicker following shortTimeout)).map (lasting 0) ++
  (List.replicate 3 (.leaderHearBeatTicker leading)).map (lasting 65) ++
  (List.replicate 3 (.leaderHearBeatTicker leading)).map (lasting 0) ++
  [.handler (.appendEntries1 1 following), .handler (.appendEntries1 1 lagging)].map (lasting 60) ++
  (List.replicate 2 (.electionTimeOutTicker following shortTimeout)).map (lasting 0)

theorem heard_leader_keeps_leading_heardRun :
    ((runOf 0 0 (electedRun ++ heardRun)).cluster.nodes Cluster.leading).status = .leader ∧
      ((runOf 0 0 (electedRun ++ heardRun)).cluster.nodes Cluster.leading).currentTerm = 1 := by
  have h := @heard_leader_keeps_leading 3 0 0 electedRun heardRun Cluster.leading
    (by decide +kernel) (by decide +kernel) (by decide +kernel) (by decide +kernel)
    (by decide +kernel)
  exact ⟨h.1, h.2.1.trans (by decide +kernel)⟩

end TimedCluster
end RaftStorage
