import RaftStorage.Cluster.Availability
import RaftStorage.Kv.StateSize
import RaftStorage.Service.Agreement

/-! Every request can be served. Where the servers take no snapshots and a majority of the processes
runs, one of them can be made the leader, a handler started on it, the command committed and handed
to the apply loop, and the handler answers with the result. -/

namespace RaftStorage
open Library

theorem Raft.start_leader {n : ℕ} {rf : Raft n} (h : rf.status = .leader) (command : String) :
    (rf.start command).2 = some (rf.getLastLogIndex + 1, rf.currentTerm) := by
  rw [Raft.start, if_neg (not_not.mpr h)]
  rfl

namespace Cluster

variable {n : ℕ} {c c' : Cluster n} {a : Action n} {p : Fin n}

/-! ## Clusters without snapshots -/

structure Uncompacted (c : Cluster n) : Prop where
  snapIndex : ∀ p, (c.nodes p).lastSnapshotIncludeIndex = 0
  snapShots : c.snapShots = []

theorem uncompacted_init (n : ℕ) : (init n).Uncompacted := ⟨fun _ => rfl, rfl⟩

theorem Uncompacted.newSnapShots (h : c.Uncompacted) (hI : c.Indexed) (hB : c.Bounded)
    {sends : Fin n → Option (Raft.HeartBeatSend n)} (hl : (c.nodes p).status = .leader)
    (hsends : ∀ i, (c.nodes p).heartBeatTo i = .ok (sends i)) : newSnapShots p sends = [] := by
  refine List.filterMap_eq_nil_iff.mpr fun i _ => ?_
  have hc := (hI.node p).contiguous
  have hpeer := hB.leader p hl i
  have hsnap := h.snapIndex p
  have hpos := hpeer.next_pos
  have hle := hpeer.next_le
  have hi := hsends i
  by_cases hme : i = (c.nodes p).me
  · rw [Raft.heartBeatTo, if_pos hme] at hi
    rw [← Except.ok.inj hi]
  · obtain ⟨t, ht⟩ := hc.exists_termAt (i := (c.nodes p).nextIndex i - 1) (by omega) (by omega)
    rw [Raft.heartBeatTo_append_eq hc hme hpos (by omega) hle ht] at hi
    rw [← Except.ok.inj hi]

theorem Uncompacted.of_setNode {rf : Raft n} (h : c.Uncompacted)
    (hnodes : c'.nodes = (c.setNode p rf).nodes) (hsnap : c'.snapShots = c.snapShots)
    (hidx : rf.lastSnapshotIncludeIndex = (c.nodes p).lastSnapshotIncludeIndex) :
    c'.Uncompacted where
  snapIndex := fun q => by
    rw [hnodes]
    have hrel := setNode_rel (R := fun rf rf' =>
      rf'.lastSnapshotIncludeIndex = rf.lastSnapshotIncludeIndex) (fun _ => rfl) hidx q
    exact hrel.trans (h.snapIndex q)
  snapShots := hsnap.trans h.snapShots

theorem Uncompacted.step (h : c.Uncompacted) (hI : c.Indexed) (hB : c.Bounded) (hs : Step c a c')
    (ha : ∀ p index str, a ≠ .snapshot p index str) : c'.Uncompacted := by
  -- there is no thread that could send or install a snapshot
  have hnone : ∀ {t : ℕ} {th}, c.snapShots[t]? ≠ some th := by
    intro t th
    simp [h.snapShots]
  cases hs with
  | idle => exact h
  | exit => exact ⟨h.snapIndex, h.snapShots⟩
  | push => exact ⟨h.snapIndex, h.snapShots⟩
  | @doElection q rf out eval =>
    refine h.of_setNode (recordElection_nodes _) (by cases out <;> rfl) ?_
    rcases Raft.doElection_cases eval with ⟨rfl, -⟩ | ⟨hlog, -⟩
    · rfl
    · exact hlog.snapIndex
  | requestVote round call eval =>
    exact h.of_setNode rfl rfl (Raft.requestVote_cases eval).1.snapIndex
  | sendRequestVote round call taken answer eval =>
    exact h.of_setNode rfl rfl (Raft.sendRequestVote_cases eval).1.snapIndex
  | start eval =>
    refine h.of_setNode rfl rfl ?_
    rcases Raft.start_cases eval with ⟨rfl, -⟩ | ⟨-, -, -, -, hidx, -⟩
    · rfl
    · exact hidx
  | @doHeartBeat q out eval =>
    rcases Raft.doHeartBeat_cases eval with rfl | ⟨sends, rfl, hl, hsends⟩
    · exact h
    · refine ⟨h.snapIndex, ?_⟩
      simp only [recordHeartBeat, h.snapShots, h.newSnapShots hI hB hl hsends, List.append_nil]
  | appendEntries1 round call eval =>
    refine h.of_setNode rfl rfl ?_
    cases Raft.appendEntries1_cases (hI.node _).contiguous (hI.shaped round call).numbered eval with
    | stale _ same => rw [same]
    | rejected _ log => exact log.snapIndex
    | merged _ log => exact log.snapIndex
  | sendAppendEntries round call taken answer eval =>
    refine h.of_setNode rfl rfl ?_
    obtain ⟨-, ⟨hlog, -⟩ | ⟨-, hidx, -⟩⟩ := Raft.sendAppendEntries_cases eval
    · exact hlog.snapIndex
    · exact hidx
  | leaderSendSnapShot thread => exact absurd thread hnone
  | installSnapshot thread => exact absurd thread hnone
  | leaderSendSnapShotReply thread => exact absurd thread hnone
  | snapshot => exact absurd rfl (ha _ _ _)
  | @getApplyLogs q rf msgs eval =>
    have hi := hI.node q
    obtain ⟨msgs', hok, -⟩ :=
      Raft.getApplyLogs_ok hi.contiguous hi.snap_le hi.applied_le hi.commit_le
    obtain ⟨rfl, rfl⟩ := Prod.mk.inj (Except.ok.inj (hok.symm.trans eval))
    exact h.of_setNode rfl rfl rfl

theorem Uncompacted.uninstalled (h : c.Uncompacted) (p : Fin n) (a : Action n) :
    c.Uninstalled p a := by
  cases a with
  | installSnapshot t =>
    intro th hth
    simp [h.snapShots] at hth
  | _ => exact trivial

/-! ## Steps that hand nothing to a server -/

theorem quiet_step (c : Cluster n) (ha : a.isProtocol = true ∨ ∃ q command, a = .start q command) :
    (c.step a).pending = c.pending ∧ (c.step a).applyChan = c.applyChan := by
  have hs := step_spec c a
  generalize c.step a = c' at hs ⊢
  cases hs with
  | @doElection _ _ out => cases out <;> exact ⟨rfl, rfl⟩
  | @doHeartBeat _ out => cases out <;> exact ⟨rfl, rfl⟩
  | push _ action => rcases action with ⟨rfl, -⟩ | rfl <;> simp [Action.isProtocol] at ha
  | installSnapshot => simp [Action.isProtocol] at ha
  | getApplyLogs => simp [Action.isProtocol] at ha
  | _ => exact ⟨rfl, rfl⟩

theorem quiet_run (later : List (Action n)) (hlater : ∀ a ∈ later, Action.isProtocol a = true) :
    (run step c later).pending = c.pending ∧ (run step c later).applyChan = c.applyChan := by
  induction later generalizing c with
  | nil => exact ⟨rfl, rfl⟩
  | cons a later ih =>
    obtain ⟨hpending, hchan⟩ := ih (c := c.step a) fun b hb => hlater b (List.mem_cons_of_mem a hb)
    obtain ⟨hpending', hchan'⟩ := quiet_step c (Or.inl (hlater a List.mem_cons_self))
    exact ⟨hpending.trans hpending', hchan.trans hchan'⟩

theorem Continues.queue {moves moves' : List (Action n)} (h : Continues moves moves') (p : Fin n) :
    (runOf moves').queue p = (runOf moves).queue p := by
  obtain ⟨later, rfl, hlater⟩ := h
  obtain ⟨hpending, hchan⟩ := quiet_run (c := runOf moves) later hlater
  have hrun : runOf (moves ++ later) = run step (runOf moves) later := run_append _ _ _ _
  rw [hrun, Cluster.queue, hpending, hchan]
  rfl

theorem queue_start (c : Cluster n) (p q : Fin n) (command : String) :
    (c.step (.start q command)).queue p = c.queue p := by
  obtain ⟨hpending, hchan⟩ := quiet_step c (Or.inr ⟨q, command, rfl⟩)
  rw [queue, hpending, hchan]
  rfl

end Cluster

/-! ## The apply loop works off its channel -/

namespace LoopPhase

def message : LoopPhase → Option ApplyMsg
  | .popping => none
  | .checking message _ | .executing message _ | .snapshotting message _ | .sending message _
  | .installing message => some message

def stepsLeft : LoopPhase → ℕ
  | .popping => 0
  | .checking _ _ => 4
  | .executing _ _ => 3
  | .snapshotting _ _ => 2
  | .sending _ _ | .installing _ => 1

end LoopPhase

namespace KvSystem

variable {ar : Archives} {s : KvSystem}

def ahead (s : KvSystem) : List ApplyMsg := s.loop.message.toList ++ s.applyChan

def stepsLeft (s : KvSystem) : ℕ := 5 * s.applyChan.length + s.loop.stepsLeft

inductive LoopMove (s s' : KvSystem) : Prop
  | goesOn (ahead : s'.ahead = s.ahead) (queues : s'.server.queues = s.server.queues)
  | sends {message op} (phase : s.loop = .sending message op) (ahead : s.ahead = message :: s'.ahead)
      (queues : s'.server.queues =
        (s.server.sendMessageToWaitChan op message.commandIndex).1.queues)

theorem loopStep_moves (ar : Archives) (hplain : ∀ message ∈ s.ahead, KvAudit.Plain message)
    (hsnap : s.server.lastSnapShotRaftLogIndex = 0) (hinstall : ∀ message, s.loop ≠ .installing message)
    (hbusy : s.ahead ≠ []) (raftStateSize : ℤ) (flips : ℕ → ℕ) :
    (s.loopStep ar raftStateSize flips).stepsLeft < s.stepsLeft ∧
      LoopMove s (s.loopStep ar raftStateSize flips) := by
  unfold loopStep stepsLeft
  cases hphase : s.loop with
  | popping =>
    cases hchan : s.applyChan with
    | nil =>
      refine absurd ?_ hbusy
      simp [ahead, hphase, hchan, LoopPhase.message]
    | cons message rest =>
      have hmessage := hplain message (by simp [ahead, hphase, hchan])
      simp only [KvAudit.receive_plain hmessage hsnap, List.length_cons, LoopPhase.stepsLeft]
      refine ⟨by omega, .goesOn ?_ rfl⟩
      simp [ahead, hphase, hchan, LoopPhase.message]
  | checking message op =>
    dsimp only
    split_ifs
    · exact ⟨by simp [LoopPhase.stepsLeft], .goesOn (by simp [ahead, hphase, LoopPhase.message]) rfl⟩
    · exact ⟨by simp [LoopPhase.stepsLeft], .goesOn (by simp [ahead, hphase, LoopPhase.message]) rfl⟩
  | executing message op =>
    dsimp only
    split_ifs
    all_goals
      exact ⟨by simp [LoopPhase.stepsLeft], .goesOn (by simp [ahead, hphase, LoopPhase.message]) rfl⟩
  | snapshotting message op =>
    exact ⟨by simp [LoopPhase.stepsLeft], .goesOn (by simp [ahead, hphase, LoopPhase.message]) rfl⟩
  | sending message op =>
    have hmessage := hplain message (by simp [ahead, hphase, LoopPhase.message])
    simp only [KvAudit.afterCommand_plain hmessage]
    refine ⟨by simp [LoopPhase.stepsLeft], .sends hphase ?_ rfl⟩
    simp [ahead, hphase, LoopPhase.message]
  | installing message => exact absurd hphase (hinstall message)

theorem snapshots_step (hlimit : s.server.maxRaftState = -1) (a : KvAction) :
    (s.step ar a).snapshots = s.snapshots := by
  cases a with
  | loop raftStateSize flips =>
    simp only [step, loopStep]
    cases s.loop with
    | popping => cases s.applyChan <;> rfl
    | checking message op =>
      dsimp only
      split_ifs <;> rfl
    | executing message op =>
      dsimp only
      split_ifs <;> rfl
    | snapshotting message op => simp [hlimit]
    | _ => rfl
  | handler i a =>
    simp only [step]
    split
    · split <;> rfl
    · rfl
  | _ => rfl

end KvSystem

def ServerAction.newHandler : ServerAction → Option Handler
  | .get key clientId requestId => some ⟨.get, ⟨"Get", key, "", clientId, requestId⟩, .called⟩
  | .putAppend op key value clientId requestId =>
    some ⟨.putAppend, ⟨op, key, value, clientId, requestId⟩, .called⟩
  | _ => none

theorem ServerAction.newHandler_phase {call : ServerAction} {h : Handler}
    (hcall : call.newHandler = some h) : h.phase = .called := by
  cases call with
  | get => cases hcall; rfl
  | putAppend => cases hcall; rfl
  | _ => cases hcall

theorem Handler.step_pop {kv : KvServer} {h : Handler} {x : ℤ} {queue : ℕ}
    (hwaiting : h.phase = .waiting x queue) (hsent : kv.queues queue = some [h.op]) :
    ∃ kv', h.step kv .pop =
      some (kv', { h with phase := if h.rpc = .get then .executing x else .closing x ⟨.ok, ""⟩ }) := by
  cases hrpc : h.rpc <;> simp [Handler.step, hwaiting, KvServer.popWaitChan, hsent, hrpc]

namespace Deployment

variable {n : ℕ} {asString : Op → String} {ar : Archives} {s t u : Deployment n}
  {a : DeploymentAction n} {p q : Fin n} {T : ℤ} {M : Finset (Fin n)}
  {moves moves' : List (Action n)}

/-! ## Servers without snapshots -/

/-- A state of a run in which no server has a limit on the state of its node. -/
def Reachable (asString : Op → String) (ar : Archives) (s : Deployment n) : Prop :=
  ∃ acts, s = runOf asString ar (-1) acts

/-- The run can go on from `s` to `t`. -/
def Reaches (asString : Op → String) (ar : Archives) (s t : Deployment n) : Prop :=
  ∃ later, t = run (step asString ar) s later

theorem Reaches.step (asString : Op → String) (ar : Archives) (s : Deployment n)
    (a : DeploymentAction n) : Reaches asString ar s (s.step asString ar a) := ⟨[a], rfl⟩

theorem Reaches.refl (s : Deployment n) : Reaches asString ar s s := ⟨[], rfl⟩

theorem Reaches.trans (h : Reaches asString ar s t) (h' : Reaches asString ar t u) :
    Reaches asString ar s u := by
  obtain ⟨later, rfl⟩ := h
  obtain ⟨later', rfl⟩ := h'
  exact ⟨later ++ later', (run_append _ _ _ _).symm⟩

theorem Reachable.reaches (h : Reachable asString ar s) (hr : Reaches asString ar s t) :
    Reachable asString ar t := by
  obtain ⟨acts, rfl⟩ := h
  obtain ⟨later, rfl⟩ := hr
  exact ⟨acts ++ later, (run_append _ _ _ _).symm⟩

theorem Reachable.sound (h : Reachable asString ar s) : Sound asString ar s := by
  obtain ⟨acts, rfl⟩ := h
  exact sound_runOf asString ar (-1) acts

theorem history_runOf (asString : Op → String) (ar : Archives) (maxRaftState : ℤ)
    (acts : List (DeploymentAction n)) :
    ∃ moves, (runOf asString ar maxRaftState acts).cluster = Cluster.runOf moves := by
  refine run_invariant (P := fun s : Deployment n => ∃ moves, s.cluster = Cluster.runOf moves)
    ⟨[], rfl⟩ (fun s a hs => ?_) acts
  obtain ⟨moves, hmoves⟩ := hs
  rcases (cluster_step asString ar s a).spec with hc | ⟨b, hc⟩
  · exact ⟨moves, hc.trans hmoves⟩
  · exact ⟨moves ++ [b], by rw [hc, hmoves, Cluster.runOf_concat]⟩

theorem Reachable.history (h : Reachable asString ar s) :
    ∃ moves, s.cluster = Cluster.runOf moves := by
  obtain ⟨acts, rfl⟩ := h
  exact history_runOf asString ar (-1) acts

structure Snapless (s : Deployment n) : Prop where
  cluster : s.cluster.Uncompacted
  limit : ∀ p, (s.kv p).server.maxRaftState = -1
  made : ∀ p, (s.kv p).snapshots = []
  taken : ∀ p, (s.processes p).snapshotsTaken = 0

theorem snapless_init (n : ℕ) : (init n (-1)).Snapless :=
  ⟨Cluster.uncompacted_init n, fun _ => rfl, fun _ => rfl, fun _ => rfl⟩

theorem Snapless.taken_step (h : s.Snapless) (a : DeploymentAction n) (q : Fin n) :
    ((s.step asString ar a).processes q).snapshotsTaken = 0 := by
  cases a with
  | cluster b =>
    simp only [step]
    split_ifs <;> exact h.taken q
  | server p a =>
    by_cases hq : q = p
    · subst hq
      rw [processes_server_self]
      have hmade : (s.node q).server.kv.snapshots = [] := h.made q
      simp only [KvNode.step]
      split_ifs
      · cases a with
        | loop =>
          simp only [KvNode.serverStep]
          split_ifs <;> exact h.taken q
        | handler i point =>
          simp only [KvNode.serverStep, KvNode.handlerStep]
          split
          · exact h.taken q
          · split <;> exact h.taken q
        | snapshot =>
          simp only [KvNode.serverStep, hmade, List.getElem?_nil]
          exact h.taken q
        | _ => exact h.taken q
      · exact h.taken q
    · rw [processes_server_of_ne asString ar s hq]
      exact h.taken q

theorem Snapless.step (h : s.Snapless) (hI : s.cluster.Indexed) (hB : s.cluster.Bounded)
    (a : DeploymentAction n) : (s.step asString ar a).Snapless := by
  have hkv : ∀ q, ((s.step asString ar a).kv q).server.maxRaftState = -1 ∧
      ((s.step asString ar a).kv q).snapshots = [] := fun q =>
    (server_step asString ar s a q).induct
      (P := fun server => server.kv.server.maxRaftState = -1 ∧ server.kv.snapshots = [])
      ⟨h.limit q, h.made q⟩ fun server b hs => by
        rw [KvAudit.step_kv, SizedNode.maxRaftState_step, KvSystem.snapshots_step hs.1]
        exact hs
  refine ⟨?_, fun q => (hkv q).1, fun q => (hkv q).2, h.taken_step a⟩
  have hnext : ∀ b, (∀ p index str, b ≠ Action.snapshot p index str) →
      (s.cluster.step b).Uncompacted :=
    fun b hb => h.cluster.step hI hB (Cluster.step_spec _ b) hb
  have hmoves := cluster_step asString ar s a
  generalize (s.step asString ar a).cluster = c at hmoves ⊢
  cases hmoves with
  | stays => exact h.cluster
  | moves call =>
    refine hnext _ fun p index str hb => ?_
    rw [hb] at call
    cases call
  | starts => exact hnext _ nofun
  | @snapshots p _ _ made =>
    rw [h.made p] at made
    cases made

theorem snapless_runOf (asString : Op → String) (ar : Archives) (acts : List (DeploymentAction n)) :
    (runOf asString ar (-1) acts).Snapless := by
  induction acts using List.reverseRecOn with
  | nil => exact snapless_init n
  | append_singleton acts a ih =>
    obtain ⟨moves, hmoves⟩ := history_runOf asString ar (-1) acts
    rw [runOf, run_concat]
    refine Snapless.step ih (sound_runOf asString ar (-1) acts).indexed ?_ a
    rw [hmoves]
    exact Cluster.bounded_runOf moves

theorem uninstalled_runOf (asString : Op → String) (ar : Archives) (acts : List (DeploymentAction n))
    (p : Fin n) : Along (step asString ar) (Uninstalled p) (init n (-1)) acts := by
  refine along_iff.mpr fun before a _ _ => ?_
  cases a with
  | cluster b => exact (snapless_runOf asString ar before).cluster.uninstalled p b
  | server => exact trivial

theorem Reachable.snapless (h : Reachable asString ar s) : s.Snapless := by
  obtain ⟨acts, rfl⟩ := h
  exact snapless_runOf asString ar acts

theorem Reachable.inSequence (h : Reachable asString ar s) (p : Fin n) : InSequence p s := by
  obtain ⟨acts, rfl⟩ := h
  exact inSequence_runOf (uninstalled_runOf asString ar acts p)

theorem Reachable.inTurn (h : Reachable asString ar s) (p : Fin n) :
    (s.processes p).server.InTurn ar := by
  obtain ⟨acts, rfl⟩ := h
  exact inTurn_runOf (uninstalled_runOf asString ar acts p)

/-! ## Steps of the cluster -/

theorem step_cluster (asString : Op → String) (ar : Archives) {b : Action n}
    (hcall : serverCall b = false)
    (hchan : (s.cluster.step b).applyChan = s.cluster.applyChan) :
    s.step asString ar (.cluster b) = { s with cluster := s.cluster.step b } := by
  simp only [step, hcall, Bool.false_eq_true, if_false]
  congr 1
  funext q
  have hforward : ∀ c : Cluster n, c.applyChan = s.cluster.applyChan →
      (s.node q).forward ar q c = { s.node q with cluster := c } := by
    intro c hc
    simp only [KvNode.forward, node, hc, List.drop_length, List.foldl_nil]
  rw [hforward _ hchan]
  rfl

theorem reaches_protocol (asString : Op → String) (ar : Archives)
    (hs : s.cluster = Cluster.runOf moves)
    (hcont : Cluster.Continues moves moves') :
    Reaches asString ar s { s with cluster := Cluster.runOf moves' } := by
  obtain ⟨later, rfl, hlater⟩ := hcont
  refine ⟨later.map .cluster, ?_⟩
  induction later generalizing s moves with
  | nil =>
    rw [List.append_nil, ← hs]
    rfl
  | cons b later ih =>
    have hb : Action.isProtocol b = true := hlater b List.mem_cons_self
    have hcall : serverCall b = false := by cases b <;> first | rfl | cases hb
    have hnext : s.cluster.step b = Cluster.runOf (moves ++ [b]) := by rw [hs, Cluster.runOf_concat]
    have hrest := ih (s := { s with cluster := s.cluster.step b }) hnext
      fun b' hb' => hlater b' (List.mem_cons_of_mem b hb')
    have hrun : moves ++ b :: later = moves ++ [b] ++ later := by simp
    rw [hrun, hrest, ← step_cluster asString ar hcall (Cluster.quiet_step s.cluster (Or.inl hb)).2]
    rfl

theorem step_applierPush (asString : Op → String) (ar : Archives) {message : ApplyMsg}
    {rest : List (Pusher × ApplyMsg)}
    (hlive : s.cluster.exited p = none) (hpending : s.cluster.pending p = (.applier, message) :: rest) :
    let t := s.step asString ar (.cluster (.applierPush p))
    t.cluster.nodes = s.cluster.nodes ∧ t.cluster.exited = s.cluster.exited ∧
      t.cluster.pending p = rest ∧
      t.kv p = { s.kv p with applyChan := (s.kv p).applyChan ++ [message] } := by
  intro t
  have hstep : s.cluster.step (.applierPush p) =
      { s.cluster with
        pending := Function.update s.cluster.pending p rest
        applyChan := Function.update s.cluster.applyChan p (s.cluster.applyChan p ++ [message]) } := by
    simp [Cluster.step, hpending, List.findIdx?_cons, Cluster.push, hlive]
  have ht : t = { cluster := s.cluster.step (.applierPush p), processes := fun q =>
      ((s.node q).forward ar q (s.cluster.step (.applierPush p))).process } := rfl
  rw [ht, hstep]
  refine ⟨rfl, rfl, Function.update_self _ _ _, ?_⟩
  simp [kv, KvNode.process, KvNode.forward, node, KvSystem.step]

theorem Reachable.drain (h : Reachable asString ar s) (hlive : s.cluster.exited p = none) :
    ∃ t, Reaches asString ar s t ∧ t.cluster.nodes = s.cluster.nodes ∧
      t.cluster.exited = s.cluster.exited ∧ t.cluster.pending p = [] ∧
      t.kv p = { s.kv p with
        applyChan := (s.kv p).applyChan ++ (s.cluster.pending p).map Prod.snd } := by
  generalize hpending : s.cluster.pending p = pending
  induction pending generalizing s with
  | nil => exact ⟨s, .refl s, rfl, rfl, hpending, by simp⟩
  | cons x rest ih =>
    obtain ⟨pusher, message⟩ := x
    obtain rfl : pusher = .applier :=
      (h.inSequence p).commands.pending (pusher, message) (hpending ▸ List.mem_cons_self)
    obtain ⟨hnodes, hexited, hrest, hkv⟩ :=
      step_applierPush asString ar hlive hpending
    have hstep := Reaches.step asString ar s (.cluster (.applierPush p))
    obtain ⟨t, hreach, hnodes', hexited', hempty, hkv'⟩ :=
      ih (h.reaches hstep) (by rw [hexited]; exact hlive) hrest
    refine ⟨t, hstep.trans hreach, hnodes'.trans hnodes, hexited'.trans hexited, hempty, ?_⟩
    rw [hkv', hkv]
    simp

theorem Reachable.collect (h : Reachable asString ar s) (hlive : s.cluster.exited p = none)
    (hempty : s.cluster.pending p = []) :
    ∃ t messages, Reaches asString ar s t ∧ t.cluster.exited = s.cluster.exited ∧
      t.processes = s.processes ∧ t.cluster.pending p = messages.map (.applier, ·) ∧
      (s.cluster.nodes p).lastApplied + messages.length = (s.cluster.nodes p).commitIndex ∧
      (s.cluster.nodes p).ReadFrom ((s.cluster.nodes p).lastApplied + 1) messages := by
  have hi := h.sound.indexed.node p
  obtain ⟨messages, hok, hlen, hread⟩ :=
    Raft.getApplyLogs_ok hi.contiguous hi.snap_le hi.applied_le hi.commit_le
  obtain ⟨c, hstep, hexited, hpending, hchan⟩ : ∃ c, s.cluster.step (.getApplyLogs p) = c ∧
      c.exited = s.cluster.exited ∧ c.pending p = messages.map (.applier, ·) ∧
      c.applyChan = s.cluster.applyChan := by
    refine ⟨_, rfl, ?_⟩
    simp [Cluster.step, hempty, Cluster.onNode, hlive, hok, Cluster.recordApply]
  refine ⟨_, messages, Reaches.step asString ar s (.cluster (.getApplyLogs p)), ?_⟩
  rw [step_cluster asString ar rfl (by rw [hstep]; exact hchan), hstep]
  exact ⟨hexited, rfl, hpending, hlen, hread⟩

/-! ## A handler waits for its entry -/

theorem server_state (asString : Op → String) (ar : Archives) (hlive : s.cluster.exited p = none)
    (a : ServerAction) :
    (s.step asString ar (.server p a)).cluster = ((s.node p).serverStep asString ar p a).cluster ∧
      (s.step asString ar (.server p a)).kv p =
        ((s.node p).serverStep asString ar p a).server.kv := by
  have hnode : (s.node p).step asString ar p (.server a) = (s.node p).serverStep asString ar p a :=
    if_pos hlive
  rw [kv, processes_server_self, ← hnode]
  exact ⟨rfl, rfl⟩

theorem step_call (asString : Op → String) (ar : Archives) {call : ServerAction} {h : Handler}
    (hlive : s.cluster.exited p = none)
    (hcall : call.newHandler = some h) :
    (s.step asString ar (.server p call)).cluster = s.cluster ∧
      (s.step asString ar (.server p call)).kv p =
        { s.kv p with handlers := (s.kv p).handlers ++ [h] } := by
  obtain ⟨hcluster, hkv⟩ := server_state asString ar hlive call
  rw [hcluster, hkv]
  cases call with
  | get => cases hcall; exact ⟨rfl, rfl⟩
  | putAppend => cases hcall; exact ⟨rfl, rfl⟩
  | _ => cases hcall

theorem step_handler (asString : Op → String) (ar : Archives) {i : ℕ} {h h' : Handler}
    {kv' : KvServer} {point : HandlerPoint}
    (hlive : s.cluster.exited p = none) (hi : (s.kv p).handlers[i]? = some h)
    (hstep : h.step (s.kv p).server (point.action (s.cluster.nodes p) (asString h.op)) =
      some (kv', h')) :
    (s.step asString ar (.server p (.handler i point))).cluster =
        (if point = .start then s.cluster.step (.start p (asString h.op)) else s.cluster) ∧
      (s.step asString ar (.server p (.handler i point))).kv p =
        { s.kv p with server := kv', handlers := (s.kv p).handlers.set i h' } := by
  obtain ⟨hcluster, hkv⟩ := server_state asString ar hlive (.handler i point)
  have hi' : (s.node p).server.kv.handlers[i]? = some h := hi
  have hstep' : h.step (s.node p).server.kv.server
      (point.action ((s.node p).cluster.nodes p) (asString h.op)) = some (kv', h') := hstep
  rw [hcluster, hkv]
  simp only [KvNode.serverStep, KvNode.handlerStep, hi', hstep']
  exact ⟨rfl, KvNode.step_handler ar hi' hstep'⟩

theorem step_loop (asString : Op → String) (ar : Archives) (hlive : s.cluster.exited p = none)
    (hS : s.Snapless) (raftStateSize : ℤ) (flips : ℕ → ℕ) :
    (s.step asString ar (.server p (.loop raftStateSize flips))).cluster = s.cluster ∧
      (s.step asString ar (.server p (.loop raftStateSize flips))).kv p =
        (s.kv p).loopStep ar raftStateSize flips := by
  obtain ⟨hcluster, hkv⟩ := server_state asString ar hlive (.loop raftStateSize flips)
  have htaken : (s.node p).server.kv.snapshots.length = (s.node p).snapshotsTaken := by
    change (s.kv p).snapshots.length = (s.processes p).snapshotsTaken
    rw [hS.made p, hS.taken p]
    rfl
  rw [hcluster, hkv, KvNode.serverStep, if_pos htaken]
  exact ⟨rfl, KvAudit.step_kv _⟩

/-- Handler `i` of `p` waits for the entry at index `x`, and its queue is empty. -/
structure Awaits (s : Deployment n) (p : Fin n) (i : ℕ) (h : Handler) (x : ℤ) (queue : ℕ) :
    Prop where
  handler : (s.kv p).handlers[i]? = some { h with phase := .waiting x queue }
  registered : (s.kv p).server.waitApplyCh x = some queue
  empty : (s.kv p).server.queues queue = some []

theorem exited_start (c : Cluster n) (p : Fin n) (command : String) :
    (c.step (.start p command)).exited = c.exited := by
  simp only [Cluster.step, Cluster.onNode]
  split <;> rfl

theorem Reachable.call (h : Reachable asString ar s) (hlead : s.cluster.Leading p T M)
    {call : ServerAction} {hd : Handler} (hcall : call.newHandler = some hd) :
    ∃ t queue, Reaches asString ar s t ∧
      t.cluster = s.cluster.step (.start p (asString hd.op)) ∧
      t.Awaits p (s.kv p).handlers.length hd ((s.cluster.nodes p).getLastLogIndex + 1) queue := by
  have hlive := hlead.live p hlead.mem
  have hcalled := ServerAction.newHandler_phase hcall
  set i := (s.kv p).handlers.length with hi
  set x := (s.cluster.nodes p).getLastLogIndex + 1 with hx
  -- the call
  obtain ⟨hcluster₁, hkv₁⟩ := step_call asString ar hlive hcall
  have hreach₁ := Reaches.step asString ar s (.server p call)
  set s₁ := s.step asString ar (.server p call)
  have hi₁ : (s₁.kv p).handlers[i]? = some hd := by simp [hkv₁, hi]
  -- `Start` returns the next index
  obtain ⟨term, hstart⟩ : ∃ term, ((s₁.cluster.nodes p).start (asString hd.op)).2 =
      some (x, term) := by
    rw [hcluster₁]
    exact ⟨_, Raft.start_leader hlead.leads.1 _⟩
  have hstep₁ : hd.step (s₁.kv p).server
      (HandlerPoint.start.action (s₁.cluster.nodes p) (asString hd.op)) =
        some ((s₁.kv p).server, { hd with phase := .started x }) := by
    simp [HandlerPoint.action, hstart, Handler.step, hcalled]
  obtain ⟨hcluster₂, hkv₂⟩ := step_handler asString ar
    (by rw [hcluster₁]; exact hlive) hi₁ hstep₁
  have hreach₂ := hreach₁.trans (Reaches.step asString ar s₁ (.server p (.handler i .start)))
  set s₂ := s₁.step asString ar (.server p (.handler i .start))
  rw [if_pos rfl, hcluster₁] at hcluster₂
  have hi₂ : (s₂.kv p).handlers[i]? = some { hd with phase := .started x } := by
    simp [hkv₂, hkv₁, hi]
  -- nothing is registered for the new index
  have hnone : (s₂.kv p).server.waitApplyCh x = none := by
    refine ((h.reaches hreach₂).sound.node p).exclusive.registered_none (i := i) (x := x) ?_ ?_
    · exact KvNode.ticket_eq (s := s₂.node p) hi₂
    · exact KvNode.opened_eq (s := s₂.node p) hi₂
  have hstep₂ : Handler.step (s₂.kv p).server { hd with phase := .started x }
      (HandlerPoint.openWaitChan.action (s₂.cluster.nodes p) (asString hd.op)) =
        some (((s₂.kv p).server.openWaitChan x).1,
          { hd with phase := .waiting x ((s₂.kv p).server.openWaitChan x).2 }) := rfl
  obtain ⟨hcluster₃, hkv₃⟩ := step_handler asString ar
    (by rw [hcluster₂, exited_start]; exact hlive) hi₂ hstep₂
  have hreach₃ := hreach₂.trans (Reaches.step asString ar s₂ (.server p (.handler i .openWaitChan)))
  rw [if_neg (by simp), hcluster₂] at hcluster₃
  refine ⟨_, ((s₂.kv p).server.openWaitChan x).2, hreach₃, hcluster₃, ?_, ?_, ?_⟩
  · have hlt := (List.getElem?_eq_some_iff.mp hi₂).1
    simp [hkv₃, hlt]
  · simp [hkv₃, KvServer.openWaitChan, hnone]
  · simp [hkv₃, KvServer.openWaitChan, hnone]

theorem Awaits.of_kv {i queue : ℕ} {hd : Handler} {x : ℤ} (h : s.Awaits p i hd x queue)
    (hhandlers : (t.kv p).handlers = (s.kv p).handlers) (hserver : (t.kv p).server = (s.kv p).server) :
    t.Awaits p i hd x queue where
  handler := by
    rw [hhandlers]
    exact h.handler
  registered := by
    rw [hserver]
    exact h.registered
  empty := by
    rw [hserver]
    exact h.empty

theorem Reachable.commit (h : Reachable asString ar s) (hn : 2 ≤ n) {voters : List (Fin n)}
    (hpoised : s.cluster.Poised p T M voters) {call : ServerAction} {hd : Handler}
    (hcall : call.newHandler = some hd) :
    ∃ t x queue, Reaches asString ar s t ∧ t.Awaits p (s.kv p).handlers.length hd x queue ∧
      (∀ r ∈ M, t.cluster.exited r = none) ∧
      ⟨asString hd.op, T, x⟩ ∈ (t.cluster.nodes p).logs ∧
      (t.cluster.nodes p).lastApplied < x ∧ x ≤ (t.cluster.nodes p).commitIndex := by
  obtain ⟨moves, hmoves⟩ := h.history
  obtain ⟨u, queue, hreach, hcluster, hawaits⟩ := h.call hpoised.leading hcall
  have hu : u.cluster = Cluster.runOf (moves ++ [.start p (asString hd.op)]) := by
    rw [hcluster, hmoves, Cluster.runOf_concat]
  rw [hmoves] at hpoised
  obtain ⟨moves', hcont, hlead, hmem, hcommit⟩ := hpoised.commit hn (asString hd.op)
  have hreach' := hreach.trans (reaches_protocol asString ar hu hcont)
  refine ⟨_, _, queue, hreach', hawaits.of_kv rfl rfl, hlead.live, ?_, ?_, ?_⟩
  · rw [hmoves]
    exact hmem
  · -- nothing is handed over in the meantime
    have hi := h.sound.indexed.node p
    have hqueue : (Cluster.runOf moves').queue p = s.cluster.queue p := by
      rw [hcont.queue p, Cluster.runOf_concat, Cluster.queue_start, hmoves]
    have happlied := ((h.reaches hreach').inSequence p).queued.last
    dsimp only at happlied ⊢
    rw [hqueue, (h.inSequence p).queued.last] at happlied
    rw [← happlied]
    have := hi.applied_le
    have := hi.commit_le
    omega
  · rw [hmoves]
    exact hcommit

theorem Reachable.deliver {i queue : ℕ} {hd : Handler} {x : ℤ} {command : String}
    (h : Reachable asString ar s) (hlive : s.cluster.exited p = none)
    (hawaits : s.Awaits p i hd x queue) (hmem : ⟨command, T, x⟩ ∈ (s.cluster.nodes p).logs)
    (hlt : (s.cluster.nodes p).lastApplied < x) (hle : x ≤ (s.cluster.nodes p).commitIndex) :
    ∃ t, Reaches asString ar s t ∧ t.cluster.exited = s.cluster.exited ∧
      t.Awaits p i hd x queue ∧
      ({ commandValid := true, command := command, commandIndex := x } : ApplyMsg) ∈
        (t.kv p).ahead := by
  obtain ⟨s₁, hreach₁, hnodes₁, hexited₁, hempty₁, hkv₁⟩ := h.drain hlive
  obtain ⟨s₂, messages, hreach₂, hexited₂, hprocesses₂, hpending₂, hlen, hread⟩ :=
    (h.reaches hreach₁).collect (by rw [hexited₁]; exact hlive) hempty₁
  obtain ⟨s₃, hreach₃, -, hexited₃, -, hkv₃⟩ := ((h.reaches hreach₁).reaches hreach₂).drain (p := p)
    (by rw [hexited₂, hexited₁]; exact hlive)
  have hkv₂ : s₂.kv p = s₁.kv p := by rw [kv, hprocesses₂, kv]
  have hhandlers : (s₃.kv p).handlers = (s.kv p).handlers ∧ (s₃.kv p).server = (s.kv p).server := by
    rw [hkv₃, hkv₂, hkv₁]
    exact ⟨rfl, rfl⟩
  refine ⟨s₃, (hreach₁.trans hreach₂).trans hreach₃, (hexited₃.trans hexited₂).trans hexited₁,
    hawaits.of_kv hhandlers.1 hhandlers.2, List.mem_append_right _ ?_⟩
  rw [hnodes₁] at hlen hread
  -- the message at the entry's place comes from the entry
  obtain ⟨k, hk⟩ : ∃ k : ℕ, x = (s.cluster.nodes p).lastApplied + 1 + k :=
    ⟨(x - (s.cluster.nodes p).lastApplied - 1).toNat, by omega⟩
  have hklen : k < messages.length := by omega
  obtain ⟨e, he, hidx, hmessage⟩ := hread k _ (List.getElem?_eq_getElem hklen)
  obtain rfl : e = ⟨command, T, x⟩ :=
    Numbered.unique (h.sound.indexed.node p).contiguous he hmem (hidx.trans hk.symm)
  rw [hkv₃, hpending₂, ← hmessage]
  refine List.mem_append_right _ ?_
  simp

/-! ## The loop reaches the entry and the handler answers -/

theorem Reachable.mem_applyChan (h : Reachable asString ar s) {message : ApplyMsg}
    (hmem : message ∈ (s.kv p).ahead) : message ∈ s.cluster.applyChan p := by
  rw [← h.sound.received p]
  rcases List.mem_append.mp hmem with hmem | hmem
  · have hloop := (h.sound.tracked p).loop
    refine List.mem_append_left _ ?_
    change message ∈ (s.processes p).server.kv.loop.message.toList at hmem
    cases hphase : (s.processes p).server.kv.loop with
    | popping => simp [hphase, LoopPhase.message] at hmem
    | _ =>
      rw [hphase] at hloop hmem
      obtain rfl : message = _ := by simpa [LoopPhase.message] using hmem
      exact hloop.1
  · exact List.mem_append_right _ hmem

theorem Reachable.send {i queue : ℕ} {hd : Handler} {x : ℤ} (h : Reachable asString ar s)
    (hlive : s.cluster.exited p = none) (hawaits : s.Awaits p i hd x queue)
    (hround : ar.parseOp (asString hd.op) = hd.op)
    (hmem : ({ commandValid := true, command := asString hd.op, commandIndex := x } : ApplyMsg) ∈
      (s.kv p).ahead) :
    ∃ t, Reaches asString ar s t ∧ t.cluster = s.cluster ∧
      (t.kv p).handlers = (s.kv p).handlers ∧
      (t.kv p).server.queues queue = some [hd.op] := by
  induction hk : (s.kv p).stepsLeft using Nat.strong_induction_on generalizing s with
  | _ k ih =>
  have hseq := h.inSequence p
  have hturn := h.inTurn p
  have hexclusive := (h.sound.node p).exclusive
  obtain ⟨hless, hmove⟩ := KvSystem.loopStep_moves ar (s := s.kv p)
    (fun message hm => hseq.plain h.sound.announced (h.mem_applyChan hm)) hturn.snapIndex
    (fun message hphase => by
      have hupTo := hturn.upTo
      rw [show (s.processes p).server.kv.loop = _ from hphase] at hupTo
      exact hupTo)
    (List.ne_nil_of_mem hmem) 0 (fun _ => 0)
  obtain ⟨hcluster, hkv⟩ :=
    step_loop asString ar hlive h.snapless 0 (fun _ => 0)
  obtain ⟨hhandlers, hwait, -⟩ := KvNode.loopStep_channels ar (s.kv p) 0 (fun _ => 0)
  have hstep := Reaches.step asString ar s (.server p (.loop 0 fun _ => 0))
  generalize s.step asString ar (.server p (.loop 0 fun _ => 0)) = t at hcluster hkv hstep
  rw [← hkv] at hless hmove hhandlers hwait
  -- the rest of the way, when the queue is still empty
  have hrest : (t.kv p).server.queues queue = (s.kv p).server.queues queue →
      ({ commandValid := true, command := asString hd.op, commandIndex := x } : ApplyMsg) ∈
        (t.kv p).ahead →
      ∃ u, Reaches asString ar s u ∧ u.cluster = s.cluster ∧
        (u.kv p).handlers = (s.kv p).handlers ∧ (u.kv p).server.queues queue = some [hd.op] := by
    intro hqueue hmem'
    obtain ⟨u, hreach, hcluster', hhandlers', hsent⟩ := ih _ (hk ▸ hless) (h.reaches hstep)
      (by rw [hcluster]; exact hlive)
      ⟨by rw [hhandlers]; exact hawaits.handler, by rw [hwait]; exact hawaits.registered,
        by rw [hqueue]; exact hawaits.empty⟩ hmem' rfl
    exact ⟨u, hstep.trans hreach, hcluster'.trans hcluster, hhandlers'.trans hhandlers, hsent⟩
  cases hmove with
  | goesOn ahead queues => exact hrest (by rw [queues]) (by rw [ahead]; exact hmem)
  | @sends message op phase ahead queues =>
    have hloop := (h.sound.tracked p).loop
    rw [show (s.processes p).server.kv.loop = _ from phase] at hloop
    by_cases hx : message.commandIndex = x
    · -- there is one message for each index
      have hmessage : message =
          { commandValid := true, command := asString hd.op, commandIndex := x } := by
        obtain ⟨j, hj⟩ := List.getElem?_of_mem
          (h.mem_applyChan (ahead ▸ List.mem_cons_self : message ∈ (s.kv p).ahead))
        obtain ⟨j', hj'⟩ := List.getElem?_of_mem (h.mem_applyChan hmem)
        have hidx := hseq.queued.index_eq hseq.commands hj
        have hidx' := hseq.queued.index_eq hseq.commands hj'
        obtain rfl : j = j' := by
          dsimp only at hidx'
          omega
        exact Option.some.inj (hj.symm.trans hj')
      obtain rfl : op = hd.op := by rw [hloop.2.2, hmessage, hround]
      refine ⟨t, hstep, hcluster, hhandlers, ?_⟩
      simp [queues, KvServer.sendMessageToWaitChan, hx, hawaits.registered, hawaits.empty]
    · refine hrest ?_ ?_
      · -- no other index has this queue
        rw [queues, KvServer.sendMessageToWaitChan]
        cases hother : (s.kv p).server.waitApplyCh message.commandIndex with
        | none => rfl
        | some queue' =>
          refine Function.update_of_ne (fun heq => hx ?_) _ _
          subst heq
          exact hexclusive.cell_inj _ _ _ hother hawaits.registered
      · rw [ahead] at hmem
        refine (List.mem_cons.mp hmem).resolve_left fun heq => hx ?_
        rw [← heq]

theorem advance (asString : Op → String) (ar : Archives) (point : HandlerPoint) {i : ℕ}
    {h h' : Handler} {kv' : KvServer} (hlive : s.cluster.exited p = none)
    (hi : (s.kv p).handlers[i]? = some h) (hpoint : point ≠ .start)
    (hstep : h.step (s.kv p).server (point.action (s.cluster.nodes p) (asString h.op)) =
      some (kv', h')) :
    ∃ t, Reaches asString ar s t ∧ t.cluster = s.cluster ∧ (t.kv p).handlers[i]? = some h' := by
  obtain ⟨hcluster, hkv⟩ := step_handler asString ar hlive hi hstep
  refine ⟨_, Reaches.step asString ar s (.server p (.handler i point)), ?_, ?_⟩
  · rw [hcluster, if_neg hpoint]
  · have hlt := (List.getElem?_eq_some_iff.mp hi).1
    simp [hkv, hlt]

theorem reply_of_sent (asString : Op → String) (ar : Archives) {i queue : ℕ} {hd : Handler} {x : ℤ}
    (hlive : s.cluster.exited p = none)
    (hi : (s.kv p).handlers[i]? = some { hd with phase := .waiting x queue })
    (hsent : (s.kv p).server.queues queue = some [hd.op]) :
    ∃ t reply, Reaches asString ar s t ∧ t.cluster = s.cluster ∧
      (t.kv p).handlers[i]? = some { hd with phase := .returned reply } ∧
      reply.err ≠ .errWrongLeader := by
  obtain ⟨kv', hpop⟩ := Handler.step_pop (h := { hd with phase := .waiting x queue }) rfl hsent
  obtain ⟨s₁, hreach₁, hcluster₁, hi₁⟩ := advance asString ar .pop hlive hi (by simp) hpop
  have hlive₁ : s₁.cluster.exited p = none := by rw [hcluster₁]; exact hlive
  obtain ⟨s₂, reply, hreach₂, hcluster₂, hi₂, hok⟩ : ∃ t reply, Reaches asString ar s₁ t ∧
      t.cluster = s₁.cluster ∧ (t.kv p).handlers[i]? = some { hd with phase := .closing x reply } ∧
      reply.err ≠ .errWrongLeader := by
    by_cases hrpc : hd.rpc = .get
    · rw [if_pos hrpc] at hi₁
      obtain ⟨t, hreach, hcluster, ht⟩ := advance asString ar .executeGet hlive₁ hi₁ (by simp) rfl
      refine ⟨t, _, hreach, hcluster, ht, ?_⟩
      split_ifs <;> simp
    · rw [if_neg hrpc] at hi₁
      exact ⟨s₁, _, .refl s₁, rfl, hi₁, by simp⟩
  obtain ⟨t, hreach, hcluster, ht⟩ := advance asString ar .closeWaitChan
    (by rw [hcluster₂]; exact hlive₁) hi₂ (by simp) rfl
  exact ⟨t, reply, (hreach₁.trans hreach₂).trans hreach, hcluster.trans (hcluster₂.trans hcluster₁),
    ht, hok⟩

/-- Whatever has happened to servers that take no snapshots, as long as a majority of the processes
runs, a call of a client can be answered with success: there is a continuation in which a new handler
of one of these processes returns something else than `ErrWrongLeader`. -/
theorem request_can_be_served (hn : 2 ≤ n) (asString : Op → String) (ar : Archives)
    (acts : List (DeploymentAction n)) (hM : n < 2 * M.card)
    (hlive : ∀ q ∈ M, (runOf asString ar (-1) acts).cluster.exited q = none) (call : ServerAction)
    {hd : Handler} (hcall : call.newHandler = some hd)
    (hround : ar.parseOp (asString hd.op) = hd.op) :
    ∃ acts', acts <+: acts' ∧
      (∀ q ∈ M, (runOf asString ar (-1) acts').cluster.exited q = none) ∧
      ∃ p ∈ M, ∃ i reply, ((runOf asString ar (-1) acts).kv p).handlers.length ≤ i ∧
        ((runOf asString ar (-1) acts').kv p).handlers[i]? =
          some { hd with phase := .returned reply } ∧ reply.err ≠ .errWrongLeader := by
  generalize hs : runOf asString ar (-1) acts = s at hlive ⊢
  have h : Reachable asString ar s := ⟨acts, hs.symm⟩
  obtain ⟨moves, hmoves⟩ := h.history
  obtain ⟨moves', hcont, p, T, voters, hpoised, -⟩ := Cluster.exists_poised hn moves hM
    (by rw [← hmoves]; exact hlive) (fun q _ => by rw [← hmoves]; exact h.snapless.cluster.snapIndex q)
  have hreach₁ := reaches_protocol asString ar hmoves hcont
  have h₁ := h.reaches hreach₁
  obtain ⟨s₂, x, queue, hreach₂, hawaits₂, hlive₂, hmem, hlt, hle⟩ :=
    h₁.commit hn hpoised hcall
  have hp := hpoised.leading.mem
  obtain ⟨s₃, hreach₃, hexited₃, hawaits₃, hahead⟩ :=
    (h₁.reaches hreach₂).deliver (hlive₂ p hp) hawaits₂ hmem hlt hle
  have hlive₃ : ∀ q ∈ M, s₃.cluster.exited q = none := by
    rw [hexited₃]
    exact hlive₂
  obtain ⟨s₄, hreach₄, hcluster₄, hhandlers₄, hsent⟩ :=
    ((h₁.reaches hreach₂).reaches hreach₃).send (hlive₃ p hp) hawaits₃ hround hahead
  obtain ⟨s₅, reply, hreach₅, hcluster₅, hi, hok⟩ := reply_of_sent asString ar
    (by rw [hcluster₄]; exact hlive₃ p hp) (by rw [hhandlers₄]; exact hawaits₃.handler) hsent
  obtain ⟨later, rfl⟩ := (((hreach₁.trans hreach₂).trans hreach₃).trans hreach₄).trans hreach₅
  have hrun : runOf asString ar (-1) (acts ++ later) = run (step asString ar) s later := by
    rw [← hs]
    exact run_append _ _ _ _
  refine ⟨acts ++ later, List.prefix_append _ _, ?_, p, hp, _, reply, le_rfl, ?_, hok⟩
  · rw [hrun, hcluster₅, hcluster₄]
    exact hlive₃
  · rw [hrun]
    exact hi

section GetRun

open Cluster (leading following)

theorem request_can_be_served_putRun :
    ∃ acts', putRun <+: acts' ∧
      (∀ q ∈ (Finset.univ : Finset (Fin 3)),
        (runOf opText opArchives (-1) acts').cluster.exited q = none) ∧
      ∃ p ∈ (Finset.univ : Finset (Fin 3)), ∃ i reply,
        ((runOf opText opArchives (-1) putRun).kv p).handlers.length ≤ i ∧
        ((runOf opText opArchives (-1) acts').kv p).handlers[i]? =
          some ⟨.get, ⟨"Get", "k", "", "d", 1⟩, .returned reply⟩ ∧ reply.err ≠ .errWrongLeader :=
  request_can_be_served (by decide) opText opArchives putRun (by decide) (by decide +kernel)
    (.get "k" "d" 1) rfl rfl

end GetRun

end Deployment
end RaftStorage
