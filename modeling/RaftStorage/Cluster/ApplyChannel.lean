import RaftStorage.Cluster.Replication

/-! The messages of one node on their way to `applyChan`. What is in the channel and what still
waits to be pushed, taken together, is in log order and ends at `m_lastApplied`, as long as the
waiting messages are pushed in the order in which they were made and no snapshot older than
`m_lastApplied` is installed. -/

namespace RaftStorage
open Library

namespace ApplyMsg

def index (msg : ApplyMsg) : ℤ := if msg.commandValid then msg.commandIndex else msg.snapshotIndex

def Follows (i : ℤ) (msg : ApplyMsg) : Prop :=
  if msg.commandValid then msg.commandIndex = i + 1
  else msg.snapshotValid = true ∧ i ≤ msg.snapshotIndex

inductive InOrder : ℤ → List ApplyMsg → Prop
  | nil {i} : InOrder i []
  | cons {i msg msgs} (first : msg.Follows i) (rest : InOrder msg.index msgs) :
      InOrder i (msg :: msgs)

def lastIndex (i : ℤ) (msgs : List ApplyMsg) : ℤ := msgs.foldl (fun _ msg => msg.index) i

variable {i : ℤ} {msg : ApplyMsg} {msgs msgs' : List ApplyMsg}

@[simp] theorem lastIndex_nil : lastIndex i [] = i := rfl

@[simp] theorem lastIndex_cons : lastIndex i (msg :: msgs) = lastIndex msg.index msgs := rfl

@[simp] theorem lastIndex_append :
    lastIndex i (msgs ++ msgs') = lastIndex (lastIndex i msgs) msgs' := List.foldl_append

theorem inOrder_cons : InOrder i (msg :: msgs) ↔ msg.Follows i ∧ InOrder msg.index msgs := by
  constructor
  · rintro (_ | ⟨hfirst, hrest⟩)
    exact ⟨hfirst, hrest⟩
  · rintro ⟨hfirst, hrest⟩
    exact .cons hfirst hrest

theorem inOrder_append :
    InOrder i (msgs ++ msgs') ↔ InOrder i msgs ∧ InOrder (lastIndex i msgs) msgs' := by
  induction msgs generalizing i with
  | nil => simp [InOrder.nil]
  | cons msg msgs ih => simp [inOrder_cons, ih, and_assoc]

theorem Follows.le_index (h : msg.Follows i) : i ≤ msg.index := by
  unfold Follows at h
  unfold index
  split_ifs at h ⊢
  · omega
  · exact h.2

theorem InOrder.le_lastIndex (h : InOrder i msgs) : i ≤ lastIndex i msgs := by
  induction h with
  | nil => exact le_rfl
  | cons first _ ih => exact first.le_index.trans ih

theorem InOrder.index_le (h : InOrder i msgs) (hmsg : msg ∈ msgs) :
    msg.index ≤ lastIndex i msgs := by
  induction h with
  | nil => cases hmsg
  | cons first rest ih =>
    rcases List.mem_cons.mp hmsg with rfl | hmsg
    · exact rest.le_lastIndex
    · exact ih hmsg

end ApplyMsg

namespace Raft

variable {n : ℕ} {rf : Raft n}

open ApplyMsg in
theorem ReadFrom.inOrder {i : ℤ} {msgs : List ApplyMsg} (h : ReadFrom rf (i + 1) msgs) :
    InOrder i msgs ∧ lastIndex i msgs = i + msgs.length := by
  induction msgs generalizing i with
  | nil => exact ⟨.nil, by simp⟩
  | cons msg msgs ih =>
    obtain ⟨e, -, hidx, rfl⟩ := h 0 msg rfl
    have hi : e.logIndex = i + 1 := by simpa using hidx
    have hrest : ReadFrom rf (e.logIndex + 1) msgs := by
      intro k msg' hk
      obtain ⟨e', he', hidx', hmsg'⟩ := h (k + 1) msg' (by simpa using hk)
      refine ⟨e', he', ?_, hmsg'⟩
      push_cast at hidx'
      omega
    obtain ⟨ho, hl⟩ := ih hrest
    refine ⟨.cons hi ho, ?_⟩
    simp only [lastIndex_cons, List.length_cons, Nat.cast_add, Nat.cast_one]
    rw [show ApplyMsg.index _ = e.logIndex from rfl, hl]
    omega

/-- `InstallSnapshot` accepts a snapshot that ends before the last applied entry. -/
def RollsBack (rf : Raft n) (args : InstallSnapshotRequest n) : Prop :=
  ¬args.term < rf.currentTerm ∧ rf.lastSnapshotIncludeIndex < args.lastSnapshotIncludeIndex ∧
    args.lastSnapshotIncludeIndex < rf.lastApplied

instance (rf : Raft n) (args : InstallSnapshotRequest n) : Decidable (rf.RollsBack args) :=
  inferInstanceAs (Decidable (_ ∧ _ ∧ _))

end Raft

namespace Cluster

variable {n : ℕ} {s s' : Cluster n} {a : Action n} {p : Fin n}

/-- `Snapshot` is called as `IfNeedToSendSnapShotCommand` calls it: with the index of a command that
was taken from the node's channel. -/
def Delivered (s : Cluster n) (a : Action n) : Prop :=
  match a with
  | .snapshot q index _ =>
    ∃ msg ∈ s.applyChan q, msg.commandValid = true ∧ msg.commandIndex = index
  | _ => True

instance Delivered.decidable (s : Cluster n) : ∀ a, Decidable (Delivered s a)
  | .snapshot q index _ =>
    inferInstanceAs (Decidable (∃ msg ∈ s.applyChan q, msg.commandValid = true ∧
      msg.commandIndex = index))
  | .doElection _ | .requestVote _ _ | .sendRequestVote _ _ _ | .start _ _ | .doHeartBeat _
  | .appendEntries1 _ _ | .sendAppendEntries _ _ _ | .leaderSendSnapShot _ | .installSnapshot _
  | .leaderSendSnapShotReply _ _ | .getApplyLogs _ | .applierPush _ | .pushMsgToKvServer _ _ =>
    inferInstanceAs (Decidable True)

/-- The step keeps the messages of node `p` in turn: a push takes the message that has waited
longest, and an installed snapshot is not older than what was applied. -/
def InTurn (p : Fin n) (s : Cluster n) (a : Action n) : Prop :=
  match a with
  | .installSnapshot t =>
    ∀ th ∈ s.snapShots[t]?, th.server = p → ∀ args ∈ th.request, ¬(s.nodes p).RollsBack args
  | .applierPush q => q = p → ((s.pending p).findIdx? (·.1 = .applier)).getD 0 = 0
  | .pushMsgToKvServer q k => q = p → k = 0
  | _ => True

instance InTurn.decidable (p : Fin n) (s : Cluster n) : ∀ a, Decidable (InTurn p s a)
  | .installSnapshot t =>
    inferInstanceAs (Decidable (∀ th ∈ s.snapShots[t]?, th.server = p → ∀ args ∈ th.request,
      ¬(s.nodes p).RollsBack args))
  | .applierPush q =>
    inferInstanceAs (Decidable (q = p → ((s.pending p).findIdx? (·.1 = .applier)).getD 0 = 0))
  | .pushMsgToKvServer q k => inferInstanceAs (Decidable (q = p → k = 0))
  | .doElection _ | .requestVote _ _ | .sendRequestVote _ _ _ | .start _ _ | .doHeartBeat _
  | .appendEntries1 _ _ | .sendAppendEntries _ _ _ | .leaderSendSnapShot _
  | .leaderSendSnapShotReply _ _ | .snapshot _ _ _ | .getApplyLogs _ =>
    inferInstanceAs (Decidable True)

/-- The messages of node `p` in the order in which they reach the channel if nothing overtakes. -/
def queue (s : Cluster n) (p : Fin n) : List ApplyMsg :=
  s.applyChan p ++ (s.pending p).map Prod.snd

open ApplyMsg in
structure Queued (s : Cluster n) (p : Fin n) : Prop where
  inOrder : InOrder 0 (s.queue p)
  last : lastIndex 0 (s.queue p) = (s.nodes p).lastApplied

inductive Delivery (p : Fin n) (s : Cluster n) : Action n → Cluster n → Prop
  | same {a : Action n} {s' : Cluster n}
      (applied : (s'.nodes p).lastApplied = (s.nodes p).lastApplied)
      (queue : s'.queue p = s.queue p) : Delivery p s a s'
  | install {t th args msg} {s' : Cluster n} (thread : s.snapShots[t]? = some th)
      (server : th.server = p) (request : th.request = some args)
      (term : ¬args.term < (s.nodes p).currentTerm)
      (index : (s.nodes p).lastSnapshotIncludeIndex < args.lastSnapshotIncludeIndex)
      (applied : (s'.nodes p).lastApplied =
        max (s.nodes p).lastApplied args.lastSnapshotIncludeIndex)
      (isSnapshot : msg.commandValid = false ∧ msg.snapshotValid = true ∧
        msg.snapshotIndex = args.lastSnapshotIncludeIndex)
      (queue : s'.queue p = s.queue p ++ [msg]) : Delivery p s (.installSnapshot t) s'
  | snapshot {index str} {s' : Cluster n}
      (applied : (s'.nodes p).lastApplied = max (s.nodes p).lastApplied index)
      (queue : s'.queue p = s.queue p) : Delivery p s (.snapshot p index str) s'
  | collect {msgs} {s' : Cluster n}
      (read : (s.nodes p).ReadFrom ((s.nodes p).lastApplied + 1) msgs)
      (applied : (s'.nodes p).lastApplied = (s.nodes p).lastApplied + msgs.length)
      (queue : s'.queue p = s.queue p ++ msgs) : Delivery p s (.getApplyLogs p) s'
  | push {a : Action n} {k pusher msg} {s' : Cluster n}
      (message : (s.pending p)[k]? = some (pusher, msg))
      (action : a = .applierPush p ∧ (s.pending p).findIdx? (·.1 = .applier) = some k ∨
        a = .pushMsgToKvServer p k)
      (applied : (s'.nodes p).lastApplied = (s.nodes p).lastApplied)
      (queue : s'.queue p = s.applyChan p ++ msg :: ((s.pending p).eraseIdx k).map Prod.snd) :
      Delivery p s a s'

theorem queue_recordInstall {t : ℕ} {q : Fin n} {out : InstallSnapshotResponse × Option ApplyMsg} :
    (recordInstall t q s out).queue p =
      if p = q then s.queue p ++ out.2.toList else s.queue p := by
  unfold queue recordInstall
  dsimp only
  split_ifs with hp
  · subst hp
    simp
  · rw [Function.update_of_ne hp]

theorem queue_recordApply {q : Fin n} {msgs : List ApplyMsg} :
    (recordApply q s msgs).queue p = if p = q then s.queue p ++ msgs else s.queue p := by
  unfold queue recordApply
  dsimp only
  split_ifs with hp
  · subst hp
    simp
  · rw [Function.update_of_ne hp]

theorem Indexed.delivery_install (h : s.Indexed) {t : ℕ} {th : SnapShotThread n}
    {args : InstallSnapshotRequest n} {rf : Raft n} {reply : InstallSnapshotResponse}
    {msg : Option ApplyMsg} (thread : s.snapShots[t]? = some th) (request : th.request = some args)
    (eval : (s.nodes th.server).installSnapshot args = .ok (rf, reply, msg)) :
    Delivery p s (.installSnapshot t)
      (recordInstall t th.server (s.setNode th.server rf) (reply, msg)) := by
  by_cases hp : p = th.server
  · subst hp
    have hnode : (recordInstall t th.server (s.setNode th.server rf) (reply, msg)).nodes th.server =
      rf := setNode_nodes_self
    have hq : (recordInstall t th.server (s.setNode th.server rf) (reply, msg)).queue th.server =
        s.queue th.server ++ msg.toList := by
      rw [queue_recordInstall, if_pos rfl]
      rfl
    cases Raft.installSnapshot_cases (h.node _).contiguous eval with
    | stale _ same noMsg =>
      subst same noMsg
      exact .same (congrArg _ hnode) (by simpa using hq)
    | old _ log _ _ _ _ noMsg =>
      subst noMsg
      exact .same ((congrArg _ hnode).trans log.applied) (by simpa using hq)
    | installed term log _ _ _ index someMsg =>
      subst someMsg
      exact .install thread rfl request term index ((congrArg _ hnode).trans log.applied)
        ⟨rfl, rfl, rfl⟩ hq
  · refine .same ?_ ?_
    · exact congrArg _ (setNode_nodes_of_ne hp)
    · rw [queue_recordInstall, if_neg hp]
      rfl

theorem Indexed.delivery_collect (h : s.Indexed) {q : Fin n} {rf : Raft n} {msgs : List ApplyMsg}
    (eval : (s.nodes q).getApplyLogs = .ok (rf, msgs)) :
    Delivery p s (.getApplyLogs q) (recordApply q (s.setNode q rf) msgs) := by
  by_cases hp : p = q
  · subst hp
    obtain ⟨msgs', hok, hlen, hread⟩ := Raft.getApplyLogs_ok (h.node p).contiguous
      (h.node p).snap_le (h.node p).applied_le (h.node p).commit_le
    obtain ⟨rfl, rfl⟩ := Prod.mk.inj (Except.ok.inj (hok.symm.trans eval))
    refine .collect hread ?_ ?_
    · rw [hlen]
      exact congrArg Raft.lastApplied setNode_nodes_self
    · rw [queue_recordApply, if_pos rfl]
      rfl
  · refine .same ?_ ?_
    · exact congrArg _ (setNode_nodes_of_ne hp)
    · rw [queue_recordApply, if_neg hp]
      rfl

theorem delivery_setNode {q : Fin n} {rf : Raft n} (happ : rf.lastApplied = (s.nodes q).lastApplied)
    (hn : s'.nodes = (s.setNode q rf).nodes) (hq : s'.queue p = s.queue p) : Delivery p s a s' := by
  refine .same ?_ hq
  rw [hn]
  exact setNode_rel (R := fun rf rf' => rf'.lastApplied = rf.lastApplied) (fun _ => rfl) happ p

theorem Indexed.delivery (h : s.Indexed) (hs : Step s a s') (p : Fin n) : Delivery p s a s' := by
  cases hs with
  | idle => exact .same rfl rfl
  | exit => exact .same rfl rfl
  | @doElection q rf out eval =>
    have happ : rf.lastApplied = (s.nodes q).lastApplied := by
      rcases Raft.doElection_cases eval with ⟨rfl, -⟩ | ⟨hsame, -⟩
      · rfl
      · exact hsame.applied
    exact delivery_setNode happ (recordElection_nodes out) (by cases out <;> rfl)
  | requestVote round call eval =>
    exact delivery_setNode (Raft.requestVote_cases eval).1.applied rfl rfl
  | sendRequestVote round call taken answer eval =>
    exact delivery_setNode (Raft.sendRequestVote_cases eval).1.applied rfl rfl
  | @start q command rf out eval =>
    have happ : rf.lastApplied = (s.nodes q).lastApplied := by
      rcases Raft.start_cases eval with ⟨rfl, -⟩ | ⟨-, -, -, -, -, -, -, happ, -⟩
      · rfl
      · exact happ
    exact delivery_setNode happ rfl rfl
  | doHeartBeat =>
    rename_i out _
    cases out <;> exact .same rfl rfl
  | @appendEntries1 i q r c rf reply round call eval =>
    have happ : rf.lastApplied = (s.nodes q).lastApplied := by
      cases Raft.appendEntries1_cases (h.node q).contiguous (h.shaped round call).numbered eval with
      | stale _ same => rw [same]
      | rejected _ log => exact log.applied
      | merged _ log => exact log.applied
    exact delivery_setNode happ rfl rfl
  | @sendAppendEntries i q k r c reply rf num round call taken answer eval =>
    have happ : rf.lastApplied = (s.nodes r.owner).lastApplied := by
      obtain ⟨-, ⟨hsame, -⟩ | ⟨-, -, -, happ, -⟩⟩ := Raft.sendAppendEntries_cases eval
      · exact hsame.applied
      · exact happ
    exact delivery_setNode happ rfl rfl
  | leaderSendSnapShot =>
    exact delivery_setNode (Raft.leaderSendSnapShot_same _).1.applied rfl rfl
  | installSnapshot thread request eval => exact h.delivery_install thread request eval
  | leaderSendSnapShotReply =>
    exact delivery_setNode (Raft.leaderSendSnapShotReply_same _ _ _ _).1.applied rfl rfl
  | @snapshot q index str rf eval =>
    by_cases hp : p = q
    · subst hp
      obtain ⟨rf', hok, hcases⟩ := Raft.snapshot_ok (h.node p).contiguous (h.node p).commit_le index
        str
      obtain rfl := Except.ok.inj (hok.symm.trans eval)
      rcases hcases with rfl | ⟨-, -, -, -, -, -, t, hcut, -⟩
      · exact delivery_setNode rfl rfl rfl
      · exact .snapshot ((congrArg _ setNode_nodes_self).trans hcut.applied) rfl
    · exact .same (congrArg _ (setNode_nodes_of_ne hp)) rfl
  | getApplyLogs eval => exact h.delivery_collect eval
  | @push _ q k pusher msg message action =>
    by_cases hp : p = q
    · subst hp
      exact .push message action rfl (by simp [queue])
    · refine .same rfl ?_
      unfold queue
      dsimp only
      rw [Function.update_of_ne hp, Function.update_of_ne hp]

theorem queue_push_first {pusher : Pusher} {msg : ApplyMsg}
    (hmsg : (s.pending p)[0]? = some (pusher, msg)) :
    s.applyChan p ++ msg :: ((s.pending p).eraseIdx 0).map Prod.snd = s.queue p := by
  unfold queue
  cases hp : s.pending p with
  | nil => simp [hp] at hmsg
  | cons x rest =>
    obtain rfl : x = (pusher, msg) := by simpa [hp] using hmsg
    rfl

open ApplyMsg

theorem Queued.step (h : s.Queued p) (hd : Delivery p s a s') (hsnap : Delivered s a)
    (hturn : InTurn p s a) : s'.Queued p := by
  obtain ⟨hin, hlast⟩ := h
  cases hd with
  | same applied queue => exact ⟨queue ▸ hin, by rw [queue, applied, hlast]⟩
  | @install t th args msg _ thread server request term index applied isSnapshot queue =>
    obtain ⟨hcmd, hvalid, hidx⟩ := isSnapshot
    have hge : (s.nodes p).lastApplied ≤ args.lastSnapshotIncludeIndex :=
      not_lt.mp fun hlt => hturn th thread server args request ⟨term, index, hlt⟩
    have hmsg : msg.index = args.lastSnapshotIncludeIndex := by simp [ApplyMsg.index, hcmd, hidx]
    refine ⟨?_, ?_⟩
    · rw [queue, inOrder_append, hlast]
      refine ⟨hin, .cons ?_ .nil⟩
      simp [Follows, hcmd, hvalid, hidx, hge]
    · rw [queue, lastIndex_append, hlast, lastIndex_cons, lastIndex_nil, hmsg, applied]
      exact (max_eq_right hge).symm
  | @snapshot index _ _ applied queue =>
    obtain ⟨msg, hmsg, hcmd, rfl⟩ := hsnap
    have hle := hin.index_le (List.mem_append_left _ hmsg)
    rw [hlast, ApplyMsg.index, if_pos hcmd] at hle
    exact ⟨queue ▸ hin, by rw [queue, applied, hlast, max_eq_left hle]⟩
  | collect read applied queue =>
    obtain ⟨ho, hl⟩ := read.inOrder
    refine ⟨?_, ?_⟩
    · rw [queue, inOrder_append, hlast]
      exact ⟨hin, ho⟩
    · rw [queue, lastIndex_append, hlast, hl, applied]
  | @push a k _ _ _ message action applied queue =>
    have hk : k = 0 := by
      rcases action with ⟨rfl, hk⟩ | rfl
      · simpa [hk] using hturn rfl
      · exact hturn rfl
    subst hk
    rw [queue_push_first message] at queue
    exact ⟨queue ▸ hin, by rw [queue, applied, hlast]⟩

theorem queued_init (p : Fin n) : (init n).Queued p := ⟨.nil, rfl⟩

theorem queued_runOf {acts : List (Action n)} (hsnap : Along step Delivered (init n) acts)
    (hturn : Along step (InTurn p) (init n) acts) : (runOf acts).Queued p := by
  have hinv := run_invariant_along (P := fun s => s.Indexed ∧ s.Queued p)
    ⟨indexed_init n, queued_init p⟩ (fun s a hs hc => ?_) (hsnap.and hturn)
  · exact hinv.2
  · have hstep := step_spec s a
    exact ⟨hs.1.step hstep, hs.2.step (hs.1.delivery hstep p) hc.1 hc.2⟩

/-- The channel of a node is in log order in every run whose steps keep its messages in turn. -/
theorem applyChan_inOrder {acts : List (Action n)} (hsnap : Along step Delivered (init n) acts)
    (hturn : Along step (InTurn p) (init n) acts) : InOrder 0 ((runOf acts).applyChan p) :=
  (inOrder_append.mp (queued_runOf hsnap hturn).inOrder).1

/-- The leader commits two commands; node 2 lags behind, gets the first one as a snapshot and the
second one as an entry, and both messages wait. -/
def waitingRun : List (Action 3) :=
  commitRun ++ [.sendAppendEntries 0 following 0, .getApplyLogs leading, .applierPush leading,
    .snapshot leading 1 "s", .start leading "b", .doHeartBeat leading, .leaderSendSnapShot 0,
    .installSnapshot 0, .leaderSendSnapShotReply 0 0, .appendEntries1 1 following,
    .sendAppendEntries 1 following 0, .doHeartBeat leading, .appendEntries1 2 lagging,
    .getApplyLogs lagging]

def deliveredRun : List (Action 3) := waitingRun ++
  [.pushMsgToKvServer lagging 0, .applierPush lagging]

theorem applyChan_inOrder_deliveredRun :
    ((runOf deliveredRun).applyChan 2).map ApplyMsg.index = [1, 2] ∧
      InOrder 0 ((runOf deliveredRun).applyChan 2) := by
  have hsnap : Along step Delivered (init 3) deliveredRun := by decide +kernel
  have hturn : Along step (InTurn 2) (init 3) deliveredRun := by decide +kernel
  exact ⟨by decide +kernel, applyChan_inOrder hsnap hturn⟩

/-- When the applier is faster than the detached thread, the second command is pushed before the
snapshot. -/
theorem applier_overtakes_snapshot :
    ¬∀ (n : ℕ) (p : Fin n) (acts : List (Action n)), Along step Delivered (init n) acts →
      InOrder 0 ((runOf acts).applyChan p) := by
  intro h
  have hchan : (runOf (waitingRun ++ [.applierPush 2])).applyChan 2 =
      [{ commandValid := true, command := "b", commandIndex := 2 }] := by decide +kernel
  have hin := h 3 2 (waitingRun ++ [.applierPush 2]) (by decide +kernel)
  rw [hchan] at hin
  exact absurd (inOrder_cons.mp hin).1 (by simp [Follows])

end Cluster
end RaftStorage
