import RaftStorage.Cluster.Decided
import RaftStorage.Kv.Determinism
import RaftStorage.Kv.Node

/-! The whole service: a cluster of Raft nodes with a `KvServer` on each of them. Every server is the
one of `KvNode`; here all of them run over the same cluster, so that a handler of one server starts
the commands that the apply loops of the others will see. -/

namespace RaftStorage
open Library

structure Process where
  server : KvAudit
  starts : List ℤ
  queueOf : ℕ → Option ℕ
  snapshotsTaken : ℕ

structure Deployment (n : ℕ) where
  cluster : Cluster n
  processes : Fin n → Process

inductive DeploymentAction (n : ℕ) where
  | cluster (a : Action n)
  | server (p : Fin n) (a : ServerAction)

namespace KvNode

variable {n : ℕ}

def process (s : KvNode n) : Process := ⟨s.server, s.starts, s.queueOf, s.snapshotsTaken⟩

end KvNode

namespace Deployment

variable {n : ℕ}

def init (n : ℕ) (maxRaftState : ℤ) : Deployment n where
  cluster := Cluster.init n
  processes := fun _ => ⟨KvAudit.init maxRaftState, [], fun _ => none, 0⟩

def node (s : Deployment n) (p : Fin n) : KvNode n where
  cluster := s.cluster
  server := (s.processes p).server
  starts := (s.processes p).starts
  queueOf := (s.processes p).queueOf
  snapshotsTaken := (s.processes p).snapshotsTaken

def kv (s : Deployment n) (p : Fin n) : KvSystem := (s.processes p).server.kv

/-- Only a server calls `Start` and `Snapshot`, through its own threads. -/
def serverCall : Action n → Bool
  | .start _ _ => true
  | .snapshot _ _ _ => true
  | _ => false

def step (asString : Op → String) (ar : Archives) (s : Deployment n) : DeploymentAction n → Deployment n
  | .cluster a =>
    if serverCall a then s
    else
      { cluster := s.cluster.step a
        processes := fun p => ((s.node p).forward ar p (s.cluster.step a)).process }
  | .server p a =>
    let t := (s.node p).step asString ar p (.server a)
    { cluster := t.cluster, processes := Function.update s.processes p t.process }

def runOf (asString : Op → String) (ar : Archives) (maxRaftState : ℤ)
    (acts : List (DeploymentAction n)) : Deployment n :=
  run (step asString ar) (init n maxRaftState) acts

end Deployment

/-! ## What the apply loop has read -/

def LoopPhase.ReadFrom (ar : Archives) (processed : List ApplyMsg) : LoopPhase → Prop
  | .popping => True
  | .checking message op | .executing message op | .snapshotting message op
  | .sending message op =>
    message ∈ processed ∧ message.commandValid = true ∧ op = ar.parseOp message.command
  | .installing message => message ∈ processed ∧ message.snapshotValid = true

namespace KvAudit

variable {ar : Archives} {s : KvAudit}

structure Tracked (ar : Archives) (s : KvAudit) : Prop where
  loop : s.kv.loop.ReadFrom ar s.kv.processed
  handled : ∀ op ∈ s.handled, ∃ message ∈ s.kv.processed, message.commandValid = true ∧
    op = ar.parseOp message.command
  installed : s.installed ≠ [] → ∃ message ∈ s.kv.processed, message.snapshotValid = true
  snapshots : ∀ x ∈ s.kv.snapshots, ∃ message ∈ s.kv.processed, message.commandValid = true ∧
    message.commandIndex = x.1

theorem tracked_init (maxRaftState : ℤ) : (init maxRaftState).Tracked ar where
  loop := trivial
  handled := by simp [init]
  installed := by simp [init]
  snapshots := by simp [init, KvSystem.init]

theorem readFrom_afterCommand {processed : List ApplyMsg} {message : ApplyMsg}
    (h : message ∈ processed) : (KvSystem.afterCommand message).ReadFrom ar processed := by
  unfold KvSystem.afterCommand
  split_ifs with hvalid
  · exact ⟨h, hvalid⟩
  · exact trivial

theorem readFrom_receive (kv : KvServer) {processed : List ApplyMsg} {message : ApplyMsg}
    (h : message ∈ processed) : (KvSystem.receive ar kv message).ReadFrom ar processed := by
  unfold KvSystem.receive
  split_ifs with hvalid
  · exact readFrom_afterCommand h
  · exact ⟨h, hvalid, rfl⟩
  · exact readFrom_afterCommand h

theorem Tracked.loopStep (h : s.Tracked ar) (raftStateSize : ℤ) (flips : ℕ → ℕ) :
    (s.step ar (.loop raftStateSize flips)).Tracked ar := by
  obtain ⟨hloop, hhandled, hinstalled, hsnap⟩ := h
  simp only [step, KvSystem.step, KvSystem.loopStep]
  cases hphase : s.kv.loop with
  | popping =>
    simp only [newlyInstalled, List.append_nil]
    cases s.kv.applyChan with
    | nil => exact ⟨hphase ▸ trivial, by simpa [hphase, newlyHandled] using hhandled, hinstalled, hsnap⟩
    | cons message rest =>
      have hsub : s.kv.processed ⊆ s.kv.processed ++ [message] := List.subset_append_left _ _
      have hnone : newlyHandled (KvSystem.receive ar s.kv.server message) = [] := by
        unfold KvSystem.receive KvSystem.afterCommand
        split_ifs <;> rfl
      refine ⟨readFrom_receive _ (by simp), ?_, fun hne => ?_, fun x hx => ?_⟩
      · simp only [hnone, List.append_nil]
        intro op hop
        obtain ⟨m, hm, hrest⟩ := hhandled op hop
        exact ⟨m, hsub hm, hrest⟩
      · obtain ⟨m, hm, hrest⟩ := hinstalled hne
        exact ⟨m, hsub hm, hrest⟩
      · obtain ⟨m, hm, hrest⟩ := hsnap x hx
        exact ⟨m, hsub hm, hrest⟩
  | checking message op =>
    rw [hphase] at hloop
    simp only [newlyInstalled, List.append_nil]
    split_ifs
    · refine ⟨hloop, fun op' hop => ?_, hinstalled, hsnap⟩
      rcases List.mem_append.mp hop with hop | hop
      · exact hhandled op' hop
      · obtain rfl := List.mem_singleton.mp hop
        exact ⟨message, hloop⟩
    · refine ⟨hloop, fun op' hop => ?_, hinstalled, hsnap⟩
      exact hhandled op' (by simpa [newlyHandled] using hop)
  | executing message op =>
    rw [hphase] at hloop
    have hnew : ∀ op' ∈ s.handled ++ newlyHandled (.snapshotting message op),
        ∃ m ∈ s.kv.processed, m.commandValid = true ∧ op' = ar.parseOp m.command := by
      intro op' hop
      rcases List.mem_append.mp hop with hop | hop
      · exact hhandled op' hop
      · obtain rfl := List.mem_singleton.mp hop
        exact ⟨message, hloop⟩
    simp only [newlyInstalled, List.append_nil]
    split_ifs
    · exact ⟨hloop, hnew, hinstalled, hsnap⟩
    · exact ⟨hloop, hnew, hinstalled, hsnap⟩
    · exact ⟨hloop, hnew, hinstalled, hsnap⟩
  | snapshotting message op =>
    rw [hphase] at hloop
    simp only [newlyInstalled, newlyHandled, List.append_nil]
    refine ⟨hloop, hhandled, hinstalled, fun x hx => ?_⟩
    rcases List.mem_append.mp hx with hx | hx
    · exact hsnap x hx
    · refine ⟨message, hloop.1, hloop.2.1, ?_⟩
      simp only [KvServer.ifNeedToSendSnapShotCommand] at hx
      split_ifs at hx <;> simp_all
  | sending message op =>
    rw [hphase] at hloop
    have hnone : newlyHandled (KvSystem.afterCommand message) = [] := by
      unfold KvSystem.afterCommand
      split_ifs <;> rfl
    simp only [newlyInstalled, hnone, List.append_nil]
    exact ⟨readFrom_afterCommand hloop.1, hhandled, hinstalled, hsnap⟩
  | installing message =>
    rw [hphase] at hloop
    simp only [newlyHandled, List.append_nil]
    exact ⟨trivial, hhandled, fun _ => ⟨message, hloop⟩, hsnap⟩

theorem Tracked.step (h : s.Tracked ar) (a : KvAction) : (s.step ar a).Tracked ar := by
  cases a with
  | loop raftStateSize flips => exact h.loopStep raftStateSize flips
  | push message => exact ⟨h.loop, h.handled, h.installed, h.snapshots⟩
  | get key clientId requestId => exact ⟨h.loop, h.handled, h.installed, h.snapshots⟩
  | putAppend op key value clientId requestId =>
    exact ⟨h.loop, h.handled, h.installed, h.snapshots⟩
  | handler i a =>
    simp only [KvAudit.step, KvSystem.step]
    split
    · split
      · exact ⟨h.loop, h.handled, h.installed, h.snapshots⟩
      · exact h
    · exact h

def received (s : KvAudit) : List ApplyMsg := s.kv.processed ++ s.kv.applyChan

theorem received_push (s : KvAudit) (message : ApplyMsg) :
    (s.step ar (.push message)).received = s.received ++ [message] :=
  (List.append_assoc _ _ _).symm

theorem received_step (s : KvAudit) {a : KvAction} (ha : ∀ message, a ≠ .push message) :
    (s.step ar a).received = s.received := by
  unfold received
  cases a with
  | push message => exact absurd rfl (ha message)
  | get => rfl
  | putAppend => rfl
  | loop raftStateSize flips =>
    simp only [step_kv, KvSystem.step, KvSystem.loopStep]
    cases s.kv.loop with
    | popping => cases hchan : s.kv.applyChan <;> simp [hchan]
    | checking message op =>
      dsimp only
      split_ifs <;> rfl
    | executing message op =>
      dsimp only
      split_ifs <;> rfl
    | _ => rfl
  | handler i a =>
    simp only [step_kv, KvSystem.step]
    split
    · split <;> rfl
    · rfl

theorem processed_prefix (s : KvAudit) (a : KvAction) :
    s.kv.processed <+: (s.step ar a).kv.processed := by
  cases a with
  | loop raftStateSize flips =>
    simp only [step_kv, KvSystem.step, KvSystem.loopStep]
    cases s.kv.loop with
    | popping => cases s.kv.applyChan <;> simp
    | checking message op =>
      dsimp only
      split_ifs <;> exact List.prefix_rfl
    | executing message op =>
      dsimp only
      split_ifs <;> exact List.prefix_rfl
    | _ => exact List.prefix_rfl
  | handler i a =>
    simp only [step_kv, KvSystem.step]
    split
    · split <;> exact List.prefix_rfl
    · exact List.prefix_rfl
  | _ => exact List.prefix_rfl

def called (s : KvAudit) : List Op := s.kv.handlers.map Handler.op

theorem called_prefix (s : KvAudit) (a : KvAction) : s.called <+: (s.step ar a).called := by
  unfold called
  cases a with
  | get => simp [KvSystem.step]
  | putAppend => simp [KvSystem.step]
  | push => simp [KvSystem.step]
  | loop raftStateSize flips =>
    rw [step_kv, KvSystem.step, (KvNode.loopStep_channels ar s.kv raftStateSize flips).1]
  | handler i a =>
    simp only [step_kv, KvSystem.step]
    split
    · rename_i h hi
      split
      · rename_i kv h' hstep
        obtain ⟨next, rfl, -⟩ := Handler.step_spec hstep
        obtain ⟨hlt, rfl⟩ := List.getElem?_eq_some_iff.mp hi
        rw [List.map_set]
        have hself : (s.kv.handlers.map Handler.op).set i s.kv.handlers[i].op =
            s.kv.handlers.map Handler.op := by
          rw [← List.getElem_map Handler.op (h := by simpa using hlt), List.set_getElem_self]
        exact hself.symm ▸ List.prefix_rfl
      · exact List.prefix_rfl
    · exact List.prefix_rfl

/-! ## A channel of plain commands -/

structure Plain (message : ApplyMsg) : Prop where
  command : message.commandValid = true
  bare : message.snapshotValid = false
  positive : 0 < message.commandIndex

def opsOf (ar : Archives) (messages : List ApplyMsg) : List Op :=
  messages.map fun message => ar.parseOp message.command

def UpTo (ar : Archives) (s : KvAudit) : LoopPhase → Prop
  | .checking message _ | .executing message _ => ∃ messages,
    s.kv.processed = messages ++ [message] ∧ s.handled = opsOf ar messages
  | .installing _ => False
  | _ => s.handled = opsOf ar s.kv.processed

structure InTurn (ar : Archives) (s : KvAudit) : Prop where
  upTo : s.UpTo ar s.kv.loop
  snapIndex : s.kv.server.lastSnapShotRaftLogIndex = 0

theorem inTurn_init (maxRaftState : ℤ) : (init maxRaftState).InTurn ar := ⟨rfl, rfl⟩

theorem afterCommand_plain {message : ApplyMsg} (h : Plain message) :
    KvSystem.afterCommand message = .popping := by
  simp [KvSystem.afterCommand, h.bare]

theorem receive_plain {kv : KvServer} {message : ApplyMsg} (h : Plain message)
    (hsnap : kv.lastSnapShotRaftLogIndex = 0) :
    KvSystem.receive ar kv message = .checking message (ar.parseOp message.command) := by
  have hlt : ¬message.commandIndex ≤ kv.lastSnapShotRaftLogIndex := by
    rw [hsnap]
    exact not_le.mpr h.positive
  simp [KvSystem.receive, h.command, hlt]

theorem InTurn.loopStep (h : s.InTurn ar) (hT : s.Tracked ar)
    (hplain : ∀ message ∈ s.received, Plain message) (raftStateSize : ℤ) (flips : ℕ → ℕ) :
    (s.step ar (.loop raftStateSize flips)).InTurn ar := by
  obtain ⟨hupTo, hsnap⟩ := h
  have hloop := hT.loop
  simp only [step, KvSystem.step, KvSystem.loopStep]
  cases hphase : s.kv.loop with
  | popping =>
    rw [hphase] at hupTo
    cases hchan : s.kv.applyChan with
    | nil =>
      refine ⟨?_, hsnap⟩
      simpa [UpTo, hphase, newlyHandled] using hupTo
    | cons message rest =>
      have hreceive := @receive_plain ar _ _ (hplain message (by simp [received, hchan])) hsnap
      simp only [hreceive, newlyHandled, List.append_nil]
      exact ⟨⟨s.kv.processed, rfl, hupTo⟩, hsnap⟩
  | checking message op =>
    rw [hphase] at hupTo hloop
    obtain ⟨messages, hproc, hhandled⟩ := hupTo
    dsimp only
    split_ifs
    · refine ⟨?_, hsnap⟩
      simp [UpTo, newlyHandled, opsOf, hproc, hhandled, hloop.2.2]
    · refine ⟨⟨messages, hproc, ?_⟩, hsnap⟩
      simpa [newlyHandled] using hhandled
  | executing message op =>
    rw [hphase] at hupTo hloop
    obtain ⟨messages, hproc, hhandled⟩ := hupTo
    have hnew : s.handled ++ [op] = opsOf ar s.kv.processed := by
      simp [opsOf, hproc, hhandled, hloop.2.2]
    dsimp only
    split_ifs
    · exact ⟨hnew, hsnap⟩
    · exact ⟨hnew, hsnap⟩
    · exact ⟨hnew, hsnap⟩
  | snapshotting message op =>
    rw [hphase] at hupTo
    refine ⟨?_, hsnap⟩
    simpa [UpTo, newlyHandled] using hupTo
  | sending message op =>
    rw [hphase] at hupTo hloop
    have hpopping := afterCommand_plain (hplain message (List.mem_append_left _ hloop.1))
    simp only [hpopping, newlyHandled, List.append_nil]
    exact ⟨hupTo,
      (SameReplica.sendMessageToWaitChan s.kv.server op message.commandIndex).snapIndex.trans hsnap⟩
  | installing message =>
    rw [hphase] at hupTo
    exact hupTo.elim

theorem InTurn.step (h : s.InTurn ar) (hT : s.Tracked ar)
    (hplain : ∀ message ∈ s.received, Plain message) (a : KvAction) : (s.step ar a).InTurn ar := by
  cases a with
  | loop raftStateSize flips => exact h.loopStep hT hplain raftStateSize flips
  | push message => exact ⟨h.upTo, h.snapIndex⟩
  | get key clientId requestId => exact ⟨h.upTo, h.snapIndex⟩
  | putAppend op key value clientId requestId => exact ⟨h.upTo, h.snapIndex⟩
  | handler i a =>
    simp only [KvAudit.step, KvSystem.step]
    split
    · rename_i hd hi
      split
      · rename_i kv hd' hstep
        obtain ⟨next, rfl, hs⟩ := Handler.step_spec hstep
        refine ⟨h.upTo, ?_⟩
        rcases hs.sameReplica with hsame | ⟨-, -, rfl⟩
        · exact hsame.snapIndex.trans h.snapIndex
        · exact h.snapIndex
      · exact h
    · exact h

theorem InTurn.handled_prefix (h : s.InTurn ar) : s.handled <+: opsOf ar s.kv.processed := by
  have hupTo := h.upTo
  cases hphase : s.kv.loop with
  | checking message op =>
    rw [hphase] at hupTo
    obtain ⟨messages, hproc, hhandled⟩ := hupTo
    rw [hproc, hhandled, opsOf, opsOf, List.map_append]
    exact List.prefix_append _ _
  | executing message op =>
    rw [hphase] at hupTo
    obtain ⟨messages, hproc, hhandled⟩ := hupTo
    rw [hproc, hhandled, opsOf, opsOf, List.map_append]
    exact List.prefix_append _ _
  | installing message =>
    rw [hphase] at hupTo
    exact hupTo.elim
  | _ =>
    rw [hphase] at hupTo
    exact hupTo ▸ List.prefix_rfl

end KvAudit
end RaftStorage
