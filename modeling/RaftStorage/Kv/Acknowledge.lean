import RaftStorage.Kv.AtMostOnce

/-! What stands behind an acknowledgement. A record is kept of the entries that the apply loop has
dealt with and of the tables it has installed; every id in the table, every operation in a queue and
every handler that will acknowledge goes back to one of the two. -/

namespace RaftStorage
open Library

def LoopPhase.through : LoopPhase → Option Op
  | .snapshotting _ op => some op
  | .sending _ op => some op
  | _ => none

/-- The handler answers `OK` or `ErrNoKey`, or is about to. -/
def Handler.Acknowledges (h : Handler) : Prop :=
  match h.phase with
  | .executing _ => True
  | .closing _ reply => reply.err ≠ .errWrongLeader
  | .returned reply => reply.err ≠ .errWrongLeader
  | _ => False

theorem KvServer.getSnapShotFromRaft_channels (ar : Archives) (kv : KvServer) (message : ApplyMsg)
    (flips : ℕ → ℕ) :
    (kv.getSnapShotFromRaft ar message flips).waitApplyCh = kv.waitApplyCh ∧
      (kv.getSnapShotFromRaft ar message flips).queues = kv.queues ∧
      (kv.getSnapShotFromRaft ar message flips).queuesMade = kv.queuesMade := by
  simp only [getSnapShotFromRaft, condInstallSnapshot, if_true, readSnapShotToInstall]
  split_ifs <;> exact ⟨rfl, rfl, rfl⟩

structure KvAudit where
  kv : KvSystem
  /-- the entries that were not skipped, once they are executed or found to be duplicates -/
  handled : List Op
  /-- the tables of the snapshots that were installed -/
  installed : List (String → Option ℤ)

namespace KvAudit

variable {ar : Archives} {s s' : KvAudit}

def init (maxRaftState : ℤ) : KvAudit := ⟨KvSystem.init maxRaftState, [], []⟩

def newlyHandled : LoopPhase → List Op
  | .snapshotting _ op => [op]
  | _ => []

def newlyInstalled (ar : Archives) : LoopPhase → List (String → Option ℤ)
  | .installing message =>
    if message.snapshot = "" then [] else [(ar.loadServer message.snapshot).2]
  | _ => []

def step (ar : Archives) (s : KvAudit) (a : KvAction) : KvAudit :=
  let kv := s.kv.step ar a
  match a with
  | .loop _ _ =>
    { kv := kv
      handled := s.handled ++ newlyHandled kv.loop
      installed := s.installed ++ newlyInstalled ar s.kv.loop }
  | _ => { s with kv := kv }

@[simp] theorem step_kv (a : KvAction) : (s.step ar a).kv = s.kv.step ar a := by
  cases a <;> rfl

/-- An entry of the client with this or a later id was dealt with, or a snapshot that records one
was installed. -/
def Covered (s : KvAudit) (clientId : String) (requestId : ℤ) : Prop :=
  (∃ op ∈ s.handled, op.clientId = clientId ∧ requestId ≤ op.requestId) ∨
    ∃ table ∈ s.installed, ∃ last ∈ table clientId, requestId ≤ last

theorem Covered.mono {c : String} {r r' : ℤ} (h : s.Covered c r) (hr : r' ≤ r)
    (hhandled : s.handled ⊆ s'.handled) (hinstalled : s.installed ⊆ s'.installed) :
    s'.Covered c r' := by
  rcases h with ⟨op, hop, hc, hle⟩ | ⟨table, htable, last, hlast, hle⟩
  · exact Or.inl ⟨op, hhandled hop, hc, hr.trans hle⟩
  · exact Or.inr ⟨table, hinstalled htable, last, hlast, hr.trans hle⟩

structure Sourced (s : KvAudit) : Prop where
  table : ∀ c, ∀ r ∈ s.kv.server.lastRequestId c, s.Covered c r
  queued : ∀ op, s.kv.server.Queued op → s.Covered op.clientId op.requestId
  loop : ∀ op ∈ s.kv.loop.through, s.Covered op.clientId op.requestId
  handlers : ∀ h ∈ s.kv.handlers, h.Acknowledges → s.Covered h.op.clientId h.op.requestId

theorem sourced_init (maxRaftState : ℤ) : (init maxRaftState).Sourced where
  table := by simp [init, KvSystem.init, KvServer.init]
  queued := by
    rintro op ⟨q, ops, hq, -⟩
    cases hq
  loop := by simp [init, KvSystem.init, LoopPhase.through]
  handlers := by simp [init, KvSystem.init]

/-! ## Handlers -/

theorem Sourced.handler_acknowledges (hS : s.Sourced) {h : Handler} (hmem : h ∈ s.kv.handlers)
    {a : HandlerAction} {kv' : KvServer} {next : HandlerPhase}
    (hs : HandlerStep s.kv.server h a kv' next)
    (hack : Handler.Acknowledges { h with phase := next }) :
    s.Covered h.op.clientId h.op.requestId := by
  cases hs with
  | started => exact hack.elim
  | refused => exact absurd rfl hack
  | opened => exact hack.elim
  | matched _ popped client request =>
    have hcov := hS.queued _ (KvServer.queued_popWaitChan popped).1
    rwa [client, request] at hcov
  | mismatched => exact absurd rfl hack
  | timedOut => exact hack.elim
  | duplicate _ recorded =>
    obtain ⟨last, hlast, hle⟩ := KvServer.ifRequestDuplicate_iff.mp recorded
    exact (hS.table _ last hlast).mono hle (List.Subset.refl _) (List.Subset.refl _)
  | gaveUp => exact absurd rfl hack
  | executed phase => exact hS.handlers h hmem (by rw [Handler.Acknowledges, phase]; trivial)
  | closed phase => exact hS.handlers h hmem (by rw [Handler.Acknowledges, phase]; exact hack)

theorem Sourced.handler_table (hS : s.Sourced) {h : Handler} (hmem : h ∈ s.kv.handlers)
    {a : HandlerAction} {kv' : KvServer} {next : HandlerPhase}
    (hs : HandlerStep s.kv.server h a kv' next) (c : String) :
    ∀ r ∈ kv'.lastRequestId c, s.Covered c r := by
  intro r hr
  rcases hs.sameReplica with hsame | ⟨-, ⟨i, hphase⟩, rfl⟩
  · rw [hsame.lastRequestId] at hr
    exact hS.table c r hr
  · -- `ExecuteGetOpOnKVDB` writes the handler's own id
    by_cases hc : c = h.op.clientId
    · subst hc
      have hr' : h.op.requestId = r := by simpa [KvServer.setLastRequestId] using hr
      rw [← hr']
      exact hS.handlers h hmem (by rw [Handler.Acknowledges, hphase]; trivial)
    · have hr' : r ∈ s.kv.server.lastRequestId c := by
        simpa [KvServer.setLastRequestId, hc] using hr
      exact hS.table c r hr'

theorem Sourced.handlerStep (hS : s.Sourced) (i : ℕ) (a : HandlerAction) :
    (s.step ar (.handler i a)).Sourced := by
  simp only [step, KvSystem.step]
  cases hi : s.kv.handlers[i]? with
  | none => exact hS
  | some h =>
    have hmem := List.mem_of_getElem? hi
    dsimp only
    cases hstep : h.step s.kv.server a with
    | none => exact hS
    | some out =>
      obtain ⟨kv', h'⟩ := out
      obtain ⟨next, hnext, hs⟩ := Handler.step_spec hstep
      refine ⟨hS.handler_table hmem hs, fun op hop => hS.queued op (hs.queued hop), hS.loop, ?_⟩
      intro h'' hh' hack
      rcases List.mem_or_eq_of_mem_set hh' with hold | rfl
      · exact hS.handlers h'' hold hack
      · rw [hnext] at hack ⊢
        exact hS.handler_acknowledges (h := h) hmem hs hack

/-! ## The apply loop -/

theorem Sourced.keep (hS : s.Sourced) (hhandled : s.handled ⊆ s'.handled)
    (hinstalled : s.installed ⊆ s'.installed) (hhandlers : s'.kv.handlers = s.kv.handlers)
    (htable : ∀ c, ∀ r ∈ s'.kv.server.lastRequestId c,
      r ∈ s.kv.server.lastRequestId c ∨ s'.Covered c r)
    (hqueue : ∀ op, s'.kv.server.Queued op →
      s.kv.server.Queued op ∨ op ∈ s.kv.loop.through)
    (hloop : ∀ op ∈ s'.kv.loop.through, op ∈ s.kv.loop.through ∨ op ∈ s'.handled) :
    s'.Sourced where
  table := by
    intro c r hr
    rcases htable c r hr with hold | hnew
    · exact (hS.table c r hold).mono le_rfl hhandled hinstalled
    · exact hnew
  queued := by
    intro op hop
    rcases hqueue op hop with hold | hthrough
    · exact (hS.queued op hold).mono le_rfl hhandled hinstalled
    · exact (hS.loop op hthrough).mono le_rfl hhandled hinstalled
  loop := by
    intro op hop
    rcases hloop op hop with hold | hnew
    · exact (hS.loop op hold).mono le_rfl hhandled hinstalled
    · exact Or.inl ⟨op, hnew, rfl, le_rfl⟩
  handlers := by
    rw [hhandlers]
    exact fun h hmem hack => (hS.handlers h hmem hack).mono le_rfl hhandled hinstalled

theorem through_afterCommand (message : ApplyMsg) :
    (KvSystem.afterCommand message).through = none := by
  unfold KvSystem.afterCommand
  split_ifs <;> rfl

theorem through_receive (kv : KvServer) (message : ApplyMsg) :
    (KvSystem.receive ar kv message).through = none := by
  unfold KvSystem.receive
  split_ifs
  · exact through_afterCommand message
  · rfl
  · exact through_afterCommand message

theorem covered_executeSet {kv : KvServer} {op : Op} {flips : ℕ} (hop : op ∈ s'.handled)
    (c : String) (r : ℤ) (hr : r ∈ (kv.executeSet op flips).lastRequestId c) :
    r ∈ kv.lastRequestId c ∨ s'.Covered c r := by
  simp only [KvServer.executeSet, KvServer.setLastRequestId] at hr
  by_cases hc : c = op.clientId
  · subst hc
    rw [Function.update_self] at hr
    exact Or.inr (Or.inl ⟨op, hop, rfl, (Option.some.inj hr).ge⟩)
  · rw [Function.update_of_ne hc] at hr
    exact Or.inl hr

theorem Sourced.loopStep (hS : s.Sourced) (raftStateSize : ℤ) (flips : ℕ → ℕ) :
    (s.step ar (.loop raftStateSize flips)).Sourced := by
  have hleft : ∀ {α : Type} (l l' : List α), l ⊆ l ++ l' := fun l l' => List.subset_append_left l l'
  simp only [step, KvSystem.step, KvSystem.loopStep]
  cases hphase : s.kv.loop with
  | popping =>
    dsimp only
    cases hchan : s.kv.applyChan with
    | nil =>
      refine hS.keep (hleft _ _) (hleft _ _) rfl (fun c r => Or.inl) (fun op => Or.inl) ?_
      exact fun op => Or.inl
    | cons message rest =>
      refine hS.keep (hleft _ _) (hleft _ _) rfl (fun c r => Or.inl) (fun op => Or.inl) ?_
      intro op hop
      dsimp only at hop
      rw [through_receive] at hop
      cases hop
  | checking message op =>
    dsimp only
    split_ifs
    · refine hS.keep (hleft _ _) (hleft _ _) rfl (fun c r => Or.inl) (fun op => Or.inl) ?_
      intro op' hop
      obtain rfl := Option.some.inj hop
      exact Or.inr (List.mem_append_right _ (List.mem_singleton_self _))
    · refine hS.keep (hleft _ _) (hleft _ _) rfl (fun c r => Or.inl) (fun op => Or.inl) ?_
      intro op' hop
      cases hop
  | executing message op =>
    have hnew : op ∈ s.handled ++ newlyHandled (.snapshotting message op) :=
      List.mem_append_right _ (List.mem_singleton_self _)
    have hloop : ∀ op' ∈ (LoopPhase.snapshotting message op).through,
        op' ∈ s.kv.loop.through ∨ op' ∈ s.handled ++ newlyHandled (.snapshotting message op) := by
      intro op' hop
      obtain rfl := Option.some.inj hop
      exact Or.inr hnew
    dsimp only
    split_ifs
    · exact hS.keep (hleft _ _) (hleft _ _) rfl (covered_executeSet hnew) (fun op => Or.inl) hloop
    · exact hS.keep (hleft _ _) (hleft _ _) rfl (covered_executeSet hnew) (fun op => Or.inl) hloop
    · exact hS.keep (hleft _ _) (hleft _ _) rfl (fun c r => Or.inl) (fun op => Or.inl) hloop
  | snapshotting message op =>
    refine hS.keep (hleft _ _) (hleft _ _) rfl (fun c r => Or.inl) (fun op => Or.inl) ?_
    intro op' hop
    rw [hphase]
    exact Or.inl hop
  | sending message op =>
    refine hS.keep (hleft _ _) (hleft _ _) rfl (fun c r hr => Or.inl ?_) ?_ ?_
    · have hsame := SameReplica.sendMessageToWaitChan s.kv.server op message.commandIndex
      exact hsame.lastRequestId ▸ hr
    · intro op' hop
      rw [hphase]
      rcases KvServer.queued_sendMessageToWaitChan hop with hold | rfl
      · exact Or.inl hold
      · exact Or.inr rfl
    · intro op' hop
      dsimp only at hop
      rw [through_afterCommand] at hop
      cases hop
  | installing message =>
    refine hS.keep (hleft _ _) (hleft _ _) rfl ?_ (fun op hop => Or.inl ?_) (fun op hop => ?_)
    · intro c r hr
      simp only [KvServer.getSnapShotFromRaft, KvServer.condInstallSnapshot, if_true,
        KvServer.readSnapShotToInstall] at hr
      split_ifs at hr with hempty
      · exact Or.inl hr
      · refine Or.inr (Or.inr ⟨(ar.loadServer message.snapshot).2, ?_, r, hr, le_rfl⟩)
        simp [newlyInstalled, hempty]
    · obtain ⟨-, hqueues, -⟩ := s.kv.server.getSnapShotFromRaft_channels ar message flips
      obtain ⟨q, ops, hq, hmem⟩ := hop
      exact ⟨q, ops, hqueues ▸ hq, hmem⟩
    · cases hop

theorem Sourced.step (hS : s.Sourced) (a : KvAction) : (s.step ar a).Sourced := by
  have hcall : ∀ (rpc : Rpc) (op : Op), Sourced { s with
      kv := { s.kv with handlers := s.kv.handlers ++ [⟨rpc, op, .called⟩] } } := by
    intro rpc op
    refine ⟨hS.table, hS.queued, hS.loop, fun h hmem hack => ?_⟩
    rcases List.mem_append.mp hmem with hold | hnew
    · exact hS.handlers h hold hack
    · obtain rfl := List.mem_singleton.mp hnew
      exact hack.elim
  cases a with
  | push message => exact ⟨hS.table, hS.queued, hS.loop, hS.handlers⟩
  | loop raftStateSize flips => exact hS.loopStep raftStateSize flips
  | get key clientId requestId => exact hcall _ _
  | putAppend op key value clientId requestId => exact hcall _ _
  | handler i a => exact hS.handlerStep i a

end KvAudit
end RaftStorage
