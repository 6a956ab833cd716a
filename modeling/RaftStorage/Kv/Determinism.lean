import RaftStorage.Kv.Threads

/-! The replicated part of a server as a function of the messages it has processed. `Replica` says
what a message is meant to do to the contents, the table of request ids and the snapshot position;
the apply loop does it, step by step, as long as no handler writes the table. -/

namespace RaftStorage
open Library SkipList

structure Replica where
  contents : List (String × String)
  lastRequestId : String → Option ℤ
  snapIndex : ℤ

namespace Replica

def empty : Replica := ⟨[], fun _ => none, 0⟩

def Duplicate (r : Replica) (op : Op) : Prop :=
  ∃ last ∈ r.lastRequestId op.clientId, op.requestId ≤ last

instance (r : Replica) (op : Op) : Decidable (r.Duplicate op) :=
  inferInstanceAs (Decidable (∃ last ∈ r.lastRequestId op.clientId, op.requestId ≤ last))

def command (ar : Archives) (r : Replica) (message : ApplyMsg) : Replica :=
  let op := ar.parseOp message.command
  if message.commandValid = true ∧ r.snapIndex < message.commandIndex ∧ ¬r.Duplicate op ∧
      (op.operation = "Put" ∨ op.operation = "Append") then
    { r with
      contents := upsert r.contents op.key op.value
      lastRequestId := Function.update r.lastRequestId op.clientId (some op.requestId) }
  else r

/-- The keys that are not there yet are added, each with itself as its value. -/
def load (ar : Archives) (contents : List (String × String)) (dumpStr : String) :
    List (String × String) :=
  if dumpStr = "" then contents
  else (ar.loadDump dumpStr).1.foldl
    (fun kvs key => if key ∈ kvs.map Prod.fst then kvs else upsert kvs key key) contents

def install (ar : Archives) (r : Replica) (message : ApplyMsg) : Replica :=
  if message.snapshotValid = false then r
  else if message.snapshot = "" then { r with snapIndex := message.snapshotIndex }
  else
    { contents := load ar r.contents (ar.loadServer message.snapshot).1
      lastRequestId := (ar.loadServer message.snapshot).2
      snapIndex := message.snapshotIndex }

def replay (ar : Archives) (messages : List ApplyMsg) : Replica :=
  messages.foldl (fun r message => (r.command ar message).install ar message) empty

theorem replay_concat (ar : Archives) (messages : List ApplyMsg) (message : ApplyMsg) :
    replay ar (messages ++ [message]) =
      ((replay ar messages).command ar message).install ar message := by
  simp [replay]

end Replica

structure Mirrors (kv : KvServer) (r : Replica) : Prop where
  skipList : Represents kv.skipList r.contents
  lastRequestId : kv.lastRequestId = r.lastRequestId
  snapIndex : kv.lastSnapShotRaftLogIndex = r.snapIndex

namespace Mirrors

variable {ar : Archives} {kv kv' : KvServer} {r : Replica} {message : ApplyMsg} {op : Op}

theorem init (maxRaftState : ℤ) : Mirrors (KvServer.init maxRaftState) Replica.empty :=
  ⟨represents_create 6, rfl, rfl⟩

theorem same (h : Mirrors kv r) (hs : SameReplica kv kv') : Mirrors kv' r :=
  ⟨hs.skipList ▸ h.skipList, hs.lastRequestId.trans h.lastRequestId,
    hs.snapIndex.trans h.snapIndex⟩

theorem duplicate_iff (h : Mirrors kv r) :
    kv.ifRequestDuplicate op.clientId op.requestId = true ↔ r.Duplicate op := by
  rw [KvServer.ifRequestDuplicate_iff, h.lastRequestId]
  rfl

theorem executeSet (h : Mirrors kv r) (op : Op) (flips : ℕ) :
    Mirrors (kv.executeSet op flips)
      { r with
        contents := upsert r.contents op.key op.value
        lastRequestId := Function.update r.lastRequestId op.clientId (some op.requestId) } where
  skipList := h.skipList.insertSet op.key op.value flips
  lastRequestId := by
    rw [← h.lastRequestId]
    rfl
  snapIndex := h.snapIndex

theorem loadFile {l : SkipList String String} {kvs : List (String × String)}
    (h : Represents l kvs) (dumpStr : String) (flips : ℕ → ℕ) :
    Represents (KvServer.loadFile ar l dumpStr flips) (Replica.load ar kvs dumpStr) := by
  unfold KvServer.loadFile Replica.load
  split_ifs
  · exact h
  · generalize (ar.loadDump dumpStr).1 = keys
    generalize 0 = k
    induction keys generalizing l kvs k with
    | nil => exact h
    | cons key keys ih =>
      rw [List.zipIdx_cons, List.foldl_cons, List.foldl_cons]
      exact ih (h.insert key key (flips k)) (k + 1)

theorem getSnapShotFromRaft (h : Mirrors kv r) (hvalid : message.snapshotValid = true)
    (flips : ℕ → ℕ) :
    Mirrors (kv.getSnapShotFromRaft ar message flips) (r.install ar message) := by
  unfold KvServer.getSnapShotFromRaft KvServer.condInstallSnapshot
    KvServer.readSnapShotToInstall Replica.install
  simp only [hvalid, if_true, Bool.true_eq_false, if_false]
  split_ifs
  · exact ⟨h.skipList, h.lastRequestId, rfl⟩
  · exact ⟨loadFile h.skipList _ flips, rfl, rfl⟩

end Mirrors

namespace KvSystem

variable {ar : Archives} {s s' : KvSystem} {r : Replica}

structure Amid (ar : Archives) (messages : List ApplyMsg) (message : ApplyMsg) (op : Op)
    (s : KvSystem) : Prop where
  processed : s.processed = messages ++ [message]
  valid : message.commandValid = true
  newer : (Replica.replay ar messages).snapIndex < message.commandIndex
  op : op = ar.parseOp message.command

def Follows (ar : Archives) (s : KvSystem) : Prop :=
  match s.loop with
  | .popping => Mirrors s.server (Replica.replay ar s.processed)
  | .checking message op => ∃ messages, Amid ar messages message op s ∧
      Mirrors s.server (Replica.replay ar messages)
  | .executing message op => ∃ messages, Amid ar messages message op s ∧
      Mirrors s.server (Replica.replay ar messages) ∧
      ¬(Replica.replay ar messages).Duplicate op
  | .snapshotting message _ => ∃ messages, s.processed = messages ++ [message] ∧
      Mirrors s.server ((Replica.replay ar messages).command ar message)
  | .sending message _ => ∃ messages, s.processed = messages ++ [message] ∧
      Mirrors s.server ((Replica.replay ar messages).command ar message)
  | .installing message => ∃ messages, s.processed = messages ++ [message] ∧
      message.snapshotValid = true ∧
      Mirrors s.server ((Replica.replay ar messages).command ar message)

theorem follows_init (maxRaftState : ℤ) : (init maxRaftState).Follows ar := Mirrors.init _

theorem follows_afterCommand {messages : List ApplyMsg} {message : ApplyMsg}
    (hloop : s.loop = afterCommand message) (hproc : s.processed = messages ++ [message])
    (hm : Mirrors s.server ((Replica.replay ar messages).command ar message)) : s.Follows ar := by
  unfold Follows
  rw [hloop, afterCommand]
  cases hvalid : message.snapshotValid with
  | true => exact ⟨messages, hproc, hvalid, hm⟩
  | false =>
    have hskip : ((Replica.replay ar messages).command ar message).install ar message =
        (Replica.replay ar messages).command ar message := by simp [Replica.install, hvalid]
    simp only [Bool.false_eq_true, if_false]
    rw [hproc, Replica.replay_concat, hskip]
    exact hm

theorem command_of_not_fresh {message : ApplyMsg} (h : message.commandValid = true →
    message.commandIndex ≤ r.snapIndex) : r.command ar message = r := by
  unfold Replica.command
  refine if_neg ?_
  rintro ⟨hvalid, hlt, -⟩
  have := h hvalid
  omega

theorem Follows.pop {message : ApplyMsg} {rest : List ApplyMsg}
    (h : Mirrors s.server (Replica.replay ar s.processed)) :
    Follows ar { s with
      applyChan := rest
      processed := s.processed ++ [message]
      loop := receive ar s.server message } := by
  have hskip : (message.commandValid = true →
      message.commandIndex ≤ s.server.lastSnapShotRaftLogIndex) →
      Mirrors s.server ((Replica.replay ar s.processed).command ar message) := by
    intro hold
    rw [command_of_not_fresh (h.snapIndex ▸ hold)]
    exact h
  cases hvalid : message.commandValid with
  | true =>
    by_cases hidx : message.commandIndex ≤ s.server.lastSnapShotRaftLogIndex
    · refine follows_afterCommand ?_ rfl (hskip fun _ => hidx)
      simp [receive, hvalid, hidx]
    · have hloop : receive ar s.server message = .checking message (ar.parseOp message.command) := by
        simp [receive, hvalid, hidx]
      rw [hloop]
      rw [h.snapIndex, not_le] at hidx
      exact ⟨s.processed, ⟨rfl, hvalid, hidx, rfl⟩, h⟩
  | false =>
    refine follows_afterCommand ?_ rfl (hskip fun hcmd => ?_)
    · simp [receive, hvalid]
    · simp [hvalid] at hcmd

theorem Follows.check {message : ApplyMsg} {op : Op} {messages : List ApplyMsg}
    (ha : Amid ar messages message op s) (hm : Mirrors s.server (Replica.replay ar messages)) :
    Follows ar (if s.server.ifRequestDuplicate op.clientId op.requestId then
      { s with loop := .snapshotting message op } else { s with loop := .executing message op }) := by
  split_ifs with hdup
  · refine ⟨messages, ha.processed, ?_⟩
    have hskip : (Replica.replay ar messages).command ar message = Replica.replay ar messages := by
      unfold Replica.command
      refine if_neg fun hc => hc.2.2.1 ?_
      rw [← ha.op]
      exact hm.duplicate_iff.mp hdup
    rw [hskip]
    exact hm
  · exact ⟨messages, ⟨ha.processed, ha.valid, ha.newer, ha.op⟩, hm, fun hd =>
      hdup (hm.duplicate_iff.mpr hd)⟩

theorem Follows.execute {message : ApplyMsg} {op : Op} {messages : List ApplyMsg} {kv : KvServer}
    {executed : List Op} (flips : ℕ) (ha : Amid ar messages message op s)
    (hm : Mirrors s.server (Replica.replay ar messages))
    (hnew : ¬(Replica.replay ar messages).Duplicate op)
    (hkv : (op.operation = "Put" ∨ op.operation = "Append") ∧ kv = s.server.executeSet op flips ∨
      ¬(op.operation = "Put" ∨ op.operation = "Append") ∧ kv = s.server) :
    Follows ar { s with server := kv, executed := executed, loop := .snapshotting message op } := by
  refine ⟨messages, ha.processed, ?_⟩
  have hop := ha.op
  subst hop
  unfold Replica.command
  rcases hkv with ⟨hset, rfl⟩ | ⟨hother, rfl⟩
  · rw [if_pos ⟨ha.valid, ha.newer, hnew, hset⟩]
    exact hm.executeSet _ flips
  · rw [if_neg fun hc => hother hc.2.2.2]
    exact hm

theorem Follows.loopStep (h : s.Follows ar) (raftStateSize : ℤ) (flips : ℕ → ℕ) :
    (s.loopStep ar raftStateSize flips).Follows ar := by
  unfold KvSystem.loopStep
  cases hloop : s.loop with
  | popping =>
    simp only [Follows, hloop] at h
    cases hchan : s.applyChan with
    | nil => simpa only [Follows, hloop] using h
    | cons message rest => exact Follows.pop h
  | checking message op =>
    simp only [Follows, hloop] at h
    obtain ⟨messages, ha, hm⟩ := h
    exact Follows.check ha hm
  | executing message op =>
    simp only [Follows, hloop] at h
    obtain ⟨messages, ha, hm, hnew⟩ := h
    dsimp only
    split_ifs with hput happend
    · exact Follows.execute _ ha hm hnew (Or.inl ⟨Or.inl hput, rfl⟩)
    · exact Follows.execute _ ha hm hnew (Or.inl ⟨Or.inr happend, rfl⟩)
    · exact Follows.execute 0 ha hm hnew
        (Or.inr ⟨not_or.mpr ⟨hput, happend⟩, rfl⟩)
  | snapshotting message op =>
    simp only [Follows, hloop] at h
    exact h
  | sending message op =>
    simp only [Follows, hloop] at h
    obtain ⟨messages, hproc, hm⟩ := h
    exact follows_afterCommand rfl hproc (hm.same (SameReplica.sendMessageToWaitChan _ _ _))
  | installing message =>
    simp only [Follows, hloop] at h
    obtain ⟨messages, hproc, hvalid, hm⟩ := h
    change Mirrors _ (Replica.replay ar s.processed)
    rw [hproc, Replica.replay_concat]
    exact hm.getSnapShotFromRaft hvalid flips

theorem Follows.same (h : s.Follows ar) (hloop : s'.loop = s.loop)
    (hproc : s'.processed = s.processed) (hs : SameReplica s.server s'.server) : s'.Follows ar := by
  unfold Follows at h ⊢
  rw [hloop]
  cases hl : s.loop with
  | popping =>
    rw [hl] at h
    rw [hproc]
    exact h.same hs
  | checking message op =>
    rw [hl] at h
    obtain ⟨messages, ha, hm⟩ := h
    exact ⟨messages, ⟨hproc.trans ha.processed, ha.valid, ha.newer, ha.op⟩, hm.same hs⟩
  | executing message op =>
    rw [hl] at h
    obtain ⟨messages, ha, hm, hnew⟩ := h
    exact ⟨messages, ⟨hproc.trans ha.processed, ha.valid, ha.newer, ha.op⟩, hm.same hs, hnew⟩
  | snapshotting message op =>
    rw [hl] at h
    obtain ⟨messages, hm, hmir⟩ := h
    exact ⟨messages, hproc.trans hm, hmir.same hs⟩
  | sending message op =>
    rw [hl] at h
    obtain ⟨messages, hm, hmir⟩ := h
    exact ⟨messages, hproc.trans hm, hmir.same hs⟩
  | installing message =>
    rw [hl] at h
    obtain ⟨messages, hm, hvalid, hmir⟩ := h
    exact ⟨messages, hproc.trans hm, hvalid, hmir.same hs⟩

/-- A `Get` handler that executes finds its own request in the table. -/
def Recorded (s : KvSystem) (a : KvAction) : Prop :=
  match a with
  | .handler i .executeGet =>
    ∀ h ∈ s.handlers[i]?, h.isExecuting = true →
      s.server.lastRequestId h.op.clientId = some h.op.requestId
  | _ => True

instance Recorded.decidable (s : KvSystem) : ∀ a, Decidable (Recorded s a)
  | .handler i .executeGet =>
    inferInstanceAs (Decidable (∀ h ∈ s.handlers[i]?, h.isExecuting = true →
      s.server.lastRequestId h.op.clientId = some h.op.requestId))
  | .handler _ (.start _) | .handler _ .openWaitChan | .handler _ .pop | .handler _ (.timeOut _)
  | .handler _ .ifRequestDuplicate | .handler _ .closeWaitChan | .push _ | .loop _ _
  | .get _ _ _ | .putAppend _ _ _ _ _ => inferInstanceAs (Decidable True)

theorem Follows.step (h : s.Follows ar) {a : KvAction} (ha : Recorded s a) :
    (s.step ar a).Follows ar := by
  cases a with
  | push message => exact h.same rfl rfl (SameReplica.refl _)
  | loop raftStateSize flips => exact h.loopStep raftStateSize flips
  | get key clientId requestId => exact h.same rfl rfl (SameReplica.refl _)
  | putAppend op key value clientId requestId => exact h.same rfl rfl (SameReplica.refl _)
  | handler i a =>
    simp only [KvSystem.step]
    split
    · rename_i hd hi
      split
      · rename_i kv hd' hstep
        obtain ⟨next, rfl, hs⟩ := Handler.step_spec hstep
        refine h.same rfl rfl ?_
        rcases hs.sameReplica with hsame | ⟨rfl, ⟨j, hphase⟩, rfl⟩
        · exact hsame
        · have hlast := ha hd hi (by simp [Handler.isExecuting, hphase])
          refine ⟨rfl, ?_, rfl⟩
          exact (congrArg _ hlast.symm).trans (Function.update_eq_self _ _)
      · exact h
    · exact h

theorem follows_runOf {maxRaftState : ℤ} {acts : List KvAction}
    (h : Along (step ar) Recorded (init maxRaftState) acts) : (runOf ar maxRaftState acts).Follows ar :=
  run_invariant_along (follows_init maxRaftState) (fun _ _ hs ha => hs.step ha) h

theorem replicas_agree (ar : Archives) {m₁ m₂ : ℤ} {acts₁ acts₂ : List KvAction}
    (h₁ : Along (step ar) Recorded (init m₁) acts₁) (h₂ : Along (step ar) Recorded (init m₂) acts₂)
    (hidle₁ : (runOf ar m₁ acts₁).loop = .popping) (hidle₂ : (runOf ar m₂ acts₂).loop = .popping)
    (hsame : (runOf ar m₁ acts₁).processed = (runOf ar m₂ acts₂).processed) :
    (runOf ar m₁ acts₁).server.skipList.dump = (runOf ar m₂ acts₂).server.skipList.dump ∧
    (∀ key, (runOf ar m₁ acts₁).server.skipList.searchElement key =
      (runOf ar m₂ acts₂).server.skipList.searchElement key) ∧
    (runOf ar m₁ acts₁).server.lastRequestId = (runOf ar m₂ acts₂).server.lastRequestId := by
  have hm₁ := follows_runOf h₁
  have hm₂ := follows_runOf h₂
  simp only [Follows, hidle₁] at hm₁
  simp only [Follows, hidle₂, ← hsame] at hm₂
  refine ⟨?_, fun key => ?_, ?_⟩
  · rw [hm₁.skipList.dump, hm₂.skipList.dump]
  · rw [hm₁.skipList.search, hm₂.skipList.search]
  · rw [hm₁.lastRequestId, hm₂.lastRequestId]

def getMessage : ApplyMsg where
  commandValid := true
  command := "22 serialization::archive 17 0 0 3 Get 1 k 0  1 c 1"
  commandIndex := 1

def putMessage : ApplyMsg where
  commandValid := true
  command := "22 serialization::archive 17 0 0 3 Put 1 k 1 v 1 c 2"
  commandIndex := 2

def applied (message : ApplyMsg) (flips : ℕ) : List KvAction :=
  .push message :: List.replicate 5 (.loop 0 fun _ => flips)

theorem replicas_agree_putMessage :
    let alone := applied getMessage 0 ++ applied putMessage 0
    let serving := applied getMessage 0 ++ [.putAppend "Put" "k" "v" "c" 2,
      .handler 0 (.start (some 2)), .handler 0 .openWaitChan] ++ applied putMessage 3 ++
      [.handler 0 .pop, .handler 0 .closeWaitChan]
    (runOf textArchives (-1) serving).server.skipList.dump = [("k", "v")] ∧
    (runOf textArchives (-1) alone).server.skipList.dump =
      (runOf textArchives (-1) serving).server.skipList.dump :=
  ⟨by decide +kernel, (replicas_agree textArchives (by decide +kernel) (by decide +kernel)
    (by decide +kernel) (by decide +kernel) (by decide +kernel)).1⟩

/-- The server that answers the `Get` records it; a server that only applies the entry does not. -/
theorem get_handler_diverges :
    ¬∀ (ar : Archives) (m₁ m₂ : ℤ) (acts₁ acts₂ : List KvAction),
      (runOf ar m₁ acts₁).loop = .popping → (runOf ar m₂ acts₂).loop = .popping →
      (runOf ar m₁ acts₁).processed = (runOf ar m₂ acts₂).processed →
      (runOf ar m₁ acts₁).server.skipList.dump = (runOf ar m₂ acts₂).server.skipList.dump ∧
      (runOf ar m₁ acts₁).server.lastRequestId = (runOf ar m₂ acts₂).server.lastRequestId := by
  intro h
  have hboth := h textArchives (-1) (-1)
    ([.get "k" "c" 1, .handler 0 (.start (some 1)), .handler 0 .openWaitChan] ++
      applied getMessage 0 ++ [.handler 0 .pop, .handler 0 .executeGet])
    (applied getMessage 0) (by decide +kernel) (by decide +kernel) (by decide +kernel)
  exact absurd (congrFun hboth.2 "c") (by decide +kernel)

end KvSystem
end RaftStorage
