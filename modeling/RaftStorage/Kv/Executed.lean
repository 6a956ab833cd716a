import RaftStorage.Kv.Clerks

/-! Every write that the apply loop is through with was executed, also when late `Get` handlers take
the table back: the filter skips an operation only behind an entry of its client that is no older,
and sequential clerks have then put the operation itself into the log before. -/

namespace RaftStorage
open Library

def Seen (ops : List Op) (c : String) (r : ℤ) : Prop :=
  ∃ op ∈ ops, op.clientId = c ∧ r ≤ op.requestId

theorem Seen.mono {ops ops' : List Op} {c : String} {r : ℤ} (h : Seen ops c r) (hsub : ops ⊆ ops') :
    Seen ops' c r := by
  obtain ⟨op, hop, hclient, hle⟩ := h
  exact ⟨op, hsub hop, hclient, hle⟩

def Handler.Grounded (ops : List Op) (h : Handler) : Prop :=
  match h.phase with
  | .executing _ => Seen ops h.op.clientId h.op.requestId
  | .closing _ reply => reply.err ≠ .errWrongLeader → Seen ops h.op.clientId h.op.requestId
  | .returned reply => reply.err ≠ .errWrongLeader → Seen ops h.op.clientId h.op.requestId
  | _ => True

theorem Handler.Grounded.mono {ops ops' : List Op} {h : Handler} (hg : h.Grounded ops)
    (hsub : ops ⊆ ops') : h.Grounded ops' := by
  unfold Grounded at hg ⊢
  cases hp : h.phase with
  | executing i =>
    rw [hp] at hg
    exact hg.mono hsub
  | closing i reply =>
    rw [hp] at hg
    exact fun herr => (hg herr).mono hsub
  | returned reply =>
    rw [hp] at hg
    exact fun herr => (hg herr).mono hsub
  | _ => trivial

theorem HandlerStep.grounded {kv kv' : KvServer} {h : Handler} {a : HandlerAction}
    {next : HandlerPhase} {ops : List Op} (hs : HandlerStep kv h a kv' next) (hg : h.Grounded ops)
    (hrec : ∀ c, ∀ r ∈ kv.lastRequestId c, Seen ops c r) (hqueue : ∀ op, kv.Queued op → op ∈ ops) :
    Handler.Grounded ops { h with phase := next } := by
  unfold Handler.Grounded at hg ⊢
  cases hs with
  | started => trivial
  | refused => exact fun herr => (herr rfl).elim
  | opened => trivial
  | matched phase popped client request outcome =>
    have hseen : Seen ops h.op.clientId h.op.requestId :=
      ⟨_, hqueue _ (KvServer.queued_popWaitChan popped).1, client, request.ge⟩
    rcases outcome with ⟨-, rfl⟩ | ⟨-, rfl⟩
    · exact hseen
    · exact fun _ => hseen
  | mismatched => exact fun herr => (herr rfl).elim
  | timedOut => trivial
  | duplicate phase recorded outcome =>
    obtain ⟨r, hr, hle⟩ := KvServer.ifRequestDuplicate_iff.mp recorded
    obtain ⟨op, hop, hclient, hle'⟩ := hrec _ r hr
    have hseen : Seen ops h.op.clientId h.op.requestId := ⟨op, hop, hclient, hle.trans hle'⟩
    rcases outcome with ⟨-, rfl⟩ | ⟨-, rfl⟩
    · exact hseen
    · exact fun _ => hseen
  | gaveUp => exact fun herr => (herr rfl).elim
  | executed phase =>
    rw [phase] at hg
    exact fun _ => hg
  | closed phase =>
    rw [phase] at hg
    exact hg

namespace KvSystem

variable {ar : Archives} {s s' : KvSystem}

def LoopAt (ar : Archives) (s : KvSystem) : Prop :=
  match s.loop with
  | .popping => True
  | .checking message op => s.processed.getLast? = some message ∧ op = ar.parseOp message.command
  | .executing message op => s.processed.getLast? = some message ∧ op = ar.parseOp message.command
  | .snapshotting message op => s.processed.getLast? = some message ∧
      op = ar.parseOp message.command
  | .sending message op => s.processed.getLast? = some message ∧ op = ar.parseOp message.command
  | .installing _ => False

structure Executing (ar : Archives) (s : KvSystem) : Prop where
  plain : ∀ message ∈ s.processed ++ s.applyChan, Plain message
  snapIndex : s.server.lastSnapShotRaftLogIndex = 0
  loop : s.LoopAt ar
  recorded : ∀ c, ∀ r ∈ s.server.lastRequestId c, Seen (s.settled ar) c r
  queued : ∀ op, s.server.Queued op → op ∈ s.settled ar
  handlers : ∀ h ∈ s.handlers, h.Grounded (s.settled ar)
  executed : ∀ op ∈ s.settled ar, op.isWrite → op ∈ s.executed

theorem executing_init (maxRaftState : ℤ) : (init maxRaftState).Executing ar where
  plain := by simp [init]
  snapIndex := rfl
  loop := trivial
  recorded := by simp [init, KvServer.init]
  queued := by
    rintro op ⟨q, ops, hq, -⟩
    cases hq
  handlers := by simp [init]
  executed := by simp [settled, init, ops]

theorem Executing.keep (h : s.Executing ar)
    (hplain : s'.processed ++ s'.applyChan = s.processed ++ s.applyChan)
    (hsnap : s'.server.lastSnapShotRaftLogIndex = s.server.lastSnapShotRaftLogIndex)
    (hloop : s'.LoopAt ar) (hset : s.settled ar ⊆ s'.settled ar)
    (hrec : ∀ c, ∀ r ∈ s'.server.lastRequestId c,
      r ∈ s.server.lastRequestId c ∨ Seen (s'.settled ar) c r)
    (hqueue : ∀ op, s'.server.Queued op → s.server.Queued op ∨ op ∈ s'.settled ar)
    (hhand : ∀ hd ∈ s'.handlers, hd ∈ s.handlers ∨ hd.Grounded (s'.settled ar))
    (hexec : s.executed ⊆ s'.executed)
    (hnew : ∀ op ∈ s'.settled ar, op.isWrite → op ∈ s.settled ar ∨ op ∈ s'.executed) :
    s'.Executing ar where
  plain := hplain ▸ h.plain
  snapIndex := hsnap.trans h.snapIndex
  loop := hloop
  recorded := fun c r hr => (hrec c r hr).elim (fun hold => (h.recorded c r hold).mono hset) id
  queued := fun op hop => (hqueue op hop).elim (fun hold => hset (h.queued op hold)) id
  handlers := fun hd hmem => (hhand hd hmem).elim (fun hold => (h.handlers hd hold).mono hset) id
  executed := fun op hop hw =>
    (hnew op hop hw).elim (fun hold => hexec (h.executed op hold hw)) id

theorem Executing.keep_settled (h : s.Executing ar)
    (hplain : s'.processed ++ s'.applyChan = s.processed ++ s.applyChan)
    (hrep : SameReplica s.server s'.server) (hloop : s'.LoopAt ar)
    (hset : s'.settled ar = s.settled ar)
    (hqueue : ∀ op, s'.server.Queued op → s.server.Queued op ∨ op ∈ s'.settled ar)
    (hhand : s'.handlers = s.handlers) (hexec : s'.executed = s.executed) : s'.Executing ar := by
  refine h.keep hplain hrep.snapIndex hloop (hset ▸ List.Subset.refl _) ?_ hqueue ?_ ?_ ?_
  · rw [hrep.lastRequestId]
    exact fun c r hr => Or.inl hr
  · rw [hhand]
    exact fun hd hmem => Or.inl hmem
  · exact hexec ▸ List.Subset.refl _
  · exact fun op hop _ => Or.inl (hset ▸ hop)

theorem Executing.settle (h : s.Executing ar) {message : ApplyMsg}
    (hlast : s.processed.getLast? = some message)
    (hsettled : s.settled ar = ops ar s.processed.dropLast) {server : KvServer} {executed : List Op}
    (hsnap : server.lastSnapShotRaftLogIndex = s.server.lastSnapShotRaftLogIndex)
    (hrec : ∀ c, ∀ r ∈ server.lastRequestId c, r ∈ s.server.lastRequestId c ∨
      (c, r) = (ar.parseOp message.command).request)
    (hqueue : ∀ op, server.Queued op → s.server.Queued op) (hexec : s.executed ⊆ executed)
    (hnew : (ar.parseOp message.command).isWrite →
      ar.parseOp message.command ∈ s.settled ar ∨ ar.parseOp message.command ∈ executed) :
    Executing ar { s with
      server := server
      executed := executed
      loop := .snapshotting message (ar.parseOp message.command) } := by
  have hlist : ops ar s.processed = s.settled ar ++ [ar.parseOp message.command] := by
    rw [hsettled]
    exact ops_getLast hlast
  have hlater : ∀ op ∈ ops ar s.processed,
      op ∈ s.settled ar ∨ op = ar.parseOp message.command := by
    intro op hop
    rw [hlist] at hop
    simpa using hop
  refine h.keep rfl hsnap ⟨hlast, rfl⟩ ?_ ?_ (fun op hop => Or.inl (hqueue op hop))
    (fun hd hmem => Or.inl hmem) hexec ?_
  · change _ ⊆ ops ar s.processed
    rw [hlist]
    exact List.subset_append_left _ _
  · intro c r hr
    rcases hrec c r hr with hold | heq
    · exact Or.inl hold
    · obtain ⟨rfl, rfl⟩ := Prod.mk.inj heq
      exact Or.inr ⟨_, parseOp_mem hlast, rfl, le_rfl⟩
  · intro op hop hw
    rcases hlater op hop with hold | rfl
    · exact Or.inl hold
    · exact hnew hw

theorem Executing.pop (h : s.Executing ar) (hloop : s.loop = .popping) {message : ApplyMsg}
    {rest : List ApplyMsg} (hchan : s.applyChan = message :: rest) :
    Executing ar { s with
      applyChan := rest
      processed := s.processed ++ [message]
      loop := receive ar s.server message } := by
  rw [(h.plain message (by simp [hchan])).receive h.snapIndex]
  exact h.keep_settled (by simp [hchan]) (SameReplica.refl _) ⟨by simp, rfl⟩
    (by simp [settled, hloop]) (fun op hop => Or.inl hop) rfl rfl

theorem Executing.check (h : s.Executing ar) (hseq : Sequential (ops ar s.processed))
    {message : ApplyMsg} {op : Op} (hloop : s.loop = .checking message op) :
    Executing ar (if s.server.ifRequestDuplicate op.clientId op.requestId then
      { s with loop := .snapshotting message op } else { s with loop := .executing message op }) := by
  have hok := h.loop
  simp only [LoopAt, hloop] at hok
  obtain ⟨hlast, rfl⟩ := hok
  have hsettled : s.settled ar = ops ar s.processed.dropLast := by simp [settled, hloop]
  split_ifs with hdup
  · obtain ⟨r, hr, hle⟩ := KvServer.ifRequestDuplicate_iff.mp hdup
    obtain ⟨seen, hseen, hclient, hle'⟩ := h.recorded _ r hr
    rw [ops_getLast hlast, ← hsettled] at hseq
    have hmem := hseq.mem_of_later hseen hclient (hle.trans hle')
    exact h.settle hlast hsettled rfl (fun c r hr => Or.inl hr) (fun op hop => hop)
      (List.Subset.refl _) fun _ => Or.inl hmem
  · exact h.keep_settled rfl (SameReplica.refl _) ⟨hlast, rfl⟩ hsettled.symm
      (fun op hop => Or.inl hop) rfl rfl

theorem Executing.execute (h : s.Executing ar) {message : ApplyMsg} {op : Op}
    (hloop : s.loop = .executing message op) (flips : ℕ) :
    Executing ar { s with
      server := s.server.executeSet op flips
      executed := s.executed ++ [op]
      loop := .snapshotting message op } := by
  have hok := h.loop
  simp only [LoopAt, hloop] at hok
  obtain ⟨hlast, rfl⟩ := hok
  refine h.settle hlast (by simp [settled, hloop]) rfl ?_ (fun op hop => hop)
    (List.subset_append_left _ _) fun _ => Or.inr (by simp)
  exact fun c r hr => KvServer.mem_setLastRequestId hr

theorem Executing.loopStep (h : s.Executing ar) (hseq : Sequential (ops ar s.processed))
    (raftStateSize : ℤ) (flips : ℕ → ℕ) : (s.loopStep ar raftStateSize flips).Executing ar := by
  have hok := h.loop
  unfold KvSystem.loopStep
  cases hloop : s.loop with
  | popping =>
    cases hchan : s.applyChan with
    | nil => exact h
    | cons message rest => exact h.pop hloop hchan
  | checking message op => exact h.check hseq hloop
  | executing message op =>
    dsimp only
    split_ifs with hput happend
    · exact h.execute hloop (flips 0)
    · exact h.execute hloop (flips 0)
    · simp only [LoopAt, hloop] at hok
      obtain ⟨hlast, rfl⟩ := hok
      exact h.settle hlast (by simp [settled, hloop]) rfl (fun c r hr => Or.inl hr)
        (fun op hop => hop) (List.Subset.refl _) fun hw => (not_or.mpr ⟨hput, happend⟩ hw).elim
  | snapshotting message op =>
    simp only [LoopAt, hloop] at hok
    have hsettled : s.settled ar = ops ar s.processed := by simp [settled, hloop]
    exact h.keep_settled rfl (SameReplica.refl _) hok hsettled.symm (fun op hop => Or.inl hop)
      rfl rfl
  | sending message op =>
    simp only [LoopAt, hloop] at hok
    obtain ⟨hlast, rfl⟩ := hok
    have hsettled : s.settled ar = ops ar s.processed := by simp [settled, hloop]
    have hpop := (h.plain message (List.mem_append_left _ (List.mem_of_getLast? hlast))).afterCommand
    have hrep := SameReplica.sendMessageToWaitChan s.server (ar.parseOp message.command)
      message.commandIndex
    dsimp only
    rw [hpop]
    refine h.keep_settled rfl hrep trivial hsettled.symm (fun op hop => ?_) rfl rfl
    rcases KvServer.queued_sendMessageToWaitChan hop with hop | rfl
    · exact Or.inl hop
    · exact Or.inr (parseOp_mem hlast)
  | installing message =>
    simp only [LoopAt, hloop] at hok

theorem Executing.handlerStep (h : s.Executing ar) {i : ℕ} {hd hd' : Handler} {a : HandlerAction}
    {kv : KvServer} (hi : s.handlers[i]? = some hd) (hstep : hd.step s.server a = some (kv, hd')) :
    Executing ar { s with server := kv, handlers := s.handlers.set i hd' } := by
  have hmem : hd ∈ s.handlers := List.mem_of_getElem? hi
  obtain ⟨next, rfl, hs⟩ := Handler.step_spec hstep
  have hgrounded := hs.grounded (h.handlers hd hmem) h.recorded h.queued
  have hhand : ∀ hd' ∈ s.handlers.set i { hd with phase := next },
      hd' ∈ s.handlers ∨ hd'.Grounded (s.settled ar) := by
    intro hd' hd'mem
    rcases List.mem_or_eq_of_mem_set hd'mem with hold | rfl
    · exact Or.inl hold
    · exact Or.inr hgrounded
  have hqueue : ∀ op, kv.Queued op → s.server.Queued op ∨ op ∈ s.settled ar :=
    fun op hop => Or.inl (hs.queued hop)
  rcases hs.sameReplica with hsame | ⟨rfl, ⟨j, hphase⟩, rfl⟩
  · refine h.keep rfl hsame.snapIndex h.loop (List.Subset.refl _) ?_ hqueue hhand
      (List.Subset.refl _) fun op hop _ => Or.inl hop
    rw [hsame.lastRequestId]
    exact fun c r hr => Or.inl hr
  · refine h.keep rfl rfl h.loop (List.Subset.refl _) ?_ hqueue hhand (List.Subset.refl _)
      fun op hop _ => Or.inl hop
    -- the id that the handler writes is one that the loop has been through
    intro c r hr
    rcases KvServer.mem_setLastRequestId hr with hold | heq
    · exact Or.inl hold
    · obtain ⟨rfl, rfl⟩ := Prod.mk.inj heq
      have hseen := h.handlers hd hmem
      simp only [Handler.Grounded, hphase] at hseen
      exact Or.inr hseen

theorem Executing.call (h : s.Executing ar) (rpc : Rpc) (op : Op) :
    Executing ar { s with handlers := s.handlers ++ [⟨rpc, op, .called⟩] } := by
  refine h.keep rfl rfl h.loop (List.Subset.refl _) (fun c r hr => Or.inl hr)
    (fun op hop => Or.inl hop) ?_ (List.Subset.refl _) fun op hop _ => Or.inl hop
  intro hd hmem
  rcases List.mem_append.mp hmem with hmem | hmem
  · exact Or.inl hmem
  · obtain rfl := List.mem_singleton.mp hmem
    exact Or.inr trivial

theorem Executing.step (h : s.Executing ar) (hseq : Sequential (ops ar s.processed)) {a : KvAction}
    (hpush : ∀ message, a = .push message → Plain message) : (s.step ar a).Executing ar := by
  cases a with
  | push message =>
    exact ⟨plain_push h.plain (hpush message rfl), h.snapIndex, h.loop, h.recorded, h.queued,
      h.handlers, h.executed⟩
  | loop raftStateSize flips => exact h.loopStep hseq raftStateSize flips
  | get key clientId requestId => exact h.call _ _
  | putAppend op key value clientId requestId => exact h.call _ _
  | handler i a =>
    simp only [KvSystem.step]
    cases hi : s.handlers[i]? with
    | none => exact h
    | some hd =>
      dsimp only
      cases hstep : hd.step s.server a with
      | none => exact h
      | some out => exact h.handlerStep hi hstep

theorem Executing.backed (h : s.Executing ar) : s.Backed ar := by
  intro hd hmem reply hphase
  have hg := h.handlers hd hmem
  simp only [Handler.Grounded, hphase] at hg
  exact hg

end KvSystem

namespace ClerkSystem

variable {ar : Archives} {s : ClerkSystem}

structure Serving (ar : Archives) (s : ClerkSystem) : Prop where
  ordered : s.Ordered ar
  executing : s.kv.Executing ar
  issued : ∀ x ∈ s.kv.requests, x.1 = .putAppend → x ∈ s.issued

theorem serving_init (maxRaftState : ℤ) : (init maxRaftState).Serving ar where
  ordered := ordered_init maxRaftState
  executing := KvSystem.executing_init maxRaftState
  issued := by simp [init, KvSystem.init, KvSystem.requests]

theorem issued_step (s : ClerkSystem) (a : ClerkAction) : s.issued ⊆ (s.step ar a).issued := by
  have hissue : ∀ c rpc op, s.issued ⊆ (s.issue c rpc op).issued := by
    intro c rpc op
    unfold ClerkSystem.issue
    split_ifs
    · exact List.Subset.refl _
    · exact List.subset_append_left _ _
  cases a with
  | get clientId key => exact hissue _ _ _
  | putAppend clientId key value op => exact hissue _ _ _
  | call i =>
    simp only [ClerkSystem.step]
    split <;> exact List.Subset.refl _
  | commit i command =>
    simp only [ClerkSystem.step]
    split
    · split_ifs <;> exact List.Subset.refl _
    · exact List.Subset.refl _
  | deliver =>
    simp only [ClerkSystem.step]
    split <;> exact List.Subset.refl _
  | answer clientId =>
    simp only [ClerkSystem.step]
    split_ifs <;> exact List.Subset.refl _
  | reply i =>
    simp only [ClerkSystem.step]
    split
    · split
      · split_ifs <;> exact List.Subset.refl _
      · exact List.Subset.refl _
    · exact List.Subset.refl _
  | loop raftStateSize flips => exact List.Subset.refl _
  | handler i a => exact List.Subset.refl _

theorem Serving.step (h : s.Serving ar) (a : ClerkAction) : (s.step ar a).Serving ar := by
  refine ⟨h.ordered.step h.executing.backed a, ?_, ?_⟩
  · rcases step_kv ar s a with hkv | ⟨b, hkv, hplain, -, -⟩
    · rw [hkv]
      exact h.executing
    · have hseq := h.ordered.sequential.of_isPrefix h.ordered.processed_isPrefix
      rw [hkv]
      exact h.executing.step hseq hplain
  · intro x hx hput
    refine issued_step s a ?_
    rcases step_kv ar s a with hkv | ⟨b, hkv, -, -, hcalled⟩
    · rw [hkv] at hx
      exact h.issued x hx hput
    · rw [hkv, KvSystem.requests_step] at hx
      rcases List.mem_append.mp hx with hx | hx
      · exact h.issued x hx hput
      · exact hcalled x hx hput

theorem serving_runOf (ar : Archives) (maxRaftState : ℤ) (acts : List ClerkAction) :
    (runOf ar maxRaftState acts).Serving ar :=
  run_invariant (serving_init maxRaftState) (fun _ a h => h.step a) acts

theorem Serving.executed (h : s.Serving ar) {hd : Handler} (hmem : hd ∈ s.kv.handlers)
    (hput : hd.rpc = .putAppend) (hw : hd.op.isWrite) {reply : KvReply}
    (hphase : hd.phase = .returned reply) (hok : reply.err ≠ .errWrongLeader) :
    hd.op ∈ s.kv.executed := by
  obtain ⟨op, hop, hclient, hle⟩ := h.executing.backed hd hmem reply hphase hok
  have hissued := h.issued (hd.rpc, hd.op) (List.mem_map_of_mem hmem) hput
  -- the request itself had an entry no later than the one that backs the answer
  have hsettled : hd.op ∈ s.kv.settled ar := by
    obtain ⟨rest, hentries⟩ := s.kv.settled_isPrefix.trans h.ordered.processed_isPrefix
    rcases hle.eq_or_lt with heq | hlt
    · have hentry : op ∈ s.entries ar := hentries ▸ List.mem_append_left _ hop
      obtain ⟨x, hx, rfl⟩ := h.ordered.committed op hentry
      have hsame : hd.op = x.2 := h.ordered.unique _ hissued x hx (Prod.ext hclient.symm heq)
      exact hsame ▸ hop
    · obtain ⟨before, after, hsplit⟩ := List.append_of_mem hop
      have hwhole : s.entries ar = before ++ op :: (after ++ rest) := by
        rw [← hentries, hsplit]
        simp
      have hbefore := h.ordered.order before op _ hwhole _ hissued hclient.symm hlt
      rw [hsplit]
      exact List.mem_append_left _ hbefore
  exact h.executing.executed hd.op hsettled hw

end ClerkSystem
end RaftStorage
