import RaftStorage.Kv.Threads

/-! The table of request ids as a filter. While the apply loop works on entries of sequential
clients and no `Get` handler writes an older id, the table only grows, it covers every write that
the loop is through with, and so no write passes the filter twice. -/

namespace RaftStorage
open Library

/-- What sequential clients leave in the log: entries with the same client and request id are
retries of one operation, and a request that shows up after a later one had an entry before it. -/
structure Sequential (ops : List Op) : Prop where
  unique : ∀ x ∈ ops, ∀ y ∈ ops, x.clientId = y.clientId → x.requestId = y.requestId → x = y
  order : ∀ before x after, ops = before ++ x :: after → ∀ y ∈ after,
    y.clientId = x.clientId → y.requestId < x.requestId → y ∈ before

theorem Sequential.of_isPrefix {ops ops' : List Op} (h : Sequential ops') (hpre : ops <+: ops') :
    Sequential ops := by
  obtain ⟨rest, rfl⟩ := hpre
  refine ⟨fun x hx y hy => h.unique x (List.mem_append_left _ hx) y (List.mem_append_left _ hy), ?_⟩
  rintro before x after rfl y hy
  exact h.order before x (after ++ rest) (by simp) y (List.mem_append_left _ hy)

theorem Sequential.mem_of_later {before after : List Op} {x y : Op}
    (h : Sequential (before ++ x :: after)) (hy : y ∈ before) (hclient : y.clientId = x.clientId)
    (hle : x.requestId ≤ y.requestId) : x ∈ before := by
  rcases hle.eq_or_lt with heq | hlt
  · have hsame := h.unique y (List.mem_append_left _ hy) x (by simp) hclient heq.symm
    exact hsame ▸ hy
  · obtain ⟨first, rest, rfl⟩ := List.append_of_mem hy
    have hmem := h.order first y (rest ++ x :: after) (by simp) x (by simp) hclient.symm hlt
    exact List.mem_append_left _ hmem

def Op.isWrite (op : Op) : Prop := op.operation = "Put" ∨ op.operation = "Append"

def Op.request (op : Op) : String × ℤ := (op.clientId, op.requestId)

/-- No entry of the first table is missing or smaller in the second. -/
def TableLe (t t' : String → Option ℤ) : Prop := ∀ c, ∀ r ∈ t c, ∃ r' ∈ t' c, r ≤ r'

theorem TableLe.refl (t : String → Option ℤ) : TableLe t t := fun _ r hr => ⟨r, hr, le_rfl⟩

theorem TableLe.trans {t₁ t₂ t₃ : String → Option ℤ} (h : TableLe t₁ t₂) (h' : TableLe t₂ t₃) :
    TableLe t₁ t₃ := by
  intro c r hr
  obtain ⟨r₂, hr₂, hle⟩ := h c r hr
  obtain ⟨r₃, hr₃, hle'⟩ := h' c r₂ hr₂
  exact ⟨r₃, hr₃, hle.trans hle'⟩

theorem TableLe.reached {t t' : String → Option ℤ} (h : TableLe t t') {c : String} {n : ℤ}
    (hn : ∃ r ∈ t c, n ≤ r) : ∃ r ∈ t' c, n ≤ r := by
  obtain ⟨r, hr, hle⟩ := hn
  obtain ⟨r', hr', hle'⟩ := h c r hr
  exact ⟨r', hr', hle.trans hle'⟩

theorem TableLe.update {t : String → Option ℤ} {c : String} {r : ℤ} (h : ∀ last ∈ t c, last ≤ r) :
    TableLe t (Function.update t c (some r)) := by
  intro d last hlast
  by_cases hd : d = c
  · subst hd
    exact ⟨r, by simp, h last hlast⟩
  · exact ⟨last, by rwa [Function.update_of_ne hd], le_rfl⟩

namespace KvServer

variable {kv kv' : KvServer} {op op' : Op} {i : ℤ} {q : ℕ}

theorem mem_setLastRequestId {c : String} {r : ℤ} (h : r ∈ (kv.setLastRequestId op).lastRequestId c) :
    r ∈ kv.lastRequestId c ∨ (c, r) = op.request := by
  change Function.update kv.lastRequestId op.clientId (some op.requestId) c = _ at h
  by_cases hc : c = op.clientId
  · subst hc
    rw [Function.update_self] at h
    obtain rfl := Option.some.inj h
    exact Or.inr rfl
  · rw [Function.update_of_ne hc] at h
    exact Or.inl h

def Queued (kv : KvServer) (op : Op) : Prop := ∃ q ops, kv.queues q = some ops ∧ op ∈ ops

theorem queued_openWaitChan (h : Queued (kv.openWaitChan i).1 op) : Queued kv op := by
  unfold openWaitChan at h
  split at h
  · exact h
  · obtain ⟨q, ops, hq, hop⟩ := h
    dsimp only at hq
    by_cases heq : q = kv.queuesMade
    · subst heq
      rw [Function.update_self] at hq
      obtain rfl := Option.some.inj hq
      cases hop
    · rw [Function.update_of_ne heq] at hq
      exact ⟨q, ops, hq, hop⟩

theorem queued_popWaitChan (h : kv.popWaitChan q = some (kv', op)) :
    Queued kv op ∧ ∀ op', Queued kv' op' → Queued kv op' := by
  unfold popWaitChan at h
  split at h
  · rename_i first rest hq
    obtain ⟨rfl, rfl⟩ := Prod.mk.inj (Option.some.inj h)
    refine ⟨⟨q, _, hq, List.mem_cons_self⟩, ?_⟩
    rintro op' ⟨q', ops, hq', hop⟩
    dsimp only at hq'
    by_cases heq : q' = q
    · subst heq
      rw [Function.update_self] at hq'
      obtain rfl := Option.some.inj hq'
      exact ⟨q', _, hq, List.mem_cons_of_mem _ hop⟩
    · rw [Function.update_of_ne heq] at hq'
      exact ⟨q', ops, hq', hop⟩
  · cases h

theorem queued_closeWaitChan (h : Queued (kv.closeWaitChan i) op) : Queued kv op := by
  obtain ⟨q, ops, hq, hop⟩ := h
  cases hc : kv.waitApplyCh i with
  | none =>
    simp only [closeWaitChan, hc] at hq
    exact ⟨q, ops, hq, hop⟩
  | some q' =>
    simp only [closeWaitChan, hc] at hq
    by_cases heq : q = q'
    · subst heq
      rw [Function.update_self] at hq
      cases hq
    · rw [Function.update_of_ne heq] at hq
      exact ⟨q, ops, hq, hop⟩

theorem queued_sendMessageToWaitChan (h : Queued (kv.sendMessageToWaitChan op i).1 op') :
    Queued kv op' ∨ op' = op := by
  unfold sendMessageToWaitChan at h
  split at h
  · exact Or.inl h
  · rename_i q' _
    obtain ⟨q, ops, hq, hop⟩ := h
    dsimp only at hq
    by_cases heq : q = q'
    · subst heq
      rw [Function.update_self] at hq
      obtain ⟨old, hold, rfl⟩ := Option.map_eq_some_iff.mp hq
      rcases List.mem_append.mp hop with hop | hop
      · exact Or.inl ⟨q, old, hold, hop⟩
      · exact Or.inr (List.mem_singleton.mp hop)
    · rw [Function.update_of_ne heq] at hq
      exact Or.inl ⟨q, ops, hq, hop⟩

end KvServer

theorem HandlerStep.queued {kv kv' : KvServer} {h : Handler} {a : HandlerAction}
    {next : HandlerPhase} (hs : HandlerStep kv h a kv' next) {op : Op} (hq : kv'.Queued op) :
    kv.Queued op := by
  cases hs with
  | opened => exact KvServer.queued_openWaitChan hq
  | matched _ popped => exact (KvServer.queued_popWaitChan popped).2 op hq
  | mismatched _ popped => exact (KvServer.queued_popWaitChan popped).2 op hq
  | closed => exact KvServer.queued_closeWaitChan hq
  | _ => exact hq

def Handler.Justified (settled : List Op) (table : String → Option ℤ) (h : Handler) : Prop :=
  match h.phase with
  | .executing _ => (∃ op ∈ settled, op.request = h.op.request) ∨
      ∃ r ∈ table h.op.clientId, h.op.requestId ≤ r
  | .closing _ reply => reply.err ≠ .errWrongLeader →
      ∃ op ∈ settled, op.clientId = h.op.clientId ∧ h.op.requestId ≤ op.requestId
  | .returned reply => reply.err ≠ .errWrongLeader →
      ∃ op ∈ settled, op.clientId = h.op.clientId ∧ h.op.requestId ≤ op.requestId
  | _ => True

theorem Handler.Justified.mono {settled settled' : List Op} {t t' : String → Option ℤ} {h : Handler}
    (hj : h.Justified settled t) (hsub : settled ⊆ settled') (ht : TableLe t t') :
    h.Justified settled' t' := by
  unfold Justified at hj ⊢
  cases hp : h.phase with
  | executing i =>
    rw [hp] at hj
    rcases hj with ⟨op, hop, heq⟩ | hreached
    · exact Or.inl ⟨op, hsub hop, heq⟩
    · exact Or.inr (ht.reached hreached)
  | closing i reply =>
    rw [hp] at hj
    intro herr
    obtain ⟨op, hop, heq⟩ := hj herr
    exact ⟨op, hsub hop, heq⟩
  | returned reply =>
    rw [hp] at hj
    intro herr
    obtain ⟨op, hop, heq⟩ := hj herr
    exact ⟨op, hsub hop, heq⟩
  | _ => trivial

theorem HandlerStep.justified {kv kv' : KvServer} {h : Handler} {a : HandlerAction}
    {next : HandlerPhase} {settled : List Op} (hs : HandlerStep kv h a kv' next)
    (hj : h.Justified settled kv.lastRequestId)
    (hrec : ∀ c, ∀ r ∈ kv.lastRequestId c, ∃ op ∈ settled, op.request = (c, r))
    (hqueue : ∀ op, kv.Queued op → op ∈ settled)
    (hexec : a = .executeGet → h.isExecuting = true →
      ∃ op ∈ settled, op.request = h.op.request) :
    Handler.Justified settled kv'.lastRequestId { h with phase := next } := by
  unfold Handler.Justified at hj ⊢
  cases hs with
  | started => trivial
  | refused => exact fun herr => (herr rfl).elim
  | opened => trivial
  | matched phase popped client request outcome =>
    have hop := hqueue _ (KvServer.queued_popWaitChan popped).1
    rcases outcome with ⟨-, rfl⟩ | ⟨-, rfl⟩
    · exact Or.inl ⟨_, hop, Prod.ext client request⟩
    · exact fun _ => ⟨_, hop, client, request.ge⟩
  | mismatched => exact fun herr => (herr rfl).elim
  | timedOut => trivial
  | duplicate phase recorded outcome =>
    obtain ⟨r, hr, hle⟩ := KvServer.ifRequestDuplicate_iff.mp recorded
    rcases outcome with ⟨-, rfl⟩ | ⟨-, rfl⟩
    · exact Or.inr ⟨r, hr, hle⟩
    · obtain ⟨op, hop, heq⟩ := hrec _ r hr
      obtain ⟨hclient, hreq⟩ := Prod.mk.inj heq
      exact fun _ => ⟨op, hop, hclient, hreq ▸ hle⟩
  | gaveUp => exact fun herr => (herr rfl).elim
  | executed phase =>
    obtain ⟨op, hop, heq⟩ := hexec rfl (by simp [Handler.isExecuting, phase])
    obtain ⟨hclient, hreq⟩ := Prod.mk.inj heq
    exact fun _ => ⟨op, hop, hclient, hreq.ge⟩
  | closed phase =>
    rw [phase] at hj
    exact hj

namespace KvSystem

variable {ar : Archives} {s s' : KvSystem}

def ops (ar : Archives) (messages : List ApplyMsg) : List Op :=
  messages.map fun message => ar.parseOp message.command

def settled (ar : Archives) (s : KvSystem) : List Op :=
  match s.loop with
  | .checking _ _ => ops ar s.processed.dropLast
  | .executing _ _ => ops ar s.processed.dropLast
  | _ => ops ar s.processed

def LoopOk (ar : Archives) (s : KvSystem) : Prop :=
  match s.loop with
  | .popping => True
  | .checking message op => s.processed.getLast? = some message ∧ op = ar.parseOp message.command
  | .executing message op => s.processed.getLast? = some message ∧
      op = ar.parseOp message.command ∧
      (op.isWrite → ∀ r ∈ s.server.lastRequestId op.clientId, r < op.requestId)
  | .snapshotting message op => s.processed.getLast? = some message ∧
      op = ar.parseOp message.command
  | .sending message op => s.processed.getLast? = some message ∧ op = ar.parseOp message.command
  | .installing _ => False

def Plain (message : ApplyMsg) : Prop :=
  message.commandValid = true ∧ message.snapshotValid = false ∧ 0 < message.commandIndex

structure Filtering (ar : Archives) (s : KvSystem) : Prop where
  plain : ∀ message ∈ s.processed ++ s.applyChan, Plain message
  snapIndex : s.server.lastSnapShotRaftLogIndex = 0
  loop : s.LoopOk ar
  /-- every id in the table is the id of an entry -/
  recorded : ∀ c, ∀ r ∈ s.server.lastRequestId c, ∃ op ∈ s.settled ar, op.request = (c, r)
  covered : ∀ op ∈ s.settled ar, op.isWrite →
    ∃ r ∈ s.server.lastRequestId op.clientId, op.requestId ≤ r
  queued : ∀ op, s.server.Queued op → op ∈ s.settled ar
  handlers : ∀ h ∈ s.handlers, h.Justified (s.settled ar) s.server.lastRequestId
  marked : ∀ op ∈ s.executed, ∃ r ∈ s.server.lastRequestId op.clientId, op.requestId ≤ r
  nodup : (s.executed.map Op.request).Nodup

theorem filtering_init (maxRaftState : ℤ) : (init maxRaftState).Filtering ar where
  plain := by simp [init]
  snapIndex := rfl
  loop := trivial
  recorded := by simp [init, KvServer.init]
  covered := by simp [settled, init, ops]
  queued := by
    rintro op ⟨q, ops, hq, -⟩
    cases hq
  handlers := by simp [init]
  marked := by simp [init]
  nodup := by simp [init]

theorem Filtering.keep (h : s.Filtering ar)
    (hplain : s'.processed ++ s'.applyChan = s.processed ++ s.applyChan)
    (hrep : SameReplica s.server s'.server) (hexec : s'.executed = s.executed)
    (hhand : s'.handlers = s.handlers) (hloop : s'.LoopOk ar)
    (hset : s.settled ar ⊆ s'.settled ar)
    (hnew : ∀ op ∈ s'.settled ar, op ∈ s.settled ar ∨
      (op.isWrite → ∃ r ∈ s.server.lastRequestId op.clientId, op.requestId ≤ r))
    (hqueue : ∀ op, s'.server.Queued op → s.server.Queued op ∨ op ∈ s'.settled ar) :
    s'.Filtering ar where
  plain := hplain ▸ h.plain
  snapIndex := hrep.snapIndex.trans h.snapIndex
  loop := hloop
  recorded := by
    rw [hrep.lastRequestId]
    intro c r hr
    obtain ⟨op, hop, heq⟩ := h.recorded c r hr
    exact ⟨op, hset hop, heq⟩
  covered := by
    rw [hrep.lastRequestId]
    intro op hop hw
    rcases hnew op hop with hold | hcov
    · exact h.covered op hold hw
    · exact hcov hw
  queued := fun op hop => (hqueue op hop).elim (fun hold => hset (h.queued op hold)) id
  handlers := by
    rw [hrep.lastRequestId, hhand]
    exact fun hd hmem => (h.handlers hd hmem).mono hset (TableLe.refl _)
  marked := by
    rw [hrep.lastRequestId, hexec]
    exact h.marked
  nodup := hexec ▸ h.nodup

theorem Filtering.keep_settled (h : s.Filtering ar)
    (hplain : s'.processed ++ s'.applyChan = s.processed ++ s.applyChan)
    (hrep : SameReplica s.server s'.server) (hexec : s'.executed = s.executed)
    (hhand : s'.handlers = s.handlers) (hloop : s'.LoopOk ar)
    (hset : s'.settled ar = s.settled ar)
    (hqueue : ∀ op, s'.server.Queued op → s.server.Queued op ∨ op ∈ s'.settled ar) :
    s'.Filtering ar :=
  h.keep hplain hrep hexec hhand hloop (hset ▸ List.Subset.refl _)
    (fun _ hop => Or.inl (hset ▸ hop)) hqueue

theorem Plain.afterCommand {message : ApplyMsg} (h : Plain message) :
    afterCommand message = .popping := by
  simp [KvSystem.afterCommand, h.2.1]

theorem Plain.receive {message : ApplyMsg} (h : Plain message) {kv : KvServer}
    (hsnap : kv.lastSnapShotRaftLogIndex = 0) :
    receive ar kv message = .checking message (ar.parseOp message.command) := by
  obtain ⟨hcmd, -, hidx⟩ := h
  simp [KvSystem.receive, hcmd, hsnap, not_le.mpr hidx]

theorem ops_getLast {messages : List ApplyMsg} {message : ApplyMsg}
    (h : messages.getLast? = some message) :
    ops ar messages = ops ar messages.dropLast ++ [ar.parseOp message.command] := by
  have heq : messages.dropLast ++ [message] = messages := by
    obtain ⟨pre, rfl⟩ := List.getLast?_eq_some_iff.mp h
    simp
  conv_lhs => rw [← heq]
  simp [ops]

theorem parseOp_mem {messages : List ApplyMsg} {message : ApplyMsg}
    (h : messages.getLast? = some message) : ar.parseOp message.command ∈ ops ar messages :=
  List.mem_map_of_mem (List.mem_of_getLast? h)

theorem Filtering.pop (h : s.Filtering ar) (hloop : s.loop = .popping) {message : ApplyMsg}
    {rest : List ApplyMsg} (hchan : s.applyChan = message :: rest) :
    Filtering ar { s with
      applyChan := rest
      processed := s.processed ++ [message]
      loop := receive ar s.server message } := by
  rw [(h.plain message (by simp [hchan])).receive h.snapIndex]
  have hset : settled ar { s with
      applyChan := rest
      processed := s.processed ++ [message]
      loop := .checking message (ar.parseOp message.command) } = s.settled ar := by
    simp [settled, hloop]
  exact h.keep_settled (by simp [hchan]) (SameReplica.refl _) rfl rfl ⟨by simp, rfl⟩ hset
    fun op hop => Or.inl hop

theorem Filtering.settle (h : s.Filtering ar) {message : ApplyMsg}
    (hlast : s.processed.getLast? = some message)
    (hsettled : s.settled ar = ops ar s.processed.dropLast)
    (hcov : (ar.parseOp message.command).isWrite →
      ∃ r ∈ s.server.lastRequestId (ar.parseOp message.command).clientId,
        (ar.parseOp message.command).requestId ≤ r) :
    Filtering ar { s with loop := .snapshotting message (ar.parseOp message.command) } := by
  have hlist : ops ar s.processed = _ := ops_getLast hlast
  refine h.keep rfl (SameReplica.refl _) rfl rfl ⟨hlast, rfl⟩ ?_ ?_ fun op hop => Or.inl hop
  · rw [hsettled]
    change _ ⊆ ops ar s.processed
    rw [hlist]
    exact List.subset_append_left _ _
  · intro op hop
    change op ∈ ops ar s.processed at hop
    rw [hlist] at hop
    rcases List.mem_append.mp hop with hop | hop
    · exact Or.inl (hsettled ▸ hop)
    · obtain rfl := List.mem_singleton.mp hop
      exact Or.inr hcov

theorem Filtering.check (h : s.Filtering ar) {message : ApplyMsg} {op : Op}
    (hloop : s.loop = .checking message op) :
    Filtering ar (if s.server.ifRequestDuplicate op.clientId op.requestId then
      { s with loop := .snapshotting message op } else { s with loop := .executing message op }) := by
  have hok := h.loop
  simp only [LoopOk, hloop] at hok
  obtain ⟨hlast, rfl⟩ := hok
  have hsettled : s.settled ar = ops ar s.processed.dropLast := by simp [settled, hloop]
  split_ifs with hdup
  · exact h.settle hlast hsettled fun _ => KvServer.ifRequestDuplicate_iff.mp hdup
  · have hfree : ∀ r ∈ s.server.lastRequestId (ar.parseOp message.command).clientId,
        r < (ar.parseOp message.command).requestId := fun r hr =>
      not_le.mp fun hle => hdup (KvServer.ifRequestDuplicate_iff.mpr ⟨r, hr, hle⟩)
    exact h.keep_settled rfl (SameReplica.refl _) rfl rfl ⟨hlast, rfl, fun _ => hfree⟩
      hsettled.symm fun op hop => Or.inl hop

theorem Filtering.execute (h : s.Filtering ar) {message : ApplyMsg} {op : Op}
    (hloop : s.loop = .executing message op) (hw : op.isWrite) (flips : ℕ) :
    Filtering ar { s with
        server := s.server.executeSet op flips
        executed := s.executed ++ [op]
        loop := .snapshotting message op } ∧
      TableLe s.server.lastRequestId (s.server.executeSet op flips).lastRequestId := by
  have hok := h.loop
  simp only [LoopOk, hloop] at hok
  obtain ⟨hlast, hop, hfree⟩ := hok
  have hfree := hfree hw
  have htable : TableLe s.server.lastRequestId (s.server.executeSet op flips).lastRequestId :=
    TableLe.update fun r hr => (hfree r hr).le
  have hsettled : s.settled ar = ops ar s.processed.dropLast := by simp [settled, hloop]
  have hlist : ops ar s.processed = s.settled ar ++ [op] := by
    rw [hsettled, hop]
    exact ops_getLast hlast
  have hself : op.requestId ∈ (s.server.executeSet op flips).lastRequestId op.clientId := by
    change Function.update s.server.lastRequestId op.clientId (some op.requestId) op.clientId = _
    rw [Function.update_self]
  -- the operation moves from the loop to the settled ones and its number into the table
  refine ⟨⟨h.plain, h.snapIndex, ⟨hlast, hop⟩, ?_, ?_, ?_, ?_, ?_, ?_⟩, htable⟩
  · change ∀ c, ∀ r ∈ (s.server.executeSet op flips).lastRequestId c, ∃ x ∈ ops ar s.processed, _
    rw [hlist]
    intro c r hr
    rcases KvServer.mem_setLastRequestId hr with hold | heq
    · obtain ⟨x, hx, heq⟩ := h.recorded c r hold
      exact ⟨x, List.mem_append_left _ hx, heq⟩
    · exact ⟨op, by simp, heq.symm⟩
  · change ∀ x ∈ ops ar s.processed, _
    rw [hlist]
    intro x hx hxw
    rcases List.mem_append.mp hx with hx | hx
    · exact htable.reached (h.covered x hx hxw)
    · obtain rfl := List.mem_singleton.mp hx
      exact ⟨_, hself, le_rfl⟩
  · intro x hx
    change x ∈ ops ar s.processed
    rw [hlist]
    exact List.mem_append_left _ (h.queued x hx)
  · intro hd hmem
    refine (h.handlers hd hmem).mono ?_ htable
    change _ ⊆ ops ar s.processed
    rw [hlist]
    exact List.subset_append_left _ _
  · intro x hx
    rcases List.mem_append.mp hx with hx | hx
    · exact htable.reached (h.marked x hx)
    · obtain rfl := List.mem_singleton.mp hx
      exact ⟨_, hself, le_rfl⟩
  · rw [List.map_append, List.map_singleton]
    refine List.nodup_append.mpr ⟨h.nodup, by simp, ?_⟩
    rintro _ hmem _ hlast rfl
    obtain ⟨x, hx, heq⟩ := List.mem_map.mp hmem
    rw [List.mem_singleton.mp hlast] at heq
    obtain ⟨hclient, hreq⟩ := Prod.mk.inj heq
    obtain ⟨r, hr, hle⟩ := h.marked x hx
    have := hfree r (hclient ▸ hr)
    omega

theorem Filtering.loopStep (h : s.Filtering ar) (raftStateSize : ℤ) (flips : ℕ → ℕ) :
    (s.loopStep ar raftStateSize flips).Filtering ar ∧
      TableLe s.server.lastRequestId (s.loopStep ar raftStateSize flips).server.lastRequestId := by
  have hok := h.loop
  unfold KvSystem.loopStep
  cases hloop : s.loop with
  | popping =>
    cases hchan : s.applyChan with
    | nil => exact ⟨h, TableLe.refl _⟩
    | cons message rest => exact ⟨h.pop hloop hchan, TableLe.refl _⟩
  | checking message op =>
    refine ⟨h.check hloop, ?_⟩
    dsimp only
    split_ifs <;> exact TableLe.refl _
  | executing message op =>
    dsimp only
    split_ifs with hput happend
    · exact h.execute hloop (Or.inl hput) (flips 0)
    · exact h.execute hloop (Or.inr happend) (flips 0)
    · simp only [LoopOk, hloop] at hok
      obtain ⟨hlast, rfl, -⟩ := hok
      refine ⟨h.settle hlast (by simp [settled, hloop]) fun hw => ?_, TableLe.refl _⟩
      exact (not_or.mpr ⟨hput, happend⟩ hw).elim
  | snapshotting message op =>
    simp only [LoopOk, hloop] at hok
    have hsettled : s.settled ar = ops ar s.processed := by simp [settled, hloop]
    exact ⟨h.keep_settled rfl (SameReplica.refl _) rfl rfl hok hsettled.symm
      fun op hop => Or.inl hop, TableLe.refl _⟩
  | sending message op =>
    simp only [LoopOk, hloop] at hok
    obtain ⟨hlast, rfl⟩ := hok
    have hsettled : s.settled ar = ops ar s.processed := by simp [settled, hloop]
    have hpop := (h.plain message (List.mem_append_left _ (List.mem_of_getLast? hlast))).afterCommand
    have hrep := SameReplica.sendMessageToWaitChan s.server (ar.parseOp message.command)
      message.commandIndex
    dsimp only
    rw [hpop]
    refine ⟨h.keep_settled rfl hrep rfl rfl trivial hsettled.symm fun op hop => ?_, ?_⟩
    · rcases KvServer.queued_sendMessageToWaitChan hop with hop | rfl
      · exact Or.inl hop
      · exact Or.inr (parseOp_mem hlast)
    · rw [hrep.lastRequestId]
      exact TableLe.refl _
  | installing message =>
    simp only [LoopOk, hloop] at hok

theorem Filtering.executing_settled (h : s.Filtering ar) {hd : Handler} (hmem : hd ∈ s.handlers)
    (hexec : hd.isExecuting = true)
    (htime : ∀ last ∈ s.server.lastRequestId hd.op.clientId, last ≤ hd.op.requestId) :
    ∃ op ∈ s.settled ar, op.request = hd.op.request := by
  have hj := h.handlers hd hmem
  unfold Handler.isExecuting at hexec
  split at hexec
  · rename_i hphase
    simp only [Handler.Justified, hphase] at hj
    rcases hj with hseen | ⟨r, hr, hle⟩
    · exact hseen
    · obtain ⟨op, hop, heq⟩ := h.recorded _ r hr
      refine ⟨op, hop, heq.trans ?_⟩
      rw [le_antisymm (htime r hr) hle]
      rfl
  · cases hexec

theorem Filtering.handler_before_loop (h : s.Filtering ar) (hseq : Sequential (ops ar s.processed))
    {message : ApplyMsg} {op seen : Op} (hloop : s.loop = .executing message op) (hw : op.isWrite)
    (hseen : seen ∈ s.settled ar) (hclient : seen.clientId = op.clientId) :
    seen.requestId < op.requestId := by
  have hok := h.loop
  simp only [LoopOk, hloop] at hok
  obtain ⟨hlast, hop, hfree⟩ := hok
  have hsettled : s.settled ar = ops ar s.processed.dropLast := by simp [settled, hloop]
  have hlist : ops ar s.processed = s.settled ar ++ [op] := by
    rw [hsettled, hop]
    exact ops_getLast hlast
  rw [hlist] at hseq
  -- an earlier entry of this write would be in the table, and the loop would have skipped it
  have hnew : op ∉ s.settled ar := by
    intro hmem
    obtain ⟨r, hr, hle⟩ := h.covered op hmem hw
    have := hfree hw r hr
    omega
  by_contra hge
  exact hnew (hseq.mem_of_later hseen hclient (not_lt.mp hge))

theorem Filtering.executeGet (h : s.Filtering ar) (hseq : Sequential (ops ar s.processed))
    {hd : Handler} {handlers : List Handler} (hmem : hd ∈ s.handlers)
    (hexec : hd.isExecuting = true)
    (htime : ∀ last ∈ s.server.lastRequestId hd.op.clientId, last ≤ hd.op.requestId)
    (hhand : ∀ hd' ∈ handlers, hd' ∈ s.handlers ∨
      hd'.Justified (s.settled ar) (s.server.setLastRequestId hd.op).lastRequestId) :
    Filtering ar { s with server := s.server.setLastRequestId hd.op, handlers := handlers } ∧
      TableLe s.server.lastRequestId (s.server.setLastRequestId hd.op).lastRequestId := by
  have htable : TableLe s.server.lastRequestId (s.server.setLastRequestId hd.op).lastRequestId :=
    TableLe.update htime
  obtain ⟨seen, hseen, hreq⟩ := h.executing_settled hmem hexec htime
  have hentry : ∀ c, ∀ r ∈ (s.server.setLastRequestId hd.op).lastRequestId c,
      r ∈ s.server.lastRequestId c ∨ (c, r) = hd.op.request :=
    fun c r hr => KvServer.mem_setLastRequestId hr
  refine ⟨⟨h.plain, h.snapIndex, ?_, ?_, ?_, h.queued, ?_, ?_, h.nodup⟩, htable⟩
  · have hok := h.loop
    unfold LoopOk at hok ⊢
    dsimp only
    cases hloop : s.loop with
    | executing message op =>
      rw [hloop] at hok
      -- the loop holds a later write of the same client, whose number is still above the table's
      refine ⟨hok.1, hok.2.1, fun hw r hr => ?_⟩
      rcases hentry _ r hr with hr | heq
      · exact hok.2.2 hw r hr
      · obtain ⟨hc, hr⟩ := Prod.mk.inj heq
        obtain ⟨hc', hr'⟩ := Prod.mk.inj hreq
        rw [hr, ← hr']
        exact h.handler_before_loop hseq hloop hw hseen (hc'.trans hc.symm)
    | _ =>
      rw [hloop] at hok
      exact hok
  · intro c r hr
    rcases hentry c r hr with hr | heq
    · exact h.recorded c r hr
    · exact ⟨seen, hseen, hreq.trans heq.symm⟩
  · exact fun op hop hw => htable.reached (h.covered op hop hw)
  · intro hd' hd'mem
    rcases hhand hd' hd'mem with hold | hnew
    · exact (h.handlers hd' hold).mono (List.Subset.refl _) htable
    · exact hnew
  · exact fun op hop => htable.reached (h.marked op hop)

theorem Filtering.handlerStep (h : s.Filtering ar) (hseq : Sequential (ops ar s.processed))
    {i : ℕ} {hd hd' : Handler} {a : HandlerAction} {kv : KvServer} (hi : s.handlers[i]? = some hd)
    (hstep : hd.step s.server a = some (kv, hd'))
    (htime : a = .executeGet → hd.isExecuting = true →
      ∀ last ∈ s.server.lastRequestId hd.op.clientId, last ≤ hd.op.requestId) :
    Filtering ar { s with server := kv, handlers := s.handlers.set i hd' } ∧
      TableLe s.server.lastRequestId kv.lastRequestId := by
  have hmem : hd ∈ s.handlers := List.mem_of_getElem? hi
  obtain ⟨next, rfl, hs⟩ := Handler.step_spec hstep
  rcases hs.sameReplica with hsame | ⟨rfl, ⟨j, hphase⟩, rfl⟩
  · have htable : TableLe s.server.lastRequestId kv.lastRequestId := by
      rw [hsame.lastRequestId]
      exact TableLe.refl _
    refine ⟨⟨h.plain, hsame.snapIndex.trans h.snapIndex, ?_, ?_, ?_, ?_, ?_, ?_, h.nodup⟩, htable⟩
    · have hok := h.loop
      unfold LoopOk at hok ⊢
      rw [hsame.lastRequestId]
      exact hok
    · rw [hsame.lastRequestId]
      exact h.recorded
    · rw [hsame.lastRequestId]
      exact h.covered
    · exact fun op hop => h.queued op (hs.queued hop)
    · intro hd' hd'mem
      rcases List.mem_or_eq_of_mem_set hd'mem with hold | rfl
      · exact (h.handlers hd' hold).mono (List.Subset.refl _) htable
      · exact hs.justified (h.handlers hd hmem) h.recorded h.queued fun ha hexec =>
          h.executing_settled hmem hexec (htime ha hexec)
    · rw [hsame.lastRequestId]
      exact h.marked
  · have hexec : hd.isExecuting = true := by simp [Handler.isExecuting, hphase]
    have hlast := htime rfl hexec
    refine h.executeGet hseq hmem hexec hlast fun hd' hd'mem => ?_
    rcases List.mem_or_eq_of_mem_set hd'mem with hold | rfl
    · exact Or.inl hold
    · exact Or.inr (hs.justified (h.handlers hd hmem) h.recorded h.queued fun _ _ =>
        h.executing_settled hmem hexec hlast)

/-- No `Get` handler executes when the table already holds a later request of its client. -/
def Timely (s : KvSystem) (a : KvAction) : Prop :=
  match a with
  | .handler i .executeGet =>
    ∀ h ∈ s.handlers[i]?, h.isExecuting = true →
      ∀ last ∈ s.server.lastRequestId h.op.clientId, last ≤ h.op.requestId
  | _ => True

instance Timely.decidable (s : KvSystem) : ∀ a, Decidable (Timely s a)
  | .handler i .executeGet =>
    inferInstanceAs (Decidable (∀ h ∈ s.handlers[i]?, h.isExecuting = true →
      ∀ last ∈ s.server.lastRequestId h.op.clientId, last ≤ h.op.requestId))
  | .handler _ (.start _) | .handler _ .openWaitChan | .handler _ .pop | .handler _ (.timeOut _)
  | .handler _ .ifRequestDuplicate | .handler _ .closeWaitChan | .push _ | .loop _ _
  | .get _ _ _ | .putAppend _ _ _ _ _ => inferInstanceAs (Decidable True)

theorem Filtering.call (h : s.Filtering ar) (rpc : Rpc) (op : Op) :
    Filtering ar { s with handlers := s.handlers ++ [⟨rpc, op, .called⟩] } := by
  refine ⟨h.plain, h.snapIndex, h.loop, h.recorded, h.covered, h.queued, ?_, h.marked, h.nodup⟩
  intro hd hmem
  rcases List.mem_append.mp hmem with hmem | hmem
  · exact h.handlers hd hmem
  · obtain rfl := List.mem_singleton.mp hmem
    trivial

theorem plain_push (h : ∀ m ∈ s.processed ++ s.applyChan, Plain m) {message : ApplyMsg}
    (hm : Plain message) : ∀ m ∈ s.processed ++ (s.applyChan ++ [message]), Plain m := by
  intro m hmem
  rw [← List.append_assoc] at hmem
  rcases List.mem_append.mp hmem with hold | hnew
  · exact h m hold
  · exact List.mem_singleton.mp hnew ▸ hm

theorem Filtering.step (h : s.Filtering ar) (hseq : Sequential (ops ar s.processed))
    {a : KvAction} (hpush : ∀ message, a = .push message → Plain message) (htime : Timely s a) :
    (s.step ar a).Filtering ar ∧
      TableLe s.server.lastRequestId (s.step ar a).server.lastRequestId := by
  cases a with
  | push message =>
    refine ⟨⟨?_, h.snapIndex, h.loop, h.recorded, h.covered, h.queued, h.handlers, h.marked,
      h.nodup⟩, TableLe.refl _⟩
    exact plain_push h.plain (hpush message rfl)
  | loop raftStateSize flips => exact h.loopStep raftStateSize flips
  | get key clientId requestId => exact ⟨h.call _ _, TableLe.refl _⟩
  | putAppend op key value clientId requestId => exact ⟨h.call _ _, TableLe.refl _⟩
  | handler i a =>
    simp only [KvSystem.step]
    cases hi : s.handlers[i]? with
    | none => exact ⟨h, TableLe.refl _⟩
    | some hd =>
      dsimp only
      cases hstep : hd.step s.server a with
      | none => exact ⟨h, TableLe.refl _⟩
      | some out =>
        refine h.handlerStep hseq hi hstep ?_
        rintro rfl hexec
        exact htime hd hi hexec

theorem settled_isPrefix (s : KvSystem) : s.settled ar <+: ops ar s.processed := by
  have hdrop : ops ar s.processed.dropLast <+: ops ar s.processed :=
    (List.dropLast_prefix s.processed).map _
  unfold settled
  split
  · exact hdrop
  · exact hdrop
  · exact List.prefix_rfl

/-- Every answer other than `ErrWrongLeader` rests on an entry of its client that is no older. -/
def Backed (ar : Archives) (s : KvSystem) : Prop :=
  ∀ h ∈ s.handlers, ∀ reply, h.phase = .returned reply → reply.err ≠ .errWrongLeader →
    ∃ op ∈ s.settled ar, op.clientId = h.op.clientId ∧ h.op.requestId ≤ op.requestId

theorem Filtering.backed (h : s.Filtering ar) : s.Backed ar := by
  intro hd hmem reply hphase
  have hj := h.handlers hd hmem
  simp only [Handler.Justified, hphase] at hj
  exact hj

theorem step_stream (s : KvSystem) {a : KvAction} (ha : ∀ message, a ≠ .push message) :
    (s.step ar a).processed ++ (s.step ar a).applyChan = s.processed ++ s.applyChan := by
  cases a with
  | push message => exact (ha message rfl).elim
  | loop raftStateSize flips =>
    simp only [KvSystem.step, KvSystem.loopStep]
    split
    · split
      · rfl
      · rename_i message rest hchan
        simp [hchan]
    · split_ifs <;> rfl
    · split_ifs <;> rfl
    · rfl
    · rfl
    · rfl
  | get => rfl
  | putAppend => rfl
  | handler i a =>
    simp only [KvSystem.step]
    split
    · split <;> rfl
    · rfl

def requests (s : KvSystem) : List (Rpc × Op) := s.handlers.map fun h => (h.rpc, h.op)

def called : KvAction → List (Rpc × Op)
  | .get key clientId requestId => [(.get, ⟨"Get", key, "", clientId, requestId⟩)]
  | .putAppend op key value clientId requestId => [(.putAppend, ⟨op, key, value, clientId, requestId⟩)]
  | _ => []

theorem requests_step (s : KvSystem) (a : KvAction) :
    (s.step ar a).requests = s.requests ++ called a := by
  cases a with
  | push message => simp [KvSystem.step, requests, called]
  | loop raftStateSize flips =>
    have hkeep : (s.loopStep ar raftStateSize flips).handlers = s.handlers := by
      unfold KvSystem.loopStep
      split
      · split <;> rfl
      · split_ifs <;> rfl
      · split_ifs <;> rfl
      · rfl
      · rfl
      · rfl
    simp [KvSystem.step, requests, called, hkeep]
  | get key clientId requestId => simp [KvSystem.step, requests, called]
  | putAppend op key value clientId requestId => simp [KvSystem.step, requests, called]
  | handler i a =>
    simp only [KvSystem.step, called, List.append_nil]
    split
    · rename_i hd hi
      split
      · rename_i kv hd' hstep
        obtain ⟨next, rfl, -⟩ := Handler.step_spec hstep
        -- only the phase of the handler changes
        obtain ⟨hlt, rfl⟩ := List.getElem?_eq_some_iff.mp hi
        have hlen : i < s.requests.length := by simpa [requests] using hlt
        have hself := List.set_getElem_self hlen
        simpa only [requests, List.getElem_map, List.map_set] using hself
      · rfl
    · rfl

end KvSystem
end RaftStorage
