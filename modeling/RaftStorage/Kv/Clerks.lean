import RaftStorage.Kv.AtMostOnce

/-! The clients of one server. A clerk makes its next request only after the last one was answered,
and until then it may send it any number of times to any server. The entries of the committed log
are requests of clerks; this server is handed the log in order and is one of the servers that
answer. Any other server answers a request only when the log has an entry of that client that is no
older. -/

namespace RaftStorage
open Library

structure Clerk where
  requestId : ℤ
  /-- a call that is not answered yet -/
  waiting : Bool

structure ClerkSystem where
  kv : KvSystem
  clerks : String → Clerk
  issued : List (Rpc × Op)
  log : List String
  delivered : ℕ

inductive ClerkAction where
  | get (clientId key : String)
  | putAppend (clientId key value op : String)
  | call (i : ℕ)
  | commit (i : ℕ) (command : String)
  | deliver
  /-- another server answers the clerk -/
  | answer (clientId : String)
  | reply (i : ℕ)
  | loop (raftStateSize : ℤ) (flips : ℕ → ℕ)
  | handler (i : ℕ) (a : HandlerAction)

namespace ClerkSystem

variable {ar : Archives} {s s' : ClerkSystem}

def init (maxRaftState : ℤ) : ClerkSystem where
  kv := KvSystem.init maxRaftState
  clerks := fun _ => ⟨0, false⟩
  issued := []
  log := []
  delivered := 0

def entries (ar : Archives) (s : ClerkSystem) : List Op := s.log.map ar.parseOp

def issue (s : ClerkSystem) (clientId : String) (rpc : Rpc) (op : ℤ → Op) : ClerkSystem :=
  if (s.clerks clientId).waiting then s
  else
    let requestId := (s.clerks clientId).requestId + 1
    { s with
      clerks := Function.update s.clerks clientId ⟨requestId, true⟩
      issued := s.issued ++ [(rpc, op requestId)] }

def finish (s : ClerkSystem) (clientId : String) : ClerkSystem :=
  { s with clerks := Function.update s.clerks clientId ⟨(s.clerks clientId).requestId, false⟩ }

def entryMessage (k : ℕ) (command : String) : ApplyMsg where
  commandValid := true
  command := command
  commandIndex := k + 1

def step (ar : Archives) (s : ClerkSystem) : ClerkAction → ClerkSystem
  | .get clientId key =>
    s.issue clientId .get fun requestId => ⟨"Get", key, "", clientId, requestId⟩
  | .putAppend clientId key value op =>
    s.issue clientId .putAppend fun requestId => ⟨op, key, value, clientId, requestId⟩
  | .call i =>
    match s.issued[i]? with
    | some (.get, op) =>
      { s with kv := s.kv.step ar (.get op.key op.clientId op.requestId) }
    | some (.putAppend, op) =>
      { s with
        kv := s.kv.step ar (.putAppend op.operation op.key op.value op.clientId op.requestId) }
    | none => s
  | .commit i command =>
    match s.issued[i]? with
    | some (_, op) => if ar.parseOp command = op then { s with log := s.log ++ [command] } else s
    | none => s
  | .deliver =>
    match s.log[s.delivered]? with
    | some command =>
      { s with
        kv := s.kv.step ar (.push (entryMessage s.delivered command))
        delivered := s.delivered + 1 }
    | none => s
  | .answer clientId =>
    if ∃ op ∈ s.entries ar, op.clientId = clientId ∧ (s.clerks clientId).requestId ≤ op.requestId then
      s.finish clientId
    else s
  | .reply i =>
    match s.kv.handlers[i]? with
    | some h =>
      match h.phase with
      | .returned reply =>
        if reply.err ≠ .errWrongLeader ∧ h.op.requestId = (s.clerks h.op.clientId).requestId then
          s.finish h.op.clientId
        else s
      | _ => s
    | none => s
  | .loop raftStateSize flips => { s with kv := s.kv.step ar (.loop raftStateSize flips) }
  | .handler i a => { s with kv := s.kv.step ar (.handler i a) }

def runOf (ar : Archives) (maxRaftState : ℤ) (acts : List ClerkAction) : ClerkSystem :=
  run (step ar) (init maxRaftState) acts

/-! ## The log of sequential clerks -/

structure Ordered (ar : Archives) (s : ClerkSystem) : Prop where
  bounded : ∀ x ∈ s.issued, x.2.requestId ≤ (s.clerks x.2.clientId).requestId
  unique : ∀ x ∈ s.issued, ∀ y ∈ s.issued, x.2.request = y.2.request → x.2 = y.2
  committed : ∀ op ∈ s.entries ar, ∃ x ∈ s.issued, x.2 = op
  /-- a request that is over has an entry -/
  answered : ∀ x ∈ s.issued, x.2.requestId < (s.clerks x.2.clientId).requestId ∨
    (s.clerks x.2.clientId).waiting = false → x.2 ∈ s.entries ar
  /-- every entry comes after entries of all earlier requests of its client -/
  order : ∀ before op after, s.entries ar = before ++ op :: after → ∀ x ∈ s.issued,
    x.2.clientId = op.clientId → x.2.requestId < op.requestId → x.2 ∈ before
  /-- the server gets the log in order -/
  stream : KvSystem.ops ar (s.kv.processed ++ s.kv.applyChan) = (s.entries ar).take s.delivered
  delivered : s.delivered ≤ s.log.length

theorem ordered_init (maxRaftState : ℤ) : (init maxRaftState).Ordered ar where
  bounded := by simp [init]
  unique := by simp [init]
  committed := by simp [entries, init]
  answered := by simp [init]
  order := by simp [init]
  stream := by simp [entries, init, KvSystem.init, KvSystem.ops]
  delivered := le_rfl

theorem Ordered.sequential (h : s.Ordered ar) : Sequential (s.entries ar) where
  unique := by
    intro x hx y hy hclient hreq
    obtain ⟨x', hx', rfl⟩ := h.committed x hx
    obtain ⟨y', hy', rfl⟩ := h.committed y hy
    exact h.unique x' hx' y' hy' (Prod.ext hclient hreq)
  order := by
    intro before x after heq y hy hclient hlt
    have hmem : y ∈ s.entries ar := by
      rw [heq]
      exact List.mem_append_right _ (List.mem_cons_of_mem x hy)
    obtain ⟨y', hy', rfl⟩ := h.committed y hmem
    exact h.order before x after heq y' hy' hclient hlt

theorem Ordered.processed_isPrefix (h : s.Ordered ar) :
    KvSystem.ops ar s.kv.processed <+: s.entries ar := by
  have hpre : KvSystem.ops ar s.kv.processed <+:
      KvSystem.ops ar (s.kv.processed ++ s.kv.applyChan) := by
    simp [KvSystem.ops]
  exact (h.stream ▸ hpre).trans (List.take_prefix _ _)

theorem Ordered.keep (h : s.Ordered ar) {kv : KvSystem}
    (hstream : kv.processed ++ kv.applyChan = s.kv.processed ++ s.kv.applyChan) :
    Ordered ar { s with kv := kv } :=
  ⟨h.bounded, h.unique, h.committed, h.answered, h.order, hstream ▸ h.stream, h.delivered⟩

theorem Ordered.issue (h : s.Ordered ar) {clientId : String} {rpc : Rpc} {op : ℤ → Op}
    (hclient : ∀ r, (op r).clientId = clientId) (hreq : ∀ r, (op r).requestId = r) :
    Ordered ar (s.issue clientId rpc op) := by
  unfold ClerkSystem.issue
  split_ifs with hwait
  · exact h
  dsimp only
  set last := (s.clerks clientId).requestId with hlast
  have hself : Function.update s.clerks clientId ⟨last + 1, true⟩ clientId = ⟨last + 1, true⟩ :=
    Function.update_self _ _ _
  -- the new number is above all numbers this clerk has used
  have hold : ∀ x ∈ s.issued, x.2.clientId = clientId → x.2.requestId ≤ last := by
    rintro x hx rfl
    exact h.bounded x hx
  have hmem : ∀ {x}, x ∈ s.issued ++ [(rpc, op (last + 1))] →
      x ∈ s.issued ∨ x = (rpc, op (last + 1)) := fun hx => by simpa using hx
  refine
    { bounded := fun x hx => ?_
      unique := fun x hx y hy heq => ?_
      committed := fun o ho => ?_
      answered := fun x hx hover => ?_
      order := fun before o after heq x hx hcl hlt => ?_
      stream := h.stream
      delivered := h.delivered }
  · dsimp only
    rcases hmem hx with hx | rfl
    · by_cases hc : x.2.clientId = clientId
      · rw [hc, hself]
        exact (hold x hx hc).trans (by dsimp only; omega)
      · rw [Function.update_of_ne hc]
        exact h.bounded x hx
    · rw [hclient, hself, hreq]
  · obtain ⟨hc, hr⟩ := Prod.mk.inj heq
    rcases hmem hx with hx | rfl <;> rcases hmem hy with hy | rfl
    · exact h.unique x hx y hy heq
    · have := hold x hx (hc.trans (hclient _))
      rw [hreq] at hr
      omega
    · have := hold y hy (hc.symm.trans (hclient _))
      rw [hreq] at hr
      omega
    · rfl
  · obtain ⟨x, hx, heq⟩ := h.committed o ho
    exact ⟨x, List.mem_append_left _ hx, heq⟩
  · dsimp only at hover
    rcases hmem hx with hx | rfl
    · by_cases hc : x.2.clientId = clientId
      · refine h.answered x hx (Or.inr ?_)
        rw [hc]
        simpa using hwait
      · rw [Function.update_of_ne hc] at hover
        exact h.answered x hx hover
    · rw [hclient, hself, hreq] at hover
      simp at hover
  · rcases hmem hx with hx | rfl
    · exact h.order before o after heq x hx hcl hlt
    · -- the new request is later than every entry of its client
      have ho : o ∈ s.entries ar := by
        rw [show s.entries ar = before ++ o :: after from heq]
        simp
      obtain ⟨y, hy, rfl⟩ := h.committed o ho
      have := hold y hy (hcl.symm.trans (hclient _))
      rw [hreq] at hlt
      omega

theorem Ordered.commit (h : s.Ordered ar) {x : Rpc × Op} (hx : x ∈ s.issued) {command : String}
    (hcmd : ar.parseOp command = x.2) : Ordered ar { s with log := s.log ++ [command] } := by
  have hentries : entries ar { s with log := s.log ++ [command] } = s.entries ar ++ [x.2] := by
    simp [entries, hcmd]
  refine
    { bounded := h.bounded
      unique := h.unique
      committed := fun o ho => ?_
      answered := fun y hy hover => ?_
      order := fun before o after heq y hy hcl hlt => ?_
      stream := ?_
      delivered := h.delivered.trans (by simp) }
  · rw [hentries] at ho
    rcases List.mem_append.mp ho with ho | ho
    · exact h.committed o ho
    · exact ⟨x, hx, (List.mem_singleton.mp ho).symm⟩
  · rw [hentries]
    exact List.mem_append_left _ (h.answered y hy hover)
  · rw [hentries] at heq
    rcases List.eq_nil_or_concat after with rfl | ⟨rest, last, rfl⟩
    · obtain ⟨rfl, hlast⟩ := List.append_inj' heq rfl
      obtain rfl := (List.cons.inj hlast).1
      refine h.answered y hy (Or.inl ?_)
      rw [hcl]
      exact hlt.trans_le (h.bounded x hx)
    · have hpre : s.entries ar ++ [x.2] = (before ++ o :: rest) ++ [last] := by simpa using heq
      obtain ⟨hold, -⟩ := List.append_inj' hpre rfl
      exact h.order before o rest hold y hy hcl hlt
  · rw [hentries, List.take_append_of_le_length (by simpa [entries] using h.delivered)]
    exact h.stream

theorem Ordered.deliver (h : s.Ordered ar) {command : String}
    (hcmd : s.log[s.delivered]? = some command) :
    Ordered ar { s with
      kv := s.kv.step ar (.push (entryMessage s.delivered command))
      delivered := s.delivered + 1 } := by
  obtain ⟨hlt, hget⟩ := List.getElem?_eq_some_iff.mp hcmd
  refine ⟨h.bounded, h.unique, h.committed, h.answered, h.order, ?_, hlt⟩
  change KvSystem.ops ar (s.kv.processed ++ (s.kv.applyChan ++ [entryMessage s.delivered command])) =
    (s.entries ar).take (s.delivered + 1)
  have hlen : s.delivered < (s.entries ar).length := by simpa [entries] using hlt
  rw [← List.append_assoc, List.take_succ_eq_append_getElem hlen, ← h.stream]
  simp [KvSystem.ops, entryMessage, entries, hget]

theorem Ordered.finish (h : s.Ordered ar) {op : Op} (hop : op ∈ s.entries ar)
    (hle : (s.clerks op.clientId).requestId ≤ op.requestId) : Ordered ar (s.finish op.clientId) := by
  refine ⟨fun x hx => ?_, h.unique, h.committed, fun x hx hover => ?_, h.order, h.stream, h.delivered⟩
  · have hb := h.bounded x hx
    by_cases hc : x.2.clientId = op.clientId
    · rw [hc] at hb ⊢
      simpa [ClerkSystem.finish] using hb
    · simpa [ClerkSystem.finish, Function.update_of_ne hc] using hb
  · change x.2 ∈ s.entries ar
    by_cases hc : x.2.clientId = op.clientId
    · obtain ⟨y, hy, rfl⟩ := h.committed op hop
      have hy' := h.bounded y hy
      have hx' := h.bounded x hx
      rw [hc] at hx'
      rcases hx'.lt_or_eq with hlt | heq
      · exact h.answered x hx (Or.inl (hc ▸ hlt))
      · have hreq : x.2.requestId = y.2.requestId := heq.trans (le_antisymm hle hy')
        rw [h.unique x hx y hy (Prod.ext hc hreq)]
        exact hop
    · refine h.answered x hx ?_
      simpa [ClerkSystem.finish, Function.update_of_ne hc] using hover

/-! ## Runs -/

def Safe (ar : Archives) (s : ClerkSystem) : Prop := s.Ordered ar ∧ s.kv.Filtering ar

/-- No `Get` handler executes after a later request of its client has reached the table. -/
def Timely (s : ClerkSystem) (a : ClerkAction) : Prop :=
  match a with
  | .handler i a => s.kv.Timely (.handler i a)
  | _ => True

instance Timely.decidable (s : ClerkSystem) : ∀ a, Decidable (Timely s a)
  | .handler i a => inferInstanceAs (Decidable (s.kv.Timely (.handler i a)))
  | .get _ _ | .putAppend _ _ _ _ | .call _ | .commit _ _ | .deliver | .answer _ | .reply _
  | .loop _ _ => inferInstanceAs (Decidable True)

def table (s : ClerkSystem) : String → Option ℤ := s.kv.server.lastRequestId

theorem issue_kv (s : ClerkSystem) (clientId : String) (rpc : Rpc) (op : ℤ → Op) :
    (s.issue clientId rpc op).kv = s.kv := by
  unfold ClerkSystem.issue
  split_ifs <;> rfl

theorem step_kv (ar : Archives) (s : ClerkSystem) (a : ClerkAction) : (s.step ar a).kv = s.kv ∨
    ∃ b, (s.step ar a).kv = s.kv.step ar b ∧
      (∀ message, b = .push message → KvSystem.Plain message) ∧ (Timely s a → s.kv.Timely b) ∧
      ∀ x ∈ KvSystem.called b, x.1 = .putAppend → x ∈ s.issued := by
  cases a with
  | get clientId key => exact Or.inl (issue_kv _ _ _ _)
  | putAppend clientId key value op => exact Or.inl (issue_kv _ _ _ _)
  | call i =>
    simp only [ClerkSystem.step]
    split
    · rename_i op _
      exact Or.inr ⟨.get op.key op.clientId op.requestId, rfl, fun _ => KvAction.noConfusion,
        fun _ => trivial, by simp [KvSystem.called]⟩
    · rename_i op hi
      refine Or.inr ⟨.putAppend op.operation op.key op.value op.clientId op.requestId, rfl,
        fun _ => KvAction.noConfusion, fun _ => trivial, fun x hx _ => ?_⟩
      exact List.mem_singleton.mp hx ▸ List.mem_of_getElem? hi
    · exact Or.inl rfl
  | commit i command =>
    simp only [ClerkSystem.step]
    split
    · split_ifs <;> exact Or.inl rfl
    · exact Or.inl rfl
  | deliver =>
    simp only [ClerkSystem.step]
    split
    · rename_i command hcmd
      have hplain : KvSystem.Plain (entryMessage s.delivered command) := by
        refine ⟨rfl, rfl, ?_⟩
        change 0 < (s.delivered : ℤ) + 1
        omega
      exact Or.inr ⟨_, rfl, fun m hm => KvAction.push.inj hm ▸ hplain, fun _ => trivial,
        by simp [KvSystem.called]⟩
    · exact Or.inl rfl
  | answer clientId =>
    simp only [ClerkSystem.step]
    split_ifs <;> exact Or.inl rfl
  | reply i =>
    simp only [ClerkSystem.step]
    split
    · split
      · split_ifs <;> exact Or.inl rfl
      · exact Or.inl rfl
    · exact Or.inl rfl
  | loop raftStateSize flips =>
    exact Or.inr ⟨.loop raftStateSize flips, rfl, fun _ => KvAction.noConfusion, fun _ => trivial,
      by simp [KvSystem.called]⟩
  | handler i a =>
    exact Or.inr ⟨.handler i a, rfl, fun _ => KvAction.noConfusion, id, by simp [KvSystem.called]⟩

theorem Ordered.step (h : s.Ordered ar) (hback : s.kv.Backed ar) (a : ClerkAction) :
    (s.step ar a).Ordered ar := by
  cases a with
  | get clientId key => exact h.issue (fun _ => rfl) fun _ => rfl
  | putAppend clientId key value op => exact h.issue (fun _ => rfl) fun _ => rfl
  | call i =>
    simp only [ClerkSystem.step]
    split
    · exact h.keep rfl
    · exact h.keep rfl
    · exact h
  | commit i command =>
    simp only [ClerkSystem.step]
    split
    · rename_i rpc op hi
      split_ifs with hcmd
      · exact h.commit (List.mem_of_getElem? hi) hcmd
      · exact h
    · exact h
  | deliver =>
    simp only [ClerkSystem.step]
    split
    · rename_i command hcmd
      exact h.deliver hcmd
    · exact h
  | answer clientId =>
    simp only [ClerkSystem.step]
    split_ifs with hop
    · obtain ⟨op, hmem, rfl, hle⟩ := hop
      exact h.finish hmem hle
    · exact h
  | reply i =>
    simp only [ClerkSystem.step]
    split
    · rename_i hd hi
      split
      · rename_i reply hphase
        split_ifs with hok
        · -- an answer is backed by an entry that the loop is through with
          obtain ⟨op, hop, hclient, hle⟩ :=
            hback hd (List.mem_of_getElem? hi) reply hphase hok.1
          have hentry := h.processed_isPrefix.subset (s.kv.settled_isPrefix.subset hop)
          rw [hok.2, ← hclient] at hle
          rw [← hclient]
          exact h.finish hentry hle
        · exact h
      · exact h
    · exact h
  | loop raftStateSize flips => exact h.keep (s.kv.step_stream fun _ => KvAction.noConfusion)
  | handler i a => exact h.keep (s.kv.step_stream fun _ => KvAction.noConfusion)

theorem Safe.step (h : s.Safe ar) {a : ClerkAction} (ht : Timely s a) :
    (s.step ar a).Safe ar ∧ TableLe s.table (s.step ar a).table := by
  have hordered := h.1.step h.2.backed a
  unfold Safe table
  rcases step_kv ar s a with hkv | ⟨b, hkv, hplain, htime, -⟩
  · rw [hkv]
    exact ⟨⟨hordered, h.2⟩, TableLe.refl _⟩
  · have hseq := h.1.sequential.of_isPrefix h.1.processed_isPrefix
    obtain ⟨hf, hle⟩ := h.2.step hseq hplain (htime ht)
    rw [hkv]
    exact ⟨⟨hordered, hf⟩, hle⟩

theorem safe_init (maxRaftState : ℤ) : (init maxRaftState).Safe ar :=
  ⟨ordered_init maxRaftState, KvSystem.filtering_init maxRaftState⟩

theorem safe_runOf {maxRaftState : ℤ} {acts : List ClerkAction}
    (h : Along (step ar) Timely (init maxRaftState) acts) : (runOf ar maxRaftState acts).Safe ar :=
  run_invariant_along (safe_init maxRaftState) (fun _ _ hs ht => (hs.step ht).1) h

theorem runOf_append (ar : Archives) (maxRaftState : ℤ) (as bs : List ClerkAction) :
    runOf ar maxRaftState (as ++ bs) = run (step ar) (runOf ar maxRaftState as) bs :=
  run_append _ _ _ _

theorem timely_of_tableLe {a : ClerkAction} (h : TableLe s.table (s.step ar a).table) :
    Timely s a := by
  unfold Timely
  split
  · rename_i i a
    unfold KvSystem.Timely
    split
    · rename_i j heq
      obtain ⟨rfl, rfl⟩ := KvAction.handler.inj heq
      intro hd hi hexec last hlast
      have hstep : ∃ next, hd.step s.kv.server .executeGet =
          some (s.kv.server.setLastRequestId hd.op, { hd with phase := next }) := by
        unfold Handler.isExecuting at hexec
        split at hexec
        · rename_i hphase
          simp only [Handler.step, hphase]
          exact ⟨_, rfl⟩
        · cases hexec
      obtain ⟨next, hstep⟩ := hstep
      obtain ⟨r, hr, hle⟩ := h hd.op.clientId last hlast
      simp only [table, ClerkSystem.step, KvSystem.step, Option.mem_def.mp hi, hstep,
        KvServer.setLastRequestId, Function.update_self, Option.mem_def, Option.some.injEq] at hr
      omega
    · trivial
  · trivial

/-- The table never goes back and no write is executed twice, exactly when no late `Get` handler
executes. -/
theorem atMostOnce_iff (ar : Archives) (maxRaftState : ℤ) (acts : List ClerkAction) :
    ((∀ before after rest, acts = before ++ after ++ rest →
        TableLe (runOf ar maxRaftState before).table
          (runOf ar maxRaftState (before ++ after)).table) ∧
      ((runOf ar maxRaftState acts).kv.executed.map Op.request).Nodup) ↔
    Along (step ar) Timely (init maxRaftState) acts := by
  constructor
  · rintro ⟨hle, -⟩
    refine along_iff.mpr fun before a after heq => ?_
    have hstep := hle before [a] after (by simpa using heq)
    rw [runOf_append] at hstep
    exact timely_of_tableLe hstep
  · intro h
    refine ⟨?_, (safe_runOf h).2.nodup⟩
    rintro before after rest rfl
    obtain ⟨h, -⟩ := along_append.mp h
    obtain ⟨hbefore, hafter⟩ := along_append.mp h
    rw [runOf_append]
    exact run_relation_along (P := Safe ar) (R := fun s s' => TableLe s.table s'.table)
      (fun s => TableLe.refl _) TableLe.trans (fun s a hs ht => hs.step ht) (safe_runOf hbefore)
      hafter

def deliverNext : List ClerkAction := .deliver :: List.replicate 5 (.loop 0 fun _ => 0)

/-- A client reads and then writes. The handler of the read has its entry and is about to execute
when another server answers the retried read; the write is executed; only then does the handler
go on, and a second entry of the write follows. -/
def lateGetRun : List ClerkAction :=
  [.get "c" "k", .call 0, .handler 0 (.start (some 1)), .handler 0 .openWaitChan,
    .commit 0 "22 serialization::archive 17 0 0 3 Get 1 k 0  1 c 1"] ++ deliverNext ++
  [.handler 0 .pop, .answer "c", .putAppend "c" "k" "v" "Put",
    .commit 1 "22 serialization::archive 17 0 0 3 Put 1 k 1 v 1 c 2"] ++ deliverNext ++
  [.commit 1 "22 serialization::archive 17 0 0 3 Put 1 k 1 v 1 c 2", .handler 0 .executeGet] ++
  deliverNext

theorem late_get_repeats_put :
    ¬∀ (ar : Archives) (maxRaftState : ℤ) (acts : List ClerkAction),
      (∀ before after rest, acts = before ++ after ++ rest →
        TableLe (runOf ar maxRaftState before).table
          (runOf ar maxRaftState (before ++ after)).table) ∧
      ((runOf ar maxRaftState acts).kv.executed.map Op.request).Nodup := by
  intro h
  have htwice : (runOf textArchives (-1) lateGetRun).kv.executed.map Op.request =
      [("c", 2), ("c", 2)] := by decide +kernel
  have hnodup := (h textArchives (-1) lateGetRun).2
  rw [htwice] at hnodup
  simp at hnodup

end ClerkSystem
end RaftStorage
