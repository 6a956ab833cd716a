import RaftStorage.Service.Model
import RaftStorage.Library.Prefixes
import Mathlib.Data.Fintype.EquivFin

/-! The servers of one cluster agree. In a run of clean steps every server that installs no snapshot
processes an initial part of one log, whose commands clients have asked for, and holds what that part
makes of an empty store; a read then sees every write that was acknowledged before the read was
called, whichever servers the two went to. -/

namespace RaftStorage
open Library

namespace Cluster

variable {n : ℕ} (c : Cluster n)

theorem applyChan_start (p : Fin n) (command : String) :
    (c.step (.start p command)).applyChan = c.applyChan := by
  simp only [step, onNode]
  split <;> rfl

theorem applyChan_snapshot (p : Fin n) (index : ℤ) (str : String) :
    (c.step (.snapshot p index str)).applyChan = c.applyChan := by
  simp only [step, onNode]
  split
  · rfl
  · split <;> rfl

theorem applyChan_grows (a : Action n) (q : Fin n) :
    ∃ messages, (c.step a).applyChan q = c.applyChan q ++ messages := by
  have hsame : ∀ {l : List ApplyMsg}, l = c.applyChan q → ∃ messages, l = c.applyChan q ++ messages :=
    fun h => ⟨[], by rw [h, List.append_nil]⟩
  generalize hstep : c.step a = c'
  have hs : Step c a c' := hstep ▸ step_spec c a
  clear hstep
  cases hs with
  | @doElection _ _ out => cases out <;> exact hsame rfl
  | @doHeartBeat _ out => cases out <;> exact hsame rfl
  | @push _ p k pusher msg =>
    by_cases hq : q = p
    · subst hq
      exact ⟨[msg], Function.update_self _ _ _⟩
    · exact hsame (Function.update_of_ne hq _ _)
  | _ => exact hsame rfl

end Cluster

namespace Deployment

variable {n : ℕ} {asString : Op → String} {ar : Archives} {s : Deployment n} {a : DeploymentAction n}
  {p q : Fin n}

/-! ## What a step does -/

inductive Moves (asString : Op → String) (s : Deployment n) : DeploymentAction n → Cluster n → Prop
  | stays {a : DeploymentAction n} : Moves asString s a s.cluster
  | moves {b : Action n} (call : serverCall b = false) :
      Moves asString s (.cluster b) (s.cluster.step b)
  | starts {p : Fin n} {i : ℕ} {h : Handler} (handler : (s.kv p).handlers[i]? = some h) :
      Moves asString s (.server p (.handler i .start)) (s.cluster.step (.start p (asString h.op)))
  | snapshots {p : Fin n} {index : ℤ} {str : String} (made : (index, str) ∈ (s.kv p).snapshots) :
      Moves asString s (.server p .snapshot) (s.cluster.step (.snapshot p index str))

theorem cluster_step (asString : Op → String) (ar : Archives) (s : Deployment n)
    (a : DeploymentAction n) :
    Moves asString s a (s.step asString ar a).cluster := by
  cases a with
  | cluster b =>
    simp only [step]
    split_ifs with hcall
    · exact .stays
    · exact .moves (by simpa using hcall)
  | server p a =>
    simp only [step, KvNode.step]
    split_ifs
    · cases a with
      | get => exact .stays
      | putAppend => exact .stays
      | handler i point =>
        simp only [KvNode.serverStep, KvNode.handlerStep]
        split
        · exact .stays
        · rename_i h hi
          split
          · exact .stays
          · split_ifs with hpoint
            · subst hpoint
              exact .starts hi
            · exact .stays
      | loop =>
        simp only [KvNode.serverStep]
        split_ifs <;> exact .stays
      | snapshot =>
        simp only [KvNode.serverStep]
        split
        · rename_i hget
          exact .snapshots (List.mem_of_getElem? hget)
        · exact .stays
    · exact .stays

inductive ServerMoves (ar : Archives) (q : Fin n) (s : Deployment n) (a : DeploymentAction n)
    (s' : Deployment n) : Prop
  | forwards {messages} (chan : s'.cluster.applyChan q = s.cluster.applyChan q ++ messages)
      (server : (s'.processes q).server = messages.foldl
        (fun server message => server.step ar (.push message)) (s.processes q).server)
  | acts {b : KvAction} (chan : s'.cluster.applyChan q = s.cluster.applyChan q)
      (server : (s'.processes q).server = (s.processes q).server.step ar b)
      (own : ∀ message, b ≠ .push message)
      (get : ∀ i, b = .handler i .executeGet → a = .server q (.handler i .executeGet))

theorem Moves.applyChan_server {c : Cluster n} {a : ServerAction}
    (h : Moves asString s (.server p a) c) : c.applyChan = s.cluster.applyChan := by
  cases h with
  | stays => rfl
  | starts => exact Cluster.applyChan_start _ _ _
  | snapshots => exact Cluster.applyChan_snapshot _ _ _ _

theorem node_server_step (asString : Op → String) (ar : Archives) (p : Fin n) (t : KvNode n)
    (a : ServerAction) :
    (t.step asString ar p (.server a)).server = t.server ∨
      ∃ b : KvAction, (t.step asString ar p (.server a)).server = t.server.step ar b ∧
        (∀ message, b ≠ .push message) ∧
        ∀ i, b = .handler i .executeGet → a = .handler i .executeGet := by
  simp only [KvNode.step]
  split_ifs
  · cases a with
    | get key clientId requestId =>
      exact Or.inr ⟨.get key clientId requestId, rfl, by simp, by simp⟩
    | putAppend op key value clientId requestId =>
      exact Or.inr ⟨.putAppend op key value clientId requestId, rfl, by simp, by simp⟩
    | loop raftStateSize flips =>
      simp only [KvNode.serverStep]
      split_ifs
      · exact Or.inr ⟨.loop raftStateSize flips, rfl, by simp, by simp⟩
      · exact Or.inl rfl
    | snapshot =>
      simp only [KvNode.serverStep]
      split <;> exact Or.inl rfl
    | handler i point =>
      simp only [KvNode.serverStep, KvNode.handlerStep]
      split
      · exact Or.inl rfl
      · split
        · exact Or.inl rfl
        · refine Or.inr ⟨.handler i _, rfl, by simp, fun j hj => ?_⟩
          obtain ⟨rfl, haction⟩ := KvAction.handler.inj hj
          cases point <;> first | rfl | cases haction
  · exact Or.inl rfl

theorem processes_server_self (asString : Op → String) (ar : Archives) (s : Deployment n) (p : Fin n)
    (a : ServerAction) : (s.step asString ar (.server p a)).processes p =
      ((s.node p).step asString ar p (.server a)).process := by
  simp [step]

theorem processes_server_of_ne (asString : Op → String) (ar : Archives) (s : Deployment n)
    (hq : q ≠ p) (a : ServerAction) :
    (s.step asString ar (.server p a)).processes q = s.processes q := by
  simp [step, hq]

theorem server_step (asString : Op → String) (ar : Archives) (s : Deployment n)
    (a : DeploymentAction n) (q : Fin n) : ServerMoves ar q s a (s.step asString ar a) := by
  have hidle : ∀ {s' : Deployment n}, s'.cluster.applyChan q = s.cluster.applyChan q →
      (s'.processes q).server = (s.processes q).server → ServerMoves ar q s a s' :=
    fun hchan hserver => .forwards (hchan.trans (List.append_nil _).symm) hserver
  cases a with
  | cluster b =>
    simp only [step]
    split_ifs
    · exact hidle rfl rfl
    · obtain ⟨messages, hmessages⟩ := s.cluster.applyChan_grows b q
      refine .forwards hmessages ?_
      simp [KvNode.process, KvNode.forward, node, hmessages]
  | server p a =>
    have hchan := congrFun (cluster_step asString ar s (.server p a)).applyChan_server q
    by_cases hq : q = p
    · subst hq
      have hself : ((s.step asString ar (.server q a)).processes q).server =
          ((s.node q).step asString ar q (.server a)).server :=
        congrArg Process.server (processes_server_self asString ar s q a)
      rcases node_server_step asString ar q (s.node q) a with hsame | ⟨b, hb, hown, hget⟩
      · exact hidle hchan (hself.trans hsame)
      · exact .acts hchan (hself.trans hb) hown fun i hi => by rw [hget i hi]
    · exact hidle hchan (congrArg Process.server (processes_server_of_ne asString ar s hq a))

/-! ## Invariants of every run -/

/-- A handler of some server was called with an operation that is archived so. -/
def Submitted (asString : Op → String) (s : Deployment n) (command : String) : Prop :=
  ∃ p, ∃ op ∈ (s.processes p).server.called, command = asString op

structure Sound (asString : Op → String) (ar : Archives) (s : Deployment n) : Prop where
  indexed : s.cluster.Indexed
  node : ∀ p, (s.node p).Sound p
  announced : s.cluster.Announced
  carries : s.cluster.Carries (Submitted asString s)
  tracked : ∀ p, (s.processes p).server.Tracked ar
  received : ∀ p, (s.processes p).server.received = s.cluster.applyChan p

theorem sound_init (n : ℕ) (maxRaftState : ℤ) : Sound asString ar (init n maxRaftState) where
  indexed := Cluster.indexed_init n
  node := fun p => KvNode.sound_init p maxRaftState
  announced := Cluster.announced_init n
  carries := Cluster.carries_init _
  tracked := fun _ => KvAudit.tracked_init maxRaftState
  received := fun _ => rfl

theorem ServerMoves.induct {s' : Deployment n} (h : ServerMoves ar q s a s') {P : KvAudit → Prop}
    (h₀ : P (s.processes q).server) (hstep : ∀ server b, P server → P (server.step ar b)) :
    P (s'.processes q).server := by
  cases h with
  | @forwards messages _ server =>
    rw [server]
    exact run_invariant h₀ (fun server message => hstep server (.push message)) messages
  | acts _ server => exact server ▸ hstep _ _ h₀

theorem called_step (asString : Op → String) (ar : Archives) (s : Deployment n)
    (a : DeploymentAction n) (q : Fin n) :
    (s.processes q).server.called <+: ((s.step asString ar a).processes q).server.called :=
  (server_step asString ar s a q).induct
    (P := fun server => (s.processes q).server.called <+: server.called) List.prefix_rfl
    fun server b h => h.trans (server.called_prefix b)

theorem processed_step (asString : Op → String) (ar : Archives) (s : Deployment n)
    (a : DeploymentAction n) (q : Fin n) :
    (s.kv q).processed <+: ((s.step asString ar a).kv q).processed :=
  (server_step asString ar s a q).induct
    (P := fun server => (s.kv q).processed <+: server.kv.processed) List.prefix_rfl
    fun server b h => h.trans (server.processed_prefix b)

theorem Submitted.step {command : String} (h : Submitted asString s command) (a : DeploymentAction n) :
    Submitted asString (s.step asString ar a) command := by
  obtain ⟨p, op, hop, hcommand⟩ := h
  exact ⟨p, op, (called_step asString ar s a p).subset hop, hcommand⟩

theorem received_foldl (messages : List ApplyMsg) (server : KvAudit) :
    (messages.foldl (fun server message => server.step ar (.push message)) server).received =
      server.received ++ messages := by
  induction messages generalizing server with
  | nil => exact (List.append_nil _).symm
  | cons message messages ih =>
    rw [List.foldl_cons, ih, KvAudit.received_push, List.append_assoc]
    rfl

theorem Moves.spec {c : Cluster n} (h : Moves asString s a c) :
    c = s.cluster ∨ ∃ b, c = s.cluster.step b := by
  cases h with
  | stays => exact Or.inl rfl
  | moves => exact Or.inr ⟨_, rfl⟩
  | starts => exact Or.inr ⟨_, rfl⟩
  | snapshots => exact Or.inr ⟨_, rfl⟩

theorem Sound.node_step (h : Sound asString ar s) (a : DeploymentAction n) (q : Fin n) :
    ((s.step asString ar a).node q).Sound q := by
  have hmoves := cluster_step asString ar s a
  cases a with
  | cluster b =>
    simp only [step]
    split_ifs
    · exact h.node q
    · exact (h.node q).cluster b
  | server p a =>
    by_cases hq : q = p
    · subst hq
      have hself : (s.step asString ar (.server q a)).node q =
          (s.node q).step asString ar q (.server a) := by
        simp only [Deployment.node, processes_server_self]
        rfl
      rw [hself]
      exact (h.node q).step (.server a)
    · have hnode : (s.step asString ar (.server p a)).node q =
          { s.node q with cluster := (s.step asString ar (.server p a)).cluster } := by
        simp only [Deployment.node, processes_server_of_ne asString ar s hq]
      rw [hnode]
      rcases hmoves.spec with hc | ⟨b, hc⟩
      · rw [hc]
        exact h.node q
      · rw [hc]
        have hs := Cluster.step_spec s.cluster b
        exact (h.node q).quiet ⟨rfl, rfl, rfl, rfl, rfl, ((h.node q).indexed.advances hs q).last⟩
          ((h.node q).indexed.step hs) (h.node q).sourced

theorem Sound.carries_step (h : Sound asString ar s) (a : DeploymentAction n) :
    (s.step asString ar a).cluster.Carries (Submitted asString (s.step asString ar a)) := by
  have hgrows : s.cluster.Carries (Submitted asString (s.step asString ar a)) :=
    h.carries.mono fun command hc => hc.step a
  have hmoves := cluster_step asString ar s a
  generalize hc : (s.step asString ar a).cluster = c at hmoves
  cases hmoves with
  | stays => exact hgrows
  | moves call =>
    refine hgrows.step h.indexed (Cluster.step_spec _ _) ?_
    rintro p command rfl
    cases call
  | @starts p i hd handler =>
    refine hgrows.step h.indexed (Cluster.step_spec _ _) ?_
    rintro p' command hb
    obtain ⟨rfl, rfl⟩ := Action.start.inj hb
    refine Submitted.step ⟨p, hd.op, ?_, rfl⟩ _
    exact List.mem_map_of_mem (List.mem_of_getElem? handler)
  | snapshots =>
    refine hgrows.step h.indexed (Cluster.step_spec _ _) ?_
    rintro p command hb
    cases hb

theorem Sound.step (h : Sound asString ar s) (a : DeploymentAction n) :
    Sound asString ar (s.step asString ar a) := by
  have hcluster : (s.step asString ar a).cluster.Indexed ∧
      (s.step asString ar a).cluster.Announced := by
    rcases (cluster_step asString ar s a).spec with hc | ⟨b, hc⟩
    · rw [hc]
      exact ⟨h.indexed, h.announced⟩
    · rw [hc]
      have hs := Cluster.step_spec s.cluster b
      exact ⟨h.indexed.step hs, h.announced.step h.indexed hs⟩
  refine ⟨hcluster.1, h.node_step a, hcluster.2, h.carries_step a, fun p => ?_, fun p => ?_⟩
  · exact (server_step asString ar s a p).induct (h.tracked p) fun _ b ht => ht.step b
  · cases server_step asString ar s a p with
    | forwards chan server => rw [chan, server, received_foldl, h.received p]
    | acts chan server own => rw [chan, server, KvAudit.received_step _ own, h.received p]

theorem sound_runOf (asString : Op → String) (ar : Archives) (maxRaftState : ℤ)
    (acts : List (DeploymentAction n)) : Sound asString ar (runOf asString ar maxRaftState acts) :=
  run_invariant (sound_init n maxRaftState) (fun _ a h => h.step a) acts

theorem Sound.processed_prefix (h : Sound asString ar s) (p : Fin n) :
    (s.kv p).processed <+: s.cluster.applyChan p :=
  ⟨(s.kv p).applyChan, h.received p⟩

theorem Sound.submitted (h : Sound asString ar s) {message : ApplyMsg}
    (hmem : message ∈ (s.kv p).processed) (hvalid : message.commandValid = true) :
    Submitted asString s message.command := by
  have hchan : message ∈ s.cluster.queue p :=
    List.mem_append_left _ ((h.processed_prefix p).subset hmem)
  exact h.carries.applied _ (h.announced.queue p message hchan hvalid)

/-! ## Clean runs and servers without snapshots -/

/-- The step strands no entry. -/
def Clean (s : Deployment n) : DeploymentAction n → Prop
  | .cluster a => s.cluster.Clean a
  | .server _ _ => True

instance Clean.decidable (s : Deployment n) : ∀ a, Decidable (s.Clean a)
  | .cluster a => inferInstanceAs (Decidable (s.cluster.Clean a))
  | .server _ _ => inferInstanceAs (Decidable True)

/-- The step installs no snapshot on node `p`. -/
def Uninstalled (p : Fin n) (s : Deployment n) : DeploymentAction n → Prop
  | .cluster a => s.cluster.Uninstalled p a
  | .server _ _ => True

instance Uninstalled.decidable (p : Fin n) (s : Deployment n) : ∀ a, Decidable (s.Uninstalled p a)
  | .cluster a => inferInstanceAs (Decidable (s.cluster.Uninstalled p a))
  | .server _ _ => inferInstanceAs (Decidable True)

/-- A `Get` handler of `p` that executes finds its own request in the table. -/
def Recorded (p : Fin n) (s : Deployment n) (a : DeploymentAction n) : Prop :=
  ∀ i, a = .server p (.handler i .executeGet) → (s.kv p).Recorded (.handler i .executeGet)

theorem clean_history {maxRaftState : ℤ} {acts : List (DeploymentAction n)}
    (h : Along (step asString ar) Clean (init n maxRaftState) acts) :
    ∃ moves, (runOf asString ar maxRaftState acts).cluster = Cluster.runOf moves ∧
      Along Cluster.step Cluster.Clean (Cluster.init n) moves := by
  refine run_invariant_along (P := fun s : Deployment n => ∃ moves,
    s.cluster = Cluster.runOf moves ∧ Along Cluster.step Cluster.Clean (Cluster.init n) moves)
    ⟨[], rfl, trivial⟩ (fun s a hs hclean => ?_) h
  obtain ⟨moves, hrun, halong⟩ := hs
  have hnext : ∀ b, s.cluster.Clean b → ∃ moves', s.cluster.step b = Cluster.runOf moves' ∧
      Along Cluster.step Cluster.Clean (Cluster.init n) moves' := by
    intro b hb
    refine ⟨moves ++ [b], ?_, along_append.mpr ⟨halong, ?_, trivial⟩⟩
    · rw [Cluster.runOf_concat, ← hrun]
    · exact (show Cluster.Clean (Cluster.runOf moves) b from hrun ▸ hb)
  have hmoves := cluster_step asString ar s a
  generalize (s.step asString ar a).cluster = c at hmoves ⊢
  cases hmoves with
  | stays => exact ⟨moves, hrun, halong⟩
  | moves => exact hnext _ hclean
  | starts => exact hnext _ trivial
  | snapshots => exact hnext _ trivial

theorem appliedAgree_runOf {maxRaftState : ℤ} {acts : List (DeploymentAction n)}
    (h : Along (step asString ar) Clean (init n maxRaftState) acts) :
    (runOf asString ar maxRaftState acts).cluster.AppliedAgree := by
  obtain ⟨moves, hrun, hclean⟩ := clean_history h
  obtain ⟨H, hH⟩ := Cluster.coupled_runOf hclean
  rw [hrun]
  exact hH.appliedAgree

theorem Sound.delivered (h : Sound asString ar s) {index : ℤ} {str : String}
    (hmade : (index, str) ∈ (s.kv p).snapshots) : s.cluster.Delivered (.snapshot p index str) := by
  obtain ⟨message, hmem, hvalid, hindex⟩ := (h.tracked p).snapshots _ hmade
  exact ⟨message, (h.processed_prefix p).subset hmem, hvalid, hindex⟩

structure InSequence (p : Fin n) (s : Deployment n) : Prop where
  commands : s.cluster.CommandsOnly p
  queued : s.cluster.Queued p

theorem InSequence.step (h : InSequence p s) (hS : Sound asString ar s)
    (hfree : Uninstalled p s a) : InSequence p (s.step asString ar a) := by
  have hnext : ∀ b, s.cluster.Uninstalled p b → s.cluster.Delivered b →
      Cluster.CommandsOnly p (s.cluster.step b) ∧ (s.cluster.step b).Queued p :=
    fun b hb hsnap => ⟨h.commands.step hS.indexed (Cluster.step_spec _ _) hb,
      h.commands.queued_step h.queued hS.indexed hb hsnap⟩
  have hmoves := cluster_step asString ar s a
  suffices hnew : Cluster.CommandsOnly p (s.step asString ar a).cluster ∧
      (s.step asString ar a).cluster.Queued p from ⟨hnew.1, hnew.2⟩
  generalize (s.step asString ar a).cluster = c at hmoves ⊢
  cases hmoves with
  | stays => exact ⟨h.commands, h.queued⟩
  | @moves b call =>
    refine hnext b hfree ?_
    cases b with
    | snapshot => cases call
    | _ => exact trivial
  | starts => exact hnext _ trivial trivial
  | snapshots made => exact hnext _ trivial (hS.delivered made)

theorem inSequence_runOf {maxRaftState : ℤ} {acts : List (DeploymentAction n)}
    (h : Along (step asString ar) (Uninstalled p) (init n maxRaftState) acts) :
    InSequence p (runOf asString ar maxRaftState acts) := by
  refine (run_invariant_along (P := fun s => Sound asString ar s ∧ InSequence p s)
    ⟨sound_init n maxRaftState, Cluster.commandsOnly_init p, Cluster.queued_init p⟩
    (fun s a hs hfree => ⟨hs.1.step a, hs.2.step hs.1 hfree⟩) h).2

theorem InSequence.plain (h : InSequence p s) (hA : s.cluster.Announced) {message : ApplyMsg}
    (hmem : message ∈ s.cluster.applyChan p) : KvAudit.Plain message := by
  have hqueue := List.mem_append_left ((s.cluster.pending p).map Prod.snd) hmem
  have hvalid := h.commands.queue message hqueue
  refine ⟨hvalid, ?_, ?_⟩
  · exact congrArg ApplyMsg.snapshotValid (hA.shape _ (hA.queue p message hqueue hvalid))
  · obtain ⟨k, hk⟩ := List.getElem?_of_mem hmem
    have hindex := h.queued.index_eq h.commands hk
    omega

theorem inTurn_runOf {maxRaftState : ℤ} {acts : List (DeploymentAction n)}
    (h : Along (step asString ar) (Uninstalled p) (init n maxRaftState) acts) :
    ((runOf asString ar maxRaftState acts).processes p).server.InTurn ar := by
  refine (run_invariant_along (P := fun s => Sound asString ar s ∧ InSequence p s ∧
      (s.processes p).server.InTurn ar)
    ⟨sound_init n maxRaftState, ⟨Cluster.commandsOnly_init p, Cluster.queued_init p⟩,
      KvAudit.inTurn_init maxRaftState⟩ (fun s a hs hfree => ?_) h).2.2
  obtain ⟨hS, hseq, hturn⟩ := hs
  refine ⟨hS.step a, hseq.step hS hfree, ?_⟩
  cases server_step asString ar s a p with
  | @forwards messages _ server =>
    rw [server]
    have hpush : ∀ (server : KvAudit) message, server.InTurn ar →
        (server.step ar (.push message)).InTurn ar := fun _ _ ht => ⟨ht.upTo, ht.snapIndex⟩
    exact run_invariant hturn hpush messages
  | @acts b _ server _ _ =>
    rw [server]
    refine hturn.step (hS.tracked p) (fun message hmem => ?_) b
    rw [hS.received p] at hmem
    exact hseq.plain hS.announced hmem

theorem InSequence.valid (h : InSequence p s) (hS : Sound asString ar s) {message : ApplyMsg}
    (hmem : message ∈ (s.kv p).processed) : message.commandValid = true :=
  h.commands.queue message (List.mem_append_left _ ((hS.processed_prefix p).subset hmem))

theorem InSequence.index_eq (h : InSequence p s) (hS : Sound asString ar s) {k : ℕ}
    {message : ApplyMsg} (hk : (s.kv p).processed[k]? = some message) :
    message.commandIndex = k + 1 :=
  h.queued.index_eq h.commands (getElem?_of_isPrefix (hS.processed_prefix p) hk)

theorem InSequence.agree (hp : InSequence p s) (hq : InSequence q s) (hS : Sound asString ar s)
    (hA : s.cluster.AppliedAgree) {k : ℕ} {message message' : ApplyMsg}
    (hk : (s.kv p).processed[k]? = some message) (hk' : (s.kv q).processed[k]? = some message') :
    message = message' :=
  hA.chan_eq hS.announced hp.commands hq.commands hp.queued hq.queued
    (getElem?_of_isPrefix (hS.processed_prefix p) hk)
    (getElem?_of_isPrefix (hS.processed_prefix q) hk')

/-! ## One log for all servers -/

theorem follows_runOf {maxRaftState : ℤ} {acts : List (DeploymentAction n)}
    (h : Along (step asString ar) (Recorded p) (init n maxRaftState) acts) :
    ((runOf asString ar maxRaftState acts).kv p).Follows ar := by
  refine run_invariant_along (P := fun s : Deployment n => (s.kv p).Follows ar)
    (KvSystem.follows_init maxRaftState) (fun s a hs hrec => ?_) h
  cases server_step asString ar s a p with
  | @forwards messages _ server =>
    simp only [kv, server]
    refine run_invariant (P := fun server : KvAudit => server.kv.Follows ar) hs
      (fun server message hf => ?_) messages
    rw [KvAudit.step_kv]
    exact hf.step trivial
  | @acts b _ server own get =>
    simp only [kv, server, KvAudit.step_kv]
    refine KvSystem.Follows.step hs ?_
    cases b with
    | handler i point =>
      cases point with
      | executeGet => exact hrec i (get i rfl)
      | _ => exact trivial
    | _ => exact trivial

/-- Every server that installs no snapshot has processed an initial part of one log, whose entries
are numbered from 1 and were submitted to some server; and unless one of its `Get` handlers has
written to the table of request ids, it holds what that part makes of an empty store. -/
theorem servers_share_one_log (asString : Op → String) (ar : Archives) (maxRaftState : ℤ)
    {acts : List (DeploymentAction n)}
    (hclean : Along (step asString ar) Clean (init n maxRaftState) acts) :
    let s := runOf asString ar maxRaftState acts
    ∃ log : List ApplyMsg,
      (∀ (k : ℕ) message, log[k]? = some message →
        message.commandIndex = k + 1 ∧ Submitted asString s message.command) ∧
      ∀ p, Along (step asString ar) (Uninstalled p) (init n maxRaftState) acts →
        (s.kv p).processed <+: log ∧
        (Along (step asString ar) (Recorded p) (init n maxRaftState) acts →
          (s.kv p).loop = .popping →
          Mirrors (s.kv p).server (Replica.replay ar (log.take (s.kv p).processed.length))) := by
  intro s
  have hS : Sound asString ar s := sound_runOf asString ar maxRaftState acts
  have hA : s.cluster.AppliedAgree := appliedAgree_runOf hclean
  obtain ⟨log, hextends, hfrom⟩ := exists_common_extension
    (fun p : { p : Fin n // Along (step asString ar) (Uninstalled p) (init n maxRaftState) acts } =>
      (s.kv p).processed)
    (fun p q k x y => (inSequence_runOf p.2).agree (inSequence_runOf q.2) hS hA)
  refine ⟨log, fun k message hk => ?_, fun p hp => ⟨hextends ⟨p, hp⟩, fun hrec hidle => ?_⟩⟩
  · obtain ⟨p, hk⟩ := hfrom k message hk
    have hseq := inSequence_runOf p.2
    have hmem := List.mem_of_getElem? hk
    exact ⟨hseq.index_eq hS hk, hS.submitted hmem (hseq.valid hS hmem)⟩
  · have htake : log.take (s.kv p).processed.length = (s.kv p).processed :=
      (List.prefix_iff_eq_take.mp (hextends ⟨p, hp⟩)).symm
    have hmirrors : (s.kv p).Follows ar := follows_runOf hrec
    simp only [KvSystem.Follows, hidle] at hmirrors
    rw [htake]
    exact hmirrors

/-! ## Reads and writes in real time -/

theorem processed_run (asString : Op → String) (ar : Archives) (s : Deployment n)
    (acts : List (DeploymentAction n)) (p : Fin n) :
    (s.kv p).processed <+: ((run (step asString ar) s acts).kv p).processed :=
  run_invariant (P := fun t : Deployment n => (s.kv p).processed <+: (t.kv p).processed)
    List.prefix_rfl (fun t a h => h.trans (processed_step asString ar t a p)) acts

theorem InSequence.acknowledged (h : InSequence p s) (hS : Sound asString ar s)
    (hturn : (s.processes p).server.InTurn ar) {hd : Handler} (hmem : hd ∈ (s.kv p).handlers)
    (hack : hd.Acknowledges) :
    ∃ k message, (s.kv p).processed[k]? = some message ∧ k < (s.processes p).server.handled.length ∧
      (ar.parseOp message.command).clientId = hd.op.clientId ∧
      hd.op.requestId ≤ (ar.parseOp message.command).requestId := by
  rcases (hS.node p).sourced.handlers hd hmem hack with
    ⟨op, hop, hclient, hle⟩ | ⟨table, htable, -⟩
  · obtain ⟨k, hk⟩ := List.getElem?_of_mem hop
    have hproc := getElem?_of_isPrefix hturn.handled_prefix hk
    rw [KvAudit.opsOf, List.getElem?_map] at hproc
    obtain ⟨message, hmessage, rfl⟩ := Option.map_eq_some_iff.mp hproc
    exact ⟨k, message, hmessage, (List.getElem?_eq_some_iff.mp hk).1, hclient, hle⟩
  · -- a command carries no snapshot
    obtain ⟨message, hmessage, hsnap⟩ :=
      (hS.tracked p).installed (List.ne_nil_of_mem htable)
    have hplain := h.plain hS.announced ((hS.processed_prefix p).subset hmessage)
    rw [hplain.bare] at hsnap
    cases hsnap

/-- A read sees every write that was acknowledged before the read was called, in a run that strands no
entry and installs no snapshot on the two servers. The write went to `p` and is the writer's last
request so far; the read goes to `q`, and when the write was acknowledged no request of the reader
with its id or a later one had been made. When the read is about to execute, the apply loop of `q`
has dealt with the write's own entry. -/
theorem reads_see_acknowledged_writes (asString : Op → String) (ar : Archives) (maxRaftState : ℤ)
    {before after : List (DeploymentAction n)} {p q : Fin n} {write read : Handler}
    (hclean : Along (step asString ar) Clean (init n maxRaftState) (before ++ after))
    (hp : Along (step asString ar) (Uninstalled p) (init n maxRaftState) (before ++ after))
    (hq : Along (step asString ar) (Uninstalled q) (init n maxRaftState) (before ++ after))
    (hround : ∀ r, ∀ op ∈ ((runOf asString ar maxRaftState before).processes r).server.called,
      ar.parseOp (asString op) = op)
    (hwrite : write ∈ ((runOf asString ar maxRaftState before).kv p).handlers)
    (hacked : write.Acknowledges)
    (hlast : ∀ r, ∀ op ∈ ((runOf asString ar maxRaftState before).processes r).server.called,
      op.clientId = write.op.clientId → write.op.requestId ≤ op.requestId → op = write.op)
    (hread : read ∈ ((runOf asString ar maxRaftState (before ++ after)).kv q).handlers)
    (hanswers : read.Acknowledges)
    (hnew : ∀ r, ∀ op ∈ ((runOf asString ar maxRaftState before).processes r).server.called,
      op.clientId = read.op.clientId → op.requestId < read.op.requestId) :
    write.op ∈ ((runOf asString ar maxRaftState (before ++ after)).processes q).server.handled := by
  set s := runOf asString ar maxRaftState before with hs
  set t := runOf asString ar maxRaftState (before ++ after) with ht
  have hS : Sound asString ar s := sound_runOf asString ar maxRaftState before
  have hT : Sound asString ar t := sound_runOf asString ar maxRaftState _
  have hA : t.cluster.AppliedAgree := appliedAgree_runOf hclean
  have hseqs : InSequence p s := inSequence_runOf (along_append.mp hp).1
  have hseqp : InSequence p t := inSequence_runOf hp
  have hseqq : InSequence q t := inSequence_runOf hq
  have hgrows : (s.kv p).processed <+: (t.kv p).processed := by
    rw [ht, runOf, run_append]
    exact processed_run asString ar s after p
  -- whatever `p` has processed by the acknowledgement was called before
  have hcalled : ∀ message ∈ (s.kv p).processed, ∃ r,
      ar.parseOp message.command ∈ (s.processes r).server.called := by
    intro message hmem
    obtain ⟨r, op, hop, hcommand⟩ := hS.submitted hmem (hseqs.valid hS hmem)
    exact ⟨r, by rwa [hcommand, hround r op hop]⟩
  obtain ⟨i, message, hi, -, hclient, hle⟩ :=
    hseqs.acknowledged hS (inTurn_runOf (along_append.mp hp).1) hwrite hacked
  have hop : ar.parseOp message.command = write.op := by
    obtain ⟨r, hr⟩ := hcalled message (List.mem_of_getElem? hi)
    exact hlast r _ hr hclient hle
  have hturn : (t.processes q).server.InTurn ar := inTurn_runOf hq
  obtain ⟨j, entry, hj, hjlen, hreader, hge⟩ := hseqq.acknowledged hT hturn hread hanswers
  -- the read's entry lies behind everything that `p` had processed
  have hij : (s.kv p).processed.length ≤ j := by
    by_contra hlt
    have hpj := List.getElem?_eq_getElem (not_le.mp hlt)
    have hsame := hseqp.agree hseqq hT hA (getElem?_of_isPrefix hgrows hpj) hj
    obtain ⟨r, hr⟩ := hcalled entry (hsame ▸ List.getElem_mem (not_le.mp hlt))
    exact absurd (hnew r _ hr hreader) (not_lt.mpr hge)
  have hilen : i < (t.processes q).server.handled.length := by
    have hi' := (List.getElem?_eq_some_iff.mp hi).1
    omega
  -- so `q` has dealt with the entry at the place of the write, which is the write
  have hqi := getElem?_of_isPrefix hturn.handled_prefix (List.getElem?_eq_getElem hilen)
  rw [KvAudit.opsOf, List.getElem?_map] at hqi
  obtain ⟨message', hmessage', hparse⟩ := Option.map_eq_some_iff.mp hqi
  have hsame := hseqp.agree hseqq hT hA (getElem?_of_isPrefix hgrows hi) hmessage'
  rw [← hop, hsame, hparse]
  exact List.getElem_mem hilen

def opText (op : Op) : String :=
  if op.operation = "Put" then "22 serialization::archive 17 0 0 3 Put 1 k 1 v 1 c 1"
  else "22 serialization::archive 17 0 0 3 Get 1 k 0  1 d 1"

def opArchives : Archives :=
  { textArchives with
    parseOp := fun text =>
      if text = "22 serialization::archive 17 0 0 3 Put 1 k 1 v 1 c 1" then ⟨"Put", "k", "v", "c", 1⟩
      else ⟨"Get", "k", "", "d", 1⟩ }

def appliedBy (p : Fin 3) : List (DeploymentAction 3) :=
  List.replicate 5 (.server p (.loop 0 fun _ => 0))

section GetRun

open Cluster (leading following)

/-- Server 0 leads and acknowledges a `Put` of client `c`. -/
def putRun : List (DeploymentAction 3) :=
  [.cluster (.doElection leading), .cluster (.requestVote 0 following),
    .cluster (.sendRequestVote 0 following 0), .server leading (.putAppend "Put" "k" "v" "c" 1),
    .server leading (.handler 0 .start), .server leading (.handler 0 .openWaitChan),
    .cluster (.doHeartBeat leading), .cluster (.appendEntries1 0 following),
    .cluster (.sendAppendEntries 0 following 0), .cluster (.getApplyLogs leading),
    .cluster (.applierPush leading)] ++
    appliedBy leading ++ [.server leading (.handler 0 .pop)]

/-- Then server 1 leads, and a `Get` of client `d` there is about to execute. -/
def getRun : List (DeploymentAction 3) :=
  [.cluster (.doElection following), .cluster (.requestVote 1 leading),
    .cluster (.sendRequestVote 1 leading 0), .server following (.get "k" "d" 1),
    .server following (.handler 0 .start), .server following (.handler 0 .openWaitChan),
    .cluster (.doHeartBeat following), .cluster (.appendEntries1 1 leading),
    .cluster (.sendAppendEntries 1 leading 0), .cluster (.getApplyLogs following),
    .cluster (.applierPush following), .cluster (.applierPush following)] ++
    appliedBy following ++ appliedBy following ++ [.server following (.handler 0 .pop)]

theorem servers_share_one_log_getRun :
    let s := runOf opText opArchives (-1) (putRun ++ getRun)
    (s.kv leading).processed.length = 1 ∧ (s.kv following).processed.length = 2 ∧
      ∃ log, (s.kv leading).processed <+: log ∧ (s.kv following).processed <+: log := by
  have hclean : Along (step opText opArchives) Clean (init 3 (-1)) (putRun ++ getRun) := by
    decide +kernel
  obtain ⟨log, -, hservers⟩ := servers_share_one_log opText opArchives (-1) hclean
  exact ⟨by decide +kernel, by decide +kernel, log, (hservers leading (by decide +kernel)).1,
    (hservers following (by decide +kernel)).1⟩

theorem reads_see_acknowledged_writes_getRun :
    (⟨"Put", "k", "v", "c", 1⟩ : Op) ∈
      ((runOf opText opArchives (-1) (putRun ++ getRun)).processes following).server.handled := by
  have hclean : Along (step opText opArchives) Clean (init 3 (-1)) (putRun ++ getRun) := by
    decide +kernel
  have hp : Along (step opText opArchives) (Uninstalled leading) (init 3 (-1))
      (putRun ++ getRun) := by
    decide +kernel
  have hq : Along (step opText opArchives) (Uninstalled following) (init 3 (-1))
      (putRun ++ getRun) := by
    decide +kernel
  have hwrite : (⟨.putAppend, ⟨"Put", "k", "v", "c", 1⟩, .closing 1 ⟨.ok, ""⟩⟩ : Handler) ∈
      ((runOf opText opArchives (-1) putRun).kv leading).handlers := by decide +kernel
  have hread : (⟨.get, ⟨"Get", "k", "", "d", 1⟩, .executing 2⟩ : Handler) ∈
      ((runOf opText opArchives (-1) (putRun ++ getRun)).kv following).handlers := by
    decide +kernel
  have hok : Err.ok ≠ Err.errWrongLeader := by decide
  exact reads_see_acknowledged_writes opText opArchives (-1) hclean hp hq (by decide +kernel) hwrite
    hok (by decide +kernel) hread trivial (by decide +kernel)

end GetRun

end Deployment
end RaftStorage
