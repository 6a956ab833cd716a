import RaftStorage.Cluster.ApplyChannel
import RaftStorage.Cluster.Safety

/-! What the nodes hand to their servers. A command that waits for a server or has reached it was
returned by `getApplyLogs` and was once given to `Start`; on a node that installs no snapshot the
channel holds the commands of the indexes 1, 2, 3 and so on, and two such channels agree wherever
both have got. -/

namespace RaftStorage
open Library
namespace Cluster

variable {n : ℕ} {s s' : Cluster n} {a : Action n} {p q : Fin n}

/-! ## Where a command comes from -/

theorem Step.applied_mono (hs : Step s a s') {x : Fin n × ApplyMsg} (hx : x ∈ s.applied) :
    x ∈ s'.applied := by
  cases hs with
  | @doElection _ _ out => cases out <;> exact hx
  | @doHeartBeat _ out => cases out <;> exact hx
  | getApplyLogs => exact List.mem_append_left _ hx
  | _ => exact hx

structure Announced (s : Cluster n) : Prop where
  queue : ∀ p, ∀ msg ∈ s.queue p, msg.commandValid = true → (p, msg) ∈ s.applied
  shape : ∀ x ∈ s.applied, x.2 =
    { commandValid := true, command := x.2.command, commandIndex := x.2.commandIndex }

theorem announced_init (n : ℕ) : (init n).Announced where
  queue := by simp [queue, init]
  shape := by simp [init]

theorem Indexed.queue_step (hI : s.Indexed) (hs : Step s a s') {msg : ApplyMsg}
    (hmsg : msg ∈ s'.queue p) (hvalid : msg.commandValid = true) :
    msg ∈ s.queue p ∨ (p, msg) ∈ s'.applied := by
  cases hI.delivery hs p with
  | same _ queue => exact Or.inl (queue ▸ hmsg)
  | install _ _ _ _ _ _ isSnapshot queue =>
    rw [queue, List.mem_append, List.mem_singleton] at hmsg
    rcases hmsg with hmsg | rfl
    · exact Or.inl hmsg
    · rw [isSnapshot.1] at hvalid
      cases hvalid
  | snapshot _ queue => exact Or.inl (queue ▸ hmsg)
  | collect _ _ queue =>
    cases hs with
    | idle => exact Or.inl hmsg
    | exit => exact Or.inl hmsg
    | @getApplyLogs _ rf msgs =>
      rw [queue_recordApply, if_pos rfl] at hmsg
      rcases List.mem_append.mp hmsg with hmsg | hmsg
      · exact Or.inl hmsg
      · exact Or.inr (List.mem_append_right _ (List.mem_map_of_mem hmsg))
    | push message action => rcases action with ⟨hact, -⟩ | hact <;> cases hact
  | @push _ k _ _ _ message _ _ queue =>
    rw [queue, List.mem_append, List.mem_cons] at hmsg
    refine Or.inl ?_
    rw [Cluster.queue, List.mem_append]
    rcases hmsg with hmsg | rfl | hmsg
    · exact Or.inl hmsg
    · exact Or.inr (List.mem_map.mpr ⟨_, List.mem_of_getElem? message, rfl⟩)
    · obtain ⟨x, hx, rfl⟩ := List.mem_map.mp hmsg
      exact Or.inr (List.mem_map_of_mem (List.mem_of_mem_eraseIdx hx))

theorem Indexed.applied_read (hI : s.Indexed) (hs : Step s a s') {x : Fin n × ApplyMsg}
    (hx : x ∈ s'.applied) : x ∈ s.applied ∨ ∃ e ∈ (s.nodes x.1).logs,
      x.2 = { commandValid := true, command := e.command, commandIndex := e.logIndex } := by
  rcases hs.applied_origin hx with hx | ⟨rf, msgs, heval, hmem⟩
  · exact Or.inl hx
  have hi := hI.node x.1
  obtain ⟨msgs', hok, -, hread⟩ :=
    Raft.getApplyLogs_ok hi.contiguous hi.snap_le hi.applied_le hi.commit_le
  obtain ⟨-, rfl⟩ := Prod.mk.inj (Except.ok.inj (hok.symm.trans heval))
  obtain ⟨k, hk, hget⟩ := List.getElem_of_mem hmem
  obtain ⟨e, he, hidx, hmsg⟩ := hread k x.2 (List.getElem?_eq_some_iff.mpr ⟨hk, hget⟩)
  exact Or.inr ⟨e, he, hmsg⟩

theorem Announced.step (h : s.Announced) (hI : s.Indexed) (hs : Step s a s') : s'.Announced where
  queue := by
    intro p msg hmsg hvalid
    rcases hI.queue_step hs hmsg hvalid with hold | hnew
    · exact hs.applied_mono (h.queue p msg hold hvalid)
    · exact hnew
  shape := by
    intro x hx
    rcases hI.applied_read hs hx with hold | ⟨e, -, hmsg⟩
    · exact h.shape x hold
    · rw [hmsg]

/-- Every command in a log, in a request or handed out is one of `K`. -/
structure Carries (K : String → Prop) (s : Cluster n) : Prop where
  present : ∀ e, s.Present e → K e.command
  applied : ∀ x ∈ s.applied, K x.2.command

theorem carries_init (K : String → Prop) : Carries K (init n) where
  present := fun e he => absurd he (not_present_init n e)
  applied := by simp [init]

theorem Carries.mono {K K' : String → Prop} (h : Carries K s) (hK : ∀ c, K c → K' c) :
    Carries K' s :=
  ⟨fun e he => hK _ (h.present e he), fun x hx => hK _ (h.applied x hx)⟩

theorem Carries.step {K : String → Prop} (h : Carries K s) (hI : s.Indexed) (hs : Step s a s')
    (hstart : ∀ p command, a = .start p command → K command) : Carries K s' where
  present := by
    intro e he
    rcases hI.present_step hs he with hold | ⟨p, command, ha, -, rfl, -⟩
    · exact h.present e hold
    · exact hstart p command ha
  applied := by
    intro x hx
    rcases hI.applied_read hs hx with hold | ⟨e, he, hmsg⟩
    · exact h.applied x hold
    · rw [hmsg]
      exact h.present e (Or.inl ⟨x.1, he⟩)

/-! ## A node that installs no snapshot -/

/-- The step does not run `InstallSnapshot` on node `p`. -/
def Uninstalled (p : Fin n) (s : Cluster n) (a : Action n) : Prop :=
  match a with
  | .installSnapshot t => ∀ th ∈ s.snapShots[t]?, th.server ≠ p
  | _ => True

instance Uninstalled.decidable (p : Fin n) (s : Cluster n) : ∀ a, Decidable (Uninstalled p s a)
  | .installSnapshot t => inferInstanceAs (Decidable (∀ th ∈ s.snapShots[t]?, th.server ≠ p))
  | .doElection _ | .requestVote _ _ | .sendRequestVote _ _ _ | .start _ _ | .doHeartBeat _
  | .appendEntries1 _ _ | .sendAppendEntries _ _ _ | .leaderSendSnapShot _
  | .leaderSendSnapShotReply _ _ | .snapshot _ _ _ | .getApplyLogs _ | .applierPush _
  | .pushMsgToKvServer _ _ => inferInstanceAs (Decidable True)

/-- Only the applier has messages for the server of `p`, and they are commands. -/
structure CommandsOnly (p : Fin n) (s : Cluster n) : Prop where
  pending : ∀ x ∈ s.pending p, x.1 = .applier
  queue : ∀ msg ∈ s.queue p, msg.commandValid = true

theorem commandsOnly_init (p : Fin n) : CommandsOnly p (init n) where
  pending := by simp [init]
  queue := by simp [queue, init]

theorem CommandsOnly.congr (h : CommandsOnly p s) (hpending : s'.pending p = s.pending p)
    (hchan : s'.applyChan p = s.applyChan p) : CommandsOnly p s' where
  pending := hpending ▸ h.pending
  queue := by
    rw [Cluster.queue, hchan, hpending]
    exact h.queue

theorem CommandsOnly.step (h : CommandsOnly p s) (hI : s.Indexed) (hs : Step s a s')
    (hfree : Uninstalled p s a) : CommandsOnly p s' := by
  cases hs with
  | @doElection _ _ out => cases out <;> exact h.congr rfl rfl
  | @doHeartBeat _ out => cases out <;> exact h.congr rfl rfl
  | @installSnapshot t th _ _ _ _ thread =>
    refine h.congr ?_ rfl
    exact Function.update_of_ne (hfree th thread).symm _ _
  | @getApplyLogs q rf msgs eval =>
    by_cases hq : p = q
    · subst hq
      have hi := hI.node p
      obtain ⟨msgs', hok, -, hread⟩ :=
        Raft.getApplyLogs_ok hi.contiguous hi.snap_le hi.applied_le hi.commit_le
      obtain ⟨-, rfl⟩ := Prod.mk.inj (Except.ok.inj (hok.symm.trans eval))
      refine ⟨?_, ?_⟩
      · intro x hx
        simp only [recordApply, Function.update_self, List.mem_append, List.mem_map] at hx
        rcases hx with hx | ⟨msg, -, rfl⟩
        · exact h.pending x hx
        · rfl
      · intro msg hmsg
        rw [queue_recordApply, if_pos rfl] at hmsg
        rcases List.mem_append.mp hmsg with hmsg | hmsg
        · exact h.queue msg hmsg
        · obtain ⟨k, hk, hget⟩ := List.getElem_of_mem hmsg
          obtain ⟨e, -, -, rfl⟩ := hread k msg (List.getElem?_eq_some_iff.mpr ⟨hk, hget⟩)
          rfl
    · exact h.congr (Function.update_of_ne hq _ _) rfl
  | @push _ q k pusher msg message =>
    by_cases hq : p = q
    · subst hq
      refine ⟨?_, ?_⟩
      · intro x hx
        dsimp only at hx
        rw [Function.update_self] at hx
        exact h.pending x (List.mem_of_mem_eraseIdx hx)
      · intro msg' hmsg'
        refine h.queue msg' ?_
        simp only [Cluster.queue, Function.update_self, List.mem_append, List.mem_singleton,
          List.mem_map] at hmsg' ⊢
        rcases hmsg' with (hold | rfl) | ⟨x, hx, rfl⟩
        · exact Or.inl hold
        · exact Or.inr ⟨_, List.mem_of_getElem? message, rfl⟩
        · exact Or.inr ⟨x, List.mem_of_mem_eraseIdx hx, rfl⟩
    · exact h.congr (Function.update_of_ne hq _ _) (Function.update_of_ne hq _ _)
  | _ => exact h.congr rfl rfl

theorem CommandsOnly.inTurn (h : CommandsOnly p s) (hfree : Uninstalled p s a) :
    InTurn p s a ∨ s.step a = s := by
  cases a with
  | installSnapshot t => exact Or.inl fun th hth hserver => absurd hserver (hfree th hth)
  | applierPush q =>
    refine Or.inl fun _ => ?_
    cases hpending : s.pending p with
    | nil => rfl
    | cons x rest =>
      have hx := h.pending x (hpending ▸ List.mem_cons_self)
      simp [List.findIdx?_cons, hx]
  | pushMsgToKvServer q k =>
    by_cases hq : q = p
    · subst hq
      refine Or.inr ?_
      simp only [Cluster.step]
      split
      · rename_i hk
        exact absurd (h.pending _ (List.mem_of_getElem? hk)) (by simp)
      · rfl
    · exact Or.inl fun heq => absurd heq hq
  | _ => exact Or.inl trivial

theorem CommandsOnly.queued_step (h : CommandsOnly p s) (hQ : s.Queued p) (hI : s.Indexed)
    (hfree : Uninstalled p s a) (hsnap : Delivered s a) : (s.step a).Queued p := by
  rcases h.inTurn hfree with hturn | hidle
  · exact hQ.step (hI.delivery (step_spec s a) p) hsnap hturn
  · exact hidle.symm ▸ hQ

open ApplyMsg in
theorem inOrder_index {i : ℤ} {msgs : List ApplyMsg} (h : InOrder i msgs)
    (hvalid : ∀ msg ∈ msgs, msg.commandValid = true) {k : ℕ} {msg : ApplyMsg}
    (hk : msgs[k]? = some msg) : msg.commandIndex = i + 1 + k := by
  induction msgs generalizing i k with
  | nil => simp at hk
  | cons first rest ih =>
    obtain ⟨hfirst, hrest⟩ := inOrder_cons.mp h
    have hcmd := hvalid first List.mem_cons_self
    have hidx : first.commandIndex = i + 1 := by
      rw [Follows, if_pos hcmd] at hfirst
      exact hfirst
    cases k with
    | zero =>
      obtain rfl : first = msg := by simpa using hk
      rw [hidx]
      simp
    | succ k =>
      have hnext := ih hrest (fun m hm => hvalid m (List.mem_cons_of_mem _ hm))
        (by simpa using hk)
      rw [ApplyMsg.index, if_pos hcmd, hidx] at hnext
      rw [hnext]
      push_cast
      omega

theorem Queued.index_eq (hQ : s.Queued p) (h : CommandsOnly p s) {k : ℕ} {msg : ApplyMsg}
    (hk : (s.applyChan p)[k]? = some msg) : msg.commandIndex = k + 1 := by
  have horder := (ApplyMsg.inOrder_append.mp hQ.inOrder).1
  have := inOrder_index horder (fun m hm => h.queue m (List.mem_append_left _ hm)) hk
  omega

theorem AppliedAgree.chan_eq (h : s.AppliedAgree) (hA : s.Announced) (hp : CommandsOnly p s)
    (hq : CommandsOnly q s) (hQp : s.Queued p) (hQq : s.Queued q) {k : ℕ} {msg msg' : ApplyMsg}
    (hk : (s.applyChan p)[k]? = some msg) (hk' : (s.applyChan q)[k]? = some msg') :
    msg = msg' := by
  have hmem := List.mem_append_left ((s.pending p).map Prod.snd) (List.mem_of_getElem? hk)
  have hmem' := List.mem_append_left ((s.pending q).map Prod.snd) (List.mem_of_getElem? hk')
  have happlied := hA.queue p msg hmem (hp.queue msg hmem)
  have happlied' := hA.queue q msg' hmem' (hq.queue msg' hmem')
  have hidx : msg.commandIndex = msg'.commandIndex := by
    rw [hQp.index_eq hp hk, hQq.index_eq hq hk']
  have hcommand := h p q msg msg' happlied happlied' hidx
  calc
    msg = { commandValid := true, command := msg.command, commandIndex := msg.commandIndex } :=
      hA.shape _ happlied
    _ = { commandValid := true, command := msg'.command, commandIndex := msg'.commandIndex } := by
      rw [hcommand, hidx]
    _ = msg' := (hA.shape _ happlied').symm

end Cluster
end RaftStorage
