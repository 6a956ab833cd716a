import RaftStorage.Kv.Node

/-! The memory of the wait channels. A handler allocates the queue for its index and deletes it when
it returns; in between other handlers come and go and the apply loop pushes. The queues that are
allocated are those of the handlers in between, one each: none is leaked, used after it was deleted
or deleted twice. -/

namespace RaftStorage
open Library

/-! ## What a step does to the queues -/

def KvServer.Live (kv : KvServer) (q : ℕ) : Prop := (kv.queues q).isSome = true

theorem KvServer.live_update {kv kv' : KvServer} {q : ℕ} {ops : List Op} (hq : kv.Live q)
    (h : kv'.queues = Function.update kv.queues q (some ops)) (r : ℕ) : kv'.Live r ↔ kv.Live r := by
  unfold Live
  rw [h]
  by_cases hr : r = q
  · subst hr
    rw [Function.update_self]
    exact iff_of_true rfl hq
  · rw [Function.update_of_ne hr]

theorem KvServer.live_popWaitChan {kv kv' : KvServer} {q : ℕ} {op : Op}
    (h : kv.popWaitChan q = some (kv', op)) (r : ℕ) : kv'.Live r ↔ kv.Live r := by
  unfold popWaitChan at h
  split at h
  · rename_i hq
    obtain ⟨rfl, -⟩ := Prod.mk.inj (Option.some.inj h)
    exact live_update (by rw [Live, hq]; rfl) rfl r
  · cases h

theorem KvServer.live_sendMessageToWaitChan (kv : KvServer) (op : Op) (raftIndex : ℤ) (r : ℕ) :
    (kv.sendMessageToWaitChan op raftIndex).1.Live r ↔ kv.Live r := by
  unfold sendMessageToWaitChan Live
  split
  · exact Iff.rfl
  · rename_i q _
    dsimp only
    by_cases hr : r = q
    · subst hr
      rw [Function.update_self, Option.isSome_map]
    · rw [Function.update_of_ne hr]

theorem KvSystem.live_loopStep (ar : Archives) (kv : KvSystem) (raftStateSize : ℤ) (flips : ℕ → ℕ)
    (r : ℕ) : (kv.loopStep ar raftStateSize flips).server.Live r ↔ kv.server.Live r := by
  unfold loopStep
  cases kv.loop with
  | popping => cases kv.applyChan <;> exact Iff.rfl
  | checking message op =>
    dsimp only
    split_ifs <;> exact Iff.rfl
  | executing message op =>
    dsimp only
    split_ifs <;> exact Iff.rfl
  | snapshotting message op => exact Iff.rfl
  | sending message op => exact kv.server.live_sendMessageToWaitChan op message.commandIndex r
  | installing message =>
    obtain ⟨-, hqueues, -⟩ := kv.server.getSnapShotFromRaft_channels ar message flips
    dsimp only
    rw [KvServer.Live, hqueues, KvServer.Live]

inductive QueueStep (kv kv' : KvServer) : Prop
  | keeps (registered : kv'.waitApplyCh = kv.waitApplyCh) (live : ∀ r, kv'.Live r ↔ kv.Live r)
  | opens (x : ℤ) (state : kv' = (kv.openWaitChan x).1)
  | closes (x : ℤ) (state : kv' = kv.closeWaitChan x)

theorem HandlerStep.queueStep {kv kv' : KvServer} {h : Handler} {a : HandlerAction}
    {next : HandlerPhase} (hs : HandlerStep kv h a kv' next) : QueueStep kv kv' := by
  cases hs with
  | @opened x => exact .opens x rfl
  | @closed x => exact .closes x rfl
  | matched _ popped =>
    exact .keeps (KvNode.popWaitChan_channels popped).1 (KvServer.live_popWaitChan popped)
  | mismatched _ popped =>
    exact .keeps (KvNode.popWaitChan_channels popped).1 (KvServer.live_popWaitChan popped)
  | _ => exact .keeps rfl fun _ => Iff.rfl

namespace KvNode

variable {n : ℕ} {p : Fin n} {s s' : KvNode n} {ar : Archives} {asString : Op → String}

/-! ## Allocated and registered -/

def Allocated (kv : KvServer) : Prop := ∀ q, kv.Live q ↔ ∃ x, kv.waitApplyCh x = some q

theorem Allocated.keep {kv kv' : KvServer} (h : Allocated kv)
    (hregistered : kv'.waitApplyCh = kv.waitApplyCh) (hlive : ∀ r, kv'.Live r ↔ kv.Live r) :
    Allocated kv' := by
  intro q
  rw [hlive q, hregistered]
  exact h q

theorem Allocated.openWaitChan {kv : KvServer} (h : Allocated kv) (x : ℤ) :
    Allocated (kv.openWaitChan x).1 := by
  unfold KvServer.openWaitChan
  cases hx : kv.waitApplyCh x with
  | some q => exact h
  | none =>
    intro q
    unfold KvServer.Live
    dsimp only
    by_cases hq : q = kv.queuesMade
    · subst hq
      rw [Function.update_self]
      exact iff_of_true rfl ⟨x, Function.update_self _ _ _⟩
    · rw [Function.update_of_ne hq]
      refine (h q).trans ⟨?_, ?_⟩
      · rintro ⟨y, hy⟩
        have hyx : y ≠ x := by
          rintro rfl
          rw [hx] at hy
          cases hy
        exact ⟨y, by rw [Function.update_of_ne hyx]; exact hy⟩
      · rintro ⟨y, hy⟩
        by_cases hyx : y = x
        · subst hyx
          rw [Function.update_self] at hy
          exact absurd (Option.some.inj hy).symm hq
        · rw [Function.update_of_ne hyx] at hy
          exact ⟨y, hy⟩

theorem Allocated.closeWaitChan {kv : KvServer} (h : Allocated kv)
    (hinj : ∀ x y q, kv.waitApplyCh x = some q → kv.waitApplyCh y = some q → x = y) (x : ℤ) :
    Allocated (kv.closeWaitChan x) := by
  intro q
  have hother : (∃ y, (kv.closeWaitChan x).waitApplyCh y = some q) ↔
      ∃ y, y ≠ x ∧ kv.waitApplyCh y = some q := by
    refine exists_congr fun y => ?_
    unfold KvServer.closeWaitChan
    by_cases hyx : y = x
    · simp [hyx]
    · simp [hyx]
  rw [hother]
  cases hx : kv.waitApplyCh x with
  | none =>
    have hlive : (kv.closeWaitChan x).Live q ↔ kv.Live q := by
      simp only [KvServer.Live, KvServer.closeWaitChan, hx]
    rw [hlive, h q]
    refine exists_congr fun y => ⟨fun hy => ⟨?_, hy⟩, And.right⟩
    rintro rfl
    rw [hx] at hy
    cases hy
  | some r =>
    -- the queue that is deleted was registered under this index only
    have hlive : (kv.closeWaitChan x).Live q ↔ q ≠ r ∧ kv.Live q := by
      unfold KvServer.Live KvServer.closeWaitChan
      by_cases hq : q = r
      · simp [hx, hq]
      · simp [hx, hq]
    rw [hlive, h q]
    constructor
    · rintro ⟨hq, y, hy⟩
      refine ⟨y, ?_, hy⟩
      rintro rfl
      exact hq (Option.some.inj (hy.symm.trans hx))
    · rintro ⟨y, hyx, hy⟩
      refine ⟨?_, y, hy⟩
      rintro rfl
      exact hyx (hinj y x q hy hx)

theorem Sound.allocated_step (h : s.Sound p) (hA : Allocated s.server.kv.server) (a : NodeAction n) :
    Allocated (s.step asString ar p a).server.kv.server := by
  have hE := h.exclusive
  cases a with
  | cluster a =>
    simp only [KvNode.step]
    split_ifs
    · exact hA
    · obtain ⟨-, -, hserver⟩ := push_all ar
        (((s.cluster.step a).applyChan p).drop (s.cluster.applyChan p).length) s.server h.sourced
      rw [forward]
      dsimp only
      rw [hserver]
      exact hA
  | server a =>
    simp only [KvNode.step]
    split_ifs
    · cases a with
      | get => exact hA
      | putAppend => exact hA
      | loop raftStateSize flips =>
        simp only [KvNode.serverStep]
        split_ifs
        · obtain ⟨-, hwait, -⟩ := loopStep_channels ar s.server.kv raftStateSize flips
          dsimp only
          rw [KvAudit.step_kv]
          exact hA.keep hwait (KvSystem.live_loopStep ar s.server.kv raftStateSize flips)
        · exact hA
      | snapshot =>
        simp only [KvNode.serverStep]
        split <;> exact hA
      | handler i point =>
        simp only [KvNode.serverStep, handlerStep]
        split
        · exact hA
        · rename_i hd hi
          split
          · exact hA
          · rename_i kv' hd' hstep
            obtain ⟨next, rfl, hs⟩ := Handler.step_spec hstep
            dsimp only
            rw [step_handler ar hi hstep]
            cases hs.queueStep with
            | keeps registered live => exact hA.keep registered live
            | opens x state => exact state ▸ hA.openWaitChan x
            | closes x state => exact state ▸ hA.closeWaitChan hE.cell_inj x
    · exact hA

theorem allocated_runOf (asString : Op → String) (ar : Archives) (p : Fin n) (maxRaftState : ℤ)
    (acts : List (NodeAction n)) :
    (runOf asString ar p maxRaftState acts).Sound p ∧
      Allocated (runOf asString ar p maxRaftState acts).server.kv.server := by
  refine run_invariant (P := fun s : KvNode n => s.Sound p ∧ Allocated s.server.kv.server)
    ⟨sound_init p maxRaftState, fun q => ?_⟩ (fun s a hs => ⟨hs.1.step a, hs.1.allocated_step hs.2 a⟩)
    acts
  simp [KvServer.Live, init, KvAudit.init, KvSystem.init, KvServer.init]

/-- In every run of a server on its node the queues that are allocated are those of the handlers that
have opened one and not returned yet, and each is the queue of one such handler. So nothing is
leaked; a handler that waits has its queue, the loop never pushes to a deleted queue, and a handler
that is about to delete finds its own queue, not deleted yet. -/
theorem allocated_queues_are_owned (asString : Op → String) (ar : Archives) (p : Fin n)
    (maxRaftState : ℤ) (acts : List (NodeAction n)) :
    let s := runOf asString ar p maxRaftState acts
    let kv := s.server.kv
    (∀ q, kv.server.Live q ↔ ∃! i, ∃ h x, kv.handlers[i]? = some h ∧ h.phase.opened = some x ∧
      s.queueOf i = some q) ∧
    (∀ (i : ℕ) h x q, kv.handlers[i]? = some h → h.phase = .waiting x q → kv.server.Live q) ∧
    (∀ x q, kv.server.waitApplyCh x = some q → kv.server.Live q) ∧
    ∀ (i : ℕ) h x reply, kv.handlers[i]? = some h → h.phase = .closing x reply →
      ∃ q, s.queueOf i = some q ∧ kv.server.waitApplyCh x = some q ∧ kv.server.Live q := by
  intro s kv
  obtain ⟨hS, hA⟩ := allocated_runOf asString ar p maxRaftState acts
  have hE := hS.exclusive
  -- the queue of a handler that has opened one
  have hown : ∀ (i : ℕ) h x, kv.handlers[i]? = some h → h.phase.opened = some x →
      ∃ q, s.queueOf i = some q ∧ kv.server.waitApplyCh x = some q ∧ kv.server.Live q := by
    intro i h x hi hopened
    obtain ⟨q, hcell, hreg⟩ := hE.own i x ((opened_eq hi).trans hopened)
    exact ⟨q, hcell, hreg, (hA q).mpr ⟨x, hreg⟩⟩
  refine ⟨fun q => ⟨fun hq => ?_, ?_⟩, fun i h x q hi hw => ?_, fun x q hq => (hA q).mpr ⟨x, hq⟩,
    fun i h x reply hi hc => hown i h x hi (by rw [hc]; rfl)⟩
  · obtain ⟨x, hx⟩ := (hA q).mp hq
    obtain ⟨i, hopened⟩ := hE.owned x q hx
    obtain ⟨h, hi, hphase⟩ := Option.bind_eq_some_iff.mp hopened
    obtain ⟨q', hcell, hreg, -⟩ := hown i h x hi hphase
    obtain rfl := Option.some.inj (hx.symm.trans hreg)
    refine ⟨i, ⟨h, x, hi, hphase, hcell⟩, ?_⟩
    rintro j ⟨h', y, hj, hphase', hcell'⟩
    exact hE.opened_inj ((opened_eq hj).trans hphase') hopened hcell' hcell
  · rintro ⟨i, ⟨h, x, hi, hphase, hcell⟩, -⟩
    obtain ⟨q', hcell', -, hlive⟩ := hown i h x hi hphase
    obtain rfl := Option.some.inj (hcell.symm.trans hcell')
    exact hlive
  · obtain ⟨q', hcell, -, hlive⟩ := hown i h x hi (by rw [hw]; rfl)
    obtain rfl := Option.some.inj ((hS.waiting i h x q hi hw).symm.trans hcell)
    exact hlive

end KvNode
end RaftStorage
