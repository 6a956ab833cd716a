import RaftStorage.Cluster.Replication
import RaftStorage.Raft.PersistSpecs

/-! Write-ahead persistence: what is on record of a node when it releases its lock. -/

namespace RaftStorage
open Library
namespace Cluster

variable {n : ℕ} {s s' : Cluster n} {a : Action n}

/-- The step does not bring a newer term to its node in a reply to `AppendEntries`. -/
def Saves (s : Cluster n) : Action n → Prop
  | .sendAppendEntries h p k => ∀ r c reply, s.heartBeats[h]? = some r → r.calls p = some c →
      c.taken = none → c.replies[k]? = some reply → s.exited r.owner = none →
      ¬(s.nodes r.owner).Outdates reply
  | _ => True

theorem Saves.persisted (hsaves : s.Saves a) (h : ∀ p, (s.nodes p).Persisted) (q : Fin n) :
    ((s.step a).nodes q).Persisted := by
  by_cases hex : s.exited q = none
  case neg =>
    rw [nodes_step_of_exited hex]
    exact h q
  have hset : ∀ p rf, rf.Persisted → ((s.setNode p rf).nodes q).Persisted := fun p rf hrf =>
    setNode_rel (R := fun _ rf' => rf'.Persisted) h hrf q
  generalize hs' : s.step a = s'
  have hs : Step s a s' := hs' ▸ step_spec s a
  cases hs with
  | doElection eval =>
    rw [recordElection_nodes]
    exact hset _ _ ((h _).doElection eval)
  | requestVote _ _ eval => exact hset _ _ (Raft.requestVote_persisted eval)
  | sendRequestVote _ _ _ _ eval => exact hset _ _ ((h _).sendRequestVote eval)
  | start eval => exact hset _ _ ((h _).start eval)
  | doHeartBeat => simpa using h q
  | appendEntries1 _ _ eval => exact hset _ _ ((h _).appendEntries1 eval)
  | @sendAppendEntries i p k r c reply rf num round call taken answer eval =>
    by_cases hq : q = r.owner
    · subst hq
      have hterm := hsaves r c reply round call taken answer hex
      exact hset _ _ ((h _).sendAppendEntries hterm eval)
    · change ((s.setNode r.owner rf).nodes q).Persisted
      rw [setNode_nodes_of_ne hq]
      exact h q
  | leaderSendSnapShot => exact hset _ _ (h _).leaderSendSnapShot
  | installSnapshot _ _ eval => exact hset _ _ ((h _).installSnapshot eval)
  | leaderSendSnapShotReply => exact hset _ _ (h _).leaderSendSnapShotReply
  | snapshot eval => exact hset _ _ ((h _).snapshot eval)
  | getApplyLogs eval => exact hset _ _ ((h _).getApplyLogs eval)
  | _ => exact h q

theorem saves_of_persisted (h : ∀ p, (s.nodes p).Persisted)
    (h' : ∀ p, ((s.step a).nodes p).Persisted) : s.Saves a := by
  cases a with
  | sendAppendEntries i p k =>
    intro r c reply hr hc ht hk hex hterm
    obtain ⟨rf', heval, hnot⟩ := (h r.owner).not_of_outdates hterm p c.args r.counter
    refine hnot ?_
    have hnode : (s.step (.sendAppendEntries i p k)).nodes r.owner = rf' := by
      simp only [step, hr, hc, ht, hk, onNode, hex, heval]
      exact Function.update_self _ _ _
    exact hnode ▸ h' r.owner
  | _ => trivial

/-- In a run, the persistent fields of every node are on record after every step exactly when no
reply to `AppendEntries` brings a newer term. -/
theorem persisted_iff_saves (acts : List (Action n)) :
    (∀ before after, acts = before ++ after → ∀ p, ((runOf before).nodes p).Persisted) ↔
      Along step Saves (init n) acts := by
  constructor
  · intro h
    refine along_iff.mpr fun before a after heq => ?_
    refine saves_of_persisted (h before (a :: after) heq) ?_
    have hnext := h (before ++ [a]) after (by simp [heq])
    rw [runOf, run_concat] at hnext
    exact hnext
  · rintro h before after rfl
    exact run_invariant_along Raft.persisted_init (fun _ _ hP hC => hC.persisted hP)
      (along_append.mp h).1

def outdatedRun : List (Action 3) :=
  [.doElection leading, .requestVote 0 following, .sendRequestVote 0 following 0,
    .doHeartBeat leading, .doElection following, .appendEntries1 0 following,
    .sendAppendEntries 0 following 0]

theorem outdated_term_unsaved :
    ¬∀ (n : ℕ) (acts : List (Action n)) (p : Fin n), ((runOf acts).nodes p).Persisted := by
  intro h
  exact absurd (h 3 outdatedRun leading) (by decide)

end Cluster
end RaftStorage
