import RaftStorage.Cluster.Compaction
import RaftStorage.Cluster.Peers
import RaftStorage.Cluster.Safety

/-! What a term of leadership does to the logs. While a node leads one term its log only grows, by
the commands that `Start` takes; and what has been committed stays in the log of every leader that
comes later and is never committed differently anywhere. -/

namespace RaftStorage
open Library

def Action.startAt {n : ℕ} (p : Fin n) : Action n → Option String
  | .start q command => if q = p then some command else none
  | _ => none

namespace Raft

variable {n : ℕ} {rf rf' rf'' : Raft n} {T : ℤ} {added added' : List LogEntry}

/-- The log has grown by `added`, all of term `T`, and may have been compacted. -/
structure Extends (T : ℤ) (rf rf' : Raft n) (added : List LogEntry) : Prop where
  logs : rf'.logs = (rf.logs ++ added).filter (rf'.lastSnapshotIncludeIndex < ·.logIndex)
  snap : rf.lastSnapshotIncludeIndex ≤ rf'.lastSnapshotIncludeIndex
  last : rf'.getLastLogIndex = rf.getLastLogIndex + added.length
  numbered : Numbered (rf.getLastLogIndex + 1) added
  term : ∀ e ∈ added, e.logTerm = T

theorem Contiguous.filter_eq (h : rf.Contiguous) :
    rf.logs.filter (rf.lastSnapshotIncludeIndex < ·.logIndex) = rf.logs := by
  rw [List.filter_eq_self]
  intro e he
  exact decide_eq_true (h.mem_bounds he).1

theorem Contiguous.extends_same (h : rf.Contiguous) (hlogs : rf'.logs = rf.logs)
    (hsnap : rf'.lastSnapshotIncludeIndex = rf.lastSnapshotIncludeIndex) :
    Extends T rf rf' [] where
  logs := by rw [hlogs, hsnap, List.append_nil, h.filter_eq]
  snap := hsnap.ge
  last := by simpa using getLastLogIndex_congr hlogs hsnap
  numbered := Numbered.nil
  term := by simp

theorem Contiguous.extends_cut (h : rf.Contiguous) {i t : ℤ} (hc : Cut rf rf' i t)
    (hlo : rf.lastSnapshotIncludeIndex < i) (hhi : i ≤ rf.getLastLogIndex) :
    Extends T rf rf' [] where
  logs := by rw [hc.snapIndex, List.append_nil, hc.logs_eq_filter h hlo]
  snap := hc.snapIndex ▸ hlo.le
  last := by simpa [hhi] using hc.last
  numbered := Numbered.nil
  term := by simp

theorem Contiguous.extends_start (h : rf.Contiguous) {command : String} {out : Option (ℤ × ℤ)}
    (he : rf.start command = (rf', out)) (hl : rf.status = .leader) :
    Extends rf.currentTerm rf rf' [⟨command, rf.currentTerm, rf.getLastLogIndex + 1⟩] := by
  rcases start_cases he with ⟨-, rfl⟩ | ⟨-, -, -, hlogs, hsnap, -⟩
  · simp [start, hl] at he
  have hlen := h.getLastLogIndex_eq
  have hcont : rf'.Contiguous := by
    unfold Contiguous
    rw [hlogs, hsnap]
    exact Numbered.append h (by dsimp only; omega)
  refine ⟨?_, hsnap.ge, ?_, ?_, by simp⟩
  · rw [← hlogs, hcont.filter_eq]
  · rw [hcont.getLastLogIndex_eq, hlen, hlogs, hsnap]
    simp
    omega
  · intro j e hj
    cases j with
    | zero =>
      obtain rfl := Option.some.inj hj
      simp
    | succ j => simp at hj

theorem Extends.trans (h : Extends T rf rf' added) (h' : Extends T rf' rf'' added') :
    Extends T rf rf'' (added ++ added') where
  logs := by
    have hsnap := h'.snap
    rw [h'.logs, h.logs, List.filter_append, List.filter_filter, ← List.append_assoc,
      List.filter_append (rf.logs ++ added)]
    congr 1
    refine List.filter_congr fun e _ => ?_
    rw [Bool.eq_iff_iff, Bool.and_eq_true, decide_eq_true_iff, decide_eq_true_iff]
    omega
  snap := h.snap.trans h'.snap
  last := by
    rw [h'.last, h.last, List.length_append]
    omega
  numbered := by
    have hlast := h.last
    intro j e hj
    rw [List.getElem?_append] at hj
    split_ifs at hj with hlt
    · exact h.numbered j e hj
    · have := h'.numbered _ e hj
      omega
  term := fun e he => (List.mem_append.mp he).elim (h.term e) (h'.term e)

end Raft

namespace Cluster

variable {n : ℕ} {s s' : Cluster n} {a : Action n} {p q : Fin n} {T : ℤ}

theorem Indexed.leader_cut (hI : s.Indexed) (hl : ((s.step a).nodes p).status = .leader) {i t : ℤ}
    (hc : Raft.Cut (s.nodes p) ((s.step a).nodes p) i t)
    (hi : (s.nodes p).lastSnapshotIncludeIndex < i) : i ≤ (s.nodes p).getLastLogIndex := by
  have hle := (hI.node p).commit_le
  have hstep := hI.leader_step hl
  generalize (s.step a).nodes p = rf' at hc hstep
  have hcommit := hc.commit
  have hsnap := hc.snapIndex
  cases hstep with
  | kept _ _ commit => omega
  | won _ log =>
    rw [log.commit] at hcommit
    omega
  | rejected _ _ _ _ state =>
    subst state
    unfold Raft.reject at hsnap
    split_ifs at hsnap <;> exact absurd hsnap hi.ne
  | accepted _ _ _ _ state =>
    subst state
    exact absurd hsnap hi.ne
  | installed _ _ _ state =>
    subst state
    exact absurd hsnap hi.ne

theorem Leads.extends_step (h : s.Leads p T) (h' : (s.step a).Leads p T) (hI : s.Indexed) :
    ∃ added, Raft.Extends T (s.nodes p) ((s.step a).nodes p) added ∧
      added.map LogEntry.command = if s.exited p = none then (a.startAt p).toList else [] := by
  have hcont := (hI.node p).contiguous
  by_cases hlive : s.exited p = none
  swap
  · refine ⟨[], ?_, by simp [hlive]⟩
    rw [nodes_step_of_exited hlive]
    exact hcont.extends_same rfl rfl
  rw [if_pos hlive]
  cases hstart : a.startAt p with
  | some command =>
    -- the leader takes the command
    have ha : a = .start p command := by
      cases a with
      | start q c =>
        simp only [Action.startAt] at hstart
        split_ifs at hstart with hq
        rw [hq, Option.some.inj hstart]
      | _ => cases hstart
    subst ha
    obtain ⟨rf, out, he⟩ : ∃ rf out, (s.nodes p).start command = (rf, out) := ⟨_, _, rfl⟩
    refine ⟨[⟨command, T, (s.nodes p).getLastLogIndex + 1⟩], ?_, rfl⟩
    have hnode : (s.step (.start p command)).nodes p = rf := by
      simp [step, onNode, hlive, he]
    rw [hnode, ← h.2]
    exact hcont.extends_start he h.1
  | none =>
    refine ⟨[], ?_, rfl⟩
    cases hI.log_move (step_spec s a) p with
    | kept logs snapIndex => exact hcont.extends_same logs snapIndex
    | started action =>
      rw [action] at hstart
      simp [Action.startAt] at hstart
    | merged _ _ _ _ status =>
      rw [h'.1] at status
      cases status
    | cut log index => exact hcont.extends_cut log index (hI.leader_cut h'.1 log index)

/-- While a node leads one term its log is only extended, by exactly the commands that `Start`
takes there, in order. -/
theorem leader_log_append_only (before later : List (Action n)) (h : (runOf before).Leads p T)
    (h' : (runOf (before ++ later)).Leads p T) :
    ∃ added, Raft.Extends T ((runOf before).nodes p) ((runOf (before ++ later)).nodes p) added ∧
      added.map LogEntry.command <+: later.filterMap (Action.startAt p) ∧
      ((runOf (before ++ later)).exited p = none →
        added.map LogEntry.command = later.filterMap (Action.startAt p)) := by
  induction later using List.reverseRecOn with
  | nil =>
    refine ⟨[], ?_, List.nil_prefix, fun _ => rfl⟩
    rw [List.append_nil]
    exact ((indexed_runOf before).node p).contiguous.extends_same rfl rfl
  | append_singleton later a ih =>
    rw [← List.append_assoc] at h' ⊢
    have hmid := h.before_last h'
    obtain ⟨added, hext, hpre, heq⟩ := ih hmid
    rw [runOf_concat] at h' ⊢
    obtain ⟨new, hnew, hcmd⟩ := hmid.extends_step h' (indexed_runOf _)
    have hone : [a].filterMap (Action.startAt p) = (a.startAt p).toList := by
      cases hstart : a.startAt p <;> simp [hstart]
    refine ⟨added ++ new, hext.trans hnew, ?_, fun hlive => ?_⟩
    · rw [List.map_append, hcmd, List.filterMap_append, hone]
      split_ifs with hlive
      · rw [heq hlive]
      · rw [List.append_nil]
        exact hpre.trans (List.prefix_append _ _)
    · have hlive' : (runOf (before ++ later)).exited p = none := by
        by_contra hex
        exact (step_spec _ a).exited_mono hex hlive
      rw [List.map_append, hcmd, if_pos hlive', heq hlive', List.filterMap_append, hone]

def leaderRun : List (Action 3) :=
  commitRun.drop 3 ++ [.sendAppendEntries 0 following 0, .start leading "b", .getApplyLogs leading,
    .snapshot leading 1 "s"]

theorem leader_log_append_only_leaderRun :
    ∃ added, Raft.Extends 1 ((runOf (commitRun.take 3)).nodes leading)
        ((runOf (commitRun.take 3 ++ leaderRun)).nodes leading) added ∧
      added.map LogEntry.command = ["a", "b"] := by
  obtain ⟨added, hext, -, heq⟩ := leader_log_append_only (p := leading) (T := 1)
    (commitRun.take 3) leaderRun ⟨by decide, by decide⟩ ⟨by decide, by decide⟩
  exact ⟨added, hext, heq (by decide)⟩

/-! ## What has been committed -/

variable {H : Ghost n} {l : List LogEntry} {e : LogEntry}

theorem NodeOk.holds (h : NodeOk H q (s.nodes q)) (he : e ∈ H.log q) : (s.nodes q).Holds e := by
  by_cases hsnap : (s.nodes q).lastSnapshotIncludeIndex < e.logIndex
  · exact Or.inl ((h.window.mem e).mpr ⟨he, hsnap⟩)
  · exact Or.inr (not_lt.mp hsnap)

theorem Coupled.leader_holds (h : Coupled s H) (hl : Certified LogEntry.logTerm H T l)
    (he : e ∈ l) (hlead : (s.nodes q).status = .leader) (hT : T ≤ (s.nodes q).currentTerm) :
    (s.nodes q).Holds e := by
  have hcert := hl.grows (.refl H) hT
  have hpre := hcert.prefix_leaderLog h.safe ((h.node q).leader hlead)
  exact (h.node q).holds (hpre.subset he)

theorem Certified.mem_of_le {l' : List LogEntry} {T' : ℤ} (h : Safe LogEntry.logTerm H)
    (hl : Certified LogEntry.logTerm H T l) (hl' : Certified LogEntry.logTerm H T' l')
    (hn : Numbered 1 l) (hn' : Numbered 1 l') (he : e ∈ l) (hle : e.logIndex ≤ l'.length) :
    e ∈ l' := by
  rcases hl.comparable h hl' with hpre | hpre
  · exact hpre.subset he
  · have hb := hn.bounds he
    obtain ⟨e', he', hidx⟩ := hn'.exists_at hb.1 (by omega)
    rwa [hn.unique he (hpre.subset he') hidx.symm]

theorem Coupled.committed_holds (h : Coupled s H) (hI : s.Indexed)
    (hl : Certified LogEntry.logTerm H T l) (hn : Numbered 1 l) (he : e ∈ l)
    (hle : e.logIndex ≤ (s.nodes q).commitIndex) : (s.nodes q).Holds e := by
  have hwin := (h.node q).window
  have hlen := hwin.length
  have hcl := (hI.node q).commit_le
  have hmem := Certified.mem_of_le h.safe hl (h.node q).commit hn (hwin.numbered.take _) he
    (by rw [List.length_take]; omega)
  exact (h.node q).holds (List.mem_of_mem_take hmem)

theorem Coupled.applied_eq (h : Coupled s H) (hl : Certified LogEntry.logTerm H T l)
    (hn : Numbered 1 l) (he : e ∈ l) {msg : ApplyMsg} (hmsg : (q, msg) ∈ s.applied)
    (hidx : msg.commandIndex = e.logIndex) : msg.command = e.command := by
  obtain ⟨T', l', hl', hn', e', he', hei, hec⟩ := h.messages.applied _ hmsg
  rcases hl.comparable h.safe hl' with hpre | hpre
  · rw [← hec, hn'.unique (hpre.subset he) he' (by rw [hei, hidx])]
  · rw [← hec, hn.unique he (hpre.subset he') (by rw [hei, hidx])]

/-- What a node has committed is kept by every later leader of its term or a later one, and by
every node that commits the index; no node hands out another command for it. -/
theorem committed_forever {before later : List (Action n)}
    (hclean : Along step Clean (init n) (before ++ later))
    (he : e ∈ ((runOf before).nodes p).logs) (hc : e.logIndex ≤ ((runOf before).nodes p).commitIndex) :
    (∀ q, ((runOf (before ++ later)).nodes q).status = .leader →
      ((runOf before).nodes p).currentTerm ≤ ((runOf (before ++ later)).nodes q).currentTerm →
      ((runOf (before ++ later)).nodes q).Holds e) ∧
    (∀ q, e.logIndex ≤ ((runOf (before ++ later)).nodes q).commitIndex →
      ((runOf (before ++ later)).nodes q).Holds e) ∧
    ∀ q msg, (q, msg) ∈ (runOf (before ++ later)).applied → msg.commandIndex = e.logIndex →
      msg.command = e.command := by
  obtain ⟨hclean₁, hclean₂⟩ := along_append.mp hclean
  obtain ⟨H, h⟩ := coupled_runOf hclean₁
  obtain ⟨H', hg, h'⟩ := h.run (indexed_runOf before) (elections_runOf before) (entries_runOf before)
    (replication_runOf before) hclean₂
  have hrun : Library.run step (runOf before) later = runOf (before ++ later) :=
    (run_append step (init n) before later).symm
  rw [hrun] at h'
  have hwin := (h.node p).window
  have hn := hwin.numbered.take ((runOf before).nodes p).commitIndex.toNat
  have hcert := (h.node p).commit.grows hg le_rfl
  have hmem : e ∈ (H.log p).take ((runOf before).nodes p).commitIndex.toNat :=
    hwin.numbered.mem_take.mpr ⟨((hwin.mem e).mp he).1, by omega⟩
  exact ⟨fun q hl hT => h'.leader_holds hcert hmem hl hT,
    fun q hle => h'.committed_holds (indexed_runOf _) hcert hn hmem hle,
    fun q msg hmsg hidx => h'.applied_eq hcert hn hmem hmsg hidx⟩

/-- The second node, which has the committed entry, is elected by the third. -/
def takeoverRun : List (Action 3) :=
  [.doElection following, .requestVote 1 lagging, .sendRequestVote 1 lagging 0]

theorem committed_forever_takeoverRun :
    ((runOf (commitRun ++ [.sendAppendEntries 0 following 0] ++ takeoverRun)).nodes following).Holds
      ⟨"a", 1, 1⟩ :=
  (committed_forever (p := leading) (by decide) (by decide) (by decide)).1 following (by decide)
    (by decide)

end Cluster
end RaftStorage
