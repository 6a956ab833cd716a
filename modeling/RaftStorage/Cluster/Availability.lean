import RaftStorage.Cluster.Campaign

/-! A command can always be committed. The leader that a majority can elect repairs the logs of its
followers one exchange after the other; once the next request to each of half of the cluster will
match, one heartbeat round after `Start` commits the new entry. -/

namespace RaftStorage
open Library
namespace Raft

variable {n : ℕ} {rf L F F' : Raft n} {args : AppendEntriesArgs n} {reply : AppendEntriesReply}

def Whole (rf : Raft n) : Prop :=
  rf.lastSnapshotIncludeIndex = 0 ∧ rf.lastSnapshotIncludeTerm = 0

theorem Contiguous.termAt_le (hc : rf.Contiguous) {i t : ℤ} (h : rf.TermAt i t) :
    i ≤ rf.getLastLogIndex := by
  have hlen := hc.getLastLogIndex_eq
  rcases h with ⟨rfl, -⟩ | ⟨e, he, rfl, -⟩
  · omega
  · exact (hc.mem_bounds he).2

inductive Answer (L F : Raft n) (args : AppendEntriesArgs n) (F' : Raft n)
    (reply : AppendEntriesReply) : Prop
  | accepted (success : reply.success = true)
      (last : ∀ t, L.TermAt L.getLastLogIndex t → F'.TermAt L.getLastLogIndex t)
  | rejected (success : reply.success = false) (log : SameLog F F')
      (prev : ¬F.TermAt args.prevLogIndex args.prevLogTerm) (pos : 1 ≤ reply.updateNextIndex)
      (le : reply.updateNextIndex ≤ args.prevLogIndex)

theorem AppendMerged.last_termAt (hm : AppendMerged F F' args) (hb : BuiltFrom L args)
    (hc : L.Contiguous) {t : ℤ} (ht : L.TermAt L.getLastLogIndex t) :
    F'.TermAt L.getLastLogIndex t := by
  have hlen := hb.length
  by_cases hnil : args.entries = []
  · -- an empty request ends at the entry that has matched
    rw [hnil, List.length_nil] at hlen
    have hprev : args.prevLogIndex = L.getLastLogIndex := by omega
    have hterm : args.prevLogTerm = t := hc.termAt_unique (hprev ▸ hb.prevTerm) ht
    have hF := hm.prevTerm
    rw [hprev, hterm] at hF
    rcases hF with ⟨hidx, hsnap⟩ | ⟨f, hf, hidx, hft⟩
    · exact Or.inl ⟨hidx.trans hm.snapIndex.symm, hsnap.trans hm.snapTerm.symm⟩
    · exact Or.inr ⟨f, (hm.mem f).mpr (Or.inl ⟨hf, by simp [hnil]⟩), hidx, hft⟩
  · have hpos := List.length_pos_of_ne_nil hnil
    have hsnap := hb.snap_le
    obtain ⟨e, he, hidx, rfl⟩ := ht.resolve_left fun h => by omega
    have hreq := (hb.mem hc).mpr ⟨he, by omega⟩
    by_cases hold : ∃ f ∈ F.logs, f.logIndex = e.logIndex ∧ f.logTerm = e.logTerm
    · obtain ⟨f, hf, hfidx, hft⟩ := hold
      refine Or.inr ⟨f, (hm.mem f).mpr (Or.inl ⟨hf, fun e' he' hidx' => ?_⟩), hfidx.trans hidx, hft⟩
      rw [Numbered.unique (hb.numbered hc) he' hreq (hidx'.trans hfidx), hft]
    · exact Or.inr ⟨e, (hm.mem e).mpr (Or.inr ⟨hreq, fun f hf hfi hft => hold ⟨f, hf, hfi, hft⟩⟩),
        hidx, rfl⟩

structure Heeds (rf rf' : Raft n) (server : Fin n) : Prop where
  status : rf'.status = rf.status
  term : rf'.currentTerm = rf.currentTerm
  logs : rf'.logs = rf.logs
  snapIndex : rf'.lastSnapshotIncludeIndex = rf.lastSnapshotIncludeIndex
  snapTerm : rf'.lastSnapshotIncludeTerm = rf.lastSnapshotIncludeTerm
  next : ∀ i, i ≠ server → rf'.nextIndex i = rf.nextIndex i

theorem Heeds.accept (rf : Raft n) (server : Fin n) (args : AppendEntriesArgs n) (num : ℤ) :
    Heeds rf (rf.accept server args num) server :=
  ⟨rfl, rfl, rfl, rfl, rfl, fun _ hi => Function.update_of_ne hi _ _⟩

theorem Heeds.reject (rf : Raft n) (server : Fin n) (reply : AppendEntriesReply) :
    Heeds rf (rf.reject server reply) server := by
  unfold Raft.reject
  split_ifs
  · exact ⟨rfl, rfl, rfl, rfl, rfl, fun _ _ => rfl⟩
  · exact ⟨rfl, rfl, rfl, rfl, rfl, fun _ hi => Function.update_of_ne hi _ _⟩

theorem BuiltFrom.answer (hb : BuiltFrom L args) (hL : L.Contiguous) (hF : F.Indexed)
    (hterm : F.currentTerm ≤ L.currentTerm) (hwL : L.Whole) (hwF : F.Whole)
    (hunique : ∀ e ∈ L.logs, ∀ f ∈ F.logs, e.logIndex = f.logIndex → e.logTerm = f.logTerm → e = f) :
    ∃ F' reply, F.appendEntries1 args = .ok (F', reply) ∧ F'.currentTerm = L.currentTerm ∧
      F'.Whole ∧ reply.appState ≠ .disconnected ∧ reply.term = L.currentTerm ∧
      Answer L F args F' reply := by
  have hc := hF.contiguous
  have hn := hb.numbered hL
  have hsnap := hb.snap_le
  obtain ⟨F', reply, heval⟩ : ∃ F' reply, F.appendEntries1 args = .ok (F', reply) := by
    cases heval : F.appendEntries1 args with
    | ok out => exact ⟨out.1, out.2, rfl⟩
    | error err =>
      obtain ⟨-, -, ⟨hlt, -⟩ | ⟨-, -, old, hold, e, he, hidx, hsame, hne⟩⟩ :=
        appendEntries1_error hc hn hF.commit_le heval
      · rw [hwF.1] at hlt
        rw [hwL.1] at hsnap
        omega
      · have heq := hunique e ((hb.mem hL).mp he).1 old hold hidx.symm hsame.symm
        exact absurd (congrArg LogEntry.command heq).symm hne
  have happ : reply.appState ≠ .disconnected := by
    rw [appendEntries1_appState heval]
    exact nofun
  refine ⟨F', reply, heval, ?_⟩
  cases appendEntries1_cases hc hn heval with
  | stale term =>
    rw [hb.term] at term
    omega
  | merged _ log _ currentTerm _ success replyTerm =>
    exact ⟨currentTerm.trans hb.term, ⟨log.snapIndex.trans hwF.1, log.snapTerm.trans hwF.2⟩, happ,
      replyTerm.trans hb.term, .accepted success fun t ht => log.last_termAt hb hL ht⟩
  | rejected _ log _ currentTerm _ success =>
    have hnonneg := hF.snap_nonneg.trans (hF.snap_le.trans (hF.applied_le.trans hF.commit_le))
    rcases appendEntries1_hint hc heval success with ⟨hlt, -⟩ | ⟨hreply, -, hint⟩
    · rw [hb.term] at hlt
      omega
    refine ⟨currentTerm.trans hb.term, ⟨log.snapIndex.trans hwF.1, log.snapTerm.trans hwF.2⟩, happ,
      hreply.trans hb.term, ?_⟩
    cases hint with
    | short last hint =>
      exact .rejected success log (fun ht => by have := hc.termAt_le ht; omega) (by omega) (by omega)
    | mismatch snap _ term le lower =>
      -- before the first entry there is nothing on which they could differ
      have hne : args.prevLogIndex ≠ 0 := by
        intro h0
        have ht := hL.termAt_unique hb.prevTerm (Or.inl ⟨h0.trans hwL.1.symm, rfl⟩)
        exact term (Or.inl ⟨h0.trans hwF.1.symm, ht.trans (hwL.2.trans hwF.2.symm)⟩)
      rw [hwF.1] at lower snap
      exact .rejected success log term (by omega) le

end Raft

namespace Cluster

variable {n : ℕ} {s : Cluster n} {acts : List (Action n)} {p q : Fin n} {T num : ℤ}
  {M : Finset (Fin n)} {h k : ℕ} {L rf : Raft n} {voters : List (Fin n)}

theorem step_appendEntries1 {r : HeartBeat n} {c : Call (AppendEntriesArgs n) AppendEntriesReply}
    {reply : AppendEntriesReply} (hround : s.heartBeats[h]? = some r)
    (hcall : r.calls q = some c) (hlive : s.exited q = none)
    (hok : (s.nodes q).appendEntries1 c.args = .ok (rf, reply)) :
    s.step (.appendEntries1 h q) = recordAppend h q (s.setNode q rf) reply := by
  simp only [step, hround, hcall, onNode, hlive, hok]
  rfl

theorem step_sendAppendEntries {r : HeartBeat n}
    {c : Call (AppendEntriesArgs n) AppendEntriesReply} {reply : AppendEntriesReply}
    (hround : s.heartBeats[h]? = some r) (hcall : r.calls q = some c) (htaken : c.taken = none)
    (hanswer : c.replies[k]? = some reply) (hlive : s.exited r.owner = none)
    (hok : (s.nodes r.owner).sendAppendEntries q c.args reply r.counter = .ok (rf, num)) :
    s.step (.sendAppendEntries h q k) =
      recordAppendReply h q reply (s.setNode r.owner rf) num := by
  simp only [step, hround, hcall, htaken, hanswer, onNode, hlive, hok]
  rfl

/-- Node `p` leads term `T`; the nodes of `M`, it among them, run, have compacted nothing and are
not ahead of the term. -/
structure Leading (s : Cluster n) (p : Fin n) (T : ℤ) (M : Finset (Fin n)) : Prop where
  leads : s.Leads p T
  mem : p ∈ M
  live : ∀ q ∈ M, s.exited q = none
  term : ∀ q ∈ M, (s.nodes q).currentTerm ≤ T
  whole : ∀ q ∈ M, (s.nodes q).Whole

def Ready (s : Cluster n) (p q : Fin n) : Prop :=
  ∃ t, (s.nodes p).TermAt ((s.nodes p).nextIndex q - 1) t ∧
    (s.nodes q).TermAt ((s.nodes p).nextIndex q - 1) t

/-- A round that `p` has started in the state `L`, with the requests to `voters` on their way. -/
structure Polling (s : Cluster n) (p : Fin n) (h : ℕ) (L : Raft n) (num : ℤ)
    (voters : List (Fin n)) : Prop where
  round : ∃ r, s.heartBeats[h]? = some r ∧ r.owner = p ∧ r.counter = num ∧
    ∀ q ∈ voters, ∃ args, r.calls q = some (Call.start args) ∧ Raft.BuiltFrom L args ∧
      args.prevLogIndex = L.nextIndex q - 1
  logs : (s.nodes p).logs = L.logs
  snapIndex : (s.nodes p).lastSnapshotIncludeIndex = L.lastSnapshotIncludeIndex
  snapTerm : (s.nodes p).lastSnapshotIncludeTerm = L.lastSnapshotIncludeTerm
  term : (s.nodes p).currentTerm = L.currentTerm
  next : ∀ q ∈ voters, (s.nodes p).nextIndex q = L.nextIndex q

theorem step_doHeartBeat {sends : Fin n → Option (Raft.HeartBeatSend n)}
    (hlive : s.exited p = none) (hok : (s.nodes p).doHeartBeat = .ok (some sends)) :
    s.step (.doHeartBeat p) = recordHeartBeat p s (some sends) := by
  have hstep : s.step (.doHeartBeat p) =
      recordHeartBeat p (s.setNode p (s.nodes p)) (some sends) := by
    simp only [step, onNode, hlive, hok]
    rfl
  rw [hstep, setNode_self]

theorem Leading.of_eq {s' : Cluster n} (h : s.Leading p T M) (hnodes : s'.nodes = s.nodes)
    (hexited : s'.exited = s.exited) : s'.Leading p T M where
  leads := by
    unfold Leads
    rw [hnodes]
    exact h.leads
  mem := h.mem
  live := by
    rw [hexited]
    exact h.live
  term := by
    rw [hnodes]
    exact h.term
  whole := by
    rw [hnodes]
    exact h.whole

theorem Leading.heartBeat (h : (runOf acts).Leading p T M) (hV : ∀ q ∈ voters, q ≠ p) :
    (runOf (acts ++ [.doHeartBeat p])).nodes = (runOf acts).nodes ∧
      (runOf (acts ++ [.doHeartBeat p])).Leading p T M ∧
      Polling (runOf (acts ++ [.doHeartBeat p])) p (runOf acts).heartBeats.length
        ((runOf acts).nodes p) 1 voters := by
  have hI := indexed_runOf acts
  have hB := bounded_runOf acts
  have hc := (hI.node p).contiguous
  have hpeer := hB.leader p h.leads.1
  obtain ⟨sends, hok, hsends⟩ : ∃ sends, ((runOf acts).nodes p).doHeartBeat = .ok (some sends) ∧
      ∀ i, ((runOf acts).nodes p).heartBeatTo i = .ok (sends i) := by
    cases heval : ((runOf acts).nodes p).doHeartBeat with
    | error err =>
      exact absurd heval (Raft.doHeartBeat_ne_error hc
        (fun _ i _ => ⟨(hpeer i).next_pos, (hpeer i).next_le⟩) err)
    | ok out =>
      rcases Raft.doHeartBeat_cases heval with rfl | ⟨sends, rfl, -, hsends⟩
      · rw [Raft.doHeartBeat, if_pos h.leads.1] at heval
        obtain ⟨_, -, hout⟩ := bind_ok.mp heval
        cases hout
      · exact ⟨sends, rfl, hsends⟩
  rw [runOf_concat, step_doHeartBeat (h.live p h.mem) hok]
  refine ⟨rfl, h.of_eq rfl rfl, ⟨newHeartBeat p ((runOf acts).nodes p) sends, ?_, rfl, rfl, fun q hq => ?_⟩, rfl,
    rfl, rfl, rfl, fun _ _ => rfl⟩
  · simp [recordHeartBeat]
  · have hsnap := (h.whole p h.mem).1
    have hpos := (hpeer q).next_pos
    have hle := (hpeer q).next_le
    obtain ⟨t, ht⟩ := hc.exists_termAt (i := ((runOf acts).nodes p).nextIndex q - 1)
      (by omega) (by omega)
    have hto := Raft.heartBeatTo_append_eq hc (by rw [hI.me]; exact hV q hq) hpos (by omega) hle ht
    have hq := Except.ok.inj ((hsends q).symm.trans hto)
    refine ⟨_, ?_, (Raft.heartBeatTo_append hc hto).2, rfl⟩
    simp only [newHeartBeat, hq]

theorem Ready.of_eq {s' : Cluster n} (h : s.Ready p q) (hlogs : (s'.nodes p).logs = (s.nodes p).logs)
    (hidx : (s'.nodes p).lastSnapshotIncludeIndex = (s.nodes p).lastSnapshotIncludeIndex)
    (hterm : (s'.nodes p).lastSnapshotIncludeTerm = (s.nodes p).lastSnapshotIncludeTerm)
    (hnext : (s'.nodes p).nextIndex q = (s.nodes p).nextIndex q)
    (hq : s'.nodes q = s.nodes q) : s'.Ready p q := by
  obtain ⟨t, htp, htq⟩ := h
  refine ⟨t, ?_, ?_⟩
  · rw [hnext]
    exact htp.congr hlogs hidx hterm
  · rw [hnext, hq]
    exact htq

structure Polled (s s' : Cluster n) (p q : Fin n) (T : ℤ) (M : Finset (Fin n)) : Prop where
  leading : s'.Leading p T M
  nodes : ∀ i, i ≠ p → i ≠ q → s'.nodes i = s.nodes i
  logs : (s'.nodes p).logs = (s.nodes p).logs
  next : ∀ i, i ≠ q → (s'.nodes p).nextIndex i = (s.nodes p).nextIndex i

theorem Polled.ready {s' : Cluster n} {i : Fin n} (h : Polled s s' p q T M) (hs : s.Leading p T M)
    (hp : i ≠ p) (hq : i ≠ q) (hr : s.Ready p i) : s'.Ready p i := by
  have hw := hs.whole p hs.mem
  have hw' := h.leading.whole p h.leading.mem
  exact hr.of_eq h.logs (hw'.1.trans hw.1.symm) (hw'.2.trans hw.2.symm) (h.next i hq)
    (h.nodes i hp hq)

theorem poll_step {r : HeartBeat n} {args : AppendEntriesArgs n} {reply : AppendEntriesReply}
    {F : Raft n} (hround : s.heartBeats[h]? = some r) (hcall : r.calls q = some (Call.start args))
    (hne : q ≠ r.owner) (hlive : s.exited q = none ∧ s.exited r.owner = none)
    (hF : (s.nodes q).appendEntries1 args = .ok (F, reply))
    (hL : (s.nodes r.owner).sendAppendEntries q args reply r.counter = .ok (rf, num)) :
    ∃ s', run step s [.appendEntries1 h q, .sendAppendEntries h q 0] = s' ∧
      s'.nodes r.owner = rf ∧ s'.nodes q = F ∧
      (∀ i, i ≠ r.owner → i ≠ q → s'.nodes i = s.nodes i) ∧ s'.exited = s.exited ∧
      s'.heartBeats[h]? = some ((r.respond q reply).take q reply num) := by
  have hstep₁ := step_appendEntries1 hround hcall hlive.1 hF
  have hround₁ : (recordAppend h q (s.setNode q F) reply).heartBeats[h]? =
      some (r.respond q reply) := by
    simp [recordAppend, setNode, hround]
  have hcall₁ : (r.respond q reply).calls q = some ⟨args, [reply], none⟩ := by
    simp [Round.respond, hcall, Call.start]
  have hnode₁ : (recordAppend h q (s.setNode q F) reply).nodes r.owner = s.nodes r.owner :=
    setNode_nodes_of_ne hne.symm
  have hrun : run step s [.appendEntries1 h q, .sendAppendEntries h q 0] =
      recordAppendReply h q reply
        ((recordAppend h q (s.setNode q F) reply).setNode r.owner rf) num := by
    change (s.step (.appendEntries1 h q)).step (.sendAppendEntries h q 0) = _
    rw [hstep₁]
    refine step_sendAppendEntries (r := r.respond q reply) (k := 0) hround₁ hcall₁ rfl rfl hlive.2 ?_
    exact (congrArg (·.sendAppendEntries q args reply r.counter) hnode₁).trans hL
  refine ⟨_, hrun, ?_, ?_, ?_, rfl, ?_⟩
  · exact setNode_nodes_self
  · exact (setNode_nodes_of_ne hne).trans setNode_nodes_self
  · intro i hi hiq
    exact (setNode_nodes_of_ne hi).trans (setNode_nodes_of_ne hiq)
  · simp [recordAppendReply, recordAppend, setNode, hround]

theorem Polling.taken {args : AppendEntriesArgs n} {reply : AppendEntriesReply} {F : Raft n}
    {num' : ℤ} (hpoll : Polling (runOf acts) p h L num (q :: voters))
    (hlead : (runOf acts).Leading p T M) (hqM : q ∈ M) (hqp : q ≠ p) (hq : q ∉ voters)
    (hcall : ∀ r, (runOf acts).heartBeats[h]? = some r → r.calls q = some (Call.start args))
    (hF : ((runOf acts).nodes q).appendEntries1 args = .ok (F, reply)) (hFterm : F.currentTerm = T)
    (hFwhole : F.Whole)
    (hL : ((runOf acts).nodes p).sendAppendEntries q args reply num = .ok (rf, num'))
    (hrf : Raft.Heeds ((runOf acts).nodes p) rf q) :
    ∃ s', runOf (acts ++ [.appendEntries1 h q, .sendAppendEntries h q 0]) = s' ∧
      s'.nodes p = rf ∧ s'.nodes q = F ∧ Polled (runOf acts) s' p q T M ∧
      Polling s' p h L num' voters := by
  obtain ⟨r, hround, rfl, rfl, hcalls⟩ := hpoll.round
  obtain ⟨s', hrun, hp, hF, hnodes, hexited, hround'⟩ := poll_step hround (hcall r hround) hqp
    ⟨hlead.live q hqM, hlead.live r.owner hlead.mem⟩ hF hL
  have hwhole := hlead.whole r.owner hlead.mem
  have hall : ∀ P : Raft n → Prop, P rf → P F → (∀ i ∈ M, P ((runOf acts).nodes i)) →
      ∀ i ∈ M, P (s'.nodes i) := by
    intro P hrf hPF hP i hi
    by_cases hip : i = r.owner
    · rwa [hip, hp]
    by_cases hiq : i = q
    · rwa [hiq, hF]
    · rw [hnodes i hip hiq]
      exact hP i hi
  refine ⟨s', ?_, hp, hF, ⟨⟨⟨?_, ?_⟩, hlead.mem, ?_, ?_, ?_⟩, hnodes, ?_, ?_⟩, ⟨?_, ?_, ?_, ?_, ?_, ?_⟩⟩
  · rw [runOf, run_append]
    exact hrun
  · rw [hp, hrf.status]
    exact hlead.leads.1
  · rw [hp, hrf.term]
    exact hlead.leads.2
  · rw [hexited]
    exact hlead.live
  · exact hall (·.currentTerm ≤ T) (hrf.term.trans hlead.leads.2).le hFterm.le hlead.term
  · exact hall Raft.Whole ⟨hrf.snapIndex.trans hwhole.1, hrf.snapTerm.trans hwhole.2⟩ hFwhole
      hlead.whole
  · rw [hp, hrf.logs]
  · rw [hp]
    exact hrf.next
  · refine ⟨_, hround', rfl, rfl, fun i hi => ?_⟩
    obtain ⟨args', hcall', hbuilt⟩ := hcalls i (List.mem_cons_of_mem q hi)
    have hiq : i ≠ q := fun heq => hq (heq ▸ hi)
    refine ⟨args', ?_, hbuilt⟩
    simp [Round.take, Round.respond, hiq, hcall']
  · rw [hp, hrf.logs]
    exact hpoll.logs
  · rw [hp, hrf.snapIndex]
    exact hpoll.snapIndex
  · rw [hp, hrf.snapTerm]
    exact hpoll.snapTerm
  · rw [hp, hrf.term]
    exact hpoll.term
  · intro i hi
    rw [hp, hrf.next i (fun heq => hq (heq ▸ hi))]
    exact hpoll.next i (List.mem_cons_of_mem q hi)

theorem Polling.poll (hpoll : Polling (runOf acts) p h L num (q :: voters))
    (hlead : (runOf acts).Leading p T M) (hqM : q ∈ M) (hqp : q ≠ p) (hq : q ∉ voters) :
    ∃ s' num', runOf (acts ++ [.appendEntries1 h q, .sendAppendEntries h q 0]) = s' ∧
      Polled (runOf acts) s' p q T M ∧ Polling s' p h L num' voters ∧
      (¬(runOf acts).Ready p q ∧
        (s'.nodes p).nextIndex q < ((runOf acts).nodes p).nextIndex q ∨
      s'.Ready p q ∧ num' = (if ((1 + n / 2 : ℕ) : ℤ) ≤ num + 1 then 0 else num + 1) ∧
        (((1 + n / 2 : ℕ) : ℤ) ≤ num + 1 → L.nextIndex q ≤ L.getLastLogIndex →
          L.logs.getLast?.any (fun e => e.logTerm = L.currentTerm) = true →
          L.getLastLogIndex ≤ (s'.nodes p).commitIndex)) := by
  obtain ⟨r, hround, -, -, hcalls⟩ := hpoll.round
  obtain ⟨args, hcall, hb, hprev⟩ := hcalls q List.mem_cons_self
  have hcall : ∀ r', (runOf acts).heartBeats[h]? = some r' →
      r'.calls q = some (Call.start args) := by
    intro r' hr'
    obtain rfl := Option.some.inj (hround.symm.trans hr')
    exact hcall
  have hI := indexed_runOf acts
  have hpeer := (bounded_runOf acts).leader p hlead.leads.1 q
  have hwhole := hlead.whole p hlead.mem
  have hnext := hpoll.next q List.mem_cons_self
  have hlen := hb.length
  have hlast : ((runOf acts).nodes p).getLastLogIndex = L.getLastLogIndex :=
    Raft.getLastLogIndex_congr hpoll.logs hpoll.snapIndex
  have hLterm : L.currentTerm = T := hpoll.term.symm.trans hlead.leads.2
  have hLwhole : L.Whole := ⟨hpoll.snapIndex.symm.trans hwhole.1, hpoll.snapTerm.symm.trans hwhole.2⟩
  have hLcont : L.Contiguous := by
    have hc := (hI.node p).contiguous
    unfold Raft.Contiguous at hc ⊢
    rwa [hpoll.logs, hpoll.snapIndex] at hc
  obtain ⟨F, reply, hF, hFterm, hFwhole, happ, hrterm, hanswer⟩ :=
    hb.answer hLcont (hI.node q) ((hlead.term q hqM).trans hLterm.ge) hLwhole (hlead.whole q hqM)
      (fun e he f hf => (entries_runOf acts).unique e f (Or.inl ⟨p, hpoll.logs ▸ he⟩)
        (Or.inl ⟨q, hf⟩))
  have hears : ((runOf acts).nodes p).Hears reply :=
    ⟨happ, hrterm.trans hpoll.term.symm, hlead.leads.1⟩
  cases hanswer with
  | rejected success _ prev pos le =>
    obtain ⟨s', hrun, hp, -, hpolled, hpoll'⟩ := hpoll.taken hlead hqM hqp hq hcall hF
      (hFterm.trans hLterm) hFwhole (Raft.sendAppendEntries_reject hears success)
      (.reject _ _ _)
    refine ⟨s', num, hrun, hpolled, hpoll', Or.inl ⟨?_, ?_⟩⟩
    · rintro ⟨t, htp, htq⟩
      rw [hnext, ← hprev] at htp htq
      have ht := hLcont.termAt_unique hb.prevTerm
        (htp.congr hpoll.logs.symm hpoll.snapIndex.symm hpoll.snapTerm.symm)
      exact prev (ht ▸ htq)
    · rw [hp, Raft.reject, if_neg (by omega)]
      simp only [Function.update_self]
      omega
  | accepted success last =>
    have hmatched : ((runOf acts).nodes p).matchedBy q args = L.getLastLogIndex := by
      have := hpeer.match_le
      unfold Raft.matchedBy
      omega
    have hcommit : (((runOf acts).nodes p).accept q args num).commitIndex ≤
        ((runOf acts).nodes p).getLastLogIndex := by
      have := (hI.node p).commit_le
      simp only [Raft.accept]
      split_ifs <;> omega
    obtain ⟨s', hrun, hp, hq', hpolled, hpoll'⟩ := hpoll.taken hlead hqM hqp hq hcall hF
      (hFterm.trans hLterm) hFwhole
      (Raft.sendAppendEntries_accept hears success (hmatched.trans hlast.symm).le hcommit)
      (.accept _ _ _ _)
    refine ⟨s', _, hrun, hpolled, hpoll', Or.inr ⟨?_, rfl, ?_⟩⟩
    · obtain ⟨t, ht⟩ := hLcont.exists_termAt (i := L.getLastLogIndex)
        (by have := hLcont.getLastLogIndex_eq; omega) le_rfl
      have hnext' : (s'.nodes p).nextIndex q - 1 = L.getLastLogIndex := by
        rw [hp, Raft.accept]
        simp only [Function.update_self]
        omega
      refine ⟨t, ?_, ?_⟩
      · rw [hnext']
        exact ht.congr hpoll'.logs hpoll'.snapIndex hpoll'.snapTerm
      · rw [hnext', hq']
        exact last t ht
    · intro hmajority hle hterm
      have hcompletes : ((runOf acts).nodes p).Completes args num := by
        refine ⟨hmajority, ?_⟩
        have hlenL := hLcont.getLastLogIndex_eq
        have hsnap := hLwhole.1
        have hpos := hpeer.next_pos
        rw [hb.entries, List.getLast?_drop, if_neg (by omega), hpoll.term]
        exact hterm
      rw [hp, Raft.accept]
      simp only [if_pos hcompletes]
      omega

def Continues (acts acts' : List (Action n)) : Prop :=
  ∃ later, acts' = acts ++ later ∧ ∀ a ∈ later, Action.isProtocol a = true

theorem Continues.refl (acts : List (Action n)) : Continues acts acts := ⟨[], by simp, by simp⟩

theorem Continues.trans {acts' acts'' : List (Action n)} (h : Continues acts acts')
    (h' : Continues acts' acts'') : Continues acts acts'' := by
  obtain ⟨later, rfl, hlater⟩ := h
  obtain ⟨later', rfl, hlater'⟩ := h'
  refine ⟨later ++ later', List.append_assoc _ _ _, fun a ha => ?_⟩
  exact (List.mem_append.mp ha).elim (hlater a) (hlater' a)

theorem Continues.isPrefix {acts' : List (Action n)} (h : Continues acts acts') : acts <+: acts' := by
  obtain ⟨later, rfl, -⟩ := h
  exact List.prefix_append _ _

theorem Leading.exchange (hlead : (runOf acts).Leading p T M) (hqM : q ∈ M) (hqp : q ≠ p) :
    ∃ acts', Continues acts acts' ∧ Polled (runOf acts) (runOf acts') p q T M ∧
      ((runOf acts').Ready p q ∨
        ((runOf acts').nodes p).nextIndex q < ((runOf acts).nodes p).nextIndex q) := by
  have hvoter : ∀ i ∈ [q], i ≠ p := by simpa using hqp
  obtain ⟨hnodes, hlead', hpoll⟩ := hlead.heartBeat hvoter
  obtain ⟨s', num', hrun, hpolled, -, hcase⟩ := hpoll.poll hlead' hqM hqp List.not_mem_nil
  subst hrun
  obtain ⟨hleading, helse, hlogs, hnext⟩ := hpolled
  rw [hnodes] at helse hlogs hnext hcase
  exact ⟨_, ⟨_, List.append_assoc _ _ _, by simp [Action.isProtocol]⟩,
    ⟨hleading, helse, hlogs, hnext⟩, hcase.elim (fun h => Or.inr h.2) fun h => Or.inl h.1⟩

theorem Leading.repair (hlead : (runOf acts).Leading p T M) (hqM : q ∈ M) (hqp : q ≠ p) :
    ∃ acts', Continues acts acts' ∧ (runOf acts').Leading p T M ∧ (runOf acts').Ready p q ∧
      ((runOf acts').nodes p).logs = ((runOf acts).nodes p).logs ∧
      ∀ i, i ≠ p → (runOf acts).Ready p i → (runOf acts').Ready p i := by
  obtain ⟨k, hk⟩ : ∃ k : ℕ, ((runOf acts).nodes p).nextIndex q ≤ k := ⟨_, Int.self_le_toNat _⟩
  induction k generalizing acts with
  | zero =>
    have hpos := ((bounded_runOf acts).leader p hlead.leads.1 q).next_pos
    push_cast at hk
    omega
  | succ k ih =>
    obtain ⟨acts₁, hpre₁, hpolled, hcase⟩ := hlead.exchange hqM hqp
    have hkeep : ∀ i, i ≠ p → i ≠ q → (runOf acts).Ready p i → (runOf acts₁).Ready p i :=
      fun i hip hiq hr => hpolled.ready hlead hip hiq hr
    rcases hcase with hready | hlt
    · refine ⟨acts₁, hpre₁, hpolled.leading, hready, hpolled.logs, fun i hip hr => ?_⟩
      by_cases hiq : i = q
      · exact hiq ▸ hready
      · exact hkeep i hip hiq hr
    · obtain ⟨acts', hpre, hlead', hready, hlogs, hrest⟩ := ih hpolled.leading (by push_cast at hk; omega)
      refine ⟨acts', hpre₁.trans hpre, hlead', hready, hlogs.trans hpolled.logs, fun i hip hr => ?_⟩
      by_cases hiq : i = q
      · exact hiq ▸ hready
      · exact hrest i hip (hkeep i hip hiq hr)

theorem Leading.repair_all (hlead : (runOf acts).Leading p T M)
    (hV : ∀ q ∈ voters, q ∈ M ∧ q ≠ p) :
    ∃ acts', Continues acts acts' ∧ (runOf acts').Leading p T M ∧
      ((runOf acts').nodes p).logs = ((runOf acts).nodes p).logs ∧
      ∀ q ∈ voters, (runOf acts').Ready p q := by
  induction voters with
  | nil => exact ⟨acts, .refl _, hlead, rfl, by simp⟩
  | cons q voters ih =>
    obtain ⟨acts₁, hpre₁, hlead₁, hlogs₁, hready₁⟩ :=
      ih fun i hi => hV i (List.mem_cons_of_mem q hi)
    obtain ⟨hqM, hqp⟩ := hV q List.mem_cons_self
    obtain ⟨acts', hpre, hlead', hready, hlogs, hrest⟩ := hlead₁.repair hqM hqp
    refine ⟨acts', hpre₁.trans hpre, hlead', hlogs.trans hlogs₁, fun i hi => ?_⟩
    rcases List.mem_cons.mp hi with rfl | hi
    · exact hready
    · exact hrest i (hV i (List.mem_cons_of_mem q hi)).2 (hready₁ i hi)

theorem Polling.commit (hpoll : Polling (runOf acts) p h L (1 + k : ℕ) voters)
    (hlead : (runOf acts).Leading p T M) (hV : ∀ q ∈ voters, q ∈ M ∧ q ≠ p)
    (hready : ∀ q ∈ voters, (runOf acts).Ready p q) (hnodup : voters.Nodup) (hne : voters ≠ [])
    (hlen : k + voters.length = n / 2) (hnext : ∀ q ∈ voters, L.nextIndex q ≤ L.getLastLogIndex)
    (hterm : L.logs.getLast?.any (fun e => e.logTerm = L.currentTerm) = true) :
    ∃ acts', Continues acts acts' ∧ (runOf acts').Leading p T M ∧
      ((runOf acts').nodes p).logs = L.logs ∧
      L.getLastLogIndex ≤ ((runOf acts').nodes p).commitIndex := by
  induction voters generalizing acts k with
  | nil => exact absurd rfl hne
  | cons q voters ih =>
    obtain ⟨hq, hnodup⟩ := List.nodup_cons.mp hnodup
    obtain ⟨hqM, hqp⟩ := hV q List.mem_cons_self
    obtain ⟨s', num', hrun, hpolled, hpoll', hcase⟩ := hpoll.poll hlead hqM hqp hq
    obtain ⟨-, hnum, hcommit⟩ := hcase.resolve_left fun h => h.1 (hready q List.mem_cons_self)
    subst hrun
    rw [List.length_cons] at hlen
    by_cases hlast : voters = []
    · subst hlast
      rw [List.length_nil] at hlen
      exact ⟨_, ⟨_, rfl, by simp [Action.isProtocol]⟩, hpolled.leading, hpoll'.logs,
        hcommit (by push_cast; omega) (hnext q List.mem_cons_self) hterm⟩
    · have hpos := List.length_pos_of_ne_nil hlast
      rw [if_neg (by push_cast; omega)] at hnum
      obtain ⟨acts', hpre, hrest⟩ := ih (k := k + 1) (by rw [hnum] at hpoll'; exact_mod_cast hpoll')
        hpolled.leading (fun i hi => hV i (List.mem_cons_of_mem q hi)) (fun i hi => by
          have hi' := List.mem_cons_of_mem q hi
          exact hpolled.ready hlead (hV i hi').2 (fun heq => hq (heq ▸ hi)) (hready i hi'))
        hnodup hlast (by omega) (fun i hi => hnext i (List.mem_cons_of_mem q hi))
      exact ⟨acts', .trans ⟨_, rfl, by simp [Action.isProtocol]⟩ hpre, hrest⟩

theorem Leading.start (hlead : (runOf acts).Leading p T M) (command : String) :
    (runOf (acts ++ [.start p command])).Leading p T M ∧
      ((runOf (acts ++ [.start p command])).nodes p).logs = ((runOf acts).nodes p).logs ++
        [⟨command, T, ((runOf acts).nodes p).getLastLogIndex + 1⟩] ∧
      ((runOf (acts ++ [.start p command])).nodes p).nextIndex =
        ((runOf acts).nodes p).nextIndex ∧
      ∀ q, q ≠ p → (runOf acts).Ready p q → (runOf (acts ++ [.start p command])).Ready p q := by
  obtain ⟨rf, out, heval⟩ : ∃ rf out, ((runOf acts).nodes p).start command = (rf, out) :=
    ⟨_, _, rfl⟩
  have hstep : (runOf acts).step (.start p command) = (runOf acts).setNode p rf := by
    simp only [step, onNode, hlead.live p hlead.mem, heval]
    rfl
  have hpeers := Raft.start_peers heval
  have hout : out ≠ none := by
    rintro rfl
    simp [Raft.start, hlead.leads.1] at heval
  obtain ⟨-, hT, hst, hlogs, hidx, hsterm, -⟩ :=
    (Raft.start_cases heval).resolve_left fun h => hout h.2
  have hterm : rf.currentTerm = T := by
    rcases hT.cases with ⟨-, -, hfollow⟩ | ⟨hterm, -⟩
    · cases hst.symm.trans hfollow
    · exact hterm.trans hlead.leads.2
  rw [runOf_concat, hstep, setNode_nodes_self]
  have hall : ∀ P : Raft n → Prop, P rf → (∀ i ∈ M, P ((runOf acts).nodes i)) →
      ∀ i ∈ M, P (((runOf acts).setNode p rf).nodes i) := by
    intro P hrf hP i hi
    by_cases hip : i = p
    · rwa [hip, setNode_nodes_self]
    · rw [setNode_nodes_of_ne hip]
      exact hP i hi
  have hwhole := hlead.whole p hlead.mem
  refine ⟨⟨⟨?_, ?_⟩, hlead.mem, hlead.live, ?_, ?_⟩, ?_, hpeers.next, fun q hq hr => ?_⟩
  · rw [setNode_nodes_self, hst]
  · rw [setNode_nodes_self, hterm]
  · exact hall (·.currentTerm ≤ T) hterm.le hlead.term
  · exact hall Raft.Whole ⟨hidx.trans hwhole.1, hsterm.trans hwhole.2⟩ hlead.whole
  · rw [hlogs, hlead.leads.2]
  · obtain ⟨t, htp, htq⟩ := hr
    refine ⟨t, ?_, ?_⟩
    · rw [setNode_nodes_self, hpeers.next]
      rcases htp with ⟨hi, ht⟩ | ⟨e, he, hi, ht⟩
      · exact Or.inl ⟨hi.trans hidx.symm, ht.trans hsterm.symm⟩
      · exact Or.inr ⟨e, by rw [hlogs]; exact List.mem_append_left _ he, hi, ht⟩
    · rw [setNode_nodes_self, setNode_nodes_of_ne hq, hpeers.next]
      exact htq

/-- Node `p` leads, and half of the cluster, `p` not among it, will accept its next requests. -/
structure Poised (s : Cluster n) (p : Fin n) (T : ℤ) (M : Finset (Fin n)) (voters : List (Fin n)) :
    Prop where
  leading : s.Leading p T M
  voter : ∀ q ∈ voters, q ∈ M ∧ q ≠ p
  nodup : voters.Nodup
  half : voters.length = n / 2
  ready : ∀ q ∈ voters, s.Ready p q

theorem exists_poised (hn : 2 ≤ n) (acts : List (Action n)) (hM : n < 2 * M.card)
    (hlive : ∀ q ∈ M, (runOf acts).exited q = none)
    (hsnap : ∀ q ∈ M, ((runOf acts).nodes q).lastSnapshotIncludeIndex = 0) :
    ∃ acts', Continues acts acts' ∧ ∃ p T voters, Poised (runOf acts') p T M voters ∧
      ((runOf acts').nodes p).getLastLogIndex = ((runOf acts).nodes p).getLastLogIndex := by
  obtain ⟨first, T, hfirst, p, hp, hleads, hstands, hterm⟩ :=
    exists_election (runOf acts) hn hM hlive
  have hrun : run step (runOf acts) first = runOf (acts ++ first) := (run_append _ _ _ _).symm
  rw [hrun] at hleads hstands hterm
  have hlead : (runOf (acts ++ first)).Leading p T M :=
    { leads := hleads
      mem := hp
      live := by
        rw [hstands.exited]
        exact hlive
      term := hterm
      whole := fun q hq => by
        have hzero := (hstands.log q).snapIndex.trans (hsnap q hq)
        exact ⟨hzero, (bounded_runOf _).snapTerm q hzero⟩ }
  obtain ⟨V, hV, hcard⟩ : ∃ V ⊆ M.erase p, V.card = n / 2 := by
    refine Finset.exists_subset_card_eq ?_
    rw [Finset.card_erase_of_mem hp]
    omega
  have hvoter : ∀ q ∈ V.toList, q ∈ M ∧ q ≠ p := fun q hq =>
    (Finset.mem_erase.mp (hV (Finset.mem_toList.mp hq))).symm
  obtain ⟨acts', hcont, hlead', hlogs, hready⟩ := hlead.repair_all hvoter
  refine ⟨acts', .trans ⟨first, rfl, hfirst⟩ hcont, p, T, V.toList,
    ⟨hlead', hvoter, V.nodup_toList, by rw [Finset.length_toList, hcard], hready⟩, ?_⟩
  rw [Raft.getLastLogIndex_congr hlogs ((hlead'.whole p hp).1.trans (hlead.whole p hp).1.symm)]
  exact (hstands.log p).last

theorem Poised.commit (h : Poised (runOf acts) p T M voters) (hn : 2 ≤ n) (command : String) :
    ∃ acts', Continues (acts ++ [.start p command]) acts' ∧ (runOf acts').Leading p T M ∧
      ⟨command, T, ((runOf acts).nodes p).getLastLogIndex + 1⟩ ∈ ((runOf acts').nodes p).logs ∧
      ((runOf acts).nodes p).getLastLogIndex + 1 ≤ ((runOf acts').nodes p).commitIndex := by
  have hp := h.leading.mem
  obtain ⟨hlead₁, hlogs₁, hnext₁, hready₁⟩ := h.leading.start command
  obtain ⟨hnodes₂, hlead₂, hpoll⟩ := hlead₁.heartBeat fun q hq => (h.voter q hq).2
  have hzero := (h.leading.whole p hp).1
  have hzero₁ := (hlead₁.whole p hp).1
  have hlast : ((runOf (acts ++ [.start p command])).nodes p).getLastLogIndex =
      ((runOf acts).nodes p).getLastLogIndex + 1 := by
    have hlen := ((indexed_runOf acts).node p).contiguous.getLastLogIndex_eq
    have hlen₁ :=
      ((indexed_runOf (acts ++ [.start p command])).node p).contiguous.getLastLogIndex_eq
    rw [hlogs₁, List.length_append, List.length_singleton] at hlen₁
    push_cast at hlen₁
    omega
  have hhalf := h.half
  obtain ⟨acts', hcont, hlead', hlogs', hcommit⟩ := hpoll.commit (k := 0) hlead₂ h.voter
    (fun q hq => by
      unfold Ready
      rw [hnodes₂]
      exact hready₁ q (h.voter q hq).2 (h.ready q hq))
    h.nodup (by rw [← List.length_pos_iff]; omega) (by omega)
    (fun q _ => by
      have hle := ((bounded_runOf acts).leader p h.leading.leads.1 q).next_le
      rw [hnext₁]
      omega)
    (by simp [hlogs₁, hlead₁.leads.2])
  refine ⟨acts', .trans ⟨_, rfl, by simp [Action.isProtocol]⟩ hcont, hlead', ?_, by omega⟩
  rw [hlogs', hlogs₁]
  exact List.mem_append_right _ List.mem_cons_self

/-- Whatever has happened, as long as a majority of the processes runs and has compacted nothing,
there is a continuation in which one of them leads and commits a given command at a new index. -/
theorem command_can_commit (hn : 2 ≤ n) (acts : List (Action n)) {M : Finset (Fin n)}
    (hM : n < 2 * M.card) (hlive : ∀ q ∈ M, (runOf acts).exited q = none)
    (hsnap : ∀ q ∈ M, ((runOf acts).nodes q).lastSnapshotIncludeIndex = 0) (command : String) :
    ∃ acts', acts <+: acts' ∧ (∀ q ∈ M, (runOf acts').exited q = none) ∧
      ∃ p ∈ M, ((runOf acts').nodes p).status = .leader ∧
        ∃ e ∈ ((runOf acts').nodes p).logs, e.command = command ∧
          ((runOf acts).nodes p).getLastLogIndex < e.logIndex ∧
          e.logIndex ≤ ((runOf acts').nodes p).commitIndex := by
  obtain ⟨acts₁, hcont₁, p, T, voters, hpoised, hlast⟩ := exists_poised hn acts hM hlive hsnap
  obtain ⟨acts', hcont, hlead, hmem, hcommit⟩ := hpoised.commit hn command
  refine ⟨acts', ?_, hlead.live, p, hlead.mem, hlead.leads.1, _, hmem, rfl, ?_, hcommit⟩
  · exact hcont₁.isPrefix.trans ((List.prefix_append _ _).trans hcont.isPrefix)
  · dsimp only
    omega

theorem command_can_commit_commitRun : ∃ acts', commitRun <+: acts' ∧
    (∀ q ∈ ({following, lagging} : Finset (Fin 3)), (runOf acts').exited q = none) ∧
    ∃ p ∈ ({following, lagging} : Finset (Fin 3)), ((runOf acts').nodes p).status = .leader ∧
      ∃ e ∈ ((runOf acts').nodes p).logs, e.command = "b" ∧
        ((runOf commitRun).nodes p).getLastLogIndex < e.logIndex ∧
        e.logIndex ≤ ((runOf acts').nodes p).commitIndex :=
  command_can_commit (by decide) commitRun (by decide) (by decide +kernel) (by decide +kernel) "b"

end Cluster
end RaftStorage
