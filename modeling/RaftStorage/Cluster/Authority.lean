import RaftStorage.Cluster.Replication

/-! Who may send requests in a term. `doHeartBeat` builds its requests under the lock under which it
checked that it is the leader; a `leaderSendSnapShot` thread takes the lock again and builds its
request in whatever role and term it then finds the node. -/

namespace RaftStorage
open Library

/-- A place for a request: the call to `q` of a heartbeat round, or a snapshot thread. -/
inductive Slot (n : ℕ) where
  | append (h : ℕ) (q : Fin n)
  | install (t : ℕ)

structure Envelope (n : ℕ) where
  sender : Fin n
  receiver : Fin n
  term : ℤ
  deriving DecidableEq

def Action.delivers {n : ℕ} : Action n → Option (Slot n)
  | .appendEntries1 h p => some (.append h p)
  | .installSnapshot t => some (.install t)
  | _ => none

namespace Cluster

variable {n : ℕ} {s s' : Cluster n} {a : Action n}

def request (s : Cluster n) : Slot n → Option (Envelope n)
  | .append h q =>
    (s.heartBeats[h]?).bind fun r => (r.calls q).map fun c => ⟨r.owner, q, c.args.term⟩
  | .install t =>
    (s.snapShots[t]?).bind fun th => th.request.map fun args => ⟨th.owner, th.server, args.term⟩

/-- A request that the step builds is built by the leader of its term. -/
def Authorised (s : Cluster n) (a : Action n) : Prop :=
  ∀ slot env, s.request slot = none → (s.step a).request slot = some env →
    (s.nodes env.sender).status = .leader ∧ (s.nodes env.sender).currentTerm = env.term ∧
      (env.sender, env.term) ∈ s.elected

/-- A request that the step delivers does not depose the leader of its term. -/
def Respects (s : Cluster n) (a : Action n) : Prop :=
  ∀ slot ∈ a.delivers, ∀ env ∈ s.request slot, (s.nodes env.receiver).status = .leader →
    (s.nodes env.receiver).currentTerm = env.term →
    ((s.step a).nodes env.receiver).status = .leader

/-- A snapshot thread that takes the lock finds its node still, or again, a leader. -/
def Prompt (s : Cluster n) : Action n → Prop
  | .leaderSendSnapShot t => ∀ th ∈ s.snapShots[t]?, th.request = none →
      s.exited th.owner = none → (s.nodes th.owner).status = .leader
  | _ => True

/-! ## Where requests come from -/

def sends (r : HeartBeat n) : Fin n × (Fin n → Option (AppendEntriesArgs n)) :=
  (r.owner, fun q => (r.calls q).map Call.args)

theorem sends_respond (r : HeartBeat n) (p : Fin n) (reply : AppendEntriesReply) :
    sends (r.respond p reply) = sends r := by
  refine Prod.ext rfl (funext fun q => ?_)
  by_cases hq : q = p
  · subst hq
    simp [sends, Round.respond, Function.comp_def]
  · simp [sends, Round.respond, hq]

theorem sends_take (r : HeartBeat n) (p : Fin n) (reply : AppendEntriesReply) (v : ℤ) :
    sends (r.take p reply v) = sends r := by
  refine Prod.ext rfl (funext fun q => ?_)
  by_cases hq : q = p
  · subst hq
    simp [sends, Round.take, Function.comp_def]
  · simp [sends, Round.take, hq]

theorem request_append (s : Cluster n) (h : ℕ) (q : Fin n) : s.request (.append h q) =
    ((s.heartBeats.map sends)[h]?).bind fun r => (r.2 q).map fun args => ⟨r.1, q, args.term⟩ := by
  rw [List.getElem?_map]
  cases hr : s.heartBeats[h]? with
  | none => simp [request, hr]
  | some r => simp [request, hr, sends, Function.comp_def]

def asks (th : SnapShotThread n) : Option (Envelope n) :=
  th.request.map fun args => ⟨th.owner, th.server, args.term⟩

theorem request_install (s : Cluster n) (t : ℕ) :
    s.request (.install t) = ((s.snapShots.map asks)[t]?).join := by
  rw [List.getElem?_map]
  cases h : s.snapShots[t]? with
  | none => simp [request, h]
  | some th => simp [request, h, asks]

inductive Built (s : Cluster n) : Action n → Envelope n → Prop
  | heartBeat {p q args} (leader : (s.nodes p).status = .leader)
      (eval : (s.nodes p).heartBeatTo q = .ok (some (.append args))) :
      Built s (.doHeartBeat p) ⟨p, q, args.term⟩
  | snapShot {t th} (thread : s.snapShots[t]? = some th) (request : th.request = none) :
      Built s (.leaderSendSnapShot t) ⟨th.owner, th.server, (s.nodes th.owner).currentTerm⟩

theorem request_recordHeartBeat {p : Fin n} {out : Fin n → Option (Raft.HeartBeatSend n)}
    (hl : (s.nodes p).status = .leader) (hsends : ∀ q, (s.nodes p).heartBeatTo q = .ok (out q))
    {slot : Slot n} {env : Envelope n}
    (h : (s.recordHeartBeat p (some out)).request slot = some env) :
    s.request slot = some env ∨ s.request slot = none ∧ Built s (.doHeartBeat p) env := by
  cases slot with
  | append i q =>
    simp only [request, recordHeartBeat] at h ⊢
    rw [List.getElem?_append] at h
    split_ifs at h with hi
    · exact Or.inl h
    · obtain ⟨r, hr, hc⟩ := Option.bind_eq_some_iff.mp h
      obtain rfl := List.mem_singleton.mp (List.mem_of_getElem? hr)
      obtain ⟨c, hcall, rfl⟩ := Option.map_eq_some_iff.mp hc
      simp only [newHeartBeat] at hcall
      split at hcall
      · rename_i args hargs
        obtain rfl := Option.some.inj hcall
        have hnew : s.heartBeats[i]? = none := List.getElem?_eq_none (not_lt.mp hi)
        exact Or.inr ⟨by simp [hnew], .heartBeat hl (hargs ▸ hsends q)⟩
      · cases hcall
  | install t =>
    simp only [request, recordHeartBeat] at h ⊢
    rw [List.getElem?_append] at h
    split_ifs at h with ht
    · exact Or.inl h
    · -- a thread that has just been started has no request yet
      obtain ⟨th, hth, hreq⟩ := Option.bind_eq_some_iff.mp h
      obtain ⟨i, -, hi⟩ := List.mem_filterMap.mp (List.mem_of_getElem? hth)
      split at hi
      · obtain rfl := Option.some.inj hi
        cases hreq
      · cases hi

theorem Step.request_built (hs : Step s a s') {slot : Slot n} {env : Envelope n}
    (h : s'.request slot = some env) :
    s.request slot = some env ∨ s.request slot = none ∧ Built s a env := by
  cases hs with
  | doElection => rename_i out _; cases out <;> exact Or.inl h
  | doHeartBeat eval =>
    rename_i p out
    rcases Raft.doHeartBeat_cases eval with rfl | ⟨out, rfl, hl, hsends⟩
    · exact Or.inl h
    · exact request_recordHeartBeat hl hsends h
  | appendEntries1 =>
    cases slot with
    | append i q =>
      rw [request_append] at h ⊢
      simp only [recordAppend, setNode] at h
      rw [map_modify (fun r => sends_respond r _ _)] at h
      exact Or.inl h
    | install t => exact Or.inl h
  | sendAppendEntries =>
    cases slot with
    | append i q =>
      rw [request_append] at h ⊢
      simp only [recordAppendReply, setNode] at h
      rw [map_modify (fun r => sends_take r _ _ _)] at h
      exact Or.inl h
    | install t => exact Or.inl h
  | @leaderSendSnapShot t th thread request =>
    cases slot with
    | append i q => exact Or.inl h
    | install i =>
      by_cases hi : t = i
      · subst hi
        simp only [Cluster.request, recordSnapShotRequest, setNode, List.getElem?_modify_eq, thread,
          Option.map_eq_map, Option.map_some, Option.bind_some, Option.some.injEq] at h
        exact Or.inr ⟨by simp [Cluster.request, thread, request], h ▸ .snapShot thread request⟩
      · simp only [Cluster.request, recordSnapShotRequest, setNode,
          List.getElem?_modify_ne _ _ hi] at h
        exact Or.inl h
  | installSnapshot =>
    cases slot with
    | append i q => exact Or.inl h
    | install i =>
      rw [request_install] at h ⊢
      simp only [recordInstall, setNode] at h
      rw [map_modify (by exact fun th => rfl)] at h
      exact Or.inl h
  | leaderSendSnapShotReply =>
    cases slot with
    | append i q => exact Or.inl h
    | install i =>
      rw [request_install] at h ⊢
      simp only [recordSnapShotReply, setNode] at h
      rw [map_modify (by exact fun th => rfl)] at h
      exact Or.inl h
  | _ => exact Or.inl h

theorem Step.thread_origin (hs : Step s a s') (hI : s.Indexed) : ∀ th ∈ s'.snapShots,
    (∃ th₀ ∈ s.snapShots, th₀.owner = th.owner ∧ th₀.server = th.server) ∨
      th.server ≠ th.owner ∧ (s.nodes th.owner).status = .leader := by
  have hold : ∀ th ∈ s.snapShots,
      (∃ th₀ ∈ s.snapShots, th₀.owner = th.owner ∧ th₀.server = th.server) ∨
        th.server ≠ th.owner ∧ (s.nodes th.owner).status = .leader :=
    fun th hth => Or.inl ⟨th, hth, rfl, rfl⟩
  cases hs with
  | doElection => rename_i out _; cases out <;> exact hold
  | doHeartBeat eval =>
    rename_i p out
    rcases Raft.doHeartBeat_cases eval with rfl | ⟨out, rfl, hl, hsends⟩
    · exact hold
    intro th hth
    rcases List.mem_append.mp hth with hth | hth
    · exact hold th hth
    · obtain ⟨i, -, hi⟩ := List.mem_filterMap.mp hth
      split at hi
      · rename_i hsnap
        obtain rfl := Option.some.inj hi
        refine Or.inr ⟨fun hip => ?_, hl⟩
        dsimp only at hip
        have hto := hsends i
        rw [hsnap, Raft.heartBeatTo, if_pos (hip.trans (hI.me p).symm)] at hto
        cases hto
      · cases hi
  | leaderSendSnapShot =>
    exact forall_mem_modify hold fun th hth => hold th (List.mem_of_getElem? hth)
  | installSnapshot =>
    exact forall_mem_modify hold fun th hth => hold th (List.mem_of_getElem? hth)
  | leaderSendSnapShotReply =>
    exact forall_mem_modify hold fun th hth => hold th (List.mem_of_getElem? hth)
  | _ => exact hold

/-! ## One voice for a term -/

/-- Requests go from one node to another, and their sender was elected in their term. -/
structure Spoken (s : Cluster n) : Prop where
  thread : ∀ th ∈ s.snapShots, th.server ≠ th.owner
  request : ∀ slot env, s.request slot = some env →
    env.receiver ≠ env.sender ∧ (env.sender, env.term) ∈ s.elected

theorem spoken_init (n : ℕ) : (init n).Spoken where
  thread := by simp [init]
  request := by
    intro slot env h
    cases slot <;> simp [Cluster.request, init] at h

theorem step_leaderSendSnapShot_of_exited {t : ℕ} {th : SnapShotThread n}
    (hth : s.snapShots[t]? = some th) (hreq : th.request = none) (hex : s.exited th.owner ≠ none) :
    s.step (.leaderSendSnapShot t) = s := by
  simp only [step, hth, hreq, onNode]
  split
  · rfl
  · exact absurd ‹_› hex

theorem Prompt.authorised (h : s.Prompt a) (hI : s.Indexed) (hE : s.Elections) :
    s.Authorised a := by
  intro slot env hnone hsome
  rcases (step_spec s a).request_built hsome with hold | ⟨-, hbuilt⟩
  · rw [hnone] at hold
    cases hold
  cases hbuilt with
  | heartBeat leader eval =>
    have hterm := (Raft.heartBeatTo_append (hI.node _).contiguous eval).2.term
    exact ⟨leader, hterm.symm, hterm ▸ hE.leader _ leader⟩
  | @snapShot t th thread request =>
    by_cases hex : s.exited th.owner = none
    · have hlead := h th thread request hex
      exact ⟨hlead, rfl, hE.leader _ hlead⟩
    · rw [step_leaderSendSnapShot_of_exited thread request hex, hnone] at hsome
      cases hsome

theorem Authorised.prompt (h : s.Authorised a) : s.Prompt a := by
  cases a with
  | leaderSendSnapShot t =>
    intro th hth hreq hex
    have hthread : s.snapShots[t]? = some th := hth
    have hnone : s.request (.install t) = none := by simp [request, hthread, hreq]
    refine (h (.install t) ⟨th.owner, th.server, (s.nodes th.owner).currentTerm⟩ hnone ?_).1
    simp only [step, hthread, hreq, onNode, hex]
    simp [request, recordSnapShotRequest, hthread, Raft.leaderSendSnapShot]
  | _ => trivial

theorem Spoken.step (h : s.Spoken) (hI : s.Indexed) (hauth : s.Authorised a) :
    (s.step a).Spoken where
  thread := by
    intro th hth
    rcases (step_spec s a).thread_origin hI th hth with ⟨th₀, hth₀, ho, hs⟩ | ⟨hne, -⟩
    · rw [← ho, ← hs]
      exact h.thread th₀ hth₀
    · exact hne
  request := by
    intro slot env henv
    have hmono := (step_spec s a).elected_mono
    rcases (step_spec s a).request_built henv with hold | ⟨hnone, hbuilt⟩
    · obtain ⟨hne, hel⟩ := h.request slot env hold
      exact ⟨hne, hmono _ hel⟩
    · refine ⟨?_, hmono _ (hauth slot env hnone henv).2.2⟩
      cases hbuilt with
      | heartBeat leader eval =>
        have hne := (Raft.heartBeatTo_append (hI.node _).contiguous eval).1
        rw [hI.me] at hne
        exact hne
      | snapShot thread request => exact h.thread _ (List.mem_of_getElem? thread)

theorem Spoken.respects (h : s.Spoken) (hE : s.Elections) : s.Respects a := by
  intro slot _ env henv hlead hterm
  obtain ⟨hne, hel⟩ := h.request slot env henv
  have hel' := hE.leader _ hlead
  rw [hterm] at hel'
  exact absurd (hE.elected_unique hel' hel) hne

/-- In a run, all requests of a term are built by its leader, and so never depose it, exactly when
no snapshot thread builds its request on a node that does not lead. -/
theorem leader_speaks_iff (acts : List (Action n)) :
    Along step (fun s a => s.Authorised a ∧ s.Respects a) (init n) acts ↔
      Along step Prompt (init n) acts := by
  rw [along_iff]
  constructor
  · intro h
    exact along_iff.mpr fun before a after heq => (h before a after heq).1.prompt
  · rintro h before a after rfl
    have hbefore := (along_append.mp h).1
    obtain ⟨hI, hE, hS⟩ := run_invariant_along
      (P := fun s : Cluster n => s.Indexed ∧ s.Elections ∧ s.Spoken)
      ⟨indexed_init n, elections_init n, spoken_init n⟩
      (fun s a hP hC => ⟨hP.1.step (step_spec s a), hP.2.1.step hP.1 (step_spec s a),
        hP.2.2.step hP.1 (hC.authorised hP.1 hP.2.1)⟩) hbefore
    have hprompt : (runOf before).Prompt a := (along_append.mp h).2.1
    exact ⟨hprompt.authorised hI hE, hS.respects hE⟩

/-- Node 0 leads term 1 and starts two snapshot threads for node 2. The second one is served; node 2
is then elected in term 2 with the vote of node 0, and the first thread takes the lock. -/
def delayedThreadRun : List (Action 3) :=
  commitRun ++ [.sendAppendEntries 0 following 0, .getApplyLogs leading, .applierPush leading,
    .snapshot leading 1 "s", .doHeartBeat leading, .doHeartBeat leading, .leaderSendSnapShot 1,
    .installSnapshot 1, .doElection lagging, .requestVote 1 leading,
    .sendRequestVote 1 leading 0, .leaderSendSnapShot 0]

theorem delayed_thread_deposes_leader :
    ¬∀ (n : ℕ) (acts : List (Action n)),
      Along step (fun s a => s.Authorised a ∧ s.Respects a) (init n) acts := by
  intro h
  have hlast := along_iff.mp (h 3 (delayedThreadRun ++ [.installSnapshot 0])) delayedThreadRun
    (.installSnapshot 0) [] rfl
  have hreq : (runOf delayedThreadRun).request (.install 0) = some ⟨leading, lagging, 2⟩ := by
    decide +kernel
  have hdep := hlast.2 (.install 0) rfl _ hreq (by decide +kernel) (by decide +kernel)
  revert hdep
  decide +kernel

end Cluster
end RaftStorage
