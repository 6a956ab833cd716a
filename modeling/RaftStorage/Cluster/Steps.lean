import RaftStorage.Cluster.Model
import RaftStorage.Raft.SnapshotSpecs

/-! What a step of the cluster can do, one case for each handler that ran to its end and one for a
handler that ended its process. The case split of `step` is made here and nowhere else. -/

namespace RaftStorage
open Library
namespace Cluster

variable {n : ℕ} {β : Type}

def setNode (s : Cluster n) (p : Fin n) (rf : Raft n) : Cluster n :=
  { s with nodes := Function.update s.nodes p rf }

def exit (s : Cluster n) (p : Fin n) (a : AssertFail) : Cluster n :=
  { s with exited := Function.update s.exited p (some a) }

/-- The action makes node `p` run into the assertion `err`. -/
inductive Fails (s : Cluster n) : Action n → Fin n → AssertFail → Prop
  | sendRequestVote {e p k r c reply err} (round : s.elections[e]? = some r)
      (call : r.calls p = some c) (taken : c.taken = none) (answer : c.replies[k]? = some reply)
      (eval : (s.nodes r.owner).sendRequestVote reply r.counter = .error err) :
      Fails s (.sendRequestVote e p k) r.owner err
  | doHeartBeat {p err} (eval : (s.nodes p).doHeartBeat = .error err) :
      Fails s (.doHeartBeat p) p err
  | appendEntries1 {h p r c err} (round : s.heartBeats[h]? = some r) (call : r.calls p = some c)
      (eval : (s.nodes p).appendEntries1 c.args = .error err) : Fails s (.appendEntries1 h p) p err
  | sendAppendEntries {h p k r c reply err} (round : s.heartBeats[h]? = some r)
      (call : r.calls p = some c) (taken : c.taken = none) (answer : c.replies[k]? = some reply)
      (eval : (s.nodes r.owner).sendAppendEntries p c.args reply r.counter = .error err) :
      Fails s (.sendAppendEntries h p k) r.owner err
  | snapshot {p index str err} (eval : (s.nodes p).snapshot index str = .error err) :
      Fails s (.snapshot p index str) p err
  | getApplyLogs {p err} (eval : (s.nodes p).getApplyLogs = .error err) :
      Fails s (.getApplyLogs p) p err

inductive Step (s : Cluster n) : Action n → Cluster n → Prop
  | idle (a) : Step s a s
  | exit {a p err} (fail : Fails s a p err) : Step s a (s.exit p err)
  | doElection {p rf out} (eval : (s.nodes p).doElection = (rf, out)) :
      Step s (.doElection p) (recordElection p (s.setNode p rf) out)
  | requestVote {e p r rf reply} (round : s.elections[e]? = some r) (call : (r.calls p).isSome)
      (eval : (s.nodes p).requestVote r.info = .ok (rf, reply)) :
      Step s (.requestVote e p) (recordVote e p (s.setNode p rf) reply)
  | sendRequestVote {e p k r c reply rf num won} (round : s.elections[e]? = some r)
      (call : r.calls p = some c) (taken : c.taken = none) (answer : c.replies[k]? = some reply)
      (eval : (s.nodes r.owner).sendRequestVote reply r.counter = .ok (rf, num, won)) :
      Step s (.sendRequestVote e p k)
        (recordVoteReply e r.owner p reply (s.setNode r.owner rf) (num, won))
  | start {p command rf out} (eval : (s.nodes p).start command = (rf, out)) :
      Step s (.start p command) (s.setNode p rf)
  | doHeartBeat {p out} (eval : (s.nodes p).doHeartBeat = .ok out) :
      Step s (.doHeartBeat p) (recordHeartBeat p s out)
  | appendEntries1 {h p r c rf reply} (round : s.heartBeats[h]? = some r)
      (call : r.calls p = some c) (eval : (s.nodes p).appendEntries1 c.args = .ok (rf, reply)) :
      Step s (.appendEntries1 h p) (recordAppend h p (s.setNode p rf) reply)
  | sendAppendEntries {h p k r c reply rf num} (round : s.heartBeats[h]? = some r)
      (call : r.calls p = some c) (taken : c.taken = none) (answer : c.replies[k]? = some reply)
      (eval : (s.nodes r.owner).sendAppendEntries p c.args reply r.counter = .ok (rf, num)) :
      Step s (.sendAppendEntries h p k) (recordAppendReply h p reply (s.setNode r.owner rf) num)
  | leaderSendSnapShot {t th} (thread : s.snapShots[t]? = some th) (request : th.request = none) :
      Step s (.leaderSendSnapShot t)
        (recordSnapShotRequest t (s.setNode th.owner (s.nodes th.owner).leaderSendSnapShot.1)
          (s.nodes th.owner).leaderSendSnapShot.2)
  | installSnapshot {t th args rf reply msg} (thread : s.snapShots[t]? = some th)
      (request : th.request = some args)
      (eval : (s.nodes th.server).installSnapshot args = .ok (rf, reply, msg)) :
      Step s (.installSnapshot t) (recordInstall t th.server (s.setNode th.server rf) (reply, msg))
  | leaderSendSnapShotReply {t k th args reply} (thread : s.snapShots[t]? = some th)
      (request : th.request = some args) :
      Step s (.leaderSendSnapShotReply t k) (recordSnapShotReply t reply
        (s.setNode th.owner ((s.nodes th.owner).leaderSendSnapShotReply th.server args reply)))
  | snapshot {p index str rf} (eval : (s.nodes p).snapshot index str = .ok rf) :
      Step s (.snapshot p index str) (s.setNode p rf)
  | getApplyLogs {p rf msgs} (eval : (s.nodes p).getApplyLogs = .ok (rf, msgs)) :
      Step s (.getApplyLogs p) (recordApply p (s.setNode p rf) msgs)
  | push {a p k pusher msg} (message : (s.pending p)[k]? = some (pusher, msg))
      (action : a = .applierPush p ∧ (s.pending p).findIdx? (·.1 = .applier) = some k ∨
        a = .pushMsgToKvServer p k) :
      Step s a { s with
        pending := Function.update s.pending p ((s.pending p).eraseIdx k)
        applyChan := Function.update s.applyChan p (s.applyChan p ++ [msg]) }

theorem onNode_step {s : Cluster n} {a : Action n} {p : Fin n}
    {f : Raft n → Except AssertFail (Raft n × β)} {k : Cluster n → β → Cluster n}
    (herr : ∀ err, f (s.nodes p) = .error err → Step s a (s.exit p err))
    (hok : ∀ rf b, f (s.nodes p) = .ok (rf, b) → Step s a (k (s.setNode p rf) b)) :
    Step s a (s.onNode p f k) := by
  unfold onNode
  cases s.exited p with
  | some _ => exact .idle a
  | none =>
    cases hf : f (s.nodes p) with
    | error err => exact herr err hf
    | ok out => exact hok out.1 out.2 hf

theorem setNode_self (s : Cluster n) (p : Fin n) : s.setNode p (s.nodes p) = s := by
  unfold setNode
  rw [Function.update_eq_self]

theorem push_step {s : Cluster n} {a : Action n} {p : Fin n} {k : ℕ}
    (ha : a = .applierPush p ∧ (s.pending p).findIdx? (·.1 = .applier) = some k ∨
      a = .pushMsgToKvServer p k) : Step s a (s.push p k) := by
  unfold push
  split
  · rename_i hk
    exact .push hk ha
  · exact .idle a

theorem step_spec (s : Cluster n) (a : Action n) : Step s a (s.step a) := by
  cases a with
  | doElection p =>
    simp only [step]
    refine onNode_step (fun err h => ?_) fun rf out h => ?_
    · cases h
    · exact .doElection (Except.ok.inj h)
  | requestVote e p =>
    simp only [step]
    split
    · rename_i r hr
      split_ifs with hc
      · refine onNode_step (fun err h => ?_) fun rf out h => ?_
        · exact absurd h (Raft.requestVote_ne_error _ _ _)
        · exact .requestVote hr hc h
      · exact .idle _
    · exact .idle _
  | sendRequestVote e p k =>
    simp only [step]
    split
    · rename_i r hr
      split
      · rename_i c hc
        split
        · rename_i reply ht hk
          refine onNode_step (fun err h => ?_) fun rf out h => ?_
          · exact .exit (.sendRequestVote hr hc ht hk h)
          · exact .sendRequestVote hr hc ht hk h
        · exact .idle _
      · exact .idle _
    · exact .idle _
  | start p command =>
    simp only [step]
    refine onNode_step (fun err h => ?_) fun rf out h => ?_
    · cases h
    · exact .start (Except.ok.inj h)
  | doHeartBeat p =>
    simp only [step]
    refine onNode_step (fun err h => ?_) fun rf out h => ?_
    · rcases bind_error.mp h with h | ⟨_, -, h⟩
      · exact .exit (.doHeartBeat h)
      · cases h
    · obtain ⟨out', hok, hval⟩ := bind_ok.mp h
      obtain ⟨rfl, rfl⟩ := Prod.mk.inj (pure_ok.mp hval)
      rw [setNode_self]
      exact .doHeartBeat hok
  | appendEntries1 i p =>
    simp only [step]
    split
    · rename_i r hr
      split
      · rename_i c hc
        refine onNode_step (fun err h => ?_) fun rf out h => ?_
        · exact .exit (.appendEntries1 hr hc h)
        · exact .appendEntries1 hr hc h
      · exact .idle _
    · exact .idle _
  | sendAppendEntries i p k =>
    simp only [step]
    split
    · rename_i r hr
      split
      · rename_i c hc
        split
        · rename_i reply ht hk
          refine onNode_step (fun err h => ?_) fun rf out h => ?_
          · exact .exit (.sendAppendEntries hr hc ht hk h)
          · exact .sendAppendEntries hr hc ht hk h
        · exact .idle _
      · exact .idle _
    · exact .idle _
  | leaderSendSnapShot t =>
    simp only [step]
    split
    · rename_i th hth
      split
      · rename_i hreq
        refine onNode_step (fun err h => ?_) fun rf out h => ?_
        · cases h
        · have hout := Except.ok.inj h
          obtain rfl : (s.nodes th.owner).leaderSendSnapShot.1 = rf := congrArg Prod.fst hout
          obtain rfl : (s.nodes th.owner).leaderSendSnapShot.2 = out := congrArg Prod.snd hout
          exact .leaderSendSnapShot hth hreq
      · exact .idle _
    · exact .idle _
  | installSnapshot t =>
    simp only [step]
    split
    · rename_i th hth
      split
      · rename_i args hreq
        refine onNode_step (fun err h => ?_) fun rf out h => ?_
        · exact absurd h (Raft.installSnapshot_ne_error _ _ _)
        · exact .installSnapshot hth hreq h
      · exact .idle _
    · exact .idle _
  | leaderSendSnapShotReply t k =>
    simp only [step]
    split
    · rename_i th hth
      split
      · rename_i args reply hreq ht hk
        refine onNode_step (fun err h => ?_) fun rf out h => ?_
        · cases h
        · obtain ⟨rfl, -⟩ := Prod.mk.inj (Except.ok.inj h)
          exact .leaderSendSnapShotReply hth hreq
      · exact .idle _
    · exact .idle _
  | snapshot p index str =>
    simp only [step]
    refine onNode_step (fun err h => ?_) fun rf out h => ?_
    · rcases bind_error.mp h with h | ⟨_, -, h⟩
      · exact .exit (.snapshot h)
      · cases h
    · obtain ⟨rf', hok, hval⟩ := bind_ok.mp h
      obtain ⟨rfl, -⟩ := Prod.mk.inj (pure_ok.mp hval)
      exact .snapshot hok
  | getApplyLogs p =>
    simp only [step]
    split_ifs
    · refine onNode_step (fun err h => ?_) fun rf out h => ?_
      · exact .exit (.getApplyLogs h)
      · exact .getApplyLogs h
    · exact .idle _
  | applierPush p =>
    simp only [step]
    split
    · rename_i k hk
      exact push_step (Or.inl ⟨rfl, hk⟩)
    · exact .idle _
  | pushMsgToKvServer p k =>
    simp only [step]
    split
    · exact push_step (Or.inr rfl)
    · exact .idle _

section Views
variable {s s' : Cluster n} {a : Action n} {p q : Fin n} {rf : Raft n}

@[simp] theorem setNode_nodes_self : (s.setNode p rf).nodes p = rf := by simp [setNode]

theorem setNode_nodes_of_ne (hq : q ≠ p) : (s.setNode p rf).nodes q = s.nodes q := by
  simp [setNode, hq]

@[simp] theorem recordElection_nodes (out : Option (RequestVoteArgs n)) :
    (recordElection p s out).nodes = s.nodes := by cases out <;> rfl

@[simp] theorem recordHeartBeat_nodes (out : Option (Fin n → Option (Raft.HeartBeatSend n))) :
    (recordHeartBeat p s out).nodes = s.nodes := by cases out <;> rfl

theorem setNode_rel {R : Raft n → Raft n → Prop} (hrefl : ∀ q, R (s.nodes q) (s.nodes q))
    (h : R (s.nodes p) rf) (q : Fin n) : R (s.nodes q) ((s.setNode p rf).nodes q) := by
  by_cases hq : q = p
  · subst hq
    simpa using h
  · rw [setNode_nodes_of_ne hq]
    exact hrefl q

inductive HeartBeatOrigin (s : Cluster n) : Action n → Cluster n → HeartBeat n → Prop
  | old {a s' r} (mem : r ∈ s.heartBeats) : HeartBeatOrigin s a s' r
  | sent {p sends s'} (leader : (s.nodes p).status = .leader)
      (eval : ∀ i, (s.nodes p).heartBeatTo i = .ok (sends i)) :
      HeartBeatOrigin s (.doHeartBeat p) s' (newHeartBeat p (s.nodes p) sends)
  | answered {i p r c rf reply s'} (mem : r ∈ s.heartBeats) (call : r.calls p = some c)
      (eval : (s.nodes p).appendEntries1 c.args = .ok (rf, reply)) (node : s'.nodes p = rf)
      (round : s.heartBeats[i]? = some r) :
      HeartBeatOrigin s (.appendEntries1 i p) s' (r.respond p reply)
  | taken {i p k r c reply rf num s'} (mem : r ∈ s.heartBeats) (call : r.calls p = some c)
      (taken : c.taken = none) (answer : reply ∈ c.replies)
      (eval : (s.nodes r.owner).sendAppendEntries p c.args reply r.counter = .ok (rf, num)) :
      HeartBeatOrigin s (.sendAppendEntries i p k) s' (r.take p reply num)

theorem Step.heartBeat_origin (h : Step s a s') :
    ∀ r ∈ s'.heartBeats, HeartBeatOrigin s a s' r := by
  cases h with
  | doElection => rename_i out _; cases out <;> exact fun r hr => .old hr
  | doHeartBeat eval =>
    rename_i p out
    rcases Raft.doHeartBeat_cases eval with rfl | ⟨sends, rfl, hl, hsends⟩
    · exact fun r hr => .old hr
    · intro r hr
      rcases List.mem_append.mp hr with hr | hr
      · exact .old hr
      · exact List.mem_singleton.mp hr ▸ .sent hl hsends
  | appendEntries1 round call eval =>
    refine forall_mem_modify (fun r hr => .old hr) fun r hr => ?_
    obtain rfl := Option.some.inj (round.symm.trans hr)
    exact .answered (List.mem_of_getElem? round) call eval setNode_nodes_self round
  | sendAppendEntries round call taken answer eval =>
    refine forall_mem_modify (fun r hr => .old hr) fun r hr => ?_
    obtain rfl := Option.some.inj (round.symm.trans hr)
    exact .taken (List.mem_of_getElem? round) call taken (List.mem_of_getElem? answer) eval
  | _ => exact fun r hr => .old hr

inductive ElectionOrigin (s : Cluster n) : Action n → Cluster n → Election n → Prop
  | old {a s' r} (mem : r ∈ s.elections) : ElectionOrigin s a s' r
  | stood {p rf args s'} (eval : (s.nodes p).doElection = (rf, some args)) (node : s'.nodes p = rf) :
      ElectionOrigin s (.doElection p) s' (newElection p args)
  | answered {i p r rf reply s'} (mem : r ∈ s.elections)
      (eval : (s.nodes p).requestVote r.info = .ok (rf, reply)) (node : s'.nodes p = rf) :
      ElectionOrigin s (.requestVote i p) s' (r.respond p reply)
  | taken {i p k r c reply rf num won s'} (mem : r ∈ s.elections) (call : r.calls p = some c)
      (taken : c.taken = none) (answer : reply ∈ c.replies)
      (eval : (s.nodes r.owner).sendRequestVote reply r.counter = .ok (rf, num, won)) :
      ElectionOrigin s (.sendRequestVote i p k) s' (r.take p reply num)

theorem Step.election_origin (h : Step s a s') :
    ∀ r ∈ s'.elections, ElectionOrigin s a s' r := by
  cases h with
  | doElection eval =>
    rename_i p rf out
    cases out with
    | none => exact fun r hr => .old hr
    | some args =>
      intro r hr
      rcases List.mem_append.mp hr with hr | hr
      · exact .old hr
      · exact List.mem_singleton.mp hr ▸ .stood eval setNode_nodes_self
  | requestVote round call eval =>
    refine forall_mem_modify (fun r hr => .old hr) fun r hr => ?_
    obtain rfl := Option.some.inj (round.symm.trans hr)
    exact .answered (List.mem_of_getElem? round) eval setNode_nodes_self
  | sendRequestVote round call taken answer eval =>
    refine forall_mem_modify (fun r hr => .old hr) fun r hr => ?_
    obtain rfl := Option.some.inj (round.symm.trans hr)
    exact .taken (List.mem_of_getElem? round) call taken (List.mem_of_getElem? answer) eval
  | doHeartBeat => rename_i out _; cases out <;> exact fun r hr => .old hr
  | _ => exact fun r hr => .old hr

theorem Step.request_origin (h : Step s a s') : ∀ th ∈ s'.snapShots, ∀ args,
    th.request = some args →
      (∃ th₀ ∈ s.snapShots, th₀.owner = th.owner ∧ th₀.request = some args) ∨
        args = (s.nodes th.owner).leaderSendSnapShot.2 := by
  have hold : ∀ th ∈ s.snapShots, ∀ args, th.request = some args →
      (∃ th₀ ∈ s.snapShots, th₀.owner = th.owner ∧ th₀.request = some args) ∨
        args = (s.nodes th.owner).leaderSendSnapShot.2 :=
    fun th hth args hreq => Or.inl ⟨th, hth, rfl, hreq⟩
  cases h with
  | doElection => rename_i out _; cases out <;> exact hold
  | doHeartBeat =>
    rename_i out _
    cases out with
    | none => exact hold
    | some sends =>
      intro th hth args hreq
      rcases List.mem_append.mp hth with hth | hth
      · exact hold th hth args hreq
      · obtain ⟨i, -, hi⟩ := List.mem_filterMap.mp hth
        split at hi
        · obtain rfl := Option.some.inj hi
          cases hreq
        · cases hi
  | leaderSendSnapShot thread =>
    refine forall_mem_modify hold fun th hth args hreq => Or.inr ?_
    obtain rfl := Option.some.inj (thread.symm.trans hth)
    exact (Option.some.inj hreq).symm
  | installSnapshot =>
    exact forall_mem_modify hold fun th hth => hold th (List.mem_of_getElem? hth)
  | leaderSendSnapShotReply =>
    exact forall_mem_modify hold fun th hth => hold th (List.mem_of_getElem? hth)
  | _ => exact hold

theorem Step.applied_origin (h : Step s a s') {x : Fin n × ApplyMsg} (hx : x ∈ s'.applied) :
    x ∈ s.applied ∨ ∃ rf msgs, (s.nodes x.1).getApplyLogs = .ok (rf, msgs) ∧ x.2 ∈ msgs := by
  cases h with
  | doElection => rename_i out _; cases out <;> exact Or.inl hx
  | doHeartBeat => rename_i out _; cases out <;> exact Or.inl hx
  | @getApplyLogs p rf msgs eval =>
    rcases List.mem_append.mp hx with hx | hx
    · exact Or.inl hx
    · obtain ⟨msg, hmsg, rfl⟩ := List.mem_map.mp hx
      exact Or.inr ⟨rf, msgs, eval, hmsg⟩
  | _ => exact Or.inl hx

theorem Step.exited (h : Step s a s') {err : AssertFail} (hp : s'.exited p = some err) :
    s.exited p = some err ∨ Fails s a p err := by
  cases h with
  | exit fail =>
    simp only [Cluster.exit, Function.update_apply] at hp
    split_ifs at hp with hq
    · exact Or.inr (hq ▸ Option.some.inj hp ▸ fail)
    · exact Or.inl hp
  | doElection => rename_i out _; cases out <;> exact Or.inl hp
  | doHeartBeat => rename_i out _; cases out <;> exact Or.inl hp
  | _ => exact Or.inl hp

theorem Step.exited_mono (hs : Step s a s') (hp : s.exited p ≠ none) : s'.exited p ≠ none := by
  cases hs with
  | exit fail =>
    simp only [Cluster.exit, Function.update_apply]
    split_ifs
    · exact Option.some_ne_none _
    · exact hp
  | doElection => rename_i out _; cases out <;> exact hp
  | doHeartBeat => rename_i out _; cases out <;> exact hp
  | _ => exact hp

theorem onNode_nodes_of_exited {β : Type} {p q : Fin n}
    {f : Raft n → Except AssertFail (Raft n × β)} {k : Cluster n → β → Cluster n}
    (hk : ∀ s b, (k s b).nodes = s.nodes) (hp : s.exited p ≠ none) :
    (s.onNode q f k).nodes p = s.nodes p := by
  unfold onNode
  split
  · rfl
  · rename_i hq
    split
    · rfl
    · rw [hk]
      have hne : p ≠ q := by
        rintro rfl
        exact hp hq
      exact Function.update_of_ne hne _ _

theorem nodes_step_of_exited {p : Fin n} (hp : s.exited p ≠ none) :
    (s.step a).nodes p = s.nodes p := by
  have hon : ∀ {β : Type} {q : Fin n} {f : Raft n → Except AssertFail (Raft n × β)}
      {k : Cluster n → β → Cluster n}, (∀ s b, (k s b).nodes = s.nodes) →
      (s.onNode q f k).nodes p = s.nodes p := fun hk => onNode_nodes_of_exited hk hp
  have hpush : ∀ q k, (s.push q k).nodes p = s.nodes p := by
    intro q k
    unfold push
    split <;> rfl
  cases a with
  | doElection q => exact hon fun s out => recordElection_nodes out
  | start q command => exact hon fun _ _ => rfl
  | doHeartBeat q => exact hon fun s out => recordHeartBeat_nodes out
  | snapshot q index str => exact hon fun _ _ => rfl
  | getApplyLogs q =>
    simp only [step]
    split
    · exact hon fun _ _ => rfl
    · rfl
  | applierPush q =>
    simp only [step]
    split
    · exact hpush _ _
    · rfl
  | pushMsgToKvServer q k =>
    simp only [step]
    split
    · exact hpush _ _
    · rfl
  | _ =>
    simp only [step]
    repeat' split
    all_goals first
      | rfl
      | exact hon fun _ _ => rfl

theorem step_leaderSendSnapShotReply (s : Cluster n) (t k : ℕ) :
    s.step (.leaderSendSnapShotReply t k) = s ∨ ∃ th args reply, s.snapShots[t]? = some th ∧
      th.request = some args ∧ th.taken = none ∧ th.replies[k]? = some reply ∧
      s.exited th.owner = none ∧ s.step (.leaderSendSnapShotReply t k) =
        recordSnapShotReply t reply (s.setNode th.owner
          ((s.nodes th.owner).leaderSendSnapShotReply th.server args reply)) := by
  simp only [step]
  split
  · rename_i th hth
    split
    · rename_i args reply hreq ht hk
      cases hex : s.exited th.owner with
      | some err => simp [onNode, hex]
      | none =>
        refine Or.inr ⟨th, args, reply, hth, hreq, ht, hk, hex, ?_⟩
        simp only [onNode, hex]
        rfl
    · exact Or.inl rfl
  · exact Or.inl rfl

end Views

end Cluster
end RaftStorage
