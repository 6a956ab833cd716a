import RaftStorage.Raft.PeerSpecs

/-! Log repair between a leader and one follower: the leader sends from `m_nextIndex`, the follower
accepts or hints at a smaller index, and the leader tries again. -/

namespace RaftStorage
namespace Raft

variable {n : ℕ} {p : Fin n} {L F L' F' : Raft n}

/-- One exchange of the leader `L` with the peer `p`, whose state is `F`: the request of
`doHeartBeat`, the answer of `AppendEntries1`, and what `sendAppendEntries` makes of it when its
round stands at `num`. -/
def exchange (p : Fin n) (num : ℤ) (L F : Raft n) :
    Except AssertFail (Raft n × Raft n × Bool) := do
  match ← L.heartBeatTo p with
  | some (.append args) =>
    let (F, reply) ← F.appendEntries1 args
    let (L, _) ← L.sendAppendEntries p args reply num
    return (L, F, reply.success)
  | _ => return (L, F, false)

/-- At most `k` exchanges, up to the first that succeeds; the list holds the next indexes that the
rejections leave. -/
def repair (p : Fin n) (nums : ℕ → ℤ) : ℕ → Raft n → Raft n →
    Except AssertFail (List ℤ × Option (Raft n × Raft n))
  | 0, _, _ => .ok ([], none)
  | k + 1, L, F => do
    let (L, F, success) ← exchange p (nums k) L F
    if success then return ([], some (L, F))
    else
      let (nexts, out) ← repair p nums k L F
      return (L.nextIndex p :: nexts, out)

/-- A leader and a follower that have compacted nothing, and whose logs agree up to every index at
which they have the same term. The three bounds are those that the handlers assert. -/
structure Repairable (p : Fin n) (L F : Raft n) : Prop where
  leader : L.status = .leader
  other : p ≠ L.me
  term : F.currentTerm ≤ L.currentTerm
  leaderLog : L.Contiguous
  followerLog : F.Contiguous
  leaderSnap : L.lastSnapshotIncludeIndex = 0 ∧ L.lastSnapshotIncludeTerm = 0
  followerSnap : F.lastSnapshotIncludeIndex = 0 ∧ F.lastSnapshotIncludeTerm = 0
  leaderCommit : L.commitIndex ≤ L.getLastLogIndex
  followerCommit : F.commitIndex ≤ F.getLastLogIndex
  matched : L.matchIndex p ≤ L.getLastLogIndex
  next_pos : 1 ≤ L.nextIndex p
  next_le : L.nextIndex p ≤ L.getLastLogIndex + 1
  agree : ∀ e ∈ L.logs, ∀ f ∈ F.logs, e.logIndex = f.logIndex → e.logTerm = f.logTerm →
    L.logs.take e.logIndex.toNat = F.logs.take e.logIndex.toNat

namespace Repairable

theorem mem_follower (h : Repairable p L F) {e f g : LogEntry} (he : e ∈ L.logs) (hf : f ∈ F.logs)
    (hidx : e.logIndex = f.logIndex) (hterm : e.logTerm = f.logTerm) (hg : g ∈ L.logs)
    (hle : g.logIndex ≤ e.logIndex) : g ∈ F.logs := by
  obtain ⟨k, hk⟩ := List.mem_iff_getElem?.mp hg
  have hpos := h.leaderLog k g hk
  have hsnap := h.leaderSnap.1
  have hget : (L.logs.take e.logIndex.toNat)[k]? = some g := by
    rw [List.getElem?_take_of_lt (by omega), hk]
  rw [h.agree e he f hf hidx hterm] at hget
  exact List.mem_of_mem_take (List.mem_of_getElem? hget)

theorem entry_eq (h : Repairable p L F) {e f : LogEntry} (he : e ∈ L.logs) (hf : f ∈ F.logs)
    (hidx : e.logIndex = f.logIndex) (hterm : e.logTerm = f.logTerm) : e = f :=
  Numbered.unique h.followerLog (h.mem_follower he hf hidx hterm he le_rfl) hf hidx

theorem request (h : Repairable p L F) : ∃ args, L.heartBeatTo p = .ok (some (.append args)) ∧
    BuiltFrom L args ∧ args.prevLogIndex = L.nextIndex p - 1 := by
  have hsnap := h.leaderSnap.1
  have hpos := h.next_pos
  have hle := h.next_le
  obtain ⟨t, ht⟩ := h.leaderLog.exists_termAt (i := L.nextIndex p - 1) (by omega) (by omega)
  have heq := heartBeatTo_append_eq h.leaderLog h.other hpos (by omega) hle ht
  exact ⟨_, heq, (heartBeatTo_append h.leaderLog heq).2, rfl⟩

theorem answer (h : Repairable p L F) {args : AppendEntriesArgs n} (hb : BuiltFrom L args) :
    ∃ F' reply, F.appendEntries1 args = .ok (F', reply) := by
  cases heval : F.appendEntries1 args with
  | ok out => exact ⟨out.1, out.2, rfl⟩
  | error err =>
    obtain ⟨-, -, ⟨hlt, -⟩ | ⟨-, -, old, hold, e, he, hidx, hterm, hne⟩⟩ :=
      appendEntries1_error h.followerLog (hb.numbered h.leaderLog) h.followerCommit heval
    · have hle := hb.snap_le
      rw [h.leaderSnap.1] at hle
      rw [h.followerSnap.1] at hlt
      omega
    · have hmem := ((hb.mem h.leaderLog).mp he).1
      exact absurd (congrArg LogEntry.command (h.entry_eq hmem hold hidx.symm hterm.symm)).symm hne

theorem rejected (h : Repairable p L F) {args : AppendEntriesArgs n} {reply : AppendEntriesReply}
    (hb : BuiltFrom L args) (hprev : args.prevLogIndex = L.nextIndex p - 1)
    (heval : F.appendEntries1 args = .ok (F', reply)) (hs : reply.success = false) :
    L.Hears reply ∧ 1 ≤ reply.updateNextIndex ∧ reply.updateNextIndex < L.nextIndex p := by
  have hpos := h.next_pos
  have hterm := h.term
  have hlast := h.followerLog.getLastLogIndex_eq
  rw [h.followerSnap.1] at hlast
  rcases appendEntries1_hint h.followerLog heval hs with ⟨hlt, -⟩ | ⟨hreply, happ, hint⟩
  · rw [hb.term] at hlt
    omega
  refine ⟨⟨?_, hreply.trans hb.term, h.leader⟩, ?_⟩
  · rw [happ]
    exact nofun
  cases hint with
  | short last hint => exact ⟨by omega, by omega⟩
  | mismatch snap _ term le lower =>
    -- before the first entry the two logs agree
    have hne : args.prevLogIndex ≠ 0 := by
      intro h0
      have hL := h.leaderLog.termAt_unique hb.prevTerm
        (Or.inl ⟨h0.trans h.leaderSnap.1.symm, rfl⟩)
      exact term (Or.inl ⟨h0.trans h.followerSnap.1.symm,
        hL.trans (h.leaderSnap.2.trans h.followerSnap.2.symm)⟩)
    rw [h.followerSnap.1] at lower
    exact ⟨by omega, by omega⟩

theorem merged (h : Repairable p L F) {args : AppendEntriesArgs n} (hb : BuiltFrom L args)
    (hm : AppendMerged F F' args) : F'.logs.take L.logs.length = L.logs := by
  have hsnapL := h.leaderSnap.1
  have hsnapF : F'.lastSnapshotIncludeIndex = 0 := hm.snapIndex.trans h.followerSnap.1
  have hlenL := h.leaderLog.getLastLogIndex_eq
  have hlenF := hm.contiguous.getLastLogIndex_eq
  have hlast := hm.last
  have hlen := hb.length
  apply List.ext_getElem?
  intro k
  by_cases hk : k < L.logs.length
  · rw [List.getElem?_take_of_lt hk]
    obtain ⟨e, he⟩ : ∃ e, L.logs[k]? = some e := ⟨_, List.getElem?_eq_getElem hk⟩
    obtain ⟨f, hf⟩ : ∃ f, F'.logs[k]? = some f :=
      ⟨_, List.getElem?_eq_getElem (show k < F'.logs.length by omega)⟩
    have hidx : f.logIndex = e.logIndex := by
      have hei := h.leaderLog k e he
      have hfi := hm.contiguous k f hf
      omega
    have hmemL := List.mem_of_getElem? he
    rw [he, hf]
    congr 1
    rcases (hm.mem f).mp (List.mem_of_getElem? hf) with ⟨hfF, hsame⟩ | ⟨hfE, -⟩
    · by_cases hgt : args.prevLogIndex < e.logIndex
      · -- the follower keeps its own entry only when the request has the same term there
        have hreq := (hb.mem h.leaderLog).mpr ⟨hmemL, hgt⟩
        exact (h.entry_eq hmemL hfF hidx.symm (hsame e hreq hidx.symm)).symm
      · -- up to the previous entry, whose terms match, both logs are one
        obtain ⟨g, hg, hgidx, hgterm⟩ := hm.prevTerm.resolve_left fun h0 => by
          have := (h.leaderLog.mem_bounds hmemL).1
          rw [h.followerSnap.1] at h0
          omega
        obtain ⟨g', hg', hgidx', hgterm'⟩ := hb.prevTerm.resolve_left fun h0 => by
          have := (h.leaderLog.mem_bounds hmemL).1
          omega
        have heF := h.mem_follower hg' hg (hgidx'.trans hgidx.symm) (hgterm'.trans hgterm.symm)
          hmemL (by omega)
        exact Numbered.unique h.followerLog hfF heF hidx
    · exact Numbered.unique h.leaderLog ((hb.mem h.leaderLog).mp hfE).1 hmemL hidx
  · rw [List.getElem?_take_eq_none (by omega), List.getElem?_eq_none (by omega)]

theorem reject (h : Repairable p L F) {reply : AppendEntriesReply} (hlog : SameLog F F')
    (hterm : F'.currentTerm = L.currentTerm) (hlo : 1 ≤ reply.updateNextIndex)
    (hlt : reply.updateNextIndex < L.nextIndex p) : Repairable p (L.reject p reply) F' ∧
      (L.reject p reply).nextIndex p = reply.updateNextIndex ∧
      (L.reject p reply).logs = L.logs := by
  have hle := h.next_le
  have hlast : ∀ next, getLastLogIndex { L with nextIndex := next } = L.getLastLogIndex :=
    fun _ => getLastLogIndex_congr rfl rfl
  unfold Raft.reject
  rw [if_neg (by omega)]
  refine ⟨?_, Function.update_self _ _ _, rfl⟩
  exact
    { leader := h.leader
      other := h.other
      term := hterm.le
      leaderLog := h.leaderLog
      followerLog := hlog.contiguous h.followerLog
      leaderSnap := h.leaderSnap
      followerSnap := by rw [hlog.snapIndex, hlog.snapTerm]; exact h.followerSnap
      leaderCommit := by rw [hlast]; exact h.leaderCommit
      followerCommit := by rw [hlog.commit, hlog.last]; exact h.followerCommit
      matched := by rw [hlast]; exact h.matched
      next_pos := by simpa using hlo
      next_le := by
        rw [hlast]
        simp only [Function.update_self]
        omega
      agree := by rw [hlog.logs]; exact h.agree }

theorem exchange_cases (h : Repairable p L F) (num : ℤ) : ∃ L' F' success,
    exchange p num L F = .ok (L', F', success) ∧ L'.logs = L.logs ∧
      if success = true then F'.logs.take L.logs.length = L.logs ∧
        L'.matchIndex p = L.getLastLogIndex
      else Repairable p L' F' ∧ L'.nextIndex p < L.nextIndex p := by
  obtain ⟨args, hreq, hb, hprev⟩ := h.request
  obtain ⟨F', reply, heval⟩ := h.answer hb
  have hterm := h.term
  have hexchange : exchange p num L F = (do
      let (L', _) ← L.sendAppendEntries p args reply num
      return (L', F', reply.success)) := by
    unfold exchange
    rw [hreq]
    change (F.appendEntries1 args >>= _) = _
    rw [heval]
    rfl
  rw [hexchange]
  cases appendEntries1_cases h.followerLog (hb.numbered h.leaderLog) heval with
  | stale term =>
    rw [hb.term] at term
    omega
  | rejected _ log _ currentTerm _ success =>
    obtain ⟨hh, hlo, hlt⟩ := h.rejected hb hprev heval success
    obtain ⟨hrep, hnext, hlogs⟩ := h.reject log (currentTerm.trans hb.term) hlo hlt
    rw [sendAppendEntries_reject hh success, success]
    exact ⟨_, _, _, rfl, hlogs, hrep, hnext.trans_lt hlt⟩
  | merged _ log _ _ _ success replyTerm =>
    have hh : L.Hears reply := by
      refine ⟨?_, replyTerm.trans hb.term, h.leader⟩
      rw [appendEntries1_appState heval]
      exact nofun
    have hlen := hb.length
    have hmatched : L.matchedBy p args = L.getLastLogIndex := by
      have := h.matched
      unfold matchedBy
      omega
    have hcommit : (L.accept p args num).commitIndex ≤ L.getLastLogIndex := by
      have := h.leaderCommit
      simp only [accept]
      split_ifs <;> omega
    rw [sendAppendEntries_accept hh success hmatched.le hcommit, success]
    refine ⟨_, _, _, rfl, rfl, h.merged hb log, ?_⟩
    simp only [accept, Function.update_self]
    exact hmatched

end Repairable

/-- Repair converges: the next index goes down with every rejection but stays positive, at most
`m_nextIndex` exchanges are needed, and the follower's log then begins with the leader's. -/
theorem repair_converges (h : Repairable p L F) (nums : ℕ → ℤ) {k : ℕ} (hk : L.nextIndex p ≤ k) :
    ∃ nexts L' F', repair p nums k L F = .ok (nexts, some (L', F')) ∧
      (L.nextIndex p :: nexts).Pairwise (· > ·) ∧ (∀ i ∈ nexts, 1 ≤ i) ∧
      L'.logs = L.logs ∧ F'.logs.take L.logs.length = L.logs ∧
      L'.matchIndex p = L.getLastLogIndex := by
  induction k generalizing L F with
  | zero =>
    have hpos := h.next_pos
    push_cast at hk
    omega
  | succ k ih =>
    obtain ⟨L₁, F₁, success, heval, hlogs, hcase⟩ := h.exchange_cases (nums k)
    unfold repair
    rw [heval]
    cases success with
    | true => exact ⟨[], L₁, F₁, rfl, List.pairwise_singleton _ _, by simp, hlogs, hcase⟩
    | false =>
      obtain ⟨hrep, hlt⟩ : Repairable p L₁ F₁ ∧ L₁.nextIndex p < L.nextIndex p := hcase
      obtain ⟨nexts, L', F', hrest, hdec, hpos, hlogs', htake, hmatch⟩ := ih hrep
        (by push_cast at hk; omega)
      have hlast : L₁.getLastLogIndex = L.getLastLogIndex := by
        have h₁ := hrep.leaderLog.getLastLogIndex_eq
        have h₀ := h.leaderLog.getLastLogIndex_eq
        rw [hrep.leaderSnap.1, hlogs] at h₁
        rw [h.leaderSnap.1] at h₀
        exact h₁.trans h₀.symm
      refine ⟨L₁.nextIndex p :: nexts, L', F', ?_, ?_, ?_, hlogs'.trans hlogs, ?_, ?_⟩
      · change (repair p nums k L₁ F₁ >>= _) = _
        rw [hrest]
        rfl
      · -- the first of the remaining indexes bounds all of them
        refine List.pairwise_cons.mpr ⟨fun i hi => ?_, hdec⟩
        rcases List.mem_cons.mp hi with rfl | hi
        · exact hlt
        · exact (List.rel_of_pairwise_cons hdec hi).trans hlt
      · intro i hi
        rcases List.mem_cons.mp hi with rfl | hi
        · exact hrep.next_pos
        · exact hpos i hi
      · rw [← hlogs]
        exact htake
      · rw [← hlast]
        exact hmatch

/-- A leader of term 2 that shares the first entry with a follower of term 1. -/
def divergedLeader (me : Fin 3) : Raft 3 :=
  { init me with
    status := .leader
    currentTerm := 2
    logs := [⟨"a", 1, 1⟩, ⟨"x", 2, 2⟩]
    nextIndex := fun _ => 3 }

def divergedFollower (me : Fin 3) : Raft 3 :=
  { init me with currentTerm := 1, logs := [⟨"a", 1, 1⟩, ⟨"b", 1, 2⟩, ⟨"c", 1, 3⟩] }

theorem repairable_diverged : Repairable 1 (divergedLeader 0) (divergedFollower 1) := by
  have hone : Numbered 1 [(⟨"a", 1, 1⟩ : LogEntry)] := Numbered.singleton rfl
  have htwo := hone.append (e := ⟨"b", 1, 2⟩) rfl
  exact
    { leader := rfl
      other := by decide
      term := by decide
      leaderLog := hone.append (e := ⟨"x", 2, 2⟩) rfl
      followerLog := htwo.append (e := ⟨"c", 1, 3⟩) rfl
      leaderSnap := ⟨rfl, rfl⟩
      followerSnap := ⟨rfl, rfl⟩
      leaderCommit := by decide
      followerCommit := by decide
      matched := by decide
      next_pos := by decide
      next_le := by decide
      agree := by decide }

theorem repair_converges_diverged : ∃ nexts L' F',
    repair 1 (fun _ => 1) 3 (divergedLeader 0) (divergedFollower 1) = .ok (nexts, some (L', F')) ∧
      (3 :: nexts).Pairwise (· > ·) ∧ (∀ i ∈ nexts, 1 ≤ i) ∧ L'.logs = (divergedLeader 0).logs ∧
      F'.logs.take 2 = (divergedLeader 0).logs ∧ L'.matchIndex 1 = 2 :=
  repair_converges repairable_diverged (fun _ => 1) (by decide)

end Raft
end RaftStorage
