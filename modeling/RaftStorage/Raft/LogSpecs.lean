import RaftStorage.Raft.HandlerSpecs

/-! Outcomes of the handlers that read or write the log. The merge loop of `AppendEntries1` is
described index by index: where the request has an entry, the old entry survives only if its term
is the request's; elsewhere the old entry survives, also above the request's last index. -/

namespace RaftStorage
namespace Raft

variable {n : ℕ} {rf rf' : Raft n}

theorem start_cases {command : String} {out : Option (ℤ × ℤ)} (h : rf.start command = (rf', out)) :
    rf' = rf ∧ out = none ∨ rf.status = .leader ∧ TermStep rf rf' ∧ rf'.status = .leader ∧
      rf'.logs = rf.logs ++ [⟨command, rf.currentTerm, rf.getLastLogIndex + 1⟩] ∧
      rf'.lastSnapshotIncludeIndex = rf.lastSnapshotIncludeIndex ∧
      rf'.lastSnapshotIncludeTerm = rf.lastSnapshotIncludeTerm ∧
      rf'.commitIndex = rf.commitIndex ∧ rf'.lastApplied = rf.lastApplied ∧
      out = some (rf.getLastLogIndex + 1, rf.currentTerm) := by
  unfold start at h
  split_ifs at h with hl
  · obtain ⟨rfl, rfl⟩ := Prod.mk.inj h
    exact Or.inl ⟨rfl, rfl⟩
  · rw [not_not] at hl
    obtain ⟨rfl, rfl⟩ := Prod.mk.inj h
    exact Or.inr ⟨hl, ⟨rfl, Or.inr ⟨rfl, rfl, Or.inl rfl⟩⟩, hl, rfl, rfl, rfl, rfl, rfl, rfl⟩

/-! ## Heartbeats -/

structure BuiltFrom (rf : Raft n) (args : AppendEntriesArgs n) : Prop where
  term : args.term = rf.currentTerm
  leaderId : args.leaderId = rf.me
  commit : args.leaderCommit = rf.commitIndex
  snap_le : rf.lastSnapshotIncludeIndex ≤ args.prevLogIndex
  length : args.prevLogIndex + args.entries.length = rf.getLastLogIndex
  prevTerm : rf.TermAt args.prevLogIndex args.prevLogTerm
  entries : args.entries = rf.logs.drop (args.prevLogIndex - rf.lastSnapshotIncludeIndex).toNat

theorem BuiltFrom.numbered {args : AppendEntriesArgs n} (h : BuiltFrom rf args)
    (hc : rf.Contiguous) : Numbered (args.prevLogIndex + 1) args.entries := by
  rw [h.entries]
  have hfirst : args.prevLogIndex + 1 = rf.lastSnapshotIncludeIndex + 1 +
      ((args.prevLogIndex - rf.lastSnapshotIncludeIndex).toNat : ℤ) := by
    have := h.snap_le
    omega
  rw [hfirst]
  exact Numbered.drop hc _

theorem BuiltFrom.mem {args : AppendEntriesArgs n} (h : BuiltFrom rf args) (hc : rf.Contiguous)
    {e : LogEntry} : e ∈ args.entries ↔ e ∈ rf.logs ∧ args.prevLogIndex < e.logIndex := by
  rw [h.entries, Numbered.mem_drop hc]
  have := h.snap_le
  refine and_congr_right fun _ => ?_
  omega

theorem heartBeatTo_append {i : Fin n} {args : AppendEntriesArgs n} (hc : rf.Contiguous)
    (h : rf.heartBeatTo i = .ok (some (.append args))) : i ≠ rf.me ∧ BuiltFrom rf args := by
  unfold heartBeatTo at h
  by_cases hi : i = rf.me
  · rw [if_pos hi] at h
    cases h
  rw [if_neg hi] at h
  refine ⟨hi, ?_⟩
  obtain ⟨_, -, h⟩ := bind_ok.mp h
  by_cases hsnap : rf.nextIndex i ≤ rf.lastSnapshotIncludeIndex
  · rw [if_pos hsnap] at h
    cases h
  rw [if_neg hsnap] at h
  obtain ⟨⟨prev, prevTerm⟩, hprev, h⟩ := bind_ok.mp h
  have hprevInfo : rf.lastSnapshotIncludeIndex ≤ prev ∧ rf.TermAt prev prevTerm := by
    unfold getPrevLogInfo at hprev
    split_ifs at hprev with hnext
    · obtain ⟨rfl, rfl⟩ := Prod.mk.inj (Except.ok.inj hprev)
      exact ⟨le_rfl, Or.inl ⟨rfl, rfl⟩⟩
    · obtain ⟨e, he, hval⟩ := bind_ok.mp hprev
      obtain ⟨rfl, rfl⟩ := Prod.mk.inj (pure_ok.mp hval)
      obtain ⟨hmem, hidx⟩ := hc.logAt_ok.mp he
      exact ⟨by omega, Or.inr ⟨e, hmem, hidx, rfl⟩⟩
  obtain ⟨hle, hterm⟩ := hprevInfo
  obtain ⟨entries, hentries, h⟩ := bind_ok.mp h
  have hdrop : entries = rf.logs.drop (prev - rf.lastSnapshotIncludeIndex).toNat := by
    unfold heartBeatEntries at hentries
    split_ifs at hentries with hne
    · obtain ⟨k, hk, hval⟩ := bind_ok.mp hentries
      obtain ⟨hlo, -, rfl⟩ := getSlices_ok.mp hk
      rw [← pure_ok.mp hval]
      congr 2
      omega
    · rw [not_not] at hne
      rw [← Except.ok.inj hentries, hne]
      simp
  obtain ⟨_, hlen, h⟩ := bind_ok.mp h
  rw [myAssert_ok] at hlen
  obtain rfl := HeartBeatSend.append.inj (Option.some.inj (pure_ok.mp h))
  exact ⟨rfl, rfl, rfl, hle, hlen, hterm, hdrop⟩

theorem doHeartBeat_cases {out : Option (Fin n → Option (HeartBeatSend n))}
    (h : rf.doHeartBeat = .ok out) :
    out = none ∨ ∃ sends, out = some sends ∧ rf.status = .leader ∧
      ∀ i, rf.heartBeatTo i = .ok (sends i) := by
  unfold doHeartBeat at h
  split_ifs at h with hl
  · obtain ⟨sends, hsends, hout⟩ := bind_ok.mp h
    exact Or.inr ⟨sends, (pure_ok.mp hout).symm, hl, Library.forPeers_ok hsends⟩
  · exact Or.inl (Except.ok.inj h).symm

theorem doHeartBeat_error {a : AssertFail} (h : rf.doHeartBeat = .error a) :
    a ∈ [.heartBeatNextIndex, .heartBeatLength, .sliceLow, .sliceHigh, .vectorRange] := by
  unfold doHeartBeat at h
  split_ifs at h
  rcases bind_error.mp h with h | ⟨_, -, h⟩
  swap
  · cases h
  obtain ⟨i, h⟩ := Library.forPeers_error h
  unfold heartBeatTo at h
  split at h
  · cases h
  rcases bind_error.mp h with h | ⟨_, -, h⟩
  · simp [(myAssert_error.mp h).2]
  split at h
  · cases h
  rcases bind_error.mp h with h | ⟨prev, -, h⟩
  · unfold getPrevLogInfo at h
    split_ifs at h
    rcases bind_error.mp h with h | ⟨_, -, h⟩
    · rcases logAt_error h with rfl | rfl | rfl <;> simp
    · cases h
  rcases bind_error.mp h with h | ⟨entries, -, h⟩
  · unfold heartBeatEntries at h
    split_ifs at h
    rcases bind_error.mp h with h | ⟨_, -, h⟩
    · rcases getSlices_error h with rfl | rfl <;> simp
    · cases h
  rcases bind_error.mp h with h | ⟨_, -, h⟩
  · simp [(myAssert_error.mp h).2]
  · cases h

/-! ## The merge loop -/

structure Merged (rf rf' : Raft n) (entries : List LogEntry) : Prop where
  frame : rf' = { rf with logs := rf'.logs }
  contiguous : rf'.Contiguous
  mem : ∀ e, e ∈ rf'.logs ↔
    e ∈ rf.logs ∧ (∀ e' ∈ entries, e'.logIndex = e.logIndex → e'.logTerm = e.logTerm) ∨
    e ∈ entries ∧ ∀ e' ∈ rf.logs, e'.logIndex = e.logIndex → e'.logTerm ≠ e.logTerm

theorem Merged.snapIndex {entries : List LogEntry} (h : Merged rf rf' entries) :
    rf'.lastSnapshotIncludeIndex = rf.lastSnapshotIncludeIndex := by rw [h.frame]

theorem Merged.exists_iff {first : ℤ} {entries : List LogEntry} (h : Merged rf rf' entries)
    (hn : Numbered first entries) {i : ℤ} : (∃ e ∈ rf'.logs, e.logIndex = i) ↔
      (∃ e ∈ rf.logs, e.logIndex = i) ∨ ∃ e ∈ entries, e.logIndex = i := by
  constructor
  · rintro ⟨e, he, rfl⟩
    rcases (h.mem e).mp he with ⟨he, -⟩ | ⟨he, -⟩
    · exact Or.inl ⟨e, he, rfl⟩
    · exact Or.inr ⟨e, he, rfl⟩
  · intro hex
    by_cases hnew : ∃ e ∈ entries, e.logIndex = i
    · obtain ⟨e, he, rfl⟩ := hnew
      by_cases hold : ∃ o ∈ rf.logs, o.logIndex = e.logIndex ∧ o.logTerm = e.logTerm
      · obtain ⟨o, ho, hidx, hterm⟩ := hold
        refine ⟨o, (h.mem o).mpr (Or.inl ⟨ho, fun e' he' hi => ?_⟩), hidx⟩
        rw [hn.unique he' he (hi.trans hidx), hterm]
      · exact ⟨e, (h.mem e).mpr (Or.inr ⟨he, fun o ho hi ht => hold ⟨o, ho, hi, ht⟩⟩), rfl⟩
    · obtain ⟨e, he, rfl⟩ := hex.resolve_right hnew
      exact ⟨e, (h.mem e).mpr (Or.inl ⟨he, fun e' he' hi => absurd ⟨e', he', hi⟩ hnew⟩), rfl⟩

theorem Merged.last {prev : ℤ} {entries : List LogEntry} (h : Merged rf rf' entries)
    (hc : rf.Contiguous) (hn : Numbered (prev + 1) entries)
    (hlo : rf.lastSnapshotIncludeIndex ≤ prev) (hhi : prev ≤ rf.getLastLogIndex) :
    rf'.getLastLogIndex = max rf.getLastLogIndex (prev + entries.length) := by
  have hsnap := h.snapIndex
  have hbase : rf.lastSnapshotIncludeIndex ≤ rf'.getLastLogIndex := by
    rw [h.contiguous.getLastLogIndex_eq]
    omega
  apply le_antisymm
  · by_contra hlt
    obtain ⟨e, he, hidx⟩ := h.contiguous.exists_at (i := rf'.getLastLogIndex) (by omega) le_rfl
    rcases (h.exists_iff hn).mp ⟨e, he, hidx⟩ with ⟨o, ho, hoi⟩ | ⟨o, ho, hoi⟩
    · have := hc.mem_bounds ho
      omega
    · have := hn.bounds ho
      omega
  · have hat : ∀ i, ((∃ e ∈ rf.logs, e.logIndex = i) ∨ ∃ e ∈ entries, e.logIndex = i) →
        i ≤ rf'.getLastLogIndex := by
      intro i hi
      obtain ⟨e, he, rfl⟩ := (h.exists_iff hn).mpr hi
      exact (h.contiguous.mem_bounds he).2
    apply max_le
    · rcases (show rf.lastSnapshotIncludeIndex ≤ rf.getLastLogIndex by omega).eq_or_lt with heq | hlt
      · omega
      · exact hat _ (Or.inl (hc.exists_at hlt le_rfl))
    · rcases Nat.eq_zero_or_pos entries.length with h0 | hpos
      · rcases (show rf.lastSnapshotIncludeIndex ≤ prev by omega).eq_or_lt with heq | hlt
        · omega
        · rw [h0]
          exact hat _ (Or.inl (by simpa using hc.exists_at hlt hhi))
      · exact hat _ (Or.inr (hn.exists_at (by omega) (by omega)))

theorem mergeEntry_ok {log : LogEntry} (hc : rf.Contiguous)
    (hlo : rf.lastSnapshotIncludeIndex < log.logIndex) (hhi : log.logIndex ≤ rf.getLastLogIndex + 1)
    (h : rf.mergeEntry log = .ok rf') : Merged rf rf' [log] := by
  have hlen := hc.getLastLogIndex_eq
  unfold mergeEntry at h
  by_cases hgt : log.logIndex > rf.getLastLogIndex
  · rw [if_pos hgt] at h
    obtain rfl := Except.ok.inj h
    refine ⟨rfl, Numbered.append hc (by dsimp only; omega), fun e => ?_⟩
    simp only [List.mem_append, List.mem_singleton, forall_eq]
    constructor
    · rintro (he | rfl)
      · have := hc.mem_bounds he
        exact Or.inl ⟨he, fun hi => by omega⟩
      · refine Or.inr ⟨rfl, fun e' he' hi => ?_⟩
        have := hc.mem_bounds he'
        omega
    · rintro (⟨he, -⟩ | ⟨rfl, -⟩)
      · exact Or.inl he
      · exact Or.inr rfl
  · rw [if_neg hgt] at h
    obtain ⟨old, hold, h⟩ := bind_ok.mp h
    obtain ⟨hmem, hidx⟩ := hc.logAt_ok.mp hold
    obtain ⟨_, -, h⟩ := bind_ok.mp h
    -- an entry of another term is overwritten in its slot, one of the same term is kept
    split_ifs at h with hterm
    · obtain ⟨k, hk, h⟩ := bind_ok.mp h
      obtain ⟨-, -, rfl⟩ := getSlices_ok.mp hk
      obtain rfl := pure_ok.mp h
      have hpos : log.logIndex = rf.lastSnapshotIncludeIndex + 1 +
          ((log.logIndex - rf.lastSnapshotIncludeIndex - 1).toNat : ℤ) := by omega
      refine ⟨rfl, Numbered.set hc hpos, fun e => ?_⟩
      rw [Numbered.mem_set hc hpos (by omega)]
      simp only [List.mem_singleton, forall_eq]
      constructor
      · rintro (rfl | ⟨he, hne⟩)
        · refine Or.inr ⟨rfl, fun e' he' hi => ?_⟩
          rwa [Numbered.unique hc he' hmem (hi.trans hidx.symm)]
        · exact Or.inl ⟨he, fun hi => absurd hi.symm hne⟩
      · rintro (⟨he, himp⟩ | ⟨rfl, -⟩)
        · refine Or.inr ⟨he, fun hi => hterm ?_⟩
          rw [Numbered.unique hc hmem he (hidx.trans hi.symm)]
          exact (himp hi.symm).symm
        · exact Or.inl rfl
    · rw [not_not] at hterm
      obtain rfl := pure_ok.mp h
      refine ⟨rfl, hc, fun e => ?_⟩
      simp only [List.mem_singleton, forall_eq]
      constructor
      · intro he
        refine Or.inl ⟨he, fun hi => ?_⟩
        rw [← hterm, Numbered.unique hc hmem he (hidx.trans hi)]
      · rintro (⟨he, -⟩ | ⟨rfl, hall⟩)
        · exact he
        · exact absurd hterm (hall old hmem hidx)

theorem mergeEntry_error {log : LogEntry} {a : AssertFail} (hc : rf.Contiguous)
    (hlo : rf.lastSnapshotIncludeIndex < log.logIndex) (h : rf.mergeEntry log = .error a) :
    a = .appendCommand ∧ ∃ old ∈ rf.logs, old.logIndex = log.logIndex ∧
      old.logTerm = log.logTerm ∧ old.command ≠ log.command := by
  unfold mergeEntry at h
  by_cases hgt : log.logIndex > rf.getLastLogIndex
  · rw [if_pos hgt] at h
    cases h
  rw [if_neg hgt] at h
  obtain ⟨old, hold, hmem, hidx⟩ := hc.logAt_ne_error hlo (not_lt.mp hgt)
  rw [hold] at h
  rcases bind_error.mp h with h | ⟨_, hok, h⟩
  · cases h
  obtain rfl := Except.ok.inj hok
  rcases bind_error.mp h with h | ⟨_, -, h⟩
  · obtain ⟨hconf, rfl⟩ := myAssert_error.mp h
    rw [not_not] at hconf
    exact ⟨rfl, old, hmem, hidx, hconf⟩
  · split_ifs at h
    · rcases bind_error.mp h with h | ⟨_, -, h⟩
      · rw [getSlices_ok.mpr ⟨hlo, not_lt.mp hgt, rfl⟩] at h
        cases h
      · cases h
    · cases h

theorem Merged.trans {log : LogEntry} {rf₁ rf₂ : Raft n} {entries : List LogEntry}
    (h₁ : Merged rf rf₁ [log]) (h₂ : Merged rf₁ rf₂ entries)
    (hn : Numbered (log.logIndex + 1) entries) : Merged rf rf₂ (log :: entries) := by
  have hne : ∀ e ∈ entries, e.logIndex ≠ log.logIndex := by
    intro e he
    have := hn.bounds he
    omega
  have hmem₁ : ∀ e, e.logIndex ≠ log.logIndex → (e ∈ rf₁.logs ↔ e ∈ rf.logs) := by
    intro e hi
    rw [h₁.mem e]
    constructor
    · rintro (⟨he, -⟩ | ⟨he, -⟩)
      · exact he
      · exact absurd (List.mem_singleton.mp he ▸ rfl) hi
    · intro he
      refine Or.inl ⟨he, fun e' he' hi' => ?_⟩
      exact absurd (List.mem_singleton.mp he' ▸ hi').symm hi
  refine ⟨?_, h₂.contiguous, fun e => ?_⟩
  · rw [h₂.frame, h₁.frame]
  rw [h₂.mem e]
  simp only [List.mem_cons]
  by_cases hi : e.logIndex = log.logIndex
  · have hno : e ∉ entries := fun he => hne e he hi
    have hvac : ∀ e' ∈ entries, e'.logIndex = e.logIndex → e'.logTerm = e.logTerm :=
      fun e' he' hi' => absurd (hi'.trans hi) (hne e' he')
    rw [h₁.mem e]
    simp only [List.mem_singleton, forall_eq, forall_eq_or_imp, hno, false_and, or_false]
    tauto
  · rw [hmem₁ e hi]
    have hel : e ≠ log := fun he => hi (he ▸ rfl)
    have hil : ¬log.logIndex = e.logIndex := fun h => hi h.symm
    simp only [hel, forall_eq_or_imp, hil, false_or, false_implies, true_and]
    refine or_congr_right (and_congr_right fun _ => ?_)
    constructor
    · intro hall e' he' hi'
      exact hall e' ((hmem₁ e' (hi' ▸ hi)).mpr he') hi'
    · intro hall e' he' hi'
      exact hall e' ((hmem₁ e' (hi' ▸ hi)).mp he') hi'

theorem Merged.nil (hc : rf.Contiguous) : Merged rf rf [] :=
  ⟨rfl, hc, fun e => by simp⟩

theorem mergeEntries_ok {prev : ℤ} {entries : List LogEntry} (hc : rf.Contiguous)
    (hn : Numbered (prev + 1) entries) (hlo : rf.lastSnapshotIncludeIndex ≤ prev)
    (hhi : prev ≤ rf.getLastLogIndex) (h : rf.mergeEntries entries = .ok rf') :
    Merged rf rf' entries := by
  induction entries generalizing rf prev with
  | nil =>
    obtain rfl := pure_ok.mp h
    exact Merged.nil hc
  | cons log entries ih =>
    unfold mergeEntries at h
    rw [List.foldlM_cons] at h
    obtain ⟨rf₁, h₁, h₂⟩ := bind_ok.mp h
    have hidx := hn.head
    have hm := mergeEntry_ok hc (by omega) (by omega) h₁
    have hone : Numbered (prev + 1) [log] := Numbered.singleton hidx
    have hlast := hm.last hc hone hlo hhi
    have hn' : Numbered (log.logIndex + 1) entries := by
      rw [hidx]
      exact hn.tail
    refine hm.trans (ih hm.contiguous hn' ?_ ?_ h₂) hn'
    · rw [hm.snapIndex]
      omega
    · simp only [List.length_cons, List.length_nil] at hlast
      omega

theorem mergeEntries_error {prev : ℤ} {entries : List LogEntry} {a : AssertFail}
    (hc : rf.Contiguous) (hn : Numbered (prev + 1) entries)
    (hlo : rf.lastSnapshotIncludeIndex ≤ prev) (hhi : prev ≤ rf.getLastLogIndex)
    (h : rf.mergeEntries entries = .error a) :
    a = .appendCommand ∧ ∃ old ∈ rf.logs, ∃ e ∈ entries, old.logIndex = e.logIndex ∧
      old.logTerm = e.logTerm ∧ old.command ≠ e.command := by
  induction entries generalizing rf prev with
  | nil => cases h
  | cons log entries ih =>
    unfold mergeEntries at h
    rw [List.foldlM_cons] at h
    have hidx := hn.head
    rcases bind_error.mp h with h | ⟨rf₁, h₁, h₂⟩
    · obtain ⟨rfl, old, hold, hconf⟩ := mergeEntry_error hc (by omega) h
      exact ⟨rfl, old, hold, log, by simp, hconf⟩
    · have hm := mergeEntry_ok hc (by omega) (by omega) h₁
      have hone : Numbered (prev + 1) [log] := Numbered.singleton hidx
      have hlast := hm.last hc hone hlo hhi
      have hn' : Numbered (log.logIndex + 1) entries := by
        rw [hidx]
        exact hn.tail
      simp only [List.length_cons, List.length_nil] at hlast
      have hsnap := hm.snapIndex
      obtain ⟨rfl, old, hold, e, he, hconf⟩ := ih hm.contiguous hn' (by omega) (by omega) h₂
      refine ⟨rfl, old, ?_, e, List.mem_cons_of_mem _ he, hconf⟩
      -- the entries merged so far lie below the one that fails
      rcases (hm.mem old).mp hold with ⟨hold, -⟩ | ⟨hold, -⟩
      · exact hold
      · have := hn'.bounds he
        rw [List.mem_singleton] at hold
        subst hold
        omega

end Raft
end RaftStorage
