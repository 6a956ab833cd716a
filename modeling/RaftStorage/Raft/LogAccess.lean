import RaftStorage.Raft.Handlers
import Mathlib.Tactic.Linarith

/-! A node's log as a window of consecutive indexes. Everything the handlers do to `m_logs` through
the offset arithmetic is restated here as membership: which entries, at which indexes. -/

namespace RaftStorage

theorem myAssert_ok {c : Prop} [Decidable c] {site : AssertFail} {u : Unit} :
    myAssert c site = .ok u ↔ c := by
  unfold myAssert
  split_ifs with h <;> simp [h]

theorem myAssert_error {c : Prop} [Decidable c] {site a : AssertFail} :
    myAssert c site = .error a ↔ ¬c ∧ a = site := by
  unfold myAssert
  split_ifs with h <;> simp [h, eq_comm]

theorem bind_ok {ε α β : Type} {x : Except ε α} {f : α → Except ε β} {b : β} :
    (x >>= f) = .ok b ↔ ∃ a, x = .ok a ∧ f a = .ok b := by
  cases x with
  | error e => simp [bind, Except.bind]
  | ok a => simp [bind, Except.bind]

theorem bind_error {ε α β : Type} {x : Except ε α} {f : α → Except ε β} {e : ε} :
    (x >>= f) = .error e ↔ x = .error e ∨ ∃ a, x = .ok a ∧ f a = .error e := by
  cases x with
  | error e' => simp [bind, Except.bind]
  | ok a => simp [bind, Except.bind]

@[simp] theorem pure_ok {ε α : Type} {a b : α} : (pure a : Except ε α) = .ok b ↔ a = b := by
  simp [pure, Except.pure]

@[simp] theorem pure_error {ε α : Type} {a : α} {e : ε} :
    (pure a : Except ε α) = .error e ↔ False := by
  simp [pure, Except.pure]

def Numbered (first : ℤ) (entries : List LogEntry) : Prop :=
  ∀ (k : ℕ) (e : LogEntry), entries[k]? = some e → e.logIndex = first + k

namespace Numbered

variable {first : ℤ} {es es' : List LogEntry} {e e' : LogEntry} {k : ℕ}

theorem nil : Numbered first [] := fun k e h => by simp at h

theorem tail (h : Numbered first (e :: es)) : Numbered (first + 1) es := by
  intro k e' hk
  have := h (k + 1) e' (by simpa using hk)
  push_cast at this
  omega

theorem head (h : Numbered first (e :: es)) : e.logIndex = first := by
  simpa using h 0 e rfl

theorem getElem?_iff (h : Numbered first es) :
    es[k]? = some e ↔ e ∈ es ∧ e.logIndex = first + k := by
  constructor
  · intro hk
    exact ⟨List.mem_of_getElem? hk, h k e hk⟩
  · rintro ⟨hmem, hidx⟩
    obtain ⟨j, hj⟩ := List.mem_iff_getElem?.mp hmem
    have hjk : j = k := by
      have := h j e hj
      omega
    exact hjk ▸ hj

theorem unique (h : Numbered first es) (he : e ∈ es) (he' : e' ∈ es)
    (hidx : e.logIndex = e'.logIndex) : e = e' := by
  obtain ⟨j, hj⟩ := List.mem_iff_getElem?.mp he
  have hj' := (h.getElem?_iff (k := j)).mpr ⟨he', hidx ▸ h j e hj⟩
  exact Option.some.inj (hj.symm.trans hj')

theorem bounds (h : Numbered first es) (he : e ∈ es) :
    first ≤ e.logIndex ∧ e.logIndex < first + es.length := by
  obtain ⟨j, hj⟩ := List.mem_iff_getElem?.mp he
  have hlt := (List.getElem?_eq_some_iff.mp hj).1
  have := h j e hj
  omega

theorem exists_at (h : Numbered first es) {i : ℤ} (hlo : first ≤ i) (hhi : i < first + es.length) :
    ∃ e ∈ es, e.logIndex = i := by
  have hlt : (i - first).toNat < es.length := by omega
  refine ⟨es[(i - first).toNat], List.getElem_mem hlt, ?_⟩
  have := h _ _ (List.getElem?_eq_getElem hlt)
  omega

theorem getLast (h : Numbered first es) (he : es.getLast? = some e) :
    e.logIndex = first + es.length - 1 := by
  rw [List.getLast?_eq_getElem?] at he
  have hlt := (List.getElem?_eq_some_iff.mp he).1
  have hidx := h _ e he
  omega

theorem append (h : Numbered first es) (he : e.logIndex = first + es.length) :
    Numbered first (es ++ [e]) := by
  intro k e' hk
  rcases Nat.lt_or_ge k es.length with hlt | hge
  · rw [List.getElem?_append_left hlt] at hk
    exact h k e' hk
  · have hlt := (List.getElem?_eq_some_iff.mp hk).1
    have hk' : k = es.length := by
      simp only [List.length_append, List.length_cons, List.length_nil] at hlt
      omega
    subst hk'
    simp only [List.getElem?_concat_length, Option.some.injEq] at hk
    exact hk ▸ he

theorem singleton (h : e.logIndex = first) : Numbered first [e] := by
  have hnil : Numbered first [] := Numbered.nil
  exact hnil.append (by simpa using h)

theorem drop (h : Numbered first es) (k : ℕ) : Numbered (first + k) (es.drop k) := by
  intro j e hj
  rw [List.getElem?_drop] at hj
  have := h _ e hj
  push_cast at this
  omega

theorem mem_drop (h : Numbered first es) : e ∈ es.drop k ↔ e ∈ es ∧ first + k ≤ e.logIndex := by
  constructor
  · intro he
    exact ⟨List.mem_of_mem_drop he, ((h.drop k).bounds he).1⟩
  · rintro ⟨he, hk⟩
    obtain ⟨j, hj⟩ := List.mem_iff_getElem?.mp he
    have hjk : k ≤ j := by
      have := h j e hj
      omega
    refine List.mem_of_getElem? (i := j - k) ?_
    rw [List.getElem?_drop, Nat.add_sub_cancel' hjk, hj]

theorem set (h : Numbered first es) (hk : e.logIndex = first + k) : Numbered first (es.set k e) := by
  intro j e' hj
  rw [List.getElem?_set] at hj
  split_ifs at hj with hjk
  · obtain rfl := Option.some.inj hj
    exact hjk ▸ hk
  · exact h j e' hj

theorem mem_set (h : Numbered first es) (hk : e.logIndex = first + k) (hlt : k < es.length) :
    e' ∈ es.set k e ↔ e' = e ∨ e' ∈ es ∧ e'.logIndex ≠ e.logIndex := by
  rw [List.mem_iff_getElem?]
  constructor
  · rintro ⟨j, hj⟩
    rw [List.getElem?_set] at hj
    split_ifs at hj with hjk
    · exact Or.inl (Option.some.inj hj).symm
    · refine Or.inr ⟨List.mem_of_getElem? hj, ?_⟩
      have := h j e' hj
      omega
  · rintro (rfl | ⟨he', hne⟩)
    · exact ⟨k, by rw [List.getElem?_set_self hlt]⟩
    · obtain ⟨j, hj⟩ := List.mem_iff_getElem?.mp he'
      refine ⟨j, ?_⟩
      have := h j e' hj
      rw [List.getElem?_set_ne (by omega), hj]

end Numbered

namespace Raft

variable {n : ℕ} {rf rf' : Raft n} {i j t : ℤ} {e : LogEntry}

/-- `m_logs[k].logindex() = m_lastSnapshotIncludeIndex + 1 + k` -/
def Contiguous (rf : Raft n) : Prop := Numbered (rf.lastSnapshotIncludeIndex + 1) rf.logs

theorem Contiguous.getLastLogIndex_eq (h : rf.Contiguous) :
    rf.getLastLogIndex = rf.lastSnapshotIncludeIndex + rf.logs.length := by
  unfold getLastLogIndex getLastLogIndexAndTerm
  split
  · rename_i hnil
    rw [List.getLast?_eq_none_iff] at hnil
    simp [hnil]
  · rename_i e he
    rw [List.getLast?_eq_getElem?] at he
    have hidx := h _ e he
    have hlt := (List.getElem?_eq_some_iff.mp he).1
    dsimp only
    omega

theorem Contiguous.mem_bounds (h : rf.Contiguous) (he : e ∈ rf.logs) :
    rf.lastSnapshotIncludeIndex < e.logIndex ∧ e.logIndex ≤ rf.getLastLogIndex := by
  have := Numbered.bounds h he
  rw [h.getLastLogIndex_eq]
  omega

theorem Contiguous.exists_at (h : rf.Contiguous) (hlo : rf.lastSnapshotIncludeIndex < i)
    (hhi : i ≤ rf.getLastLogIndex) : ∃ e ∈ rf.logs, e.logIndex = i := by
  rw [h.getLastLogIndex_eq] at hhi
  exact Numbered.exists_at h (by omega) (by omega)

theorem getSlices_ok {k : ℤ} : rf.getSlicesIndexFromLogIndex i = .ok k ↔
    rf.lastSnapshotIncludeIndex < i ∧ i ≤ rf.getLastLogIndex ∧
      k = i - rf.lastSnapshotIncludeIndex - 1 := by
  unfold getSlicesIndexFromLogIndex
  simp only [bind_ok, myAssert_ok, pure_ok, exists_and_left, exists_const, gt_iff_lt]
  exact and_congr_right fun _ => and_congr_right fun _ => eq_comm

theorem getSlices_error {a : AssertFail} (h : rf.getSlicesIndexFromLogIndex i = .error a) :
    a = .sliceLow ∨ a = .sliceHigh := by
  unfold getSlicesIndexFromLogIndex at h
  rcases bind_error.mp h with h | ⟨_, -, h⟩
  · exact Or.inl (myAssert_error.mp h).2
  rcases bind_error.mp h with h | ⟨_, -, h⟩
  · exact Or.inr (myAssert_error.mp h).2
  · cases h

theorem logAt_error {a : AssertFail} (h : rf.logAt i = .error a) :
    a = .sliceLow ∨ a = .sliceHigh ∨ a = .vectorRange := by
  unfold logAt at h
  rcases bind_error.mp h with h | ⟨k, -, h⟩
  · exact (getSlices_error h).imp_right Or.inl
  · split at h
    · cases h
    · exact Or.inr (Or.inr (Except.error.inj h).symm)

theorem Contiguous.logAt_ok (h : rf.Contiguous) :
    rf.logAt i = .ok e ↔ e ∈ rf.logs ∧ e.logIndex = i := by
  unfold logAt
  simp only [bind_ok, getSlices_ok]
  constructor
  · rintro ⟨k, ⟨hlo, hhi, rfl⟩, hk⟩
    split at hk
    · rename_i e' he'
      obtain rfl := pure_ok.mp hk
      have := h _ _ he'
      exact ⟨List.mem_of_getElem? he', by omega⟩
    · cases hk
  · rintro ⟨hmem, rfl⟩
    obtain ⟨hlo, hhi⟩ := h.mem_bounds hmem
    refine ⟨_, ⟨hlo, hhi, rfl⟩, ?_⟩
    rw [(Numbered.getElem?_iff h).mpr ⟨hmem, by omega⟩]
    rfl

theorem Contiguous.logAt_ne_error (h : rf.Contiguous) (hlo : rf.lastSnapshotIncludeIndex < i)
    (hhi : i ≤ rf.getLastLogIndex) : ∃ e, rf.logAt i = .ok e ∧ e ∈ rf.logs ∧ e.logIndex = i := by
  obtain ⟨e, he, hidx⟩ := h.exists_at hlo hhi
  exact ⟨e, h.logAt_ok.mpr ⟨he, hidx⟩, he, hidx⟩

/-- The term the node has at index `i`, from the snapshot or from the log. -/
def TermAt (rf : Raft n) (i t : ℤ) : Prop :=
  i = rf.lastSnapshotIncludeIndex ∧ t = rf.lastSnapshotIncludeTerm ∨
    ∃ e ∈ rf.logs, e.logIndex = i ∧ e.logTerm = t

theorem Contiguous.getLogTerm_ok (h : rf.Contiguous) :
    rf.getLogTermFromLogIndex i = .ok t ↔ rf.TermAt i t := by
  unfold getLogTermFromLogIndex TermAt
  simp only [bind_ok, myAssert_ok, exists_and_left, exists_const]
  constructor
  · rintro ⟨hlo, hhi, hval⟩
    split_ifs at hval with heq
    · exact Or.inl ⟨heq, (pure_ok.mp hval).symm⟩
    · simp only [bind_ok, pure_ok] at hval
      obtain ⟨e, he, rfl⟩ := hval
      obtain ⟨hmem, hidx⟩ := h.logAt_ok.mp he
      exact Or.inr ⟨e, hmem, hidx, rfl⟩
  · rintro (⟨rfl, rfl⟩ | ⟨e, hmem, rfl, rfl⟩)
    · refine ⟨le_rfl, ?_, by simp⟩
      rw [h.getLastLogIndex_eq]
      omega
    · obtain ⟨hlo, hhi⟩ := h.mem_bounds hmem
      refine ⟨hlo.le, hhi, ?_⟩
      rw [if_neg hlo.ne', h.logAt_ok.mpr ⟨hmem, rfl⟩]
      rfl

theorem Contiguous.termAt_unique (h : rf.Contiguous) {t' : ℤ} (ht : rf.TermAt i t)
    (ht' : rf.TermAt i t') : t = t' :=
  Except.ok.inj ((h.getLogTerm_ok.mpr ht).symm.trans (h.getLogTerm_ok.mpr ht'))

theorem Contiguous.exists_termAt (h : rf.Contiguous) (hlo : rf.lastSnapshotIncludeIndex ≤ i)
    (hhi : i ≤ rf.getLastLogIndex) : ∃ t, rf.TermAt i t := by
  rcases hlo.eq_or_lt with heq | hlt
  · exact ⟨_, Or.inl ⟨heq.symm, rfl⟩⟩
  · obtain ⟨e, he, hidx⟩ := h.exists_at hlt hhi
    exact ⟨_, Or.inr ⟨e, he, hidx, rfl⟩⟩

theorem Contiguous.matchLog_ok (h : rf.Contiguous) {b : Bool} :
    rf.matchLog i t = .ok b ↔ rf.lastSnapshotIncludeIndex ≤ i ∧ i ≤ rf.getLastLogIndex ∧
      (b = true ↔ rf.TermAt i t) := by
  unfold matchLog
  simp only [bind_ok, myAssert_ok, pure_ok, exists_and_left, exists_const, and_assoc]
  refine and_congr_right fun hlo => and_congr_right fun hhi => ?_
  obtain ⟨t', ht'⟩ := h.exists_termAt hlo hhi
  have hiff : rf.TermAt i t ↔ t = t' := by
    constructor
    · intro ht
      exact h.termAt_unique ht ht'
    · rintro rfl
      exact ht'
  rw [hiff]
  constructor
  · rintro ⟨t₁, ht₁, hb⟩
    obtain rfl := h.termAt_unique (h.getLogTerm_ok.mp ht₁) ht'
    rw [← hb]
    simp
  · intro hb
    exact ⟨t', h.getLogTerm_ok.mpr ht', by rw [Bool.eq_iff_iff, hb]; simp⟩

theorem getLastLogIndex_congr (hl : rf'.logs = rf.logs)
    (hs : rf'.lastSnapshotIncludeIndex = rf.lastSnapshotIncludeIndex) :
    rf'.getLastLogIndex = rf.getLastLogIndex := by
  unfold getLastLogIndex getLastLogIndexAndTerm
  rw [hl, hs]
  cases rf.logs.getLast? <;> rfl

end Raft
end RaftStorage
