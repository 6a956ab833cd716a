import RaftStorage.Cluster.Replication
import RaftStorage.Library.LeaderMoves

/-! A node's log as it would be if nothing had been compacted. What a node still holds is a window
of its full log; the handlers are restated here as what they do to the full log. -/

namespace RaftStorage
open Library

namespace Numbered

variable {first : ℤ} {es es' : List LogEntry} {e : LogEntry} {k : ℕ}

theorem of_isPrefix (h : Numbered first es') (hpre : es <+: es') : Numbered first es :=
  fun j e hj => h j e (getElem?_of_isPrefix hpre hj)

theorem take (h : Numbered first es) (k : ℕ) : Numbered first (es.take k) :=
  h.of_isPrefix (List.take_prefix k es)

theorem mem_take (h : Numbered first es) : e ∈ es.take k ↔ e ∈ es ∧ e.logIndex < first + k := by
  constructor
  · intro he
    have hb := (h.take k).bounds he
    have hlen := List.length_take_le k es
    exact ⟨List.mem_of_mem_take he, by omega⟩
  · rintro ⟨he, hlt⟩
    obtain ⟨j, hj⟩ := List.mem_iff_getElem?.mp he
    have hidx := h j e hj
    refine List.mem_of_getElem? (i := j) ?_
    rw [List.getElem?_take_of_lt (by omega), hj]

end Numbered

/-- The entry at index `i` of the full log has term `t`; before the first entry the term is 0. -/
def TermIn (l : List LogEntry) (i t : ℤ) : Prop :=
  i = 0 ∧ t = 0 ∨ ∃ e ∈ l, e.logIndex = i ∧ e.logTerm = t

theorem TermIn.mono {l l' : List LogEntry} {i t : ℤ} (h : TermIn l i t)
    (hsub : ∀ e ∈ l, e ∈ l') : TermIn l' i t := by
  rcases h with h | ⟨e, he, hrest⟩
  · exact Or.inl h
  · exact Or.inr ⟨e, hsub e he, hrest⟩

/-- The list is a full log that ends at index `i` with term `t`. -/
structure EndsAt (l : List LogEntry) (i t : ℤ) : Prop where
  numbered : Numbered 1 l
  length : (l.length : ℤ) = i
  term : TermIn l i t

theorem EndsAt.getLast {l : List LogEntry} {i t : ℤ} (h : EndsAt l i t) (hne : l ≠ []) :
    ∃ e, l.getLast? = some e ∧ e.logTerm = t := by
  have hpos := List.length_pos_of_ne_nil hne
  have hlen := h.length
  rcases h.term with ⟨h0, -⟩ | ⟨e, he, hidx, ht⟩
  · omega
  · refine ⟨e, ?_, ht⟩
    rw [List.getLast?_eq_getElem?]
    exact h.numbered.getElem?_iff.mpr ⟨he, by omega⟩

theorem EndsAt.upToDate {l l' : List LogEntry} {i t i' t' : ℤ} (h : EndsAt l i t)
    (h' : EndsAt l' i' t') (hpos : ∀ e ∈ l', 1 ≤ e.logTerm)
    (hup : t > t' ∨ t = t' ∧ i ≥ i') : UpToDate LogEntry.logTerm l l' := by
  intro e he
  have hne : l' ≠ [] := by
    rintro rfl
    cases he
  obtain ⟨e', he', ht'⟩ := h'.getLast hne
  obtain rfl := Option.some.inj (he.symm.trans he')
  have hlen := h.length
  have hlen' := h'.length
  have hpos' := hpos e (List.mem_of_getLast? he)
  have hne' : l ≠ [] := by
    rintro rfl
    rcases h.term with ⟨-, h0⟩ | ⟨_, hmem, -⟩
    · have := List.length_pos_of_ne_nil hne
      simp only [List.length_nil] at hlen
      omega
    · cases hmem
  obtain ⟨e₁, he₁, ht₁⟩ := h.getLast hne'
  refine ⟨e₁, he₁, ?_⟩
  omega

section Consistent
variable {n : ℕ} {H : History (Fin n) ℤ LogEntry} {l l' : List LogEntry} {i t : ℤ}

theorem agree_of_termIn (hc : Consistent LogEntry.logTerm H l)
    (hc' : Consistent LogEntry.logTerm H l') (hn : Numbered 1 l) (hn' : Numbered 1 l')
    (ht : TermIn l i t) (ht' : TermIn l' i t) : l.take i.toNat = l'.take i.toNat := by
  by_cases h0 : i = 0
  · simp [h0]
  obtain ⟨e, he, hidx, hterm⟩ := ht.resolve_left fun h => h0 h.1
  obtain ⟨e', he', hidx', hterm'⟩ := ht'.resolve_left fun h => h0 h.1
  obtain ⟨j, hj⟩ := List.mem_iff_getElem?.mp he
  have hpos := hn j e hj
  have hj' := (hn'.getElem?_iff (k := j)).mpr ⟨he', by omega⟩
  have hnat : i.toNat = j + 1 := by omega
  rw [hnat]
  exact hc.take_eq hc' hj hj' (hterm.trans hterm'.symm)

end Consistent

namespace Raft

variable {n : ℕ} {rf rf' : Raft n} {l l' : List LogEntry} {e : LogEntry}

/-- What the node holds is the part of the full log after its snapshot. -/
structure Window (rf : Raft n) (l : List LogEntry) : Prop where
  numbered : Numbered 1 l
  length : (l.length : ℤ) = rf.getLastLogIndex
  mem : ∀ e, e ∈ rf.logs ↔ e ∈ l ∧ rf.lastSnapshotIncludeIndex < e.logIndex
  snapTerm : TermIn l rf.lastSnapshotIncludeIndex rf.lastSnapshotIncludeTerm
  positive : ∀ e ∈ l, 1 ≤ e.logTerm

theorem window_init (me : Fin n) : Window (init me) [] where
  numbered := Numbered.nil
  length := rfl
  mem := fun e => by simp [init]
  snapTerm := Or.inl ⟨rfl, rfl⟩
  positive := by simp

theorem Window.congr (h : Window rf l) (hl : rf'.logs = rf.logs)
    (hi : rf'.lastSnapshotIncludeIndex = rf.lastSnapshotIncludeIndex)
    (ht : rf'.lastSnapshotIncludeTerm = rf.lastSnapshotIncludeTerm) : Window rf' l where
  numbered := h.numbered
  length := by rw [getLastLogIndex_congr hl hi, h.length]
  mem := fun e => by rw [hl, hi, h.mem]
  snapTerm := by rw [hi, ht]; exact h.snapTerm
  positive := h.positive

theorem Window.same (h : Window rf l) (hs : SameLog rf rf') : Window rf' l :=
  h.congr hs.logs hs.snapIndex hs.snapTerm

theorem Window.termIn (h : Window rf l) {i t : ℤ} (ht : rf.TermAt i t) : TermIn l i t := by
  rcases ht with ⟨rfl, rfl⟩ | ⟨e, he, hrest⟩
  · exact h.snapTerm
  · exact Or.inr ⟨e, ((h.mem e).mp he).1, hrest⟩

theorem Window.endsAt (h : Window rf l) :
    EndsAt l rf.getLastLogIndex rf.getLastLogTerm := by
  refine ⟨h.numbered, h.length, h.termIn ?_⟩
  unfold TermAt getLastLogIndex getLastLogTerm getLastLogIndexAndTerm
  cases hlast : rf.logs.getLast? with
  | none => exact Or.inl ⟨rfl, rfl⟩
  | some e => exact Or.inr ⟨e, List.mem_of_getLast? hlast, rfl, rfl⟩

theorem Window.append (h : Window rf l) (hi : rf.Indexed) (hi' : rf'.Indexed) {command : String}
    (hlogs : rf'.logs = rf.logs ++ [⟨command, rf.currentTerm, rf.getLastLogIndex + 1⟩])
    (hsnap : rf'.lastSnapshotIncludeIndex = rf.lastSnapshotIncludeIndex)
    (hsnapT : rf'.lastSnapshotIncludeTerm = rf.lastSnapshotIncludeTerm)
    (hpos : 1 ≤ rf.currentTerm) :
    Window rf' (l ++ [⟨command, rf.currentTerm, rf.getLastLogIndex + 1⟩]) where
  numbered := h.numbered.append (by rw [h.length]; dsimp only; omega)
  length := by
    have h₁ := hi.contiguous.getLastLogIndex_eq
    have h₂ := hi'.contiguous.getLastLogIndex_eq
    have h₃ := h.length
    rw [hlogs, hsnap] at h₂
    simp only [List.length_append, List.length_cons, List.length_nil] at h₂ ⊢
    omega
  mem := by
    intro e
    have hle : rf.lastSnapshotIncludeIndex ≤ rf.getLastLogIndex :=
      hi.snap_le.trans (hi.applied_le.trans hi.commit_le)
    rw [hlogs, hsnap, List.mem_append, List.mem_append, h.mem, List.mem_singleton]
    constructor
    · rintro (⟨he, hlt⟩ | rfl)
      · exact ⟨Or.inl he, hlt⟩
      · exact ⟨Or.inr rfl, by dsimp only; omega⟩
    · rintro ⟨he | he, hlt⟩
      · exact Or.inl ⟨he, hlt⟩
      · exact Or.inr he
  snapTerm := by
    rw [hsnap, hsnapT]
    exact h.snapTerm.mono fun e he => List.mem_append_left _ he
  positive := by
    intro e he
    rcases List.mem_append.mp he with he | he
    · exact h.positive e he
    · rw [List.mem_singleton.mp he]
      exact hpos

theorem Window.cut (h : Window rf l) {i t : ℤ} (hc : Cut rf rf' i t)
    (hlo : rf.lastSnapshotIncludeIndex < i) (hhi : i ≤ rf.getLastLogIndex) (ht : TermIn l i t) :
    Window rf' l where
  numbered := h.numbered
  length := by rw [hc.last, max_eq_left hhi, h.length]
  mem := by
    intro e
    rw [hc.mem, h.mem, hc.snapIndex]
    constructor
    · rintro ⟨⟨he, -⟩, hlt⟩
      exact ⟨he, hlt⟩
    · rintro ⟨he, hlt⟩
      exact ⟨⟨he, hlo.trans hlt⟩, hlt⟩
  snapTerm := by rw [hc.snapIndex, hc.snapTerm]; exact ht
  positive := h.positive

theorem Cut.window {i t : ℤ} (hc : Cut rf rf' i t) (hi : rf.Indexed)
    (hhi : rf.getLastLogIndex ≤ i) (hl : EndsAt l i t) (hpos : ∀ e ∈ l, 1 ≤ e.logTerm) :
    Window rf' l where
  numbered := hl.numbered
  length := by rw [hc.last, max_eq_right hhi, hl.length]
  mem := by
    intro e
    rw [hc.mem, hc.snapIndex]
    constructor
    · rintro ⟨he, hlt⟩
      have := hi.contiguous.mem_bounds he
      omega
    · rintro ⟨he, hlt⟩
      have := hl.numbered.bounds he
      have := hl.length
      omega
  snapTerm := by rw [hc.snapIndex, hc.snapTerm]; exact hl.term
  positive := hpos

/-- The request repeats the leader's log `L` between its previous index and `last`. -/
structure Excerpt (L : List LogEntry) (last : ℤ) (args : AppendEntriesArgs n) : Prop where
  prev_nonneg : 0 ≤ args.prevLogIndex
  mem : ∀ e, e ∈ args.entries ↔ e ∈ L ∧ args.prevLogIndex < e.logIndex ∧ e.logIndex ≤ last
  prevTerm : TermIn L args.prevLogIndex args.prevLogTerm

theorem BuiltFrom.excerpt {args : AppendEntriesArgs n} (h : BuiltFrom rf args) (hi : rf.Indexed)
    (hw : Window rf l) : Excerpt l rf.getLastLogIndex args where
  prev_nonneg := hi.snap_nonneg.trans h.snap_le
  mem := by
    intro e
    rw [h.mem hi.contiguous, hw.mem]
    have hsnap := h.snap_le
    constructor
    · rintro ⟨⟨he, -⟩, hlt⟩
      have := hw.numbered.bounds he
      have := hw.length
      exact ⟨he, hlt, by omega⟩
    · rintro ⟨he, hlt, -⟩
      exact ⟨⟨he, by omega⟩, hlt⟩
  prevTerm := hw.termIn h.prevTerm

theorem Excerpt.extend {L L' : List LogEntry} {last : ℤ} {args : AppendEntriesArgs n}
    (h : Excerpt L last args) (hn : Numbered 1 L') (hpre : L <+: L') (hlast : last ≤ L.length) :
    Excerpt L' last args where
  prev_nonneg := h.prev_nonneg
  mem := by
    intro e
    rw [h.mem]
    constructor
    · rintro ⟨he, hrest⟩
      exact ⟨hpre.subset he, hrest⟩
    · rintro ⟨he, hlo, hhi⟩
      refine ⟨?_, hlo, hhi⟩
      have htake : e ∈ L'.take L.length := hn.mem_take.mpr ⟨he, by omega⟩
      rwa [List.prefix_iff_eq_take.mp hpre]
  prevTerm := h.prevTerm.mono fun _ he => hpre.subset he

section Merge
variable {L : List LogEntry} {k : ℤ} {args : AppendEntriesArgs n}

theorem AppendMerged.window_take (hm : AppendMerged rf rf' args) (hw : Window rf l)
    (hx : Excerpt L k args) (hn : Numbered 1 L) (hpos : ∀ e ∈ L, 1 ≤ e.logTerm)
    (hnum : Numbered (args.prevLogIndex + 1) args.entries)
    (hlen : args.prevLogIndex + args.entries.length = k) (hk : k ≤ L.length)
    (hagree : l.take args.prevLogIndex.toNat = L.take args.prevLogIndex.toNat)
    (huniq : ∀ o ∈ rf.logs, ∀ e ∈ args.entries, o.logIndex = e.logIndex →
      o.logTerm = e.logTerm → o = e)
    (hlast : rf.getLastLogIndex ≤ k) : Window rf' (L.take k.toNat) := by
  have hprev := hx.prev_nonneg
  have hsnap := hm.snap_le
  -- below the previous index both full logs are the same
  have hbelow : ∀ e, e.logIndex ≤ args.prevLogIndex → (e ∈ l ↔ e ∈ L) := by
    intro e hle
    have hl : e ∈ l.take args.prevLogIndex.toNat ↔ e ∈ l :=
      hw.numbered.mem_take.trans (and_iff_left (by omega))
    have hL : e ∈ L.take args.prevLogIndex.toNat ↔ e ∈ L :=
      hn.mem_take.trans (and_iff_left (by omega))
    rw [← hl, hagree, hL]
  have htake : ∀ e, e ∈ L.take k.toNat ↔ e ∈ L ∧ e.logIndex ≤ k := by
    intro e
    rw [hn.mem_take]
    refine and_congr_right fun _ => ?_
    omega
  refine
    { numbered := hn.take _
      length := ?_
      mem := fun e => ?_
      snapTerm := ?_
      positive := fun e he => hpos e (List.mem_of_mem_take he) }
  · rw [hm.last, List.length_take]
    omega
  · rw [hm.mem, hm.snapIndex, htake, hw.mem]
    constructor
    · rintro (⟨⟨he, hlo⟩, hsame⟩ | ⟨he, -⟩)
      · refine ⟨?_, hlo⟩
        have hhi := hw.numbered.bounds he
        have hlen' := hw.length
        rcases le_or_gt e.logIndex args.prevLogIndex with hle | hgt
        · exact ⟨(hbelow e hle).mp he, by omega⟩
        · obtain ⟨e', he', hidx⟩ := hnum.exists_at (i := e.logIndex) (by omega) (by omega)
          obtain rfl := huniq e ((hw.mem e).mpr ⟨he, hlo⟩) e' he' hidx.symm (hsame e' he' hidx).symm
          exact ⟨((hx.mem e).mp he').1, by omega⟩
      · obtain ⟨heL, hlo, hhi⟩ := (hx.mem e).mp he
        exact ⟨⟨heL, hhi⟩, by omega⟩
    · rintro ⟨⟨heL, hhi⟩, hlo⟩
      rcases le_or_gt e.logIndex args.prevLogIndex with hle | hgt
      · refine Or.inl ⟨⟨(hbelow e hle).mpr heL, hlo⟩, fun e' he' hidx => ?_⟩
        have := hnum.bounds he'
        omega
      · have he := (hx.mem e).mpr ⟨heL, hgt, hhi⟩
        by_cases hold : e ∈ rf.logs
        · refine Or.inl ⟨(hw.mem e).mp hold, fun e' he' hidx => ?_⟩
          rw [hnum.unique he' he hidx]
        · exact Or.inr ⟨he, fun o ho hidx hterm => hold (huniq o ho e he hidx hterm ▸ ho)⟩
  · rw [hm.snapIndex, hm.snapTerm]
    rcases hw.snapTerm with h0 | ⟨e, he, hidx, hterm⟩
    · exact Or.inl h0
    · refine Or.inr ⟨e, (htake e).mpr ⟨(hbelow e (by omega)).mp he, by omega⟩, hidx, hterm⟩

theorem AppendMerged.window_same (hm : AppendMerged rf rf' args) (hw : Window rf l)
    (hc : rf.Contiguous) (hnum : Numbered (args.prevLogIndex + 1) args.entries)
    (hlen : args.prevLogIndex + args.entries.length = k) (hlast : k < rf.getLastLogIndex)
    (hclean : ∀ o ∈ rf.logs, ∀ e ∈ args.entries, o.logIndex = e.logIndex → o.logTerm = e.logTerm) :
    Window rf' l := by
  have hsnap := hm.snap_le
  refine
    { numbered := hw.numbered
      length := ?_
      mem := fun e => ?_
      snapTerm := by rw [hm.snapIndex, hm.snapTerm]; exact hw.snapTerm
      positive := hw.positive }
  · rw [hm.last, hw.length]
    omega
  · rw [hm.mem, hm.snapIndex, ← hw.mem]
    constructor
    · rintro (⟨he, -⟩ | ⟨he, hno⟩)
      · exact he
      · have := hnum.bounds he
        obtain ⟨o, ho, hidx⟩ := hc.exists_at (i := e.logIndex) (by omega) (by omega)
        exact absurd (hclean o ho e he hidx) (hno o ho hidx)
    · intro he
      exact Or.inl ⟨he, fun e' he' hidx => (hclean e he e' he' hidx.symm).symm⟩

theorem AppendMerged.prefix_same {H : History (Fin n) ℤ LogEntry} (hm : AppendMerged rf rf' args)
    (hw : Window rf l) (hc : rf.Contiguous) (hx : Excerpt L k args) (hn : Numbered 1 L)
    (hcl : Consistent LogEntry.logTerm H l) (hcL : Consistent LogEntry.logTerm H L)
    (hnum : Numbered (args.prevLogIndex + 1) args.entries)
    (hlen : args.prevLogIndex + args.entries.length = k) (hlast : k < rf.getLastLogIndex)
    (hclean : ∀ o ∈ rf.logs, ∀ e ∈ args.entries, o.logIndex = e.logIndex → o.logTerm = e.logTerm) :
    L.take k.toNat <+: l := by
  suffices h : l.take k.toNat = L.take k.toNat by
    rw [← h]
    exact List.take_prefix _ _
  rcases Nat.eq_zero_or_pos args.entries.length with h0 | hpos
  · have hk : k = args.prevLogIndex := by omega
    rw [hk]
    exact agree_of_termIn hcl hcL hw.numbered hn (hw.termIn hm.prevTerm) hx.prevTerm
  · obtain ⟨e, he, hidx⟩ := hnum.exists_at (i := k) (by omega) (by omega)
    have hsnap := hm.snap_le
    obtain ⟨o, ho, hoi⟩ := hc.exists_at (i := k) (by omega) hlast.le
    have hterm := hclean o ho e he (hoi.trans hidx.symm)
    exact agree_of_termIn hcl hcL hw.numbered hn
      (Or.inr ⟨o, ((hw.mem o).mp ho).1, hoi, hterm⟩) (Or.inr ⟨e, ((hx.mem e).mp he).1, hidx, rfl⟩)

end Merge

end Raft
end RaftStorage
