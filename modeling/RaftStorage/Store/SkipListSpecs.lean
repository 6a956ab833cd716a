import RaftStorage.Store.SkipList
import Mathlib.Data.List.Perm.Subperm

/-! The skip list as a sorted list of cells. Every level is the chain of the cells that reach it, so
a search finds the cell before a key on every level, and what an operation does to the cells does
not depend on their levels. -/

namespace RaftStorage
open Library

structure Cell (K V : Type) where
  addr : ℕ
  key : K
  value : V
  level : ℕ

def Cell.pair {K V : Type} (c : Cell K V) : K × V := (c.key, c.value)

namespace SkipList

variable {K V : Type}

def info (l : SkipList K V) (a : ℕ) : Option (K × V × ℕ) :=
  (l.memory a).map fun nd => (nd.key, nd.value, nd.nodeLevel)

def chain (cells : List (Cell K V)) (i : ℕ) : List ℕ :=
  (cells.filter (i ≤ ·.level)).map Cell.addr

def lastAt (cells : List (Cell K V)) (i : ℕ) : ℕ := (chain cells i).getLastD header

section Chains
variable {cells L R : List (Cell K V)} {c : Cell K V} {i j a : ℕ}

@[simp] theorem chain_nil : chain ([] : List (Cell K V)) i = [] := rfl

theorem chain_append : chain (L ++ R) i = chain L i ++ chain R i := by
  simp [chain]

theorem chain_cons_of_le (h : i ≤ c.level) : chain (c :: L) i = c.addr :: chain L i := by
  simp [chain, h]

theorem chain_cons_of_lt (h : c.level < i) : chain (c :: L) i = chain L i := by
  simp [chain, h]

@[simp] theorem chain_zero : chain cells 0 = cells.map Cell.addr := by
  simp [chain]

theorem chain_insert :
    chain (L ++ c :: R) i =
      if i < c.level + 1 then chain L i ++ c.addr :: chain R i else chain L i ++ chain R i := by
  rw [chain_append]
  split_ifs with hi
  · rw [chain_cons_of_le (by omega)]
  · rw [chain_cons_of_lt (by omega)]

theorem mem_chain : a ∈ chain cells i ↔ ∃ c ∈ cells, i ≤ c.level ∧ c.addr = a := by
  simp [chain, and_assoc]

theorem chain_subset (h : i ≤ j) : chain cells j ⊆ chain cells i := by
  intro a ha
  obtain ⟨c, hc, hl, rfl⟩ := mem_chain.mp ha
  exact mem_chain.mpr ⟨c, hc, h.trans hl, rfl⟩

theorem chain_sublist : (chain cells i).Sublist (cells.map Cell.addr) :=
  List.filter_sublist.map Cell.addr

theorem lastAt_mem : lastAt cells i ∈ header :: chain cells i := getLastD_mem _ _

theorem addr_perm (L R : List (Cell K V)) (c : Cell K V) :
    (header :: (L ++ c :: R).map Cell.addr).Perm
      (c.addr :: header :: (L ++ R).map Cell.addr) :=
  (List.Perm.cons _ (List.perm_middle.map Cell.addr)).trans (List.Perm.swap _ _ _)

end Chains

section Pointers
variable {l : SkipList K V} {a b i j : ℕ} {t : Option ℕ}

@[simp] theorem info_setForward : (l.setForward a i t).info = l.info := by
  funext b
  unfold info setForward
  dsimp only
  by_cases hb : b = a
  · subst hb
    rw [Function.update_self, Option.map_map]
    rfl
  · rw [Function.update_of_ne hb]

theorem forward_setForward_self (ha : (l.info a).isSome) :
    ((l.setForward a i t).forward · i) = Function.update (l.forward · i) a t := by
  funext b
  unfold forward setForward
  dsimp only
  by_cases hb : b = a
  · subst hb
    rw [Function.update_self, Function.update_self]
    obtain ⟨nd, hnd⟩ := Option.isSome_iff_exists.mp (by simpa [info] using ha)
    simp [hnd]
  · rw [Function.update_of_ne hb, Function.update_of_ne hb]

theorem forward_setForward_of_ne (hj : j ≠ i) :
    ((l.setForward a i t).forward · j) = (l.forward · j) := by
  funext b
  unfold forward setForward
  dsimp only
  by_cases hb : b = a
  · subst hb
    rw [Function.update_self]
    cases l.memory b with
    | none => rfl
    | some nd => simp [hj]
  · rw [Function.update_of_ne hb]

structure SameNodes (l l' : SkipList K V) : Prop where
  info : l'.info = l.info
  level : l'.skipListLevel = l.skipListLevel
  allocated : l'.allocated = l.allocated
  count : l'.elementCount = l.elementCount

theorem SameNodes.refl (l : SkipList K V) : SameNodes l l := ⟨rfl, rfl, rfl, rfl⟩

theorem SameNodes.trans {l₁ l₂ l₃ : SkipList K V} (h : SameNodes l₁ l₂) (h' : SameNodes l₂ l₃) :
    SameNodes l₁ l₃ :=
  ⟨h'.info.trans h.info, h'.level.trans h.level, h'.allocated.trans h.allocated,
    h'.count.trans h.count⟩

theorem SameNodes.setForward (l : SkipList K V) (a i : ℕ) (t : Option ℕ) :
    SameNodes l (l.setForward a i t) := ⟨info_setForward, rfl, rfl, rfl⟩

theorem SameNodes.linkAt (l : SkipList K V) (b : ℕ) (update : ℕ → Option ℕ) (i : ℕ) :
    SameNodes l (l.linkAt b update i) := by
  unfold SkipList.linkAt
  split
  · exact (SameNodes.setForward _ _ _ _).trans (SameNodes.setForward _ _ _ _)
  · exact SameNodes.refl l

def allocate (l : SkipList K V) (key : K) (value : V) (level : ℕ) : SkipList K V :=
  { l with
    skipListLevel := if level > l.skipListLevel then level else l.skipListLevel
    memory := Function.update l.memory l.allocated (some ⟨key, value, level, fun _ => none⟩)
    allocated := l.allocated + 1 }

theorem info_allocate_of_ne {key : K} {value : V} {level : ℕ} (ha : a ≠ l.allocated) :
    (l.allocate key value level).info a = l.info a := by
  simp [info, allocate, ha]

end Pointers

section Loops
variable {l : SkipList K V} {L R : List (Cell K V)} {b : ℕ} (update : ℕ → Option ℕ)

theorem linkAt_fold {r : ℕ} (hb : (l.info b).isSome)
    (hu : ∀ i < r, update i = some (lastAt L i) ∧ (l.info (lastAt L i)).isSome)
    (hseg : ∀ i, Seg (l.forward · i) header (chain L i ++ chain R i) none)
    (hnd : ∀ i, (header :: chain L i ++ chain R i).Nodup)
    (hfresh : ∀ i, b ∉ header :: chain L i ++ chain R i) {k : ℕ} (hk : k ≤ r) :
    SameNodes l ((List.range k).foldl (linkAt b update) l) ∧
      ∀ i, Seg (((List.range k).foldl (linkAt b update) l).forward · i) header
        (if i < k then chain L i ++ b :: chain R i else chain L i ++ chain R i) none := by
  induction k with
  | zero => exact ⟨SameNodes.refl l, by simpa using hseg⟩
  | succ k ih =>
    obtain ⟨hsame, hlev⟩ := ih (by omega)
    rw [List.range_succ, List.foldl_append]
    set m := (List.range k).foldl (linkAt b update) l
    obtain ⟨hup, hsome⟩ := hu k (by omega)
    refine ⟨hsame.trans (SameNodes.linkAt m b update k), fun i => ?_⟩
    simp only [List.foldl_cons, List.foldl_nil, linkAt, hup]
    by_cases hi : i = k
    · subst hi
      rw [if_pos (Nat.lt_succ_self i), forward_setForward_self (by simpa [hsame.info] using hsome),
        forward_setForward_self (by rw [hsame.info]; exact hb)]
      have hold := hlev i
      rw [if_neg (lt_irrefl i)] at hold
      exact hold.insert (hnd i) (hfresh i)
    · rw [forward_setForward_of_ne hi, forward_setForward_of_ne hi]
      have hiff : i < k + 1 ↔ i < k := by omega
      simp only [hiff]
      exact hlev i

theorem unlink_spec {c : Cell K V} {k i : ℕ}
    (hu : ∀ j, j < i + k → update j = some (lastAt L j) ∧ (l.info (lastAt L j)).isSome)
    (hseg : ∀ j, i ≤ j → Seg (l.forward · j) header (chain (L ++ c :: R) j) none)
    (hnd : ∀ j, (header :: chain (L ++ c :: R) j).Nodup)
    (htop : ∀ j, i + k ≤ j → c.level < j) :
    SameNodes l (unlink c.addr update k i l) ∧
      (∀ j < i, ((unlink c.addr update k i l).forward · j) = (l.forward · j)) ∧
      ∀ j, i ≤ j → Seg ((unlink c.addr update k i l).forward · j) header (chain (L ++ R) j) none := by
  have habove : ∀ j, c.level < j → chain (L ++ c :: R) j = chain (L ++ R) j := fun j hj => by
    rw [chain_append, chain_append, chain_cons_of_lt hj]
  induction k generalizing i l with
  | zero =>
    refine ⟨SameNodes.refl l, fun j _ => rfl, fun j hj => ?_⟩
    rw [← habove j (htop j hj)]
    exact hseg j hj
  | succ k ih =>
    obtain ⟨hup, hsome⟩ := hu i (by omega)
    have hchain := hseg i le_rfl
    have hnodup := hnd i
    simp only [unlink, hup]
    by_cases hlev : i ≤ c.level
    · -- the node is on level `i`, and `update` points to it
      rw [chain_append, chain_cons_of_le hlev] at hchain hnodup
      have hnext : l.forward (lastAt L i) i = some c.addr := (seg_append.mp hchain).1.last
      rw [if_neg (not_not.mpr hnext)]
      set m := l.setForward (lastAt L i) i (l.forward c.addr i)
      have hsame : SameNodes l m := SameNodes.setForward _ _ _ _
      have hother : ∀ j, j ≠ i → (m.forward · j) = (l.forward · j) := fun j hj =>
        forward_setForward_of_ne hj
      obtain ⟨h1, h2, h3⟩ := ih (l := m) (i := i + 1)
        (fun j hj => by rw [hsame.info]; exact hu j (by omega))
        (fun j hj => by rw [hother j (by omega)]; exact hseg j (by omega))
        (fun j hj => htop j (by omega))
      refine ⟨hsame.trans h1, fun j hj => ?_, fun j hj => ?_⟩
      · rw [h2 j (by omega), hother j (by omega)]
      · rcases Nat.lt_or_eq_of_le hj with hlt | rfl
        · exact h3 j hlt
        · rw [h2 i (by omega), forward_setForward_self hsome, chain_append]
          exact hchain.erase hnodup
    · -- the node ends below level `i`, so `update` points past it
      have hlt := not_le.mp hlev
      have hnext : l.forward (lastAt L i) i ≠ some c.addr := by
        intro heq
        rw [chain_append, chain_cons_of_lt hlt] at hchain
        have hmem : c.addr ∈ chain R i := by
          cases hR : chain R i with
          | nil =>
            rw [hR, List.append_nil] at hchain
            cases hchain.last.symm.trans heq
          | cons a m =>
            rw [hR] at hchain
            have := (seg_append.mp hchain).1.last.symm.trans heq
            obtain rfl := Option.some.inj this
            exact List.mem_cons_self
        have hdup := hnd 0
        rw [chain_append, chain_cons_of_le (Nat.zero_le _)] at hdup
        have htail := (List.nodup_append.mp (List.nodup_cons.mp hdup).2).2.1
        exact (List.nodup_cons.mp htail).1 (chain_subset (Nat.zero_le i) hmem)
      rw [if_pos hnext]
      refine ⟨SameNodes.refl l, fun j _ => rfl, fun j hj => ?_⟩
      rw [← habove j (by omega)]
      exact hseg j hj

theorem lowerLevel_none {i : ℕ} : ∀ {top : ℕ}, l.lowerLevel top < i → i ≤ top →
    l.forward SkipList.header i = none
  | 0, hlo, hhi => by
    simp only [lowerLevel] at hlo
    omega
  | top + 1, hlo, hhi => by
    simp only [lowerLevel] at hlo
    split_ifs at hlo with hnone
    · rcases Nat.lt_or_eq_of_le hhi with hlt | rfl
      · exact lowerLevel_none hlo (by omega)
      · exact hnone
    · omega

theorem le_lowerLevel {i top : ℕ} (hseg : Seg (l.forward · i) SkipList.header (chain cells i) none)
    (hne : chain cells i ≠ []) (htop : i ≤ top) : i ≤ l.lowerLevel top := by
  by_contra hlt
  have hnone := lowerLevel_none (not_le.mp hlt) htop
  cases hc : chain cells i with
  | nil => exact hne hc
  | cons a rest =>
    rw [hc] at hseg
    cases hnone.symm.trans hseg.1

end Loops

variable [LinearOrder K]

structure Wf (l : SkipList K V) (cells : List (Cell K V)) : Prop where
  header : (l.info header).isSome
  info : ∀ c ∈ cells, l.info c.addr = some (c.key, c.value, c.level)
  bound : ∀ a ∈ SkipList.header :: cells.map Cell.addr, a < l.allocated
  nodup : (SkipList.header :: cells.map Cell.addr).Nodup
  sorted : cells.Pairwise fun c d => c.key < d.key
  linked : ∀ i, Seg (l.forward · i) SkipList.header (chain cells i) none
  top : ∀ c ∈ cells, c.level ≤ l.skipListLevel
  count : l.elementCount = cells.length

variable {l : SkipList K V} {cells L R : List (Cell K V)} {key : K}

/-! ## Searching -/

theorem wf_create [Inhabited K] [Inhabited V] (maxLevel : ℕ) :
    Wf (create maxLevel : SkipList K V) [] where
  header := by simp [info, create]
  info := by simp
  bound := by simp [create, SkipList.header]
  nodup := by simp
  sorted := .nil
  linked := fun i => by simp [Seg, forward, create]
  top := by simp
  count := rfl

theorem Wf.length_lt (h : Wf l cells) : cells.length < l.allocated := by
  have hrange : SkipList.header :: cells.map Cell.addr ⊆ List.range l.allocated := fun a ha =>
    List.mem_range.mpr (h.bound a ha)
  have hsub := h.nodup.subperm hrange
  have hlen := hsub.length_le
  simp only [List.length_cons, List.length_map, List.length_range] at hlen
  omega

theorem Wf.chain_length (h : Wf l cells) (i : ℕ) : (chain cells i).length ≤ l.allocated := by
  have hle : (chain cells i).length ≤ _ := chain_sublist.length_le
  have hlt := h.length_lt
  simp only [List.length_map] at hle
  omega

theorem Wf.chain_nodup (h : Wf l cells) (i : ℕ) : (SkipList.header :: chain cells i).Nodup :=
  h.nodup.sublist (chain_sublist.cons_cons _)

theorem Wf.memory (h : Wf l cells) {c : Cell K V} (hc : c ∈ cells) :
    ∃ f, l.memory c.addr = some ⟨c.key, c.value, c.level, f⟩ := by
  obtain ⟨⟨k, v, lev, f⟩, hnd, heq⟩ := Option.map_eq_some_iff.mp (h.info c hc)
  simp only [Prod.mk.injEq] at heq
  obtain ⟨rfl, rfl, rfl⟩ := heq
  exact ⟨f, hnd⟩

theorem Wf.before (h : Wf l cells) {c : Cell K V} (hc : c ∈ cells) :
    l.before key c.addr = decide (c.key < key) := by
  obtain ⟨f, hf⟩ := h.memory hc
  simp [SkipList.before, hf]

def SplitAt (cells L R : List (Cell K V)) (key : K) : Prop :=
  cells = L ++ R ∧ (∀ c ∈ L, c.key < key) ∧ ∀ c ∈ R, key ≤ c.key

theorem Wf.splitAt (h : Wf l cells) (key : K) :
    SplitAt cells (cells.filter (·.key < key)) (cells.filter (key ≤ ·.key)) key := by
  refine ⟨?_, by simp, by simp⟩
  have hsorted := h.sorted
  clear h
  induction cells with
  | nil => rfl
  | cons c cells ih =>
    obtain ⟨hc, hrest⟩ := List.pairwise_cons.mp hsorted
    by_cases hlt : c.key < key
    · simp only [List.filter_cons, hlt, decide_true, if_true, not_le.mpr hlt, decide_false,
        Bool.false_eq_true, if_false, List.cons_append]
      exact congrArg _ (ih hrest)
    · have hle := not_lt.mp hlt
      have hnone : cells.filter (·.key < key) = [] := by
        simp only [List.filter_eq_nil_iff, decide_eq_true_eq, not_lt]
        exact fun d hd => hle.trans (hc d hd).le
      have hall : cells.filter (key ≤ ·.key) = cells := by
        simp only [List.filter_eq_self, decide_eq_true_eq]
        exact fun d hd => hle.trans (hc d hd).le
      simp [hlt, hle, hnone, hall]

theorem Wf.walk_lastAt (h : Wf l cells) (hs : SplitAt cells L R key) {i current : ℕ}
    (hcur : current ∈ SkipList.header :: chain L i) :
    walk (l.forward · i) (l.before key) l.allocated current = lastAt L i := by
  obtain ⟨rfl, hL, hR⟩ := hs
  have hseg := h.linked i
  rw [chain_append] at hseg
  refine hseg.walk_from (fun a ha => ?_) (fun a ha => ?_) ?_ hcur
  · obtain ⟨c, hc, -, rfl⟩ := mem_chain.mp ha
    rw [h.before (List.mem_append_left R hc)]
    exact decide_eq_true (hL c hc)
  · obtain ⟨c, hc, -, rfl⟩ := mem_chain.mp (List.mem_of_mem_head? ha)
    rw [h.before (List.mem_append_right L hc)]
    exact decide_eq_false (not_lt.mpr (hR c hc))
  · have hlen := h.chain_length i
    rw [chain_append, List.length_append] at hlen
    omega

theorem Wf.descend (h : Wf l cells) (hs : SplitAt cells L R key) {k current : ℕ}
    {update : ℕ → Option ℕ} (hcur : current ∈ SkipList.header :: chain L k) :
    (l.descend key (k + 1) current update).1 = lastAt L 0 ∧
      ∀ i ≤ k, (l.descend key (k + 1) current update).2 i = some (lastAt L i) := by
  -- levels above the current one keep the entry they were given
  have hkeep : ∀ k current update i, k ≤ i →
      (l.descend key k current update).2 i = update i := by
    intro k
    induction k with
    | zero => exact fun _ _ _ _ => rfl
    | succ k ih =>
      intro current update i hi
      rw [SkipList.descend, ih _ _ i (by omega), Function.update_of_ne (by omega)]
  induction k generalizing current update with
  | zero =>
    simp only [SkipList.descend, h.walk_lastAt hs hcur, true_and]
    intro i hi
    obtain rfl := Nat.le_zero.mp hi
    rw [Function.update_self]
  | succ k ih =>
    rw [SkipList.descend]
    simp only [h.walk_lastAt hs hcur]
    have hnext : lastAt L (k + 1) ∈ SkipList.header :: chain L k :=
      List.cons_subset_cons _ (chain_subset (Nat.le_succ k)) lastAt_mem
    obtain ⟨h1, h2⟩ := @ih _ (Function.update update (k + 1) (some (lastAt L (k + 1)))) hnext
    refine ⟨h1, fun i hi => ?_⟩
    rcases Nat.lt_or_eq_of_le hi with hlt | rfl
    · exact h2 i (by omega)
    · rw [hkeep _ _ _ _ le_rfl, Function.update_self]

theorem Wf.path (h : Wf l cells) (hs : SplitAt cells L R key) :
    (l.path key).1 = lastAt L 0 ∧
      ∀ i ≤ l.skipListLevel, (l.path key).2 i = some (lastAt L i) :=
  h.descend hs (List.mem_cons_self)

theorem Wf.next_lastAt (h : Wf l (L ++ R)) (i : ℕ) :
    l.forward (lastAt L i) i = (chain R i).head? := by
  have hseg := h.linked i
  rw [chain_append] at hseg
  cases hR : chain R i with
  | nil =>
    rw [hR, List.append_nil] at hseg
    exact hseg.last
  | cons a m =>
    rw [hR] at hseg
    exact (seg_append.mp hseg).1.last

theorem Wf.holds (h : Wf l cells) (hsub : ∀ c ∈ R, c ∈ cells) :
    l.holds key ((R.map Cell.addr).head?) = R.head?.any (·.key = key) := by
  cases R with
  | nil => rfl
  | cons c R =>
    obtain ⟨f, hf⟩ := h.memory (hsub c (by simp))
    simp [SkipList.holds, hf]

theorem Wf.holds_next (h : Wf l cells) (hs : SplitAt cells L R key) :
    l.holds key (l.forward (l.path key).1 0) = R.head?.any (·.key = key) := by
  rw [(h.path hs).1]
  obtain ⟨rfl, -, -⟩ := hs
  rw [h.next_lastAt, chain_zero]
  exact h.holds fun c hc => List.mem_append_right L hc

/-! ## Insertion -/

theorem Wf.info_lastAt (h : Wf l (L ++ R)) (i : ℕ) : (l.info (lastAt L i)).isSome := by
  have hlast : lastAt L i ∈ SkipList.header :: chain L i := lastAt_mem
  rcases List.mem_cons.mp hlast with heq | hmem
  · rw [heq]
    exact h.header
  · obtain ⟨c, hc, -, heq⟩ := mem_chain.mp hmem
    rw [← heq, h.info c (List.mem_append_left R hc)]
    rfl

theorem Wf.seg_allocate (h : Wf l cells) (value : V) (level i : ℕ) :
    Seg ((l.allocate key value level).forward · i) SkipList.header (chain cells i) none := by
  refine (h.linked i).congr fun a ha => ?_
  have hlt := h.bound a (List.cons_subset_cons _ (chain_sublist.subset) ha)
  simp [forward, allocate, hlt.ne]

theorem Wf.addr_lt (h : Wf l (L ++ R)) {i a : ℕ}
    (ha : a ∈ SkipList.header :: chain L i ++ chain R i) : a < l.allocated := by
  refine h.bound a ?_
  rw [List.cons_append, ← chain_append] at ha
  exact List.cons_subset_cons _ chain_sublist.subset ha

theorem Wf.update_lastAt (h : Wf l (L ++ R)) (hs : SplitAt (L ++ R) L R key) {r i : ℕ}
    (hi : i < r + 1) :
    (if l.skipListLevel < i ∧ i < r + 1 then some SkipList.header else (l.path key).2 i) =
      some (lastAt L i) := by
  by_cases htop : l.skipListLevel < i
  · have hnil : chain L i = [] := List.eq_nil_iff_forall_not_mem.mpr fun a ha => by
      obtain ⟨c, hc, hle, -⟩ := mem_chain.mp ha
      have := h.top c (List.mem_append_left R hc)
      omega
    simp [htop, hi, lastAt, hnil]
  · simp only [htop, false_and, if_false]
    exact (h.path hs).2 i (not_lt.mp htop)

theorem Wf.insert_cell (h : Wf l (L ++ R)) (hs : SplitAt (L ++ R) L R key)
    (habs : ∀ c ∈ R, c.key ≠ key) {value : V} {r : ℕ} {m : SkipList K V}
    (hsame : SameNodes (l.allocate key value r) m)
    (hseg : ∀ i, Seg (m.forward · i) SkipList.header
      (chain (L ++ ⟨l.allocated, key, value, r⟩ :: R) i) none) :
    Wf { m with elementCount := m.elementCount + 1 }
      (L ++ ⟨l.allocated, key, value, r⟩ :: R) := by
  have hperm := addr_perm L R ⟨l.allocated, key, value, r⟩
  have hne : ∀ a ∈ SkipList.header :: (L ++ R).map Cell.addr, a ≠ l.allocated :=
    fun a ha => (h.bound a ha).ne
  have hmem : ∀ {c}, c ∈ L ++ ⟨l.allocated, key, value, r⟩ :: R →
      c = ⟨l.allocated, key, value, r⟩ ∨ c ∈ L ++ R := by
    intro c hc
    simp only [List.mem_append, List.mem_cons] at hc ⊢
    tauto
  refine
    { header := ?_
      info := fun c hc => ?_
      bound := fun a ha => ?_
      nodup := ?_
      sorted := ?_
      linked := hseg
      top := fun c hc => ?_
      count := ?_ }
  · change (m.info SkipList.header).isSome
    rw [hsame.info, info_allocate_of_ne (hne _ (by simp))]
    exact h.header
  · change m.info c.addr = _
    rw [hsame.info]
    rcases hmem hc with rfl | hc
    · simp [SkipList.info, allocate]
    · rw [info_allocate_of_ne (hne _ (List.mem_cons_of_mem _ (List.mem_map_of_mem hc)))]
      exact h.info c hc
  · change a < m.allocated
    rw [hsame.allocated]
    change a < l.allocated + 1
    rcases List.mem_cons.mp (hperm.mem_iff.mp ha) with rfl | ha
    · exact Nat.lt_succ_self _
    · exact (h.bound a ha).trans (Nat.lt_succ_self _)
  · exact hperm.nodup_iff.mpr (List.nodup_cons.mpr ⟨fun hin => hne _ hin rfl, h.nodup⟩)
  · obtain ⟨hL, hR, hLR⟩ := List.pairwise_append.mp h.sorted
    refine List.pairwise_append.mpr ⟨hL, List.pairwise_cons.mpr ⟨fun d hd => ?_, hR⟩, ?_⟩
    · exact lt_of_le_of_ne (hs.2.2 d hd) (habs d hd).symm
    · intro c hc d hd
      rcases List.mem_cons.mp hd with rfl | hd
      · exact hs.2.1 c hc
      · exact hLR c hc d hd
  · change c.level ≤ m.skipListLevel
    rw [hsame.level]
    change c.level ≤ if r > l.skipListLevel then r else l.skipListLevel
    rcases hmem hc with rfl | hc
    · dsimp only
      split_ifs <;> omega
    · have := h.top c hc
      split_ifs <;> omega
  · change m.elementCount + 1 = _
    rw [hsame.count]
    change l.elementCount + 1 = _
    rw [h.count]
    simp
    omega

theorem Wf.insert_absent (h : Wf l (L ++ R)) (hs : SplitAt (L ++ R) L R key)
    (habs : ∀ c ∈ R, c.key ≠ key) (value : V) (flips : ℕ) :
    Wf (l.insertElement key value flips).1
      (L ++ ⟨l.allocated, key, value, l.getRandomLevel flips⟩ :: R) := by
  have hno : l.holds key (l.forward (l.path key).1 0) = false := by
    rw [h.holds_next hs]
    cases R with
    | nil => rfl
    | cons c R => simpa using habs c (by simp)
  simp only [SkipList.insertElement, hno, Bool.false_eq_true, if_false]
  set r := l.getRandomLevel flips
  obtain ⟨hsame, hseg⟩ := linkAt_fold
    (fun i => if l.skipListLevel < i ∧ i < r + 1 then some SkipList.header else (l.path key).2 i)
    (l := l.allocate key value r) (b := l.allocated) (L := L) (R := R) (r := r + 1)
    (by simp [SkipList.info, allocate])
    (fun i hi => ⟨h.update_lastAt hs hi, by
      rw [info_allocate_of_ne (h.addr_lt (List.mem_append_left _ lastAt_mem)).ne]
      exact h.info_lastAt i⟩)
    (fun i => by rw [← chain_append]; exact h.seg_allocate value r i)
    (fun i => by rw [List.cons_append, ← chain_append]; exact h.chain_nodup i)
    (fun i hi => (h.addr_lt hi).ne rfl) le_rfl
  refine h.insert_cell hs habs hsame fun i => ?_
  rw [chain_insert]
  exact hseg i

/-! ## Deletion -/

theorem Wf.delete_cell {c : Cell K V} (h : Wf l (L ++ c :: R)) {m : SkipList K V}
    (hsame : SameNodes l m)
    (hseg : ∀ i, Seg (m.forward · i) SkipList.header (chain (L ++ R) i) none) :
    Wf { m with
      skipListLevel := m.lowerLevel m.skipListLevel
      memory := Function.update m.memory c.addr none
      elementCount := m.elementCount - 1 } (L ++ R) := by
  have hperm := addr_perm L R c
  obtain ⟨hout, hnd⟩ := List.nodup_cons.mp (hperm.nodup_iff.mp h.nodup)
  have hne : ∀ a ∈ SkipList.header :: (L ++ R).map Cell.addr, a ≠ c.addr := by
    rintro a ha rfl
    exact hout ha
  have hold : ∀ d ∈ L ++ R, d ∈ L ++ c :: R := fun d hd => by
    rcases List.mem_append.mp hd with hd | hd
    · exact List.mem_append_left _ hd
    · exact List.mem_append_right _ (List.mem_cons_of_mem c hd)
  have hinfo : ∀ a, a ≠ c.addr → SkipList.info
      { m with
        skipListLevel := m.lowerLevel m.skipListLevel
        memory := Function.update m.memory c.addr none
        elementCount := m.elementCount - 1 } a = l.info a := by
    intro a ha
    rw [← hsame.info]
    simp [SkipList.info, ha]
  refine
    { header := ?_
      info := fun d hd => ?_
      bound := fun a ha => ?_
      nodup := hnd
      sorted := ?_
      linked := fun i => ?_
      top := fun d hd => ?_
      count := ?_ }
  · rw [hinfo _ (hne _ (by simp))]
    exact h.header
  · rw [hinfo _ (hne _ (List.mem_cons_of_mem _ (List.mem_map_of_mem hd)))]
    exact h.info d (hold d hd)
  · change a < m.allocated
    rw [hsame.allocated]
    exact h.bound a (hperm.mem_iff.mpr (List.mem_cons_of_mem _ ha))
  · exact h.sorted.sublist ((List.sublist_cons_self c R).append_left L)
  · -- the freed node is on no chain any more
    refine (hseg i).congr fun a ha => ?_
    have := hne a (List.cons_subset_cons _ chain_sublist.subset ha)
    simp [SkipList.forward, this]
  · change d.level ≤ m.lowerLevel m.skipListLevel
    have hmem : d.addr ∈ chain (L ++ R) d.level := mem_chain.mpr ⟨d, hd, le_rfl, rfl⟩
    refine le_lowerLevel (hseg d.level) (List.ne_nil_of_mem hmem) ?_
    rw [hsame.level]
    exact h.top d (hold d hd)
  · change m.elementCount - 1 = _
    rw [hsame.count, h.count]
    simp
    omega

theorem Wf.delete_present {c : Cell K V} (h : Wf l (L ++ c :: R))
    (hs : SplitAt (L ++ c :: R) L (c :: R) key) (hkey : c.key = key) :
    Wf (l.deleteElement key) (L ++ R) := by
  obtain ⟨hcur, hpath⟩ := h.path hs
  have hnext : l.forward (lastAt L 0) 0 = some c.addr := by
    rw [h.next_lastAt, chain_zero]
    rfl
  have hholds : l.holds key (some c.addr) = true := by
    have hfirst : l.holds key (((c :: R).map Cell.addr).head?) = _ :=
      h.holds fun d hd => List.mem_append_right L hd
    simpa [hkey] using hfirst
  simp only [SkipList.deleteElement, hcur, hnext, hholds, if_true]
  obtain ⟨hsame, -, hseg⟩ := unlink_spec (l.path key).2 (l := l) (L := L) (R := R) (c := c)
    (k := l.skipListLevel + 1) (i := 0)
    (fun j hj => ⟨hpath j (by omega), h.info_lastAt j⟩) (fun j _ => h.linked j) h.chain_nodup
    (fun j hj => by have := h.top c (by simp); omega)
  exact h.delete_cell hsame fun i => hseg i (Nat.zero_le i)

/-! ## Contents -/

section Contents
variable {kvs : List (K × V)} {value : V} {flips : ℕ}

/-- The skip list holds these pairs, in key order. -/
def Represents (l : SkipList K V) (kvs : List (K × V)) : Prop :=
  ∃ cells, Wf l cells ∧ cells.map Cell.pair = kvs

/-- The sorted list of pairs with `key` bound to `value`. -/
def upsert (kvs : List (K × V)) (key : K) (value : V) : List (K × V) :=
  kvs.filter (·.1 < key) ++ (key, value) :: kvs.filter (key < ·.1)

theorem Wf.locate (h : Wf l cells) (key : K) :
    ∃ L R, (∀ d ∈ R, key < d.key) ∧
      (cells = L ++ R ∧ SplitAt cells L R key ∨
        ∃ c, cells = L ++ c :: R ∧ SplitAt cells L (c :: R) key ∧ c.key = key) := by
  have hs := h.splitAt key
  have hsorted := h.sorted
  generalize cells.filter (·.key < key) = L at hs
  generalize cells.filter (key ≤ ·.key) = R at hs
  obtain ⟨rfl, hL, hR⟩ := hs
  cases R with
  | nil => exact ⟨L, [], by simp, Or.inl ⟨rfl, rfl, hL, hR⟩⟩
  | cons c R =>
    have hgt := (List.pairwise_cons.mp (List.pairwise_append.mp hsorted).2.1).1
    rcases (hR c List.mem_cons_self).lt_or_eq with hlt | heq
    · refine ⟨L, c :: R, fun d hd => ?_, Or.inl ⟨rfl, rfl, hL, hR⟩⟩
      rcases List.mem_cons.mp hd with rfl | hd
      · exact hlt
      · exact hlt.trans (hgt d hd)
    · exact ⟨L, R, fun d hd => heq ▸ hgt d hd, Or.inr ⟨c, rfl, ⟨rfl, hL, hR⟩, heq.symm⟩⟩

theorem map_pair_filter_lt (hL : ∀ c ∈ L, c.key < key) (hR : ∀ c ∈ R, key ≤ c.key) :
    ((L ++ R).map Cell.pair).filter (·.1 < key) = L.map Cell.pair := by
  rw [List.map_append, List.filter_append]
  have h1 : (L.map Cell.pair).filter (·.1 < key) = L.map Cell.pair := by
    simp only [List.filter_eq_self, List.mem_map, decide_eq_true_eq]
    rintro _ ⟨c, hc, rfl⟩
    exact hL c hc
  have h2 : (R.map Cell.pair).filter (·.1 < key) = [] := by
    simp only [List.filter_eq_nil_iff, List.mem_map, decide_eq_true_eq, not_lt]
    rintro _ ⟨c, hc, rfl⟩
    exact hR c hc
  rw [h1, h2, List.append_nil]

theorem map_pair_filter_gt (hL : ∀ c ∈ L, c.key ≤ key) (hR : ∀ c ∈ R, key < c.key) :
    ((L ++ R).map Cell.pair).filter (key < ·.1) = R.map Cell.pair := by
  rw [List.map_append, List.filter_append]
  have h1 : (L.map Cell.pair).filter (key < ·.1) = [] := by
    simp only [List.filter_eq_nil_iff, List.mem_map, decide_eq_true_eq, not_lt]
    rintro _ ⟨c, hc, rfl⟩
    exact hL c hc
  have h2 : (R.map Cell.pair).filter (key < ·.1) = R.map Cell.pair := by
    simp only [List.filter_eq_self, List.mem_map, decide_eq_true_eq]
    rintro _ ⟨c, hc, rfl⟩
    exact hR c hc
  rw [h1, h2, List.nil_append]

theorem map_pair_filter_ne (hL : ∀ c ∈ L, c.key < key) (hR : ∀ c ∈ R, key < c.key) :
    ((L ++ R).map Cell.pair).filter (·.1 ≠ key) = (L ++ R).map Cell.pair := by
  simp only [List.filter_eq_self, List.mem_map, List.mem_append, decide_eq_true_eq]
  rintro _ ⟨c, hc | hc, rfl⟩
  · exact (hL c hc).ne
  · exact (hR c hc).ne'

theorem represents_create [Inhabited K] [Inhabited V] (maxLevel : ℕ) :
    Represents (create maxLevel : SkipList K V) [] := ⟨[], wf_create maxLevel, rfl⟩

theorem Wf.dumpFrom (h : Wf l cells) {a k : ℕ} {rest : List (Cell K V)}
    (hsub : ∀ c ∈ rest, c ∈ cells) (hseg : Seg (l.forward · 0) a (rest.map Cell.addr) none)
    (hk : rest.length ≤ k) : l.dumpFrom k (l.forward a 0) = rest.map Cell.pair := by
  induction rest generalizing a k with
  | nil =>
    have hnone : l.forward a 0 = none := hseg
    cases k with
    | zero => rfl
    | succ k => simp [SkipList.dumpFrom, hnone]
  | cons c rest ih =>
    cases k with
    | zero => simp at hk
    | succ k =>
      obtain ⟨hnext, hseg⟩ := hseg
      obtain ⟨f, hf⟩ := h.memory (hsub c List.mem_cons_self)
      have hfwd : f 0 = l.forward c.addr 0 := by simp [forward, hf]
      simp only [SkipList.dumpFrom, hnext, Option.bind_some, hf, List.map_cons]
      rw [hfwd, ih (fun d hd => hsub d (List.mem_cons_of_mem c hd)) hseg (by simpa using hk)]
      rfl

theorem Represents.dump (h : Represents l kvs) : l.dump = kvs := by
  obtain ⟨cells, hwf, rfl⟩ := h
  have hseg := hwf.linked 0
  rw [chain_zero] at hseg
  exact hwf.dumpFrom (fun c hc => hc) hseg hwf.length_lt.le

theorem Represents.search (h : Represents l kvs) (key : K) :
    l.searchElement key = (kvs.find? (·.1 = key)).map Prod.snd := by
  obtain ⟨cells, hwf, rfl⟩ := h
  obtain ⟨L, R, hR, ⟨rfl, hs⟩ | ⟨c, rfl, hs, rfl⟩⟩ := hwf.locate key
  · have hno : l.holds key (l.forward (l.path key).1 0) = false := by
      rw [hwf.holds_next hs]
      cases R with
      | nil => rfl
      | cons c R => simpa using (hR c (by simp)).ne'
    have hnone : ((L ++ R).map Cell.pair).find? (·.1 = key) = none := by
      simp only [List.find?_eq_none, List.mem_map, List.mem_append, decide_eq_true_eq]
      rintro _ ⟨c, hc | hc, rfl⟩
      · exact (hs.2.1 c hc).ne
      · exact (hR c hc).ne'
    rw [hnone]
    simp [searchElement, hno]
  · have hnext : l.forward (l.path c.key).1 0 = some c.addr := by
      rw [(hwf.path hs).1, hwf.next_lastAt, chain_zero]
      rfl
    have hyes : l.holds c.key (l.forward (l.path c.key).1 0) = true := by
      rw [hwf.holds_next hs]
      simp
    obtain ⟨f, hf⟩ := hwf.memory (c := c) (by simp)
    have hfind : ((L ++ c :: R).map Cell.pair).find? (·.1 = c.key) = some c.pair := by
      have hL : (L.map Cell.pair).find? (·.1 = c.key) = none := by
        simp only [List.find?_eq_none, List.mem_map, decide_eq_true_eq]
        rintro _ ⟨d, hd, rfl⟩
        exact (hs.2.1 d hd).ne
      rw [List.map_append, List.find?_append, hL]
      simp [Cell.pair]
    rw [hfind, searchElement, if_pos hyes, hnext]
    simp [hf, Cell.pair]

theorem Represents.insert (h : Represents l kvs) (key : K) (value : V) (flips : ℕ) :
    Represents (l.insertElement key value flips).1
      (if key ∈ kvs.map Prod.fst then kvs else upsert kvs key value) := by
  obtain ⟨cells, hwf, rfl⟩ := h
  obtain ⟨L, R, hR, ⟨rfl, hs⟩ | ⟨c, rfl, hs, rfl⟩⟩ := hwf.locate key
  · have habs : key ∉ ((L ++ R).map Cell.pair).map Prod.fst := by
      rw [List.map_map]
      intro hmem
      obtain ⟨c, hc, rfl⟩ := List.mem_map.mp hmem
      rcases List.mem_append.mp hc with hc | hc
      · exact lt_irrefl _ (hs.2.1 c hc)
      · exact lt_irrefl _ (hR c hc)
    rw [if_neg habs]
    refine ⟨_, hwf.insert_absent hs (fun c hc => (hR c hc).ne') value flips, ?_⟩
    rw [upsert, map_pair_filter_lt hs.2.1 hs.2.2,
      map_pair_filter_gt (fun c hc => (hs.2.1 c hc).le) hR, List.map_append, List.map_cons]
    rfl
  · have hyes : l.holds c.key (l.forward (l.path c.key).1 0) = true := by
      rw [hwf.holds_next hs]
      simp
    have hex : c.key ∈ ((L ++ c :: R).map Cell.pair).map Prod.fst := by
      rw [List.map_map]
      exact List.mem_map.mpr ⟨c, by simp, rfl⟩
    rw [if_pos hex]
    simp only [insertElement, hyes, if_true]
    exact ⟨_, hwf, rfl⟩

theorem Represents.delete (h : Represents l kvs) (key : K) :
    Represents (l.deleteElement key) (kvs.filter (·.1 ≠ key)) := by
  obtain ⟨cells, hwf, rfl⟩ := h
  obtain ⟨L, R, hR, ⟨rfl, hs⟩ | ⟨c, rfl, hs, rfl⟩⟩ := hwf.locate key
  · rw [map_pair_filter_ne hs.2.1 hR]
    have hsame : l.deleteElement key = l := by
      have hno := hwf.holds_next hs
      simp only [deleteElement]
      cases hnext : l.forward (l.path key).1 0 with
      | none => rfl
      | some a =>
        have hfalse : l.holds key (some a) = false := by
          rw [← hnext, hno]
          cases R with
          | nil => rfl
          | cons c R => simpa using (hR c (by simp)).ne'
        simp [hfalse]
    rw [hsame]
    exact ⟨_, hwf, rfl⟩
  · refine ⟨L ++ R, hwf.delete_present hs rfl, ?_⟩
    have hfilter := map_pair_filter_ne hs.2.1 hR
    rw [List.map_append, List.map_append, List.map_cons, List.filter_append, List.filter_cons]
    rw [List.map_append, List.filter_append] at hfilter
    simpa [Cell.pair] using hfilter.symm

theorem upsert_filter_ne (kvs : List (K × V)) (key : K) (value : V) :
    upsert (kvs.filter (·.1 ≠ key)) key value = upsert kvs key value := by
  unfold upsert
  have hlt : ∀ x : K × V, (decide (x.1 < key) && decide (x.1 ≠ key)) = decide (x.1 < key) := by
    intro x
    by_cases hx : x.1 < key
    · simp [hx, hx.ne]
    · simp [hx]
  have hgt : ∀ x : K × V, (decide (key < x.1) && decide (x.1 ≠ key)) = decide (key < x.1) := by
    intro x
    by_cases hx : key < x.1
    · simp [hx, hx.ne']
    · simp [hx]
  simp only [List.filter_filter, hlt, hgt]

theorem Represents.insertSet (h : Represents l kvs) (key : K) (value : V) (flips : ℕ) :
    Represents (l.insertSetElement key value flips) (upsert kvs key value) := by
  unfold insertSetElement
  dsimp only
  split_ifs with hfound
  · have hdel := (h.delete key).insert key value flips
    have habs : key ∉ (kvs.filter (·.1 ≠ key)).map Prod.fst := by simp
    rwa [if_neg habs, upsert_filter_ne] at hdel
  · have hins := h.insert key value flips
    have habs : key ∉ kvs.map Prod.fst := by
      intro hmem
      obtain ⟨x, hx, rfl⟩ := List.mem_map.mp hmem
      rw [h.search, Option.isSome_map, List.find?_isSome] at hfound
      exact hfound ⟨x, hx, by simp⟩
    rwa [if_neg habs] at hins

end Contents

end SkipList
end RaftStorage
