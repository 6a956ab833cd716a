import RaftStorage.Store.Contents

/-! The skip list refines a finite map. Its operations act on the map that `search_element` computes
as on a function, and the random levels show only in how the addresses are spread over the levels. -/

namespace RaftStorage
open Library
namespace SkipList

variable {K V : Type} [LinearOrder K] {l : SkipList K V} {kvs : List (K × V)}
  {cells : List (Cell K V)}

def Edit.onMap (m : K → Option V) : Edit K V → K → Option V
  | .insertElement key value _ => Function.update m key ((m key).or (some value))
  | .insertSetElement key value _ => Function.update m key (some value)
  | .deleteElement key => Function.update m key none

/-- The operation, whatever level is drawn. -/
def Edit.levelless : Edit K V → Edit K V
  | .insertElement key value _ => .insertElement key value 0
  | .insertSetElement key value _ => .insertSetElement key value 0
  | .deleteElement key => .deleteElement key

def KeyLt (l : SkipList K V) (a b : ℕ) : Prop :=
  ∃ x y, l.memory a = some x ∧ l.memory b = some y ∧ x.key < y.key

/-- The addresses on the levels of the list, as the pointers of each level lead through them. -/
structure Levelled (l : SkipList K V) (level : ℕ → List ℕ) : Prop where
  linked : ∀ i, Seg (l.forward · i) header (level i) none
  sorted : (level 0).Pairwise l.KeyLt
  sublist : ∀ i, (level (i + 1)).Sublist (level i)
  tall : ∀ i, ∀ a ∈ level i, ∃ nd, l.memory a = some nd ∧ i ≤ nd.nodeLevel
  top : ∀ i, l.skipListLevel < i → level i = []
  count : l.elementCount = (level 0).length

theorem Wf.levelled (h : Wf l cells) : l.Levelled (chain cells) where
  linked := h.linked
  sorted := by
    rw [chain_zero, List.pairwise_map]
    refine h.sorted.imp_of_mem fun {c d} hc hd hlt => ?_
    obtain ⟨f, hf⟩ := h.memory hc
    obtain ⟨g, hg⟩ := h.memory hd
    exact ⟨_, _, hf, hg, hlt⟩
  sublist := by
    intro i
    refine (List.monotone_filter_right cells fun c hc => ?_).map Cell.addr
    rw [decide_eq_true_iff] at hc ⊢
    omega
  tall := by
    intro i a ha
    obtain ⟨c, hc, hle, rfl⟩ := mem_chain.mp ha
    obtain ⟨f, hf⟩ := h.memory hc
    exact ⟨_, hf, hle⟩
  top := by
    intro i hi
    rw [List.eq_nil_iff_forall_not_mem]
    intro a ha
    obtain ⟨c, hc, hle, -⟩ := mem_chain.mp ha
    have := h.top c hc
    omega
  count := by
    rw [chain_zero, List.length_map]
    exact h.count

/-! ## Searching after an operation -/

theorem Represents.search_insertSet (h : Represents l kvs) (key : K) (value : V) (flips : ℕ)
    (k : K) : (l.insertSetElement key value flips).searchElement k =
      if k = key then some value else l.searchElement k := by
  rw [(h.insertSet key value flips).search, h.search]
  exact lookup_upsert kvs key value k

theorem Represents.search_delete (h : Represents l kvs) (key k : K) :
    (l.deleteElement key).searchElement k = if k = key then none else l.searchElement k := by
  rw [(h.delete key).search, h.search]
  split_ifs with hk
  · exact lookup_filter_not fun x hx => by simp [hx, hk]
  · exact lookup_filter_of fun x hx => by simp [hx, hk]

theorem Represents.search_apply (h : Represents l kvs) (edit : Edit K V) :
    (edit.apply l).searchElement = edit.onMap l.searchElement := by
  funext k
  cases edit with
  | insertElement key value flips =>
    refine (h.search_insert key value flips k).trans ?_
    by_cases hk : k = key
    · subst hk
      simp [Edit.onMap]
    · simp [Edit.onMap, hk]
  | insertSetElement key value flips =>
    refine (h.search_insertSet key value flips k).trans ?_
    rw [Edit.onMap, Function.update_apply]
  | deleteElement key =>
    refine (h.search_delete key k).trans ?_
    rw [Edit.onMap, Function.update_apply]

theorem Represents.search_applyAll (h : Represents l kvs) (edits : List (Edit K V)) :
    (edits.foldl Edit.apply l).searchElement = edits.foldl Edit.onMap l.searchElement := by
  induction edits generalizing l kvs with
  | nil => rfl
  | cons edit edits ih =>
    obtain ⟨kvs', h'⟩ := h.apply edit
    rw [List.foldl_cons, List.foldl_cons, ih h', h.search_apply]

/-! ## The pairs of a dump -/

theorem Represents.sorted (h : Represents l kvs) : kvs.Pairwise fun x y => x.1 < y.1 := by
  obtain ⟨cells, hwf, rfl⟩ := h
  exact List.pairwise_map.mpr hwf.sorted

theorem mem_iff_lookup (h : kvs.Pairwise fun x y => x.1 < y.1) (k : K) (v : V) :
    (k, v) ∈ kvs ↔ lookup kvs k = some v := by
  induction kvs with
  | nil => simp [lookup]
  | cons x kvs ih =>
    obtain ⟨hx, htail⟩ := List.pairwise_cons.mp h
    by_cases hk : x.1 = k
    · have hno : (k, v) ∉ kvs := fun hmem => (hx _ hmem).ne hk
      have hfirst : lookup (x :: kvs) k = some x.2 := by simp [lookup, hk]
      rw [List.mem_cons, or_iff_left hno, hfirst, Option.some.injEq]
      constructor
      · rintro rfl
        rfl
      · rintro rfl
        exact Prod.ext hk.symm rfl
    · have hskip : lookup (x :: kvs) k = lookup kvs k := by simp [lookup, hk]
      rw [List.mem_cons, hskip, ← ih htail]
      exact or_iff_right fun heq => hk (congrArg Prod.fst heq).symm

theorem eq_of_mem_iff {kvs' : List (K × V)} (h : kvs.Pairwise fun x y => x.1 < y.1)
    (h' : kvs'.Pairwise fun x y => x.1 < y.1) (hmem : ∀ x, x ∈ kvs ↔ x ∈ kvs') : kvs = kvs' := by
  have hnd : ∀ {xs : List (K × V)}, xs.Pairwise (fun x y => x.1 < y.1) → xs.Nodup := fun hxs =>
    hxs.imp fun {x y} hlt heq => hlt.ne (congrArg Prod.fst heq)
  refine List.Perm.eq_of_pairwise (fun x y _ _ hlt hgt => ?_) h h'
    ((List.perm_ext_iff_of_nodup (hnd h) (hnd h')).mpr hmem)
  exact absurd hgt hlt.asymm

theorem Edit.onMap_levelless (m : K → Option V) (edit : Edit K V) :
    edit.levelless.onMap m = edit.onMap m := by
  cases edit <;> rfl

theorem foldl_onMap_levelless (m : K → Option V) (edits : List (Edit K V)) :
    (edits.map Edit.levelless).foldl Edit.onMap m = edits.foldl Edit.onMap m := by
  rw [List.foldl_map]
  simp only [Edit.onMap_levelless]

variable [Inhabited K] [Inhabited V]

theorem search_create (maxLevel : ℕ) :
    (create maxLevel : SkipList K V).searchElement = fun _ => none := by
  funext k
  rw [(represents_create maxLevel).search]
  rfl

theorem search_foldl (maxLevel : ℕ) (edits : List (Edit K V)) :
    (edits.foldl Edit.apply (create maxLevel)).searchElement =
      edits.foldl Edit.onMap fun _ => none := by
  rw [(represents_create maxLevel).search_applyAll edits, search_create]

theorem mem_dump_foldl (maxLevel : ℕ) (edits : List (Edit K V)) (k : K) (v : V) :
    (k, v) ∈ (edits.foldl Edit.apply (create maxLevel)).dump ↔
      edits.foldl Edit.onMap (fun _ => none) k = some v := by
  have hrep := Built.represents (l := edits.foldl Edit.apply (create maxLevel)) ⟨edits, rfl⟩
  rw [mem_iff_lookup hrep.sorted, ← search_foldl maxLevel, hrep.search]
  rfl

/-- Whatever operations were performed and whatever levels were drawn, the levels are in order, the
list answers as the reference map, a dump lists the bindings in key order, and other levels would
have led to the same answers. -/
theorem finite_map (maxLevel : ℕ) (edits : List (Edit K V)) :
    let l := edits.foldl Edit.apply (create maxLevel)
    let m := edits.foldl Edit.onMap fun _ => none
    (∃ level, l.Levelled level) ∧ l.searchElement = m ∧
      l.dump.Pairwise (fun x y => x.1 < y.1) ∧ (∀ k v, (k, v) ∈ l.dump ↔ m k = some v) ∧
      ∀ edits' : List (Edit K V), edits'.map Edit.levelless = edits.map Edit.levelless →
        (edits'.foldl Edit.apply (create maxLevel)).searchElement = l.searchElement ∧
          (edits'.foldl Edit.apply (create maxLevel)).dump = l.dump := by
  intro l m
  have hrep : Represents l l.dump := Built.represents ⟨edits, rfl⟩
  have hsearch : l.searchElement = m := search_foldl maxLevel edits
  refine ⟨?_, hsearch, hrep.sorted, mem_dump_foldl maxLevel edits, fun edits' heq => ?_⟩
  · obtain ⟨cells, hwf, -⟩ := hrep
    exact ⟨_, hwf.levelled⟩
  · have hm : edits'.foldl Edit.onMap (fun _ => none) = m := by
      rw [← foldl_onMap_levelless _ edits', heq, foldl_onMap_levelless]
    have hrep' := Built.represents (l := edits'.foldl Edit.apply (create maxLevel)) ⟨edits', rfl⟩
    refine ⟨?_, eq_of_mem_iff hrep'.sorted hrep.sorted fun ⟨k, v⟩ => ?_⟩
    · rw [search_foldl, hm, hsearch]
    · rw [mem_dump_foldl, mem_dump_foldl, hm]

end SkipList
end RaftStorage
