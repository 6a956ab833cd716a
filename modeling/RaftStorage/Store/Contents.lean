import RaftStorage.Store.SkipListSpecs

/-! The contents of a skip list as the function that `search_element` computes, and what the other
operations do to it. -/

namespace RaftStorage
namespace SkipList

variable {K V : Type} [LinearOrder K] {l : SkipList K V} {kvs : List (K × V)}

/-- What `search_element` finds in the pairs. -/
def lookup (kvs : List (K × V)) (key : K) : Option V := (kvs.find? (·.1 = key)).map Prod.snd

theorem lookup_isSome {key : K} : (lookup kvs key).isSome ↔ key ∈ kvs.map Prod.fst := by
  simp [lookup]

theorem lookup_filter_of {p : K × V → Bool} {key : K} (hp : ∀ x : K × V, x.1 = key → p x = true) :
    lookup (kvs.filter p) key = lookup kvs key := by
  unfold lookup
  rw [List.find?_filter]
  congr 2
  funext x
  by_cases hx : x.1 = key
  · simp [hx, hp x hx]
  · simp [hx]

theorem lookup_filter_not {p : K × V → Bool} {key : K}
    (hp : ∀ x : K × V, x.1 = key → p x = false) : lookup (kvs.filter p) key = none := by
  unfold lookup
  rw [Option.map_eq_none_iff, List.find?_eq_none]
  intro x hx heq
  have hkey : x.1 = key := by simpa using heq
  have hpx := (List.mem_filter.mp hx).2
  rw [hp x hkey] at hpx
  cases hpx

theorem lookup_append (kvs kvs' : List (K × V)) (key : K) :
    lookup (kvs ++ kvs') key = (lookup kvs key).or (lookup kvs' key) := by
  simp [lookup, List.find?_append, Option.map_or]

theorem lookup_upsert (kvs : List (K × V)) (key : K) (value : V) (k : K) :
    lookup (upsert kvs key value) k = if k = key then some value else lookup kvs k := by
  unfold upsert
  rw [lookup_append]
  rcases lt_trichotomy k key with hlt | rfl | hgt
  · have hbelow : lookup (kvs.filter (·.1 < key)) k = lookup kvs k :=
      lookup_filter_of fun x hx => by simpa [hx] using hlt
    have habove : lookup (kvs.filter (key < ·.1)) k = none :=
      lookup_filter_not fun x hx => by simpa [hx] using hlt.le
    have hrest : lookup ((key, value) :: kvs.filter (key < ·.1)) k = none := by
      rw [← habove]
      simp [lookup, hlt.ne']
    rw [hbelow, hrest, if_neg hlt.ne, Option.or_none]
  · have hbelow : lookup (kvs.filter (·.1 < k)) k = none :=
      lookup_filter_not fun x hx => by simp [hx]
    rw [hbelow, if_pos rfl]
    simp [lookup]
  · have hbelow : lookup (kvs.filter (·.1 < key)) k = none :=
      lookup_filter_not fun x hx => by simpa [hx] using hgt.le
    have habove : lookup (kvs.filter (key < ·.1)) k = lookup kvs k :=
      lookup_filter_of fun x hx => by simpa [hx] using hgt
    have hrest : lookup ((key, value) :: kvs.filter (key < ·.1)) k = lookup kvs k := by
      rw [← habove]
      simp [lookup, hgt.ne]
    rw [hbelow, hrest, if_neg hgt.ne', Option.none_or]

/-- The operations that change a list. `load_file` is a series of `insert_element`. -/
inductive Edit (K V : Type) where
  | insertElement (key : K) (value : V) (flips : ℕ)
  | insertSetElement (key : K) (value : V) (flips : ℕ)
  | deleteElement (key : K)

def Edit.apply (l : SkipList K V) : Edit K V → SkipList K V
  | .insertElement key value flips => (l.insertElement key value flips).1
  | .insertSetElement key value flips => l.insertSetElement key value flips
  | .deleteElement key => l.deleteElement key

def Built [Inhabited K] [Inhabited V] (maxLevel : ℕ) (l : SkipList K V) : Prop :=
  ∃ edits : List (Edit K V), l = edits.foldl Edit.apply (create maxLevel)

theorem Represents.apply (h : Represents l kvs) (edit : Edit K V) :
    ∃ kvs', Represents (edit.apply l) kvs' := by
  cases edit with
  | insertElement key value flips => exact ⟨_, h.insert key value flips⟩
  | insertSetElement key value flips => exact ⟨_, h.insertSet key value flips⟩
  | deleteElement key => exact ⟨_, h.delete key⟩

theorem Represents.applyAll (h : Represents l kvs) (edits : List (Edit K V)) :
    ∃ kvs', Represents (edits.foldl Edit.apply l) kvs' := by
  induction edits generalizing l kvs with
  | nil => exact ⟨kvs, h⟩
  | cons edit edits ih =>
    obtain ⟨kvs', h'⟩ := h.apply edit
    exact ih h'

theorem Built.represents [Inhabited K] [Inhabited V] {maxLevel : ℕ} (h : Built maxLevel l) :
    Represents l l.dump := by
  obtain ⟨edits, rfl⟩ := h
  obtain ⟨kvs, hkvs⟩ := (represents_create maxLevel).applyAll edits
  rw [hkvs.dump]
  exact hkvs

theorem Represents.mem_keys (h : Represents l kvs) (key : K) :
    key ∈ kvs.map Prod.fst ↔ (l.searchElement key).isSome := by
  rw [h.search]
  exact lookup_isSome.symm

theorem Represents.search_insert (h : Represents l kvs) (key : K) (value : V) (flips : ℕ) (k : K) :
    (l.insertElement key value flips).1.searchElement k =
      (l.searchElement k).or (if k = key then some value else none) := by
  have hins := h.insert key value flips
  split_ifs at hins with hkey
  · rw [hins.search, h.search]
    split_ifs with hk
    · subst hk
      obtain ⟨v, hv⟩ := Option.isSome_iff_exists.mp (lookup_isSome.mpr hkey)
      change lookup kvs k = (lookup kvs k).or _
      rw [hv]
      rfl
    · rw [Option.or_none]
  · rw [hins.search, h.search]
    change lookup (upsert kvs key value) k = (lookup kvs k).or _
    rw [lookup_upsert]
    split_ifs with hk
    · subst hk
      rw [← lookup_isSome, Option.not_isSome_iff_eq_none] at hkey
      rw [hkey]
      rfl
    · rw [Option.or_none]

end SkipList
end RaftStorage
