import Mathlib.Order.Lattice
import Mathlib.Data.List.Nodup
import Mathlib.Data.List.TakeWhile

/-! `std::set` with a comparator of its own, as the list of its elements in their order. The searches
look for the first element that is not smaller, so they are only right while the list is ordered by
the keys that the comparator reads. -/

namespace RaftStorage.Library

variable {α : Type*}

namespace OrderedSet

def lowerBound (comp : α → α → Bool) (x : α) (l : List α) : List α := l.dropWhile (comp · x)

/-- Nothing is inserted beside an equivalent element. -/
def insert (comp : α → α → Bool) (x : α) (l : List α) : List α :=
  match lowerBound comp x l with
  | [] => l ++ [x]
  | y :: rest => if comp x y then l.takeWhile (comp · x) ++ x :: y :: rest else l

/-- `erase(find(x))`; `none` when `find` returns the end. -/
def eraseFound (comp : α → α → Bool) (x : α) (l : List α) : Option (List α) :=
  match lowerBound comp x l with
  | [] => none
  | y :: rest => if comp x y then none else some (l.takeWhile (comp · x) ++ rest)

end OrderedSet

/-! ## Cutting an ordered list -/

def Cuts (p : α → Bool) (l : List α) : Prop := l.Pairwise fun x y => p y = true → p x = true

theorem Cuts.takeWhile_eq {p : α → Bool} {l : List α} (h : Cuts p l) :
    l.takeWhile p = l.filter p := by
  induction l with
  | nil => rfl
  | cons a l ih =>
    obtain ⟨hhead, htail⟩ := List.pairwise_cons.mp h
    by_cases ha : p a = true
    · rw [List.takeWhile_cons_of_pos ha, List.filter_cons_of_pos ha, ih htail]
    · rw [List.takeWhile_cons_of_neg ha, List.filter_cons_of_neg ha, eq_comm, List.filter_eq_nil_iff]
      exact fun b hb hp => ha (hhead b hb hp)

theorem Cuts.dropWhile_eq {p : α → Bool} {l : List α} (h : Cuts p l) :
    l.dropWhile p = l.filter fun x => !p x := by
  induction l with
  | nil => rfl
  | cons a l ih =>
    obtain ⟨hhead, htail⟩ := List.pairwise_cons.mp h
    by_cases ha : p a = true
    · rw [List.dropWhile_cons_of_pos ha, List.filter_cons_of_neg (by simp [ha]), ih htail]
    · rw [List.dropWhile_cons_of_neg ha, eq_comm, List.filter_eq_self]
      intro b hb
      have hb' : p b = false := by
        rcases List.mem_cons.mp hb with rfl | hb
        · simpa using ha
        · exact Bool.eq_false_iff.mpr fun hp => ha (hhead b hb hp)
      simp [hb']

theorem eq_filter_of_append {p : α → Prop} [DecidablePred p] {l below above : List α}
    (hl : below ++ above = l) (hbelow : ∀ a ∈ below, p a) (habove : ∀ a ∈ above, ¬p a) :
    below = l.filter (p ·) ∧ above = l.filter (¬p ·) := by
  subst hl
  constructor
  · rw [List.filter_append, List.filter_eq_self.mpr (by simpa using hbelow),
      List.filter_eq_nil_iff.mpr (by simpa using habove), List.append_nil]
  · have hnone : below.filter (fun a => decide ¬p a) = [] := by
      rw [List.filter_eq_nil_iff]
      simpa using hbelow
    have hall : above.filter (fun a => decide ¬p a) = above := by
      rw [List.filter_eq_self]
      simpa using habove
    rw [List.filter_append, hnone, hall, List.nil_append]

/-! ## Sets ordered by a key -/

namespace OrderedSet

variable {β : Type*} [LinearOrder β]

def Ordered (key : α → β) (l : List α) : Prop := l.Pairwise fun x y => key x < key y

variable {key : α → β} {comp : α → α → Bool} {l : List α} {x y : α}

theorem Ordered.nodup (h : Ordered key l) : l.Nodup := by
  apply List.Pairwise.imp _ h
  rintro a b hab rfl
  exact lt_irrefl _ hab

theorem Ordered.cuts (h : Ordered key l) {p : α → Bool}
    (hp : ∀ a b, key a < key b → p b = true → p a = true) : Cuts p l :=
  h.imp fun hab => hp _ _ hab

theorem Ordered.congr {key' : α → β} (h : Ordered key l) (hkey : ∀ a ∈ l, key' a = key a) :
    Ordered key' l := by
  apply List.Pairwise.imp_of_mem _ h
  intro a b ha hb hab
  rwa [hkey a ha, hkey b hb]

section
variable (hcomp : ∀ a b, comp a b = true ↔ key a < key b)
include hcomp

theorem Ordered.takeWhile_eq (h : Ordered key l) (x : α) :
    l.takeWhile (comp · x) = l.filter (comp · x) := by
  apply Cuts.takeWhile_eq
  apply h.cuts
  intro a b hab hb
  exact (hcomp a x).mpr (hab.trans ((hcomp b x).mp hb))

theorem Ordered.lowerBound_eq (h : Ordered key l) (x : α) :
    lowerBound comp x l = l.filter fun a => !comp a x := by
  apply Cuts.dropWhile_eq
  apply h.cuts
  intro a b hab hb
  exact (hcomp a x).mpr (hab.trans ((hcomp b x).mp hb))

theorem lowerBound_le (h : Ordered key l) : ∀ a ∈ lowerBound comp x l, key x ≤ key a := by
  intro a ha
  rw [h.lowerBound_eq hcomp] at ha
  have hnot : comp a x = false := by simpa using (List.mem_filter.mp ha).2
  exact not_lt.mp fun hlt => by simp [(hcomp a x).mpr hlt] at hnot

theorem takeWhile_lt (h : Ordered key l) : ∀ a ∈ l.takeWhile (comp · x), key a < key x := by
  intro a ha
  rw [h.takeWhile_eq hcomp] at ha
  exact (hcomp a x).mp (List.mem_filter.mp ha).2

theorem insert_eq (h : Ordered key l) (hx : ∀ a ∈ l, key a ≠ key x) :
    insert comp x l = l.takeWhile (comp · x) ++ x :: lowerBound comp x l := by
  have hsplit : l.takeWhile (comp · x) ++ lowerBound comp x l = l := List.takeWhile_append_dropWhile
  rw [insert]
  split
  case h_1 hnil =>
    rw [hnil] at hsplit ⊢
    rw [List.append_nil] at hsplit
    rw [hsplit]
  case h_2 b rest hcons =>
    have hb : b ∈ lowerBound comp x l := by simp [hcons]
    have hlt : key x < key b := by
      apply lt_of_le_of_ne (lowerBound_le hcomp h b hb)
      exact (hx b (hsplit ▸ List.mem_append_right _ hb)).symm
    rw [if_pos ((hcomp x b).mpr hlt), hcons]

theorem insert_perm (h : Ordered key l) (hx : ∀ a ∈ l, key a ≠ key x) :
    (insert comp x l).Perm (x :: l) := by
  have hsplit : l.takeWhile (comp · x) ++ lowerBound comp x l = l := List.takeWhile_append_dropWhile
  rw [insert_eq hcomp h hx]
  exact List.perm_middle.trans (by rw [hsplit])

theorem mem_insert (h : Ordered key l) (hx : ∀ a ∈ l, key a ≠ key x) :
    y ∈ insert comp x l ↔ y = x ∨ y ∈ l := by
  rw [(insert_perm hcomp h hx).mem_iff, List.mem_cons]

theorem Ordered.insert (h : Ordered key l) (hx : ∀ a ∈ l, key a ≠ key x) :
    Ordered key (insert comp x l) := by
  have hsplit : l.takeWhile (comp · x) ++ lowerBound comp x l = l := List.takeWhile_append_dropWhile
  have hbelow := takeWhile_lt (x := x) hcomp h
  have habove : ∀ a ∈ lowerBound comp x l, key x < key a := by
    intro a ha
    apply lt_of_le_of_ne (lowerBound_le hcomp h a ha)
    exact (hx a (hsplit ▸ List.mem_append_right _ ha)).symm
  rw [insert_eq hcomp h hx]
  apply List.pairwise_append.mpr
  refine ⟨h.sublist (List.takeWhile_sublist _), List.pairwise_cons.mpr
    ⟨habove, h.sublist (List.dropWhile_sublist _)⟩, ?_⟩
  intro a ha b hb
  rcases List.mem_cons.mp hb with rfl | hb
  · exact hbelow a ha
  · exact (hbelow a ha).trans (habove b hb)

theorem eraseFound_eq (h : Ordered key l) (hx : x ∈ l) :
    ∃ l', eraseFound comp x l = some l' ∧ Ordered key l' ∧ ∀ a, a ∈ l' ↔ a ≠ x ∧ a ∈ l := by
  obtain ⟨before, after, rfl⟩ := List.append_of_mem hx
  have hself : comp x x = false := Bool.eq_false_iff.mpr fun hlt => lt_irrefl _ ((hcomp x x).mp hlt)
  obtain ⟨-, hafter, hcross⟩ := List.pairwise_append.mp h
  have hbelow : ∀ a ∈ before, comp a x = true := fun a ha =>
    (hcomp a x).mpr (hcross a ha x List.mem_cons_self)
  have htake : (before ++ x :: after).takeWhile (comp · x) = before := by
    rw [List.takeWhile_append_of_pos hbelow, List.takeWhile_cons_of_neg (by simp [hself]),
      List.append_nil]
  have hdrop : lowerBound comp x (before ++ x :: after) = x :: after := by
    rw [lowerBound, List.dropWhile_append_of_pos hbelow, List.dropWhile_cons_of_neg (by simp [hself])]
  refine ⟨before ++ after, ?_, h.sublist ?_, ?_⟩
  · simp [eraseFound, hdrop, hself, htake]
  · exact List.sublist_append_right [] _ |>.append (List.sublist_cons_self x after)
  · have hnodup := h.nodup
    intro a
    have hx' : x ∉ before ++ after := (List.nodup_middle.mp hnodup).notMem
    constructor
    · intro ha
      refine ⟨fun heq => hx' (heq ▸ ha), ?_⟩
      rcases List.mem_append.mp ha with ha | ha
      · exact List.mem_append_left _ ha
      · exact List.mem_append_right _ (List.mem_cons_of_mem _ ha)
    · rintro ⟨hne, ha⟩
      simpa [hne] using ha

end

end OrderedSet

end RaftStorage.Library
