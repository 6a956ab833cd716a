import Mathlib.Data.List.Infix
import Mathlib.Data.Fintype.Lattice

/-! Lists that agree wherever two of them have an entry: they are initial parts of one list. -/

namespace RaftStorage.Library

variable {ι α : Type*}

theorem isPrefix_of_agree {l l' : List α}
    (hagree : ∀ (k : ℕ) (x y : α), l[k]? = some x → l'[k]? = some y → x = y)
    (hlen : l.length ≤ l'.length) : l <+: l' := by
  rw [List.prefix_iff_getElem?]
  intro k hk
  have hk' := hk.trans_le hlen
  rw [List.getElem?_eq_getElem hk']
  exact congrArg some (hagree k _ _ (List.getElem?_eq_getElem hk)
    (List.getElem?_eq_getElem hk')).symm

theorem exists_common_extension [Finite ι] (f : ι → List α)
    (hagree : ∀ i j (k : ℕ) x y, (f i)[k]? = some x → (f j)[k]? = some y → x = y) :
    ∃ L, (∀ i, f i <+: L) ∧ ∀ (k : ℕ) x, L[k]? = some x → ∃ i, (f i)[k]? = some x := by
  rcases isEmpty_or_nonempty ι with hempty | hne
  · exact ⟨[], fun i => hempty.elim i, fun k x hx => by simp at hx⟩
  · obtain ⟨i, hi⟩ := Finite.exists_max fun i => (f i).length
    exact ⟨f i, fun j => isPrefix_of_agree (hagree j i) (hi j), fun k x hx => ⟨i, hx⟩⟩

end RaftStorage.Library
