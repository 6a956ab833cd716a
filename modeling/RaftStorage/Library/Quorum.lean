import Mathlib.Data.Fintype.Card

/-! Majorities of a finite set of voters: any two of them share a voter. -/

namespace RaftStorage.Library
open Finset

variable {N : Type*} [Fintype N]

def IsMajority (S : Finset N) : Prop := Fintype.card N / 2 + 1 ≤ S.card

theorem IsMajority.exists_common [DecidableEq N] {S S' : Finset N} (h : IsMajority S)
    (h' : IsMajority S') : ∃ p ∈ S, p ∈ S' := by
  by_contra hno
  have hdisj : Disjoint S S' := by
    rw [disjoint_left]
    intro p hp hp'
    exact hno ⟨p, hp, hp'⟩
  have hcard : S.card + S'.card ≤ Fintype.card N := by
    rw [← card_union_of_disjoint hdisj]
    exact card_le_univ _
  simp only [IsMajority] at h h'
  omega

end RaftStorage.Library
