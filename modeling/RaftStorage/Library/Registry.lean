import Mathlib.Order.Basic
import Mathlib.Data.Option.Basic
import Mathlib.Logic.Function.Basic

/-! Clients that hold tickets and register a fresh cell under their ticket. Tickets are handed out in
increasing order, so no two clients hold the same one; a cell is then registered for one client only,
and the client that drops its ticket takes nothing but its own cell out of the registry. -/

namespace RaftStorage.Library

structure Registry (C T : Type*) where
  bound : T
  ticket : C → Option T
  /-- the ticket again, once the client has registered its cell -/
  opened : C → Option T
  cell : C → Option ℕ
  registered : T → Option ℕ
  made : ℕ

namespace Registry

structure Exclusive {C T : Type*} [LE T] (r : Registry C T) : Prop where
  ticket_le : ∀ i x, r.ticket i = some x → x ≤ r.bound
  ticket_inj : ∀ i j x, r.ticket i = some x → r.ticket j = some x → i = j
  held : ∀ i x, r.opened i = some x → r.ticket i = some x
  own : ∀ i x, r.opened i = some x → ∃ q, r.cell i = some q ∧ r.registered x = some q
  owned : ∀ x q, r.registered x = some q → ∃ i, r.opened i = some x
  fresh : ∀ x q, r.registered x = some q → q < r.made
  cell_inj : ∀ x y q, r.registered x = some q → r.registered y = some q → x = y

variable {C T : Type*} [Preorder T] {r : Registry C T} {i : C} {x : T}

theorem Exclusive.raise (h : r.Exclusive) {b : T} (hb : r.bound ≤ b) :
    Exclusive { r with bound := b } :=
  { h with ticket_le := fun i x hx => (h.ticket_le i x hx).trans hb }

theorem Exclusive.registered_none (h : r.Exclusive) (hi : r.ticket i = some x)
    (hopened : r.opened i = none) : r.registered x = none := by
  rw [Option.eq_none_iff_forall_ne_some]
  intro q hq
  obtain ⟨j, hj⟩ := h.owned x q hq
  obtain rfl := h.ticket_inj i j x hi (h.held j x hj)
  rw [hopened] at hj
  cases hj

theorem Exclusive.opened_inj (h : r.Exclusive) {j : C} {y : T} {q : ℕ} (hi : r.opened i = some x)
    (hj : r.opened j = some y) (hqi : r.cell i = some q) (hqj : r.cell j = some q) : i = j := by
  obtain ⟨qi, hcell, hreg⟩ := h.own i x hi
  obtain ⟨qj, hcell', hreg'⟩ := h.own j y hj
  obtain rfl := Option.some.inj (hcell.symm.trans hqi)
  obtain rfl := Option.some.inj (hcell'.symm.trans hqj)
  obtain rfl := h.cell_inj x y _ hreg hreg'
  exact h.ticket_inj i j x (h.held i x hi) (h.held j x hj)

variable [DecidableEq C]

def claim (r : Registry C T) (i : C) (x : T) : Registry C T :=
  { r with bound := x, ticket := Function.update r.ticket i (some x) }

theorem Exclusive.claim (h : r.Exclusive) (hi : r.ticket i = none) (hx : r.bound < x) :
    (r.claim i x).Exclusive where
  ticket_le := by
    intro j y hy
    simp only [Registry.claim, Function.update_apply] at hy ⊢
    split_ifs at hy
    · exact (Option.some.inj hy).ge
    · exact (h.ticket_le j y hy).trans hx.le
  ticket_inj := by
    -- every other ticket is below the new one
    have hother : ∀ j, r.ticket j ≠ some x := fun j hj => (h.ticket_le j x hj).not_gt hx
    intro j k y hj hk
    simp only [Registry.claim, Function.update_apply] at hj hk
    split_ifs at hj hk with hji hki hki
    · rw [hji, hki]
    · exact absurd (hk.trans hj.symm) (hother k)
    · exact absurd (hj.trans hk.symm) (hother j)
    · exact h.ticket_inj j k y hj hk
  held := by
    intro j y hy
    have hold := h.held j y hy
    have hj : j ≠ i := by
      rintro rfl
      rw [hi] at hold
      cases hold
    simp only [Registry.claim, Function.update_of_ne hj]
    exact hold
  own := h.own
  owned := h.owned
  fresh := h.fresh
  cell_inj := h.cell_inj

variable [DecidableEq T]

def register (r : Registry C T) (i : C) (x : T) : Registry C T :=
  { r with
    opened := Function.update r.opened i (some x)
    cell := Function.update r.cell i (some r.made)
    registered := Function.update r.registered x (some r.made)
    made := r.made + 1 }

def release (r : Registry C T) (i : C) (x : T) : Registry C T :=
  { r with
    ticket := Function.update r.ticket i none
    opened := Function.update r.opened i none
    registered := Function.update r.registered x none }

theorem Exclusive.register (h : r.Exclusive) (hi : r.ticket i = some x)
    (hopened : r.opened i = none) : (r.register i x).Exclusive where
  ticket_le := h.ticket_le
  ticket_inj := h.ticket_inj
  held := by
    intro j y hy
    simp only [Registry.register, Function.update_apply] at hy ⊢
    split_ifs at hy with hji
    · rw [hji, ← hy]
      exact hi
    · exact h.held j y hy
  own := by
    intro j y hy
    simp only [Registry.register, Function.update_apply] at hy ⊢
    split_ifs at hy with hji
    · obtain rfl := Option.some.inj hy
      exact ⟨r.made, if_pos hji, if_pos rfl⟩
    · obtain ⟨q, hq, hreg⟩ := h.own j y hy
      have hyx : y ≠ x := by
        rintro rfl
        rw [h.registered_none hi hopened] at hreg
        cases hreg
      exact ⟨q, by rw [if_neg hji, hq], by rw [if_neg hyx, hreg]⟩
  owned := by
    intro y q hq
    simp only [Registry.register, Function.update_apply] at hq ⊢
    split_ifs at hq with hyx
    · exact ⟨i, by rw [if_pos rfl, hyx]⟩
    · obtain ⟨j, hj⟩ := h.owned y q hq
      have hji : j ≠ i := by
        rintro rfl
        rw [hopened] at hj
        cases hj
      exact ⟨j, by rw [if_neg hji, hj]⟩
  fresh := by
    intro y q hq
    simp only [Registry.register, Function.update_apply] at hq ⊢
    split_ifs at hq
    · exact Option.some.inj hq ▸ Nat.lt_succ_self _
    · exact Nat.lt_succ_of_lt (h.fresh y q hq)
  cell_inj := by
    have hmade : ∀ y, r.registered y ≠ some r.made := fun y hy => Nat.lt_irrefl _ (h.fresh y _ hy)
    intro y z q hy hz
    simp only [Registry.register, Function.update_apply] at hy hz
    split_ifs at hy hz with hyx hzx hzx
    · rw [hyx, hzx]
    · exact absurd (hz.trans hy.symm) (hmade z)
    · exact absurd (hy.trans hz.symm) (hmade y)
    · exact h.cell_inj y z q hy hz

theorem Exclusive.release (h : r.Exclusive) (hi : r.opened i = some x) :
    (r.release i x).Exclusive where
  ticket_le := by
    intro j y hy
    simp only [Registry.release, Function.update_apply] at hy
    split_ifs at hy
    exact h.ticket_le j y hy
  ticket_inj := by
    intro j k y hj hk
    simp only [Registry.release, Function.update_apply] at hj hk
    split_ifs at hj hk
    exact h.ticket_inj j k y hj hk
  held := by
    intro j y hy
    simp only [Registry.release, Function.update_apply] at hy ⊢
    split_ifs at hy with hji
    rw [if_neg hji]
    exact h.held j y hy
  own := by
    intro j y hy
    simp only [Registry.release, Function.update_apply] at hy ⊢
    split_ifs at hy with hji
    have hyx : y ≠ x := by
      rintro rfl
      exact hji (h.ticket_inj j i y (h.held j y hy) (h.held i y hi))
    rw [if_neg hyx]
    exact h.own j y hy
  owned := by
    intro y q hq
    simp only [Registry.release, Function.update_apply] at hq ⊢
    split_ifs at hq with hyx
    obtain ⟨j, hj⟩ := h.owned y q hq
    have hji : j ≠ i := by
      rintro rfl
      exact hyx (Option.some.inj (hj.symm.trans hi))
    exact ⟨j, by rw [if_neg hji, hj]⟩
  fresh := by
    intro y q hq
    simp only [Registry.release, Function.update_apply] at hq
    split_ifs at hq
    exact h.fresh y q hq
  cell_inj := by
    intro y z q hy hz
    simp only [Registry.release, Function.update_apply] at hy hz
    split_ifs at hy hz
    exact h.cell_inj y z q hy hz

end Registry
end RaftStorage.Library
