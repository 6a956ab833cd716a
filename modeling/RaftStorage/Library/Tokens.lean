import Mathlib.Logic.Function.Basic
import Mathlib.Data.List.Nodup

/-! Tokens that lie in a pool or are held by workers, each in one place. -/

namespace RaftStorage.Library

variable {τ ω : Type*}

structure OnePlace (pool : List τ) (held : ω → Option τ) : Prop where
  pool_nodup : pool.Nodup
  apart : ∀ w x, held w = some x → x ∉ pool
  held_inj : ∀ v w x, held v = some x → held w = some x → v = w

def Placed (pool : List τ) (held : ω → Option τ) (x : τ) : Prop := x ∈ pool ∨ ∃ w, held w = some x

namespace OnePlace

variable {pool pool' : List τ} {held : ω → Option τ} {w : ω} {x : τ}

theorem perm (h : OnePlace pool held) (hperm : pool.Perm pool') : OnePlace pool' held where
  pool_nodup := hperm.nodup_iff.mp h.pool_nodup
  apart := fun w x hx hmem => h.apart w x hx (hperm.mem_iff.mpr hmem)
  held_inj := h.held_inj

theorem add (h : OnePlace pool held) (hx : ¬Placed pool held x) : OnePlace (x :: pool) held where
  pool_nodup := List.nodup_cons.mpr ⟨fun hmem => hx (Or.inl hmem), h.pool_nodup⟩
  apart := by
    intro w y hy hmem
    rcases List.mem_cons.mp hmem with rfl | hmem
    · exact hx (Or.inr ⟨w, hy⟩)
    · exact h.apart w y hy hmem
  held_inj := h.held_inj

variable [DecidableEq ω]

theorem held_update {y z : Option τ} {v : ω} (hz : Function.update held w y v = z) :
    (v = w ∧ y = z) ∨ (v ≠ w ∧ held v = z) := by
  by_cases hv : v = w
  · subst hv
    rw [Function.update_self] at hz
    exact Or.inl ⟨rfl, hz⟩
  · rw [Function.update_of_ne hv] at hz
    exact Or.inr ⟨hv, hz⟩

theorem drop (h : OnePlace pool held) (w : ω) : OnePlace pool (Function.update held w none) := by
  have hkept : ∀ v x, Function.update held w none v = some x → held v = some x := by
    intro v x hx
    rcases held_update hx with ⟨-, hnone⟩ | ⟨-, hv⟩
    · cases hnone
    · exact hv
  exact ⟨h.pool_nodup, fun v x hx => h.apart v x (hkept v x hx),
    fun v v' x hx hx' => h.held_inj v v' x (hkept v x hx) (hkept v' x hx')⟩

theorem grab (h : OnePlace (x :: pool) held) (w : ω) :
    OnePlace pool (Function.update held w (some x)) := by
  obtain ⟨hx, hpool⟩ := List.nodup_cons.mp h.pool_nodup
  refine ⟨hpool, ?_, ?_⟩
  · intro v y hy
    rcases held_update hy with ⟨-, heq⟩ | ⟨-, hv⟩
    · exact Option.some.inj heq ▸ hx
    · exact fun hmem => h.apart v y hv (List.mem_cons_of_mem _ hmem)
  · intro v v' y hy hy'
    rcases held_update hy with ⟨rfl, heq⟩ | ⟨-, hv⟩
    · rcases held_update hy' with ⟨rfl, -⟩ | ⟨-, hv'⟩
      · rfl
      · exact absurd List.mem_cons_self (Option.some.inj heq ▸ h.apart v' y hv')
    · rcases held_update hy' with ⟨rfl, heq⟩ | ⟨-, hv'⟩
      · exact absurd List.mem_cons_self (Option.some.inj heq ▸ h.apart v y hv)
      · exact h.held_inj v v' y hv hv'

theorem release (h : OnePlace pool held) (hw : held w = some x) :
    OnePlace (x :: pool) (Function.update held w none) := by
  apply (h.drop w).add
  rintro (hmem | ⟨v, hv⟩)
  · exact h.apart w x hw hmem
  · rcases held_update hv with ⟨-, hnone⟩ | ⟨hne, hv⟩
    · cases hnone
    · exact hne (h.held_inj v w x hv hw)

theorem not_placed_drop (h : OnePlace pool held) (hw : held w = some x) :
    ¬Placed pool (Function.update held w none) x := by
  rintro (hmem | ⟨v, hv⟩)
  · exact h.apart w x hw hmem
  · rcases held_update hv with ⟨-, hnone⟩ | ⟨hne, hv⟩
    · cases hnone
    · exact hne (h.held_inj v w x hv hw)

end OnePlace

end RaftStorage.Library
