import Mathlib.Logic.Function.Basic
import Mathlib.Data.List.Nodup

/-! Numbered entries in slots. A number is issued when an entry is put into a slot and used when it is
taken out; an entry that is dropped is never used. No number is used twice. -/

namespace RaftStorage.Library

variable {κ : Type*}

structure Issued (slot : κ → Option ℕ) (used : List ℕ) (next : ℕ) : Prop where
  slot_lt : ∀ k x, slot k = some x → x < next
  slot_inj : ∀ k l x, slot k = some x → slot l = some x → k = l
  slot_unused : ∀ k x, slot k = some x → x ∉ used
  used_lt : ∀ x ∈ used, x < next
  used_nodup : used.Nodup

namespace Issued

theorem empty : Issued (fun _ : κ => none) [] 0 where
  slot_lt := by simp
  slot_inj := by simp
  slot_unused := by simp
  used_lt := by simp
  used_nodup := List.nodup_nil

variable [DecidableEq κ] {slot : κ → Option ℕ} {used : List ℕ} {next : ℕ} {k : κ}

theorem eq_of_drop {l : κ} {x : ℕ} (hx : Function.update slot k none l = some x) :
    l ≠ k ∧ slot l = some x := by
  by_cases hl : l = k
  · subst hl
    simp at hx
  · exact ⟨hl, by rwa [Function.update_of_ne hl] at hx⟩

theorem drop (h : Issued slot used next) (k : κ) : Issued (Function.update slot k none) used next where
  slot_lt := fun l x hx => h.slot_lt l x (eq_of_drop hx).2
  slot_inj := fun l l' x hx hx' => h.slot_inj l l' x (eq_of_drop hx).2 (eq_of_drop hx').2
  slot_unused := fun l x hx => h.slot_unused l x (eq_of_drop hx).2
  used_lt := h.used_lt
  used_nodup := h.used_nodup

theorem take (h : Issued slot used next) {x : ℕ} (hk : slot k = some x) :
    Issued (Function.update slot k none) (used ++ [x]) next where
  slot_lt := (h.drop k).slot_lt
  slot_inj := (h.drop k).slot_inj
  slot_unused := by
    intro l y hy hmem
    obtain ⟨hne, hy⟩ := eq_of_drop hy
    rcases List.mem_append.mp hmem with hused | hlast
    · exact h.slot_unused l y hy hused
    · rw [List.mem_singleton] at hlast
      exact hne (h.slot_inj l k y hy (hlast ▸ hk))
  used_lt := by
    intro y hy
    rcases List.mem_append.mp hy with hused | hlast
    · exact h.used_lt y hused
    · exact List.mem_singleton.mp hlast ▸ h.slot_lt k x hk
  used_nodup := by
    rw [List.nodup_append]
    refine ⟨h.used_nodup, List.nodup_singleton x, fun y hy z hz heq => ?_⟩
    rw [List.mem_singleton] at hz
    exact h.slot_unused k x hk (hz ▸ heq ▸ hy)

theorem put (h : Issued slot used next) (k : κ) :
    Issued (Function.update slot k (some next)) used (next + 1) := by
  have hcases : ∀ l x, Function.update slot k (some next) l = some x →
      (l = k ∧ x = next) ∨ slot l = some x := by
    intro l x hx
    by_cases hl : l = k
    · subst hl
      rw [Function.update_self] at hx
      exact Or.inl ⟨rfl, (Option.some.inj hx).symm⟩
    · rw [Function.update_of_ne hl] at hx
      exact Or.inr hx
  constructor
  case slot_lt =>
    intro l x hx
    rcases hcases l x hx with ⟨-, rfl⟩ | hold
    · exact Nat.lt_succ_self x
    · exact Nat.lt_succ_of_lt (h.slot_lt l x hold)
  case slot_inj =>
    intro l l' x hx hx'
    rcases hcases l x hx with ⟨rfl, rfl⟩ | hold
    · rcases hcases l' x hx' with ⟨rfl, -⟩ | hold'
      · rfl
      · exact absurd (h.slot_lt l' x hold') (Nat.lt_irrefl x)
    · rcases hcases l' x hx' with ⟨rfl, rfl⟩ | hold'
      · exact absurd (h.slot_lt l x hold) (Nat.lt_irrefl x)
      · exact h.slot_inj l l' x hold hold'
  case slot_unused =>
    intro l x hx hmem
    rcases hcases l x hx with ⟨-, rfl⟩ | hold
    · exact absurd (h.used_lt x hmem) (Nat.lt_irrefl x)
    · exact h.slot_unused l x hold hmem
  case used_lt => exact fun x hx => Nat.lt_succ_of_lt (h.used_lt x hx)
  case used_nodup => exact h.used_nodup

end Issued

end RaftStorage.Library
