import Mathlib.Data.List.Sort

/-! A sequence that comes in pieces: where each piece begins, and what can be said of two ways to cut
the same sequence. -/

namespace RaftStorage.Library

variable {τ α : Type*}

def positions (len : τ → ℕ) : ℕ → List τ → List (ℕ × τ)
  | _, [] => []
  | o, x :: xs => (o, x) :: positions len (o + len x) xs

variable {len : τ → ℕ} {o i : ℕ} {x : τ} {xs : List τ}

theorem le_of_mem_positions (h : (i, x) ∈ positions len o xs) : o ≤ i := by
  induction xs generalizing o with
  | nil => cases h
  | cons y ys ih =>
    rcases List.mem_cons.mp h with heq | hmem
    · exact (Prod.mk.inj heq).1.ge
    · exact (Nat.le_add_right _ _).trans (ih hmem)

theorem mem_of_mem_positions (h : (i, x) ∈ positions len o xs) : x ∈ xs := by
  induction xs generalizing o with
  | nil => cases h
  | cons y ys ih =>
    rcases List.mem_cons.mp h with heq | hmem
    · exact (Prod.mk.inj heq).2 ▸ List.mem_cons_self
    · exact List.mem_cons_of_mem _ (ih hmem)

theorem map_filterMap_positions {β : Type*} (len : τ → ℕ) (f : τ → Option β) (o : ℕ) (xs : List τ) :
    ((positions len o xs).filterMap fun (i, x) => (f x).map fun y => (i, y)).map Prod.snd =
      xs.filterMap f := by
  induction xs generalizing o with
  | nil => rfl
  | cons x xs ih =>
    have htail := ih (o + len x)
    cases hx : f x with
    | none => simpa [positions, hx] using htail
    | some y => simpa [positions, hx] using htail

theorem positions_pairwise (o : ℕ) (xs : List τ) :
    (positions len o xs).Pairwise fun a b => a.1 + len a.2 ≤ b.1 := by
  induction xs generalizing o with
  | nil => exact List.Pairwise.nil
  | cons x xs ih =>
    refine List.Pairwise.cons (fun b hb => ?_) (ih _)
    exact le_of_mem_positions (x := b.2) hb

theorem isPrefix_drop_of_mem_positions {bytes : τ → List α}
    (h : (i, x) ∈ positions (fun x => (bytes x).length) o xs) :
    bytes x <+: (xs.flatMap bytes).drop (i - o) := by
  induction xs generalizing o with
  | nil => cases h
  | cons y ys ih =>
    rw [List.flatMap_cons]
    rcases List.mem_cons.mp h with heq | hmem
    · obtain ⟨rfl, rfl⟩ := Prod.mk.inj heq
      rw [Nat.sub_self, List.drop_zero]
      exact List.prefix_append _ _
    · have hle : o + (bytes y).length ≤ i := le_of_mem_positions hmem
      have hsub : i - o = (bytes y).length + (i - (o + (bytes y).length)) := by omega
      rw [hsub, List.drop_append, List.drop_eq_nil_of_le (by omega), List.nil_append]
      simpa using ih hmem

theorem sublist_of_subset_of_increasing {l l' : List (ℕ × τ)}
    (hl : l.Pairwise fun a b => a.1 < b.1) (hl' : l'.Pairwise fun a b => a.1 < b.1) (h : l ⊆ l') :
    l.Sublist l' := by
  have hnodup : l.Nodup := hl.imp fun {a b} hab heq => by
    rw [heq] at hab
    exact lt_irrefl _ hab
  have hanti : Std.Antisymm fun a b : ℕ × τ => a.1 < b.1 :=
    ⟨fun a b hab hba => absurd hab hba.not_gt⟩
  exact List.sublist_of_subperm_of_pairwise (List.subperm_of_subset hnodup h) hl hl'

end RaftStorage.Library
