import Mathlib.Data.List.Basic

/-! Runs of a deterministic step function over a list of actions. The scheduler's freedom is the
choice of the list, so a statement about every run is a statement about every list. -/

namespace RaftStorage.Library

variable {σ α : Type*} (step : σ → α → σ)

def run (s : σ) (acts : List α) : σ := acts.foldl step s

/-- Every action of the run meets the condition in the state it is taken from. -/
def Along (C : σ → α → Prop) : σ → List α → Prop
  | _, [] => True
  | s, a :: acts => C s a ∧ Along C (step s a) acts

instance Along.decidable (C : σ → α → Prop) [∀ s a, Decidable (C s a)] :
    ∀ s acts, Decidable (Along step C s acts)
  | _, [] => inferInstanceAs (Decidable True)
  | s, a :: acts =>
    have := Along.decidable C (step s a) acts
    inferInstanceAs (Decidable (C s a ∧ Along step C (step s a) acts))

theorem run_append (s : σ) (as bs : List α) :
    run step s (as ++ bs) = run step (run step s as) bs := List.foldl_append

theorem run_concat (s : σ) (as : List α) (a : α) :
    run step s (as ++ [a]) = step (run step s as) a := by
  rw [run_append]
  rfl

variable {step}

theorem Along.and {C D : σ → α → Prop} {s : σ} {acts : List α} (hC : Along step C s acts)
    (hD : Along step D s acts) : Along step (fun s a => C s a ∧ D s a) s acts := by
  induction acts generalizing s with
  | nil => exact trivial
  | cons a acts ih => exact ⟨⟨hC.1, hD.1⟩, ih hC.2 hD.2⟩

theorem run_invariant {P : σ → Prop} {s : σ} (h₀ : P s)
    (hstep : ∀ s a, P s → P (step s a)) (acts : List α) : P (run step s acts) := by
  induction acts generalizing s with
  | nil => exact h₀
  | cons a acts ih => exact ih (hstep s a h₀)

theorem run_invariant_along {C : σ → α → Prop} {P : σ → Prop} {s : σ} (h₀ : P s)
    (hstep : ∀ s a, P s → C s a → P (step s a)) {acts : List α} (h : Along step C s acts) :
    P (run step s acts) := by
  induction acts generalizing s with
  | nil => exact h₀
  | cons a acts ih => exact ih (hstep s a h₀ h.1) h.2

theorem along_iff {C : σ → α → Prop} {s : σ} {acts : List α} : Along step C s acts ↔
    ∀ before a after, acts = before ++ a :: after → C (run step s before) a := by
  constructor
  · intro h before
    induction before generalizing s acts with
    | nil =>
      rintro a after rfl
      exact h.1
    | cons b before ih =>
      rintro a after rfl
      exact ih h.2 a after rfl
  · intro h
    induction acts generalizing s with
    | nil => exact trivial
    | cons a acts ih =>
      refine ⟨h [] a acts rfl, ih fun before b after heq => ?_⟩
      exact h (a :: before) b after (by rw [heq]; rfl)

theorem along_append {C : σ → α → Prop} {s : σ} {as bs : List α} :
    Along step C s (as ++ bs) ↔ Along step C s as ∧ Along step C (run step s as) bs := by
  induction as generalizing s with
  | nil => exact ⟨fun h => ⟨trivial, h⟩, fun h => h.2⟩
  | cons a as ih => simp only [List.cons_append, Along, ih, and_assoc, run, List.foldl_cons]

theorem along_congr {C D : σ → α → Prop} {P : σ → Prop} (hstep : ∀ s a, P s → C s a → P (step s a))
    (hiff : ∀ s a, P s → (C s a ↔ D s a)) {s : σ} (h₀ : P s) (acts : List α) :
    Along step C s acts ↔ Along step D s acts := by
  induction acts generalizing s with
  | nil => exact Iff.rfl
  | cons a acts ih =>
    rw [Along, Along, ← hiff s a h₀]
    exact and_congr_right fun hC => ih (hstep s a h₀ hC)

/-- A reflexive and transitive relation that the steps keep holds between the ends of a run. -/
theorem run_relation_along {C : σ → α → Prop} {P : σ → Prop} {R : σ → σ → Prop}
    (hrefl : ∀ s, R s s) (htrans : ∀ {s t u}, R s t → R t u → R s u)
    (hstep : ∀ s a, P s → C s a → P (step s a) ∧ R s (step s a)) {s : σ} (h₀ : P s)
    {acts : List α} (h : Along step C s acts) : R s (run step s acts) := by
  induction acts generalizing s with
  | nil => exact hrefl s
  | cons a acts ih =>
    obtain ⟨hP, hR⟩ := hstep s a h₀ h.1
    exact htrans hR (ih hP h.2)

end RaftStorage.Library
