import RaftStorage.Library.Transition

/-! Machines that answer each action, and plans that leave out actions or take them several times. -/

namespace RaftStorage.Library

variable {σ α β : Type*} (act : σ → α → β × σ)

def outputs : σ → List α → List β
  | _, [] => []
  | s, a :: acts => (act s a).1 :: outputs (act s a).2 acts

def moves (s : σ) (a : α) : σ := (act s a).2

def copies (plan : List (α × ℕ)) : List α := plan.flatMap fun p => List.replicate p.2 p.1

def repeated : List (α × ℕ) → List β → List β
  | (_, k) :: plan, b :: outs => List.replicate k b ++ repeated plan outs
  | _, _ => []

theorem outputs_append (s : σ) (as bs : List α) :
    outputs act s (as ++ bs) = outputs act s as ++ outputs act (run (moves act) s as) bs := by
  induction as generalizing s with
  | nil => rfl
  | cons a as ih =>
    rw [List.cons_append, outputs, ih]
    rfl

theorem length_outputs (s : σ) (acts : List α) : (outputs act s acts).length = acts.length := by
  induction acts generalizing s with
  | nil => rfl
  | cons a acts ih => rw [outputs, List.length_cons, ih, List.length_cons]

theorem copies_append (plan plan' : List (α × ℕ)) :
    copies (plan ++ plan') = copies plan ++ copies plan' := List.flatMap_append

theorem copies_filter (p : α → Bool) (acts : List α) :
    copies (acts.map fun a => (a, if p a then 1 else 0)) = acts.filter p := by
  induction acts with
  | nil => rfl
  | cons a acts ih =>
    have hcons : copies ((a :: acts).map fun a => (a, if p a then 1 else 0)) =
        List.replicate (if p a then 1 else 0) a ++ copies (acts.map fun a => (a, if p a then 1 else 0)) :=
      rfl
    rw [hcons, ih, List.filter_cons]
    split_ifs <;> rfl

theorem copies_once (acts : List α) : copies (acts.map fun a => (a, 1)) = acts := by
  have h := copies_filter (fun _ => true) acts
  rwa [List.filter_true] at h

theorem repeated_append {plan plan' : List (α × ℕ)} {outs outs' : List β}
    (h : plan.length = outs.length) :
    repeated (plan ++ plan') (outs ++ outs') = repeated plan outs ++ repeated plan' outs' := by
  induction plan generalizing outs with
  | nil =>
    rw [List.eq_nil_of_length_eq_zero h.symm]
    rfl
  | cons p plan ih =>
    obtain ⟨b, outs, rfl⟩ := List.exists_cons_of_length_pos (by rw [← h]; exact Nat.succ_pos _)
    rw [List.cons_append, List.cons_append, repeated, repeated, ih (Nat.succ.inj h),
      List.append_assoc]

theorem repeated_once {acts : List α} {outs : List β} (h : acts.length = outs.length) :
    repeated (acts.map fun a => (a, 1)) outs = outs := by
  induction acts generalizing outs with
  | nil =>
    rw [List.eq_nil_of_length_eq_zero h.symm]
    rfl
  | cons a acts ih =>
    obtain ⟨b, outs, rfl⟩ := List.exists_cons_of_length_pos (by rw [← h]; exact Nat.succ_pos _)
    rw [List.map_cons, repeated, ih (Nat.succ.inj h)]
    rfl

variable {act}

/-- A simulation that holds however often the next action is taken answers the plan as the original
sequence, up to copies. -/
theorem outputs_copies {R : List (α × ℕ) → σ → σ → Prop}
    (hstep : ∀ a k plan s s', R ((a, k) :: plan) s s' →
      outputs act s' (List.replicate k a) = List.replicate k (act s a).1 ∧
        R plan (act s a).2 (run (moves act) s' (List.replicate k a)))
    {plan : List (α × ℕ)} {s s' : σ} (h : R plan s s') :
    outputs act s' (copies plan) = repeated plan (outputs act s (plan.map Prod.fst)) ∧
      R [] (run (moves act) s (plan.map Prod.fst)) (run (moves act) s' (copies plan)) := by
  induction plan generalizing s s' with
  | nil => exact ⟨rfl, h⟩
  | cons p plan ih =>
    obtain ⟨a, k⟩ := p
    obtain ⟨hhead, hrest⟩ := hstep a k plan s s' h
    obtain ⟨houtputs, hend⟩ := ih hrest
    have hcopies : copies ((a, k) :: plan) = List.replicate k a ++ copies plan := rfl
    rw [hcopies, outputs_append, run_append, hhead, houtputs]
    exact ⟨rfl, hend⟩

end RaftStorage.Library
