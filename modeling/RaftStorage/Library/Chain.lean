import Mathlib.Data.List.Basic
import Mathlib.Logic.Function.Basic

/-! Chains of pointers. `Seg next a l t` says that the pointers lead from `a` through the cells of
`l` and that the last of them points to `t`; a list that ends in null is the case `t = none`. -/

namespace RaftStorage.Library

variable {α : Type*}

def Seg (next : α → Option α) : α → List α → Option α → Prop
  | a, [], t => next a = t
  | a, b :: l, t => next a = some b ∧ Seg next b l t

/-- Follow the pointers while the next cell satisfies `p`, for at most the given number of steps. -/
def walk (next : α → Option α) (p : α → Bool) : ℕ → α → α
  | 0, a => a
  | k + 1, a =>
    match next a with
    | some b => if p b then walk next p k b else a
    | none => a

variable {next next' : α → Option α} {a b : α} {l m : List α} {t t' : Option α}

theorem seg_append : Seg next a (l ++ b :: m) t ↔ Seg next a l (some b) ∧ Seg next b m t := by
  induction l generalizing a with
  | nil => rfl
  | cons c l ih => simp only [List.cons_append, Seg, ih, and_assoc]

theorem Seg.last (h : Seg next a l t) : next (l.getLastD a) = t := by
  induction l generalizing a with
  | nil => exact h
  | cons c l ih =>
    rw [List.getLastD_cons]
    exact ih h.2

theorem Seg.congr (h : Seg next a l t) (heq : ∀ c ∈ a :: l, next' c = next c) :
    Seg next' a l t := by
  induction l generalizing a with
  | nil => exact (heq a (by simp)).trans h
  | cons c l ih =>
    exact ⟨(heq a (by simp)).trans h.1, ih h.2 fun d hd => heq d (List.mem_cons_of_mem a hd)⟩

theorem getLastD_mem (a : α) (l : List α) : l.getLastD a ∈ a :: l := by
  induction l generalizing a with
  | nil => simp
  | cons c l ih =>
    rw [List.getLastD_cons]
    exact List.mem_cons_of_mem a (ih c)

theorem getLastD_append_cons (a b : α) (l m : List α) :
    (l ++ b :: m).getLastD a = m.getLastD b := by
  induction l generalizing a with
  | nil => rw [List.nil_append, List.getLastD_cons]
  | cons c l ih => rw [List.cons_append, List.getLastD_cons, ih]

theorem Seg.walk_start (h : Seg next a (l ++ m) none) {p : α → Bool} {k : ℕ}
    (hl : ∀ c ∈ l, p c = true) (hm : ∀ c ∈ m.head?, p c = false) (hk : l.length ≤ k) :
    walk next p k a = l.getLastD a := by
  induction l generalizing a k with
  | nil =>
    cases k with
    | zero => rfl
    | succ k =>
      cases m with
      | nil =>
        have hnone : next a = none := h
        simp [walk, hnone]
      | cons c m => simp [walk, h.1, hm c rfl]
  | cons b l ih =>
    cases k with
    | zero => simp at hk
    | succ k =>
      rw [List.getLastD_cons]
      simp only [walk, h.1, hl b (by simp), if_true]
      exact ih h.2 (fun c hc => hl c (List.mem_cons_of_mem b hc)) (by simpa using hk)

theorem Seg.walk_from (h : Seg next a (l ++ m) none) {p : α → Bool} {k : ℕ}
    (hl : ∀ c ∈ l, p c = true) (hm : ∀ c ∈ m.head?, p c = false) (hk : l.length ≤ k)
    (hb : b ∈ a :: l) : walk next p k b = l.getLastD a := by
  rcases List.mem_cons.mp hb with rfl | hb
  · exact h.walk_start hl hm hk
  · obtain ⟨l₁, l₂, rfl⟩ := List.append_of_mem hb
    rw [List.append_assoc, List.cons_append] at h
    rw [getLastD_append_cons]
    refine (seg_append.mp h).2.walk_start (fun c hc => hl c ?_) hm ?_
    · exact List.mem_append_right l₁ (List.mem_cons_of_mem b hc)
    · simp only [List.length_append, List.length_cons] at hk
      omega

variable [DecidableEq α]

theorem Seg.redirect (h : Seg next a l t) (hnd : (a :: l).Nodup) (t' : Option α) :
    Seg (Function.update next (l.getLastD a) t') a l t' := by
  induction l generalizing a with
  | nil => exact Function.update_self a t' next
  | cons c l ih =>
    rw [List.getLastD_cons]
    have hne : a ≠ l.getLastD c := by
      intro heq
      exact (List.nodup_cons.mp hnd).1 (heq ▸ getLastD_mem c l)
    exact ⟨by rw [Function.update_of_ne hne]; exact h.1, ih h.2 (List.nodup_cons.mp hnd).2⟩

theorem Seg.frame (h : Seg next a l t) (hb : b ∉ a :: l) (x : Option α) :
    Seg (Function.update next b x) a l t := by
  refine h.congr fun c hc => Function.update_of_ne ?_ _ _
  rintro rfl
  exact hb hc

theorem Seg.insert (h : Seg next a (l ++ m) t) (hnd : (a :: l ++ m).Nodup) (hb : b ∉ a :: l ++ m) :
    Seg (Function.update (Function.update next b (next (l.getLastD a))) (l.getLastD a) (some b)) a
      (l ++ b :: m) t := by
  set c := l.getLastD a with hc
  have hcmem : c ∈ a :: l := getLastD_mem a l
  have hbc : b ≠ c := fun heq => hb (List.mem_append_left m (heq ▸ hcmem))
  have hbl : b ∉ a :: l := fun hmem => hb (List.mem_append_left m hmem)
  have hndl : (a :: l).Nodup := (List.nodup_append.mp hnd).1
  have hcm : c ∉ m := fun hmem => (List.nodup_append.mp hnd).2.2 c hcmem c hmem rfl
  -- the segment up to `c`, wherever it led before, now leads to `b`
  have hleft : ∀ x, Seg next a l x → Seg (Function.update (Function.update next b (next c)) c
      (some b)) a l (some b) := fun x hx => (hx.frame hbl _).redirect hndl (some b)
  rw [seg_append]
  cases m with
  | nil =>
    rw [List.append_nil] at h
    refine ⟨hleft t h, ?_⟩
    change Function.update (Function.update next b (next c)) c (some b) b = t
    rw [Function.update_of_ne hbc, Function.update_self]
    exact h.last
  | cons d m =>
    obtain ⟨h1, h2⟩ := seg_append.mp h
    refine ⟨hleft _ h1, ?_, ?_⟩
    · rw [Function.update_of_ne hbc, Function.update_self]
      exact h1.last
    · have hbd : b ∉ d :: m := fun hmem => hb (List.mem_append_right (a :: l) hmem)
      exact (h2.frame hbd _).frame hcm _

theorem Seg.erase (h : Seg next a (l ++ b :: m) t) (hnd : (a :: l ++ b :: m).Nodup) :
    Seg (Function.update next (l.getLastD a) (next b)) a (l ++ m) t := by
  obtain ⟨h1, h2⟩ := seg_append.mp h
  have hndl : (a :: l).Nodup := (List.nodup_append.mp hnd).1
  have hleft := h1.redirect hndl (next b)
  cases m with
  | nil =>
    rw [List.append_nil]
    exact (show next b = t from h2) ▸ hleft
  | cons d m =>
    refine seg_append.mpr ⟨h2.1 ▸ hleft, ?_⟩
    refine h2.2.frame (fun hmem => ?_) _
    exact (List.nodup_append.mp hnd).2.2 _ (getLastD_mem a l) _ (List.mem_cons_of_mem b hmem) rfl

end RaftStorage.Library
