import Mathlib.Data.List.TakeWhile

/-! A file behind a buffered output stream, and the formatted read of one word. Which part of the
written characters reaches the file before the stream is closed is up to the stream's buffer. -/

namespace RaftStorage.Library

variable {α : Type*}

structure FileStream (α : Type*) where
  file : List α
  buffer : List α
  isOpen : Bool

namespace FileStream

/-- Opening for output empties the file. -/
def reopen (_ : FileStream α) : FileStream α := ⟨[], [], true⟩

def close (f : FileStream α) : FileStream α := ⟨f.file ++ f.buffer, [], false⟩

def closeIfOpen (f : FileStream α) : FileStream α := if f.isOpen then f.close else f

/-- Of `k` buffered characters, `passed k` go to the file at once. -/
def write (passed : ℕ → ℕ) (f : FileStream α) (data : List α) : FileStream α :=
  if f.isOpen then
    let pending := f.buffer ++ data
    let k := passed pending.length
    ⟨f.file ++ pending.take k, pending.drop k, true⟩
  else f

def contents (f : FileStream α) : List α := f.file ++ f.buffer

theorem file_closeIfOpen {f : FileStream α} (h : f.isOpen = true) :
    f.closeIfOpen.file = f.contents := by
  rw [closeIfOpen, if_pos h]
  rfl

theorem write_reopen (passed : ℕ → ℕ) (f : FileStream α) (data : List α) :
    f.reopen.write passed data =
      ⟨data.take (passed data.length), data.drop (passed data.length), true⟩ := by
  simp [write, reopen]

theorem contents_write_reopen (passed : ℕ → ℕ) (f : FileStream α) (data : List α) :
    (f.reopen.write passed data).contents = data := by
  rw [write_reopen]
  exact List.take_append_drop _ _

end FileStream

def word (isSpace : α → Bool) (l : List α) : List α :=
  (l.dropWhile isSpace).takeWhile fun c => !isSpace c

theorem word_sublist (isSpace : α → Bool) (l : List α) : (word isSpace l).Sublist l :=
  (List.takeWhile_sublist _).trans (List.dropWhile_sublist _)

theorem word_eq_self {isSpace : α → Bool} {l : List α} :
    word isSpace l = l ↔ ∀ c ∈ l, isSpace c = false := by
  constructor
  · intro h c hc
    rw [← h] at hc
    simpa using List.mem_takeWhile_imp hc
  · intro h
    have hdrop : l.dropWhile isSpace = l := by
      cases l with
      | nil => rfl
      | cons a l => rw [List.dropWhile_cons, if_neg (by simp [h a])]
    rw [word, hdrop, List.takeWhile_eq_self_iff]
    intro c hc
    simp [h c hc]

theorem word_eq_nil {isSpace : α → Bool} {l : List α} :
    word isSpace l = [] ↔ ∀ c ∈ l, isSpace c = true := by
  induction l with
  | nil => simp [word]
  | cons a l ih =>
    cases ha : isSpace a with
    | true =>
      have hword : word isSpace (a :: l) = word isSpace l := by
        rw [word, List.dropWhile_cons_of_pos ha, word]
      rw [hword, ih, List.forall_mem_cons, ha]
      simp
    | false =>
      have hword : word isSpace (a :: l) = a :: l.takeWhile fun c => !isSpace c := by
        rw [word, List.dropWhile_cons_of_neg (by simp [ha]), List.takeWhile_cons_of_pos (by simp [ha])]
      rw [hword, List.forall_mem_cons, ha]
      simp

theorem word_take_eq {isSpace : α → Bool} {l : List α} {k : ℕ} :
    word isSpace (l.take k) = l ↔ (∀ c ∈ l, isSpace c = false) ∧ l.length ≤ k := by
  constructor
  · intro h
    have hle := (word_sublist isSpace (l.take k)).length_le
    rw [h, List.length_take] at hle
    have hk : l.length ≤ k := by omega
    rw [List.take_of_length_le hk] at h
    exact ⟨word_eq_self.mp h, hk⟩
  · rintro ⟨h, hk⟩
    rw [List.take_of_length_le hk]
    exact word_eq_self.mpr h

end RaftStorage.Library
