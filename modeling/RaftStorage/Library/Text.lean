import Mathlib.Algebra.Order.Ring.Int
import Mathlib.Data.List.TakeWhile
import Mathlib.Data.List.DropRight

/-! Text as a list of characters, each of which stands for a byte, and the functions of the C and C++
libraries that read and write it. -/

namespace RaftStorage.Library

/-! ## Reading lines -/

/-- `fgets` with room for `k` more characters: what was read, what is left, and whether the end of
the file was met. -/
def fgetsLoop : ℕ → List Char → List Char × List Char × Bool
  | 0, file => ([], file, false)
  | _ + 1, [] => ([], [], true)
  | k + 1, c :: file =>
    if c = '\n' then (['\n'], file, false)
    else
      let (buf, rest, eof) := fgetsLoop k file
      (c :: buf, rest, eof)

/-- The last place of the buffer is for the final zero. -/
def fgets (size : ℕ) (file : List Char) : List Char × List Char × Bool := fgetsLoop (size - 1) file

theorem length_fgetsLoop {k : ℕ} {file : List Char} (hk : 0 < k)
    (h : (fgetsLoop k file).2.2 = false) : (fgetsLoop k file).2.1.length < file.length := by
  induction k generalizing file with
  | zero => cases hk
  | succ k ih =>
    cases file with
    | nil => cases h
    | cons c file =>
      rw [fgetsLoop] at h ⊢
      split_ifs at h ⊢
      · exact Nat.lt_succ_self _
      · cases k with
        | zero => exact Nat.lt_succ_self _
        | succ k => exact (ih (Nat.succ_pos k) h).trans (Nat.lt_succ_self _)

theorem fgetsLoop_append {line : List Char} (hline : '\n' ∉ line) (k : ℕ) (rest : List Char) :
    fgetsLoop (line.length + k) (line ++ rest) = (line ++ (fgetsLoop k rest).1, (fgetsLoop k rest).2) := by
  induction line with
  | nil => rw [List.length_nil, Nat.zero_add, List.nil_append, List.nil_append]
  | cons c line ih =>
    have hc : c ≠ '\n' := fun h => hline (h ▸ List.mem_cons_self)
    have ih' := ih fun h => hline (List.mem_cons_of_mem _ h)
    rw [List.length_cons, Nat.succ_add, List.cons_append, fgetsLoop, if_neg hc, ih']
    rfl

theorem fgetsLoop_line {k : ℕ} {line : List Char} (hk : line.length < k) (hline : '\n' ∉ line)
    (rest : List Char) : fgetsLoop k (line ++ '\n' :: rest) = (line ++ ['\n'], rest, false) := by
  obtain ⟨room, rfl⟩ := Nat.exists_eq_add_of_lt hk
  rw [Nat.add_assoc, fgetsLoop_append hline, fgetsLoop, if_pos rfl]

theorem fgetsLoop_last {k : ℕ} {line : List Char} (hk : line.length < k) (hline : '\n' ∉ line) :
    fgetsLoop k line = (line, [], true) := by
  obtain ⟨room, rfl⟩ := Nat.exists_eq_add_of_lt hk
  have happend := fgetsLoop_append hline (room + 1) []
  rwa [List.append_nil, fgetsLoop, List.append_nil] at happend

def cString (buf : List Char) : List Char := buf.takeWhile (· ≠ '\x00')

theorem cString_eq_self {buf : List Char} (h : '\x00' ∉ buf) : cString buf = buf := by
  rw [cString, List.takeWhile_eq_self_iff]
  intro c hc
  simpa using fun heq : c = '\x00' => h (heq ▸ hc)

/-! ## Searching and cutting -/

/-- `std::string::find` from a position on; an `int` holds `npos` as -1. -/
def find (s : List Char) (c : Char) (pos : ℕ) : ℤ :=
  match (s.drop pos).idxOf? c with
  | some i => pos + i
  | none => -1

/-- `std::string::substr`; a negative count becomes a very large one. -/
def substr (s : List Char) (pos : ℕ) (count : ℤ) : List Char :=
  (s.drop pos).take (count % 2 ^ 64).toNat

theorem idxOf?_append {before : List Char} {c : Char} (h : c ∉ before) (after : List Char) :
    (before ++ c :: after).idxOf? c = some before.length := by
  induction before with
  | nil => simp [List.idxOf?, List.findIdx?_cons]
  | cons a before ih =>
    have ha : a ≠ c := fun heq => h (heq ▸ List.mem_cons_self)
    have ih' := ih fun hmem => h (List.mem_cons_of_mem _ hmem)
    rw [List.idxOf?] at ih' ⊢
    rw [List.cons_append, List.findIdx?_cons, if_neg (by simpa using ha), ih']
    rfl

theorem idxOf?_eq_none {l : List Char} {c : Char} (h : c ∉ l) : l.idxOf? c = none := by
  rw [List.idxOf?, List.findIdx?_eq_none_iff]
  intro a ha
  simpa using fun heq : a = c => h (heq ▸ ha)

theorem find_append {before after : List Char} {c : Char} (h : c ∉ before) :
    find (before ++ c :: after) c 0 = before.length := by
  rw [find, List.drop_zero, idxOf?_append h]
  simp

theorem find_eq_neg_one {s : List Char} {c : Char} (h : c ∉ s) : find s c 0 = -1 := by
  rw [find, List.drop_zero, idxOf?_eq_none h]

/-! ## Numbers -/

def toStringInt (i : ℤ) : List Char :=
  if i < 0 then '-' :: Nat.toDigits 10 i.natAbs else Nat.toDigits 10 i.natAbs

def isSpaceChar (c : Char) : Bool :=
  c = ' ' || c = '\t' || c = '\n' || c = '\x0b' || c = '\x0c' || c = '\r'

def leadingNat (s : List Char) : ℕ := Nat.ofDigitChars 10 (s.takeWhile Char.isDigit) 0

def atoi (s : List Char) : ℤ :=
  match s.dropWhile isSpaceChar with
  | '-' :: s => -(leadingNat s : ℤ)
  | '+' :: s => leadingNat s
  | s => leadingNat s

theorem isDigit_toDigits {n : ℕ} {c : Char} (h : c ∈ Nat.toDigits 10 n) : c.isDigit = true :=
  Nat.isDigit_of_mem_toDigits (by decide) (by decide) h

theorem leadingNat_toDigits (n : ℕ) : leadingNat (Nat.toDigits 10 n) = n := by
  rw [leadingNat, List.takeWhile_eq_self_iff.mpr fun c hc => isDigit_toDigits hc]
  exact Nat.ofDigitChars_ten_toDigits

theorem toDigits_inj {m n : ℕ} (h : Nat.toDigits 10 m = Nat.toDigits 10 n) : m = n := by
  rw [← leadingNat_toDigits m, h, leadingNat_toDigits]

theorem atoi_toStringInt (i : ℤ) : atoi (toStringInt i) = i := by
  rw [toStringInt]
  split_ifs with hneg
  · have hdrop : ('-' :: Nat.toDigits 10 i.natAbs).dropWhile isSpaceChar =
        '-' :: Nat.toDigits 10 i.natAbs := List.dropWhile_cons_of_neg (by decide)
    rw [atoi, hdrop]
    simp only [leadingNat_toDigits]
    omega
  · obtain ⟨c, rest, hcons⟩ := List.exists_cons_of_ne_nil (Nat.toDigits_ne_nil (n := i.natAbs) (b := 10))
    have hdigit : c.isDigit = true := isDigit_toDigits (by rw [hcons]; exact List.mem_cons_self)
    have hspace : ¬isSpaceChar c = true := by
      intro hc
      simp only [isSpaceChar, Bool.or_eq_true, decide_eq_true_eq] at hc
      rcases hc with ((((rfl | rfl) | rfl) | rfl) | rfl) | rfl <;> exact absurd hdigit (by decide)
    have hdrop : (Nat.toDigits 10 i.natAbs).dropWhile isSpaceChar = Nat.toDigits 10 i.natAbs := by
      rw [hcons]
      exact List.dropWhile_cons_of_neg hspace
    have hminus : c ≠ '-' := by
      rintro rfl
      exact absurd hdigit (by decide)
    have hplus : c ≠ '+' := by
      rintro rfl
      exact absurd hdigit (by decide)
    have hvalue : atoi (Nat.toDigits 10 i.natAbs) = leadingNat (Nat.toDigits 10 i.natAbs) := by
      rw [atoi, hdrop]
      split
      · rename_i s heq
        exact absurd (List.cons.inj (hcons.symm.trans heq)).1 hminus
      · rename_i s heq
        exact absurd (List.cons.inj (hcons.symm.trans heq)).1 hplus
      · rfl
    rw [hvalue, leadingNat_toDigits]
    omega

end RaftStorage.Library
