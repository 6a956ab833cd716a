import Mathlib.Data.List.Basic
import Mathlib.Algebra.Order.Group.Nat

/-! Readers over bytes, base-128 varints and length-delimited strings. `Reads` says that a reader
takes exactly the given bytes off the front of its input and takes nothing when they are cut short. -/

namespace RaftStorage.Library

abbrev Bytes := List UInt8

abbrev Reader (α : Type*) := Bytes → Option (α × Bytes)

structure Reads {α : Type*} (read : Reader α) (bytes : Bytes) (a : α) : Prop where
  whole : ∀ rest, read (bytes ++ rest) = some (a, rest)
  cut : ∀ k < bytes.length, read (bytes.take k) = none

namespace Reader

variable {α β : Type*}

def andThen (read : Reader α) (next : α → Reader β) : Reader β := fun bytes =>
  (read bytes).bind fun (a, rest) => next a rest

def map (read : Reader α) (f : α → β) : Reader β := fun bytes =>
  (read bytes).map fun (a, rest) => (f a, rest)

def filterMap (read : Reader α) (f : α → Option β) : Reader β := fun bytes =>
  (read bytes).bind fun (a, rest) => (f a).map fun b => (b, rest)

theorem andThen_some {read : Reader α} {next : α → Reader β} {bytes rest : Bytes} {a : α}
    (h : read bytes = some (a, rest)) : read.andThen next bytes = next a rest := by
  simp [andThen, h]

theorem andThen_none {read : Reader α} {next : α → Reader β} {bytes : Bytes}
    (h : read bytes = none) : read.andThen next bytes = none := by
  simp [andThen, h]

end Reader

theorem Reads.andThen {α β : Type*} {read : Reader α} {next : α → Reader β} {bytes bytes' : Bytes}
    {a : α} {b : β} (h : Reads read bytes a) (h' : Reads (next a) bytes' b) :
    Reads (read.andThen next) (bytes ++ bytes') b where
  whole := by
    intro rest
    rw [List.append_assoc, Reader.andThen_some (h.whole _), h'.whole]
  cut := by
    intro k hk
    rw [List.take_append]
    by_cases hlt : k < bytes.length
    · rw [Nat.sub_eq_zero_of_le hlt.le, List.take_zero, List.append_nil]
      exact Reader.andThen_none (h.cut k hlt)
    · rw [List.take_of_length_le (not_lt.mp hlt), Reader.andThen_some (h.whole _)]
      rw [List.length_append] at hk
      exact h'.cut _ (by omega)

theorem Reads.map {α β : Type*} {read : Reader α} {bytes : Bytes} {a : α} (h : Reads read bytes a)
    (f : α → β) : Reads (read.map f) bytes (f a) where
  whole := by
    intro rest
    rw [Reader.map, h.whole, Option.map_some]
  cut := by
    intro k hk
    rw [Reader.map, h.cut k hk, Option.map_none]

theorem Reads.filterMap {α β : Type*} {read : Reader α} {bytes : Bytes} {a : α} {b : β}
    {f : α → Option β} (h : Reads read bytes a) (hf : f a = some b) :
    Reads (read.filterMap f) bytes b where
  whole := by
    intro rest
    rw [Reader.filterMap, h.whole, Option.bind_some]
    simp [hf]
  cut := by
    intro k hk
    rw [Reader.filterMap, h.cut k hk, Option.bind_none]

def takeBytes (n : ℕ) : Reader Bytes := fun bytes =>
  if n ≤ bytes.length then some (bytes.take n, bytes.drop n) else none

theorem reads_takeBytes (bytes : Bytes) : Reads (takeBytes bytes.length) bytes bytes where
  whole := by simp [takeBytes]
  cut := by
    intro k hk
    rw [takeBytes, if_neg (by rw [List.length_take]; omega)]

/-! ## Varints -/

/-- Seven bits a byte, the lowest first, with the high bit set on all bytes but the last; at most as
many bytes as the first argument says. -/
def writeVarint : ℕ → ℕ → Bytes
  | 0, _ => []
  | k + 1, n =>
    if n < 128 then [UInt8.ofNat n] else UInt8.ofNat (n % 128 + 128) :: writeVarint k (n / 128)

def readVarint : ℕ → Reader ℕ
  | 0, _ => none
  | _ + 1, [] => none
  | k + 1, b :: bytes =>
    if b.toNat < 128 then some (b.toNat, bytes)
    else (readVarint k bytes).map fun (v, rest) => (b.toNat % 128 + 128 * v, rest)

theorem toNat_ofNat_lt {n : ℕ} (h : n < 256) : (UInt8.ofNat n).toNat = n := by
  rw [UInt8.toNat_ofNat']
  exact Nat.mod_eq_of_lt h

theorem readVarint_cons_last {k n : ℕ} (h : n < 128) (bytes : Bytes) :
    readVarint (k + 1) (UInt8.ofNat n :: bytes) = some (n, bytes) := by
  rw [readVarint, toNat_ofNat_lt (by omega), if_pos h]

theorem readVarint_cons_more (k n : ℕ) (bytes : Bytes) :
    readVarint (k + 1) (UInt8.ofNat (n % 128 + 128) :: bytes) =
      (readVarint k bytes).map fun (v, rest) => (n % 128 + 128 * v, rest) := by
  rw [readVarint, toNat_ofNat_lt (by omega), if_neg (by omega)]
  simp

theorem readVarint_write {j k n : ℕ} (hjk : j ≤ k) (hn : n < 128 ^ j) (hj : 0 < j) (rest : Bytes) :
    readVarint k (writeVarint j n ++ rest) = some (n, rest) := by
  induction j generalizing k n with
  | zero => omega
  | succ j ih =>
    obtain ⟨k, rfl⟩ : ∃ k', k = k' + 1 := ⟨k - 1, by omega⟩
    rw [writeVarint]
    split_ifs with hlt
    · exact readVarint_cons_last hlt _
    · have hdiv : n / 128 < 128 ^ j := by
        rw [Nat.div_lt_iff_lt_mul (by decide), ← pow_succ]
        exact hn
      have hj' : 0 < j := by
        rcases Nat.eq_zero_or_pos j with rfl | hpos
        · simp at hn
          omega
        · exact hpos
      rw [List.cons_append, readVarint_cons_more, ih (by omega) hdiv hj', Option.map_some]
      exact congrArg (fun v => some (v, rest)) (Nat.mod_add_div n 128)

theorem readVarint_nil (k : ℕ) : readVarint k [] = none := by
  cases k <;> rfl

theorem readVarint_cut {j k n : ℕ} {i : ℕ} (hi : i < (writeVarint j n).length) :
    readVarint k ((writeVarint j n).take i) = none := by
  induction j generalizing k n i with
  | zero => simp [writeVarint] at hi
  | succ j ih =>
    cases i with
    | zero => exact readVarint_nil k
    | succ i =>
      rw [writeVarint] at hi ⊢
      split_ifs at hi ⊢ with hlt
      · simp at hi
      · cases k with
        | zero => rfl
        | succ k =>
          rw [List.take_succ_cons, readVarint_cons_more, ih (by simpa using hi)]
          rfl

theorem readVarint_append {k v : ℕ} {bytes rest : Bytes} (h : readVarint k bytes = some (v, rest))
    (more : Bytes) : readVarint k (bytes ++ more) = some (v, rest ++ more) := by
  induction k generalizing bytes v with
  | zero => cases h
  | succ k ih =>
    cases bytes with
    | nil => cases h
    | cons b bytes =>
      rw [readVarint] at h
      rw [List.cons_append, readVarint]
      split_ifs at h ⊢ with hlast
      · obtain ⟨rfl, rfl⟩ := Prod.mk.inj (Option.some.inj h)
        rfl
      · obtain ⟨⟨w, rest'⟩, hread, heq⟩ := Option.map_eq_some_iff.mp h
        obtain ⟨rfl, rfl⟩ := Prod.mk.inj heq
        rw [ih hread]
        rfl

theorem reads_varint {j k n : ℕ} (hjk : j ≤ k) (hn : n < 128 ^ j) (hj : 0 < j) :
    Reads (readVarint k) (writeVarint j n) n :=
  ⟨readVarint_write hjk hn hj, fun _ hi => readVarint_cut hi⟩

/-! ## Length-delimited strings -/

def writeString (s : Bytes) : Bytes := writeVarint 5 s.length ++ s

def readString : Reader Bytes := (readVarint 5).andThen takeBytes

theorem reads_string {s : Bytes} (h : s.length < 128 ^ 5) : Reads readString (writeString s) s :=
  (reads_varint le_rfl h (by decide)).andThen (reads_takeBytes s)

end RaftStorage.Library
