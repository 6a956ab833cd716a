import RaftStorage.Library.Wire

/-! Input that is a series of records: a reader is applied until nothing is left, and it starts each
record from what it has made of the ones before. Such input can be cut between two records without
notice, and nowhere else. -/

namespace RaftStorage.Library

variable {α : Type*} {read : α → Reader α} {a a' : α}

/-- Reads to the end of the input, in at most as many rounds as the first argument says. -/
def readAll (read : α → Reader α) : ℕ → α → Bytes → Option α
  | _, a, [] => some a
  | 0, _, _ :: _ => none
  | k + 1, a, b :: bytes => (read a (b :: bytes)).bind fun (a, rest) => readAll read k a rest

theorem readAll_nil (k : ℕ) (a : α) : readAll read k a [] = some a := by
  cases k <;> rfl

theorem readAll_append {f rest : Bytes} {k : ℕ} (hf : Reads (read a) f a') (hne : f ≠ [])
    (hk : (f ++ rest).length ≤ k) :
    ∃ k', rest.length ≤ k' ∧ readAll read k a (f ++ rest) = readAll read k' a' rest := by
  cases f with
  | nil => exact absurd rfl hne
  | cons b f =>
    cases k with
    | zero => simp at hk
    | succ k =>
      refine ⟨k, ?_, ?_⟩
      · simp only [List.cons_append, List.length_cons, List.length_append] at hk
        omega
      · have hwhole := hf.whole rest
        rw [List.cons_append] at hwhole ⊢
        rw [readAll, hwhole, Option.bind_some]

theorem readAll_take {f : Bytes} {k j : ℕ} (hf : Reads (read a) f a') (hj : 0 < j)
    (hlt : j < f.length) : readAll read k a (f.take j) = none := by
  cases hbytes : f.take j with
  | nil =>
    have hlen := congrArg List.length hbytes
    rw [List.length_take, List.length_nil] at hlen
    omega
  | cons b bytes =>
    cases k with
    | zero => rfl
    | succ k => rw [readAll, ← hbytes, hf.cut j hlt, Option.bind_none]

inductive Scans (read : α → Reader α) : α → Bytes → α → Prop
  | nil (a : α) : Scans read a [] a
  | cons {a b a' : α} {f bytes : Bytes} : Reads (read a) f b → f ≠ [] → Scans read b bytes a' →
      Scans read a (f ++ bytes) a'

theorem Scans.single {f : Bytes} (h : Reads (read a) f a') (hne : f ≠ []) : Scans read a f a' := by
  rw [← List.append_nil f]
  exact .cons h hne (.nil a')

theorem Scans.trans {b : α} {bytes bytes' : Bytes} (h : Scans read a bytes b)
    (h' : Scans read b bytes' a') : Scans read a (bytes ++ bytes') a' := by
  induction h with
  | nil a => exact h'
  | cons hf hne _ ih =>
    rw [List.append_assoc]
    exact .cons hf hne (ih h')

theorem Scans.readAll {bytes : Bytes} (h : Scans read a bytes a') {k : ℕ} (hk : bytes.length ≤ k) :
    readAll read k a bytes = some a' := by
  induction h generalizing k with
  | nil a => exact readAll_nil k a
  | cons hf hne _ ih =>
    obtain ⟨k', hk', hread⟩ := readAll_append hf hne hk
    rw [hread, ih hk']

/-- Records that are read one after the other, each with what is known behind it. A record without
bytes changes nothing. -/
inductive Trail (read : α → Reader α) : α → List (Bytes × α) → Prop
  | nil (a : α) : Trail read a []
  | skip {a : α} {records : List (Bytes × α)} : Trail read a records →
      Trail read a (([], a) :: records)
  | cons {a a' : α} {f : Bytes} {records : List (Bytes × α)} : Reads (read a) f a' → f ≠ [] →
      Trail read a' records → Trail read a ((f, a') :: records)

def bytesOf : List (Bytes × α) → Bytes
  | [] => []
  | (f, _) :: records => f ++ bytesOf records

def lastOf : α → List (Bytes × α) → α
  | a, [] => a
  | _, (_, a) :: records => lastOf a records

/-- The first `n` bytes end with a record, and `a'` is known there. -/
def StopsAt (a : α) (records : List (Bytes × α)) (n : ℕ) (a' : α) : Prop :=
  ∃ j, n = (bytesOf (records.take j)).length ∧ a' = lastOf a (records.take j)

theorem stopsAt_zero (a : α) (records : List (Bytes × α)) : StopsAt a records 0 a := ⟨0, rfl, rfl⟩

theorem stopsAt_cons {b : α} {f : Bytes} {records : List (Bytes × α)} {n : ℕ} :
    StopsAt a ((f, b) :: records) n a' ↔
      n = 0 ∧ a' = a ∨ f.length ≤ n ∧ StopsAt b records (n - f.length) a' := by
  constructor
  · rintro ⟨j, hlen, hlast⟩
    cases j with
    | zero => exact Or.inl ⟨hlen, hlast⟩
    | succ j =>
      rw [List.take_succ_cons, bytesOf, List.length_append] at hlen
      exact Or.inr ⟨by omega, j, by omega, hlast⟩
  · rintro (⟨rfl, rfl⟩ | ⟨hle, j, hlen, hlast⟩)
    · exact stopsAt_zero _ _
    · refine ⟨j + 1, ?_, hlast⟩
      rw [List.take_succ_cons, bytesOf, List.length_append]
      omega

/-- The first bytes of the records can be read exactly when they end with a record. -/
theorem Trail.readAll_take {records : List (Bytes × α)} (h : Trail read a records) {n k : ℕ}
    (hn : n ≤ (bytesOf records).length) (hk : n ≤ k) :
    readAll read k a ((bytesOf records).take n) = some a' ↔ StopsAt a records n a' := by
  induction h generalizing n k with
  | nil a =>
    have hzero : n = 0 := by simpa [bytesOf] using hn
    subst hzero
    simp [StopsAt, bytesOf, lastOf, readAll_nil, eq_comm]
  | @skip a records h ih =>
    rw [show bytesOf (([], a) :: records) = bytesOf records from rfl] at hn ⊢
    rw [ih hn hk, stopsAt_cons]
    constructor
    · exact fun hend => Or.inr ⟨Nat.zero_le n, hend⟩
    · rintro (⟨rfl, rfl⟩ | ⟨-, hend⟩)
      · exact stopsAt_zero _ _
      · exact hend
  | @cons a b f records hf hne h ih =>
    rw [bytesOf, List.length_append] at hn
    rw [bytesOf, List.take_append, stopsAt_cons]
    have hpos := List.length_pos_of_ne_nil hne
    by_cases hlt : n < f.length
    · have hinside : ¬(f.length ≤ n ∧ StopsAt b records (n - f.length) a') :=
        fun hend => absurd hend.1 (not_le.mpr hlt)
      rw [or_iff_left hinside, Nat.sub_eq_zero_of_le hlt.le, List.take_zero, List.append_nil]
      rcases Nat.eq_zero_or_pos n with rfl | hn0
      · rw [List.take_zero, readAll_nil]
        simp [eq_comm]
      · rw [Library.readAll_take hf hn0 hlt]
        simp [hn0.ne']
    · have hge := not_lt.mp hlt
      have hstart : ¬(n = 0 ∧ a' = a) := fun hend => by omega
      rw [List.take_of_length_le hge, or_iff_right hstart, and_iff_right hge]
      have hlen : (f ++ (bytesOf records).take (n - f.length)).length ≤ k := by
        rw [List.length_append, List.length_take]
        omega
      obtain ⟨k', hk', hread⟩ := readAll_append hf hne hlen
      rw [List.length_take] at hk'
      rw [hread, ih (by omega) (by omega)]

theorem Trail.readAll {records : List (Bytes × α)} (h : Trail read a records) :
    readAll read (bytesOf records).length a (bytesOf records) = some (lastOf a records) := by
  have hend : StopsAt a records (bytesOf records).length (lastOf a records) :=
    ⟨records.length, by rw [List.take_length], by rw [List.take_length]⟩
  have hwhole := (h.readAll_take le_rfl le_rfl).mpr hend
  rwa [List.take_length] at hwhole

end RaftStorage.Library
