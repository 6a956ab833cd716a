import RaftStorage.Fiber.Timer
import Mathlib.Algebra.Order.Ring.Int

/-! How long `IOManager::idle` sleeps. The time to the first deadline is a `uint64_t`; it is cut down
to `int`, bounded, stored back and cut down again, once for each time that a signal interrupts
`epoll_wait`. -/

namespace RaftStorage.Monsoon

variable {Cb : Type*}

/-- `(int)x`: the low 32 bits in two's complement -/
def toInt (x : UInt64) : ℤ :=
  if x.toNat % 2 ^ 32 < 2 ^ 31 then (x.toNat % 2 ^ 32 : ℕ) else (x.toNat % 2 ^ 32 : ℕ) - 2 ^ 32

def ofInt (i : ℤ) : UInt64 := UInt64.ofNat (i % 2 ^ 64).toNat

/-- What the hooked `sleep` asks of `addTimer`; the product is an `unsigned int`. -/
def sleepMs (seconds : UInt32) : UInt64 := (seconds * 1000).toUInt64

namespace IOManager

def maxTimeout : ℤ := 5000

/-- `IOManager::stopping` with what `getNextTimer` reported; `stop` is what `Scheduler::stopping`
says. -/
def stopping (timeout : UInt64) (pendingEventCnt : ℕ) (stop : Bool) : Bool :=
  timeout = ~~~0 && pendingEventCnt = 0 && stop

/-- The start of each pass through the loop around `epoll_wait`. -/
def boundTimeout (nextTimeout : UInt64) : UInt64 :=
  if nextTimeout ≠ ~~~0 then ofInt (min (toInt nextTimeout) maxTimeout) else ofInt maxTimeout

/-- The argument of `epoll_wait` after `retries` interruptions; `none` when `idle` ends instead. -/
def idleTimeout (m : TimerManager Cb) (now : UInt64) (pendingEventCnt : ℕ) (stop : Bool)
    (retries : ℕ) : Option ℤ :=
  let nextTimeout := (m.getNextTimer now).2
  if stopping nextTimeout pendingEventCnt stop then none
  else some (toInt (boundTimeout^[retries + 1] nextTimeout))

/-! ## The conversions -/

theorem toInt_nonneg_iff (x : UInt64) : 0 ≤ toInt x ↔ x.toNat % 2 ^ 32 < 2 ^ 31 := by
  rw [toInt]
  split_ifs with hlow
  · omega
  · omega

theorem toInt_le {x : UInt64} : toInt x ≤ x.toNat := by
  rw [toInt]
  split_ifs <;> omega

theorem toNat_ofInt {i : ℤ} (h₀ : 0 ≤ i) (h₁ : i ≤ maxTimeout) : ((ofInt i).toNat : ℤ) = i := by
  rw [maxTimeout] at h₁
  rw [ofInt, UInt64.toNat_ofNat']
  omega

theorem toInt_ofInt {i : ℤ} (h₀ : -2 ^ 31 ≤ i) (h₁ : i ≤ maxTimeout) : toInt (ofInt i) = i := by
  rw [maxTimeout] at h₁
  rw [toInt, ofInt, UInt64.toNat_ofNat']
  split_ifs <;> omega

theorem neg_le_toInt (x : UInt64) : -2 ^ 31 ≤ toInt x := by
  rw [toInt]
  split_ifs <;> omega

/-! ## The loop -/

theorem toInt_boundTimeout {x : UInt64} (hx : x ≠ ~~~0) :
    toInt (boundTimeout x) = min (toInt x) maxTimeout := by
  rw [boundTimeout, if_pos hx]
  apply toInt_ofInt
  · exact le_min (neg_le_toInt x) (by decide)
  · exact min_le_right _ _

theorem boundTimeout_ofInt {i : ℤ} (h₀ : 0 ≤ i) (h₁ : i ≤ maxTimeout) :
    boundTimeout (ofInt i) = ofInt i := by
  have hval := toNat_ofInt h₀ h₁
  have hmax : maxTimeout = 5000 := rfl
  have hne : ofInt i ≠ ~~~0 := by
    intro heq
    rw [heq] at hval
    have hones : (~~~(0 : UInt64)).toNat = 18446744073709551615 := by decide
    omega
  rw [boundTimeout, if_pos hne, toInt_ofInt (by omega) h₁, min_eq_left h₁]

theorem boundTimeout_iterate {x : UInt64} {i : ℤ} (h₀ : 0 ≤ i) (h₁ : i ≤ maxTimeout)
    (hx : boundTimeout x = ofInt i) (retries : ℕ) : boundTimeout^[retries + 1] x = ofInt i := by
  induction retries with
  | zero => exact hx
  | succ k ih => rw [Function.iterate_succ_apply', ih, boundTimeout_ofInt h₀ h₁]

theorem timeouts_bounded_iff (x : UInt64) :
    (∀ retries, 0 ≤ toInt (boundTimeout^[retries + 1] x) ∧
      toInt (boundTimeout^[retries + 1] x) ≤ maxTimeout ∧
      toInt (boundTimeout^[retries + 1] x) ≤ x.toNat) ↔
    x = ~~~0 ∨ x.toNat % 2 ^ 32 < 2 ^ 31 := by
  by_cases hx : x = ~~~0
  · have hfirst : boundTimeout x = ofInt maxTimeout := if_neg (by simp [hx])
    have hones : x.toNat = 18446744073709551615 := by rw [hx]; decide
    have hmax : maxTimeout = 5000 := rfl
    refine ⟨fun _ => Or.inl hx, fun _ retries => ?_⟩
    rw [boundTimeout_iterate (by decide) le_rfl hfirst, toInt_ofInt (by decide) le_rfl]
    omega
  · constructor
    · intro h
      have hfirst : 0 ≤ toInt (boundTimeout^[1] x) := (h 0).1
      rw [Function.iterate_one, toInt_boundTimeout hx] at hfirst
      exact Or.inr ((toInt_nonneg_iff x).mp (hfirst.trans (min_le_left _ _)))
    · rintro (heq | hlow) retries
      · exact absurd heq hx
      have hnonneg : 0 ≤ min (toInt x) maxTimeout :=
        le_min ((toInt_nonneg_iff x).mpr hlow) (by decide)
      have hle : min (toInt x) maxTimeout ≤ maxTimeout := min_le_right _ _
      have hfirst : boundTimeout x = ofInt (min (toInt x) maxTimeout) := if_pos hx
      rw [boundTimeout_iterate hnonneg hle hfirst, toInt_ofInt (le_trans (by decide) hnonneg) hle]
      exact ⟨hnonneg, hle, (min_le_left _ _).trans toInt_le⟩

/-- There is no timer, or the first deadline has come, or the remaining milliseconds fit: their low
32 bits are below `2 ^ 31`, or they are all of the 64 bits. -/
def RemainingFits (m : TimerManager Cb) (now : UInt64) : Prop :=
  ∀ first ∈ m.timers.head?, now < TimerManager.nextAt m.heap first →
    TimerManager.nextAt m.heap first - now = ~~~0 ∨
      (TimerManager.nextAt m.heap first - now).toNat % 2 ^ 32 < 2 ^ 31

theorem remainingFits_iff (m : TimerManager Cb) (now : UInt64) : RemainingFits m now ↔
    (m.getNextTimer now).2 = ~~~0 ∨ (m.getNextTimer now).2.toNat % 2 ^ 32 < 2 ^ 31 := by
  rw [RemainingFits, TimerManager.getNextTimer]
  cases m.timers with
  | nil => simp
  | cons first rest =>
    by_cases hdue : now ≥ TimerManager.nextAt m.heap first
    · have hnot : ¬now < TimerManager.nextAt m.heap first := UInt64.not_lt.mpr hdue
      simp [hdue, hnot]
    · have hlt : now < TimerManager.nextAt m.heap first := UInt64.not_le.mp hdue
      simp [hdue, hlt]

/-- The timeouts of `epoll_wait` stay between 0 and 5000 and within what `getNextTimer` reported,
for any number of interruptions, exactly when the remaining time survives the cut to `int`. -/
theorem idle_timeout_iff (m : TimerManager Cb) (now : UInt64) (pendingEventCnt : ℕ) (stop : Bool) :
    (∀ retries, ∀ t ∈ idleTimeout m now pendingEventCnt stop retries,
      0 ≤ t ∧ t ≤ 5000 ∧ t ≤ (m.getNextTimer now).2.toNat) ↔ RemainingFits m now := by
  rw [remainingFits_iff]
  by_cases hstop : stopping (m.getNextTimer now).2 pendingEventCnt stop = true
  · have hlast : (m.getNextTimer now).2 = ~~~0 := by
      simp only [stopping, Bool.and_eq_true, decide_eq_true_eq] at hstop
      exact hstop.1.1
    refine ⟨fun _ => Or.inl hlast, fun _ retries t ht => ?_⟩
    simp [idleTimeout, hstop] at ht
  · rw [← timeouts_bounded_iff]
    simp [idleTimeout, hstop, maxTimeout]

theorem sleep_blocks_idle :
    ¬∀ (m : TimerManager Unit) (now : UInt64) (pendingEventCnt : ℕ) (stop : Bool) (retries : ℕ),
      ∀ t ∈ idleTimeout m now pendingEventCnt stop retries,
        0 ≤ t ∧ t ≤ 5000 ∧ t ≤ (m.getNextTimer now).2.toNat := by
  intro h
  have hwait := h ((TimerManager.create 0).addTimer 1 (sleepMs 3000000) (some ()) false 0).1 0 1
    false 0 (-1294967296) (by decide +kernel)
  exact absurd hwait.1 (by decide)

end IOManager

end RaftStorage.Monsoon
