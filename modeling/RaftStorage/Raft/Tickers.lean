import RaftStorage.Raft.Node
import Mathlib.Algebra.Order.Ring.Int

/-! The loops of `electionTimeOutTicker` and `leaderHearBeatTicker`. Each sleeps until some time
after the last reset and then acts, unless there was another reset while it slept. The node's lock is
held only while the time is measured, so the other threads run between any two phases of a turn. -/

namespace RaftStorage

def minRandomizedElectionTime : ℤ := 300

def maxRandomizedElectionTime : ℤ := 500

def heartBeatTimeout : ℤ := 25

/-- A result of `getRandomizedElectionTimeout`, in milliseconds. -/
abbrev ElectionTimeout :=
  { ms : ℤ // minRandomizedElectionTime ≤ ms ∧ ms ≤ maxRandomizedElectionTime }

def milliseconds (ms : ℤ) : ℤ := ms * 1000000

/-- The clock of the timers when `now()` is `now`; both run at the same pace. -/
def getElapsedMS (boot now : ℤ) : ℤ := (boot + now) / 1000000

/-- Where a ticker stands in a turn of its loop: `wakeTime` is from `now()`, `next` from
`GetElapsedMS`. -/
inductive Ticker where
  | resting
  | measuring
  | falling (wakeTime suitableSleepTime : ℤ)
  | sleeping (wakeTime next : ℤ)
  | comparing (wakeTime : ℤ)
  | acting
  deriving DecidableEq, Repr

namespace Ticker

/-- What one thread does without being interrupted. The caller makes the call of `acting`. -/
def step (rests : Bool) (timeout lastReset boot now : ℤ) : Ticker → Ticker
  | .resting => if rests then .resting else .measuring
  | .measuring =>
    let suitableSleepTime := timeout + lastReset - now
    if suitableSleepTime > milliseconds 1 then .falling now suitableSleepTime else .comparing now
  | .falling wakeTime suitableSleepTime =>
    -- `usleep` takes microseconds, and its timer whole milliseconds
    .sleeping wakeTime (getElapsedMS boot now + suitableSleepTime / 1000 / 1000)
  | .sleeping wakeTime next =>
    if next ≤ getElapsedMS boot now then .comparing wakeTime else .sleeping wakeTime next
  | .comparing wakeTime => if lastReset - wakeTime > 0 then .resting else .acting
  | .acting => .resting

end Ticker

namespace Raft

variable {n : ℕ}

def electionTimeOutTicker (rf : Raft n) (timeout : ElectionTimeout)
    (lastResetElectionTime boot now : ℤ) : Ticker → Ticker :=
  Ticker.step (rf.status = .leader) (milliseconds timeout) lastResetElectionTime boot now

def leaderHearBeatTicker (rf : Raft n) (lastResetHearBeatTime boot now : ℤ) : Ticker → Ticker :=
  Ticker.step (rf.status ≠ .leader) (milliseconds heartBeatTimeout) lastResetHearBeatTime boot now

end Raft

namespace Ticker

variable {k : Ticker} {rests : Bool} {wait timeout boot start last now now' rounds rounds' : ℤ}

/-! ## How long a ticker waits -/

/-- Unless there was a reset after `wakeTime`, the ticker will not act before the last one is `wait`
ago. The two truncations to milliseconds may each cost one millisecond. -/
def Waits (wait boot last now : ℤ) : Ticker → Prop
  | .resting | .measuring | .acting => True
  | .falling wakeTime suitableSleepTime =>
    wakeTime < now ∧ (last ≤ wakeTime → last + wait + milliseconds 2 ≤ wakeTime + suitableSleepTime)
  | .sleeping wakeTime next =>
    wakeTime < now ∧ (last ≤ wakeTime → last + wait + boot ≤ milliseconds next)
  | .comparing wakeTime => wakeTime < now ∧ (last ≤ wakeTime → last + wait ≤ now)

theorem Waits.later (h : k.Waits wait boot last now) (hnow : now ≤ now') :
    k.Waits wait boot last now' := by
  cases k with
  | falling => exact h.imp_left fun hlt => hlt.trans_le hnow
  | sleeping => exact h.imp_left fun hlt => hlt.trans_le hnow
  | comparing wakeTime => exact ⟨h.1.trans_le hnow, fun hle => (h.2 hle).trans hnow⟩
  | _ => exact trivial

theorem Waits.reset (h : k.Waits wait boot last now) : k.Waits wait boot now now := by
  cases k with
  | falling => exact ⟨h.1, fun hle => absurd h.1 hle.not_gt⟩
  | sleeping => exact ⟨h.1, fun hle => absurd h.1 hle.not_gt⟩
  | comparing => exact ⟨h.1, fun hle => absurd h.1 hle.not_gt⟩
  | _ => exact trivial

theorem lt_milliseconds_getElapsedMS : boot + now < milliseconds (getElapsedMS boot now) +
    milliseconds 1 := by
  unfold milliseconds getElapsedMS
  omega

theorem milliseconds_getElapsedMS_le : milliseconds (getElapsedMS boot now) ≤ boot + now := by
  unfold milliseconds getElapsedMS
  omega

theorem Waits.step (h : k.Waits wait boot last now) (hwait : wait + milliseconds 2 ≤ timeout)
    (hnow : now < now') : (k.step rests timeout last boot now).Waits wait boot last now' := by
  cases k with
  | resting =>
    simp only [Ticker.step]
    split_ifs <;> trivial
  | measuring =>
    simp only [Ticker.step]
    split_ifs with hsleep
    · exact ⟨hnow, fun _ => by omega⟩
    · refine ⟨hnow, fun _ => ?_⟩
      unfold milliseconds at hwait hsleep
      omega
  | falling wakeTime suitableSleepTime =>
    refine ⟨h.1.trans hnow, fun hle => ?_⟩
    have hdue := h.2 hle
    have hmeasured := h.1
    have hclock : boot + now < milliseconds (getElapsedMS boot now) + milliseconds 1 :=
      lt_milliseconds_getElapsedMS
    unfold milliseconds at *
    omega
  | sleeping wakeTime next =>
    simp only [Ticker.step]
    split_ifs with hwoken
    · refine ⟨h.1.trans hnow, fun hle => ?_⟩
      have hdue := h.2 hle
      have hclock : milliseconds (getElapsedMS boot now) ≤ boot + now :=
        milliseconds_getElapsedMS_le
      unfold milliseconds at *
      omega
    · exact h.later hnow.le
  | comparing wakeTime =>
    simp only [Ticker.step]
    split_ifs <;> trivial
  | acting => trivial

theorem Waits.due (h : k.Waits wait boot last now)
    (hact : k.step rests timeout last boot now = .acting) : last + wait ≤ now := by
  cases k with
  | resting =>
    simp only [Ticker.step] at hact
    split_ifs at hact
  | measuring =>
    simp only [Ticker.step] at hact
    split_ifs at hact
  | falling => cases hact
  | sleeping =>
    simp only [Ticker.step] at hact
    split_ifs at hact
  | comparing wakeTime =>
    simp only [Ticker.step] at hact
    split_ifs at hact with hreset
    exact h.2 (by omega)
  | acting => cases hact

/-! ## How often a ticker acts -/

/-- Since `start` there was time for the rounds, and for one more if the ticker is about to act. -/
structure Paced (wait boot start last now rounds : ℤ) (k : Ticker) : Prop where
  last_le : last ≤ now
  waits : k.Waits wait boot last now
  past : start + rounds * wait ≤ last
  due : k = .acting → start + (rounds + 1) * wait ≤ now

theorem paced_resting : Ticker.resting.Paced wait boot start start start 0 where
  last_le := le_rfl
  waits := trivial
  past := by omega
  due := by
    intro h
    cases h

theorem Paced.later (h : k.Paced wait boot start last now rounds) (hnow : now ≤ now') :
    k.Paced wait boot start last now' rounds where
  last_le := h.last_le.trans hnow
  waits := h.waits.later hnow
  past := h.past
  due := fun hk => (h.due hk).trans hnow

theorem Paced.reset (h : k.Paced wait boot start last now rounds) :
    k.Paced wait boot start now now rounds where
  last_le := le_rfl
  waits := h.waits.reset
  past := h.past.trans h.last_le
  due := h.due

theorem Paced.fewer (h : k.Paced wait boot start last now rounds) (hwait : 0 ≤ wait)
    (hle : rounds' ≤ rounds) : k.Paced wait boot start last now rounds' where
  last_le := h.last_le
  waits := h.waits
  past := by
    have hmul := mul_le_mul_of_nonneg_right hle hwait
    have hpast := h.past
    omega
  due := by
    intro hk
    have hmul := mul_le_mul_of_nonneg_right (add_le_add_left hle 1) hwait
    have hdue := h.due hk
    omega

theorem Paced.step (h : k.Paced wait boot start last now rounds)
    (hwait : wait + milliseconds 2 ≤ timeout) (hnow : now < now') :
    (k.step rests timeout last boot now).Paced wait boot start last now' rounds where
  last_le := h.last_le.trans hnow.le
  waits := h.waits.step hwait hnow
  past := h.past
  due := by
    intro hk
    have hdue := h.waits.due hk
    have hpast := h.past
    rw [add_mul, one_mul]
    omega

theorem Paced.act (h : Ticker.acting.Paced wait boot start last now rounds) :
    Ticker.resting.Paced wait boot start now now (rounds + 1) where
  last_le := le_rfl
  waits := trivial
  past := h.due rfl
  due := by
    intro hk
    cases hk

theorem Paced.rest (h : k.Paced wait boot start last now rounds) :
    Ticker.resting.Paced wait boot start last now rounds where
  last_le := h.last_le
  waits := trivial
  past := h.past
  due := by
    intro hk
    cases hk

end Ticker
end RaftStorage
