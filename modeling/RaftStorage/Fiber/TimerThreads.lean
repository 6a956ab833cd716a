import RaftStorage.Fiber.TimerSpecs

/-! Several threads in `listExpiredCb`. A thread reads the clock, and takes the write lock later: the
readings come from a clock that never goes back, but they reach the manager in any order. -/

namespace RaftStorage.Monsoon
open Library

variable {Cb : Type*}

structure TimerThreads (Cb : Type*) where
  manager : TimerManager Cb
  latest : UInt64
  nowMs : ℕ → Option UInt64

inductive ThreadAction (Cb : Type*) where
  | read (thread : ℕ) (now : UInt64)
  /-- `d` is where the thread's search timer is allocated -/
  | lock (thread d : ℕ)
  | call (c : TimerCall Cb)

namespace TimerThreads

def init (start : UInt64) : TimerThreads Cb where
  manager := .create start
  latest := start
  nowMs := fun _ => none

def after (m : TimerManager Cb) : Except TimerFault (TimerManager Cb) → TimerManager Cb
  | .ok m' => m'
  | .error _ => m

def step (s : TimerThreads Cb) : ThreadAction Cb → TimerThreads Cb
  | .read thread now =>
    if s.latest ≤ now then
      { s with latest := now, nowMs := Function.update s.nowMs thread (some now) }
    else s
  | .lock thread d =>
    match s.nowMs thread with
    | none => s
    | some now =>
      { s with
        manager := after s.manager (s.manager.step (.listExpiredCb now d))
        nowMs := Function.update s.nowMs thread none }
  | .call c => { s with manager := after s.manager (s.manager.call c) }

def expired (s : TimerThreads Cb) : ThreadAction Cb → List ℕ
  | .lock thread d =>
    match s.nowMs thread with
    | none => []
    | some now =>
      if (s.manager.heap d).isNone then (s.manager.takeExpired now d).1 else []
  | _ => []

/-- No deadline among them lies after the latest reading. -/
def NoneEarly (s : TimerThreads Cb) (act : ThreadAction Cb) : Prop :=
  ∀ a ∈ s.expired act, TimerManager.nextAt s.manager.heap a ≤ s.latest

instance (s : TimerThreads Cb) (act : ThreadAction Cb) : Decidable (s.NoneEarly act) :=
  inferInstanceAs (Decidable (∀ a ∈ _, _))

/-- When a thread comes to the lock, its reading is not older than `previouseTime_`, or at most an
hour older where `previouseTime_` is an hour or more; or else every timer is due. -/
def ReadingFits (s : TimerThreads Cb) : ThreadAction Cb → Prop
  | .lock thread d => ∀ now, s.nowMs thread = some now → s.manager.heap d = none →
      s.manager.previouseTime ≤ now ∨
      (3600000 ≤ s.manager.previouseTime.toNat ∧
        s.manager.previouseTime.toNat ≤ now.toNat + 3600000) ∨
      ∀ a ∈ s.manager.timers, TimerManager.nextAt s.manager.heap a ≤ s.latest
  | _ => True

structure Sound (s : TimerThreads Cb) : Prop where
  kept : s.manager.WellKept
  readings : ∀ thread now, s.nowMs thread = some now → now ≤ s.latest

variable {s : TimerThreads Cb}

theorem sound_init (start : UInt64) : (init start : TimerThreads Cb).Sound :=
  ⟨TimerManager.wellKept_create start, fun _ _ h => absurd h (by simp [init])⟩

theorem kept_after {m : TimerManager Cb} {r : Except TimerFault (TimerManager Cb)}
    (h : ∃ m', r = .ok m' ∧ m'.WellKept) : (after m r).WellKept := by
  obtain ⟨m', rfl, hkept⟩ := h
  exact hkept

theorem Sound.step (h : s.Sound) (act : ThreadAction Cb) : (s.step act).Sound := by
  cases act with
  | read thread now =>
    rw [TimerThreads.step]
    split_ifs with hlate
    · refine ⟨h.kept, fun th v hv => ?_⟩
      by_cases heq : th = thread
      · subst heq
        simp only [Function.update_self, Option.some.injEq] at hv
        exact hv ▸ UInt64.le_refl _
      · simp only [Function.update_of_ne heq] at hv
        exact UInt64.le_trans (h.readings th v hv) hlate
    · exact h
  | lock thread d =>
    rw [TimerThreads.step]
    split
    · exact h
    · rename_i now hnow
      refine ⟨kept_after (h.kept.step _), fun th v hv => ?_⟩
      by_cases heq : th = thread
      · subst heq
        simp at hv
      · simp only [Function.update_of_ne heq] at hv
        exact h.readings th v hv
  | call c => exact ⟨kept_after (h.kept.call c), h.readings⟩

theorem detectClockRolllover_iff (m : TimerManager Cb) (now : UInt64) :
    (m.detectClockRolllover now).2 = true ↔ now < m.previouseTime ∧
      (m.previouseTime.toNat < 3600000 ∨ now.toNat + 3600000 < m.previouseTime.toNat) := by
  have hprev := m.previouseTime.toNat_lt
  have hnow := now.toNat_lt
  have hhour : (60 * 60 * 1000 : UInt64).toNat = 3600000 := by decide
  rw [TimerManager.detectClockRolllover, Bool.and_eq_true, decide_eq_true_eq, decide_eq_true_eq,
    UInt64.lt_iff_toNat_lt, UInt64.lt_iff_toNat_lt, UInt64.toNat_sub, hhour]
  omega

theorem Sound.noneEarly_iff (h : s.Sound) (act : ThreadAction Cb) :
    s.NoneEarly act ↔ s.ReadingFits act := by
  cases act with
  | read thread now => exact ⟨fun _ => trivial, fun _ a ha => absurd ha List.not_mem_nil⟩
  | call c => exact ⟨fun _ => trivial, fun _ a ha => absurd ha List.not_mem_nil⟩
  | lock thread d =>
    cases hread : s.nowMs thread with
    | none =>
      constructor
      · intro _ now hnow
        simp [hread] at hnow
      · intro _ a ha
        simp [expired, hread] at ha
    | some now =>
      by_cases hd : s.manager.heap d = none
      · have hexpired : s.expired (.lock thread d) = s.manager.due now := by
          simp only [expired, hread, hd, Option.isNone_none, if_true]
          exact (h.kept.takeExpired hd now).1
        have hlatest := UInt64.le_iff_toNat_le.mp (h.readings thread now hread)
        have hroll := detectClockRolllover_iff s.manager now
        rw [NoneEarly, hexpired]
        constructor
        · intro hearly now' hnow' _
          obtain rfl : now = now' := Option.some.inj (hread.symm.trans hnow')
          by_contra hno
          rw [not_or, not_or] at hno
          apply hno.2.2
          intro a ha
          apply hearly a
          rw [TimerManager.mem_due]
          refine ⟨ha, Or.inl (hroll.mpr ?_)⟩
          rw [UInt64.le_iff_toNat_le] at hno
          rw [UInt64.lt_iff_toNat_lt]
          omega
        · intro hfits a ha
          rw [TimerManager.mem_due, hroll, UInt64.lt_iff_toNat_lt] at ha
          rcases hfits now hread hd with hle | hhour | hall
          · rw [UInt64.le_iff_toNat_le] at hle
            rcases ha.2 with hold | hdue
            · omega
            · exact UInt64.le_trans hdue (h.readings thread now hread)
          · rcases ha.2 with hold | hdue
            · omega
            · exact UInt64.le_trans hdue (h.readings thread now hread)
          · exact hall a ha.1
      · constructor
        · intro _ now' _ hnone
          exact absurd hnone hd
        · intro _ a ha
          simp [expired, hread, hd, Option.isNone_iff_eq_none] at ha

/-- Over every run, a callback is handed out before its time exactly when a reading that
`detectClockRolllover` takes for a rollover meets a timer that is not due. -/
theorem none_early_iff (start : UInt64) (acts : List (ThreadAction Cb)) :
    Along step NoneEarly (init start : TimerThreads Cb) acts ↔
      Along step ReadingFits (init start : TimerThreads Cb) acts :=
  along_congr (fun _ a h _ => h.step a) (fun _ a h => h.noneEarly_iff a) (sound_init start) acts

/-- Two threads read 100 and 200 in the first hour after boot and take the lock in the other order:
the second one hands out the timer that is due at 10100. -/
theorem fires_early_after_boot :
    ¬∀ (start : UInt64) (acts : List (ThreadAction Unit)),
      Along step NoneEarly (init start : TimerThreads Unit) acts := by
  intro h
  have hrun := h 0 [.call (.addTimer 1 10000 () false 100), .read 0 100, .read 1 200, .lock 1 7,
    .lock 0 8]
  exact absurd hrun (by decide +kernel)

end TimerThreads

end RaftStorage.Monsoon
