import RaftStorage.Library.OrderedSet
import RaftStorage.Library.Transition
import Mathlib.Data.Prod.Lex
import Mathlib.Logic.Function.Basic

/-! The timers of `timer.cpp`. `timers_` is a `std::set` of pointers that is ordered by a mutable
field of what they point to, so the model keeps the timers in a heap and the set as a list of
addresses. Each function runs under the manager's write lock; a clock reading that it makes is an
argument. -/

namespace RaftStorage.Monsoon
open Library

variable {Cb : Type*}

structure Timer (Cb : Type*) where
  recurring : Bool
  ms : UInt64
  next : UInt64
  /-- `none` is the empty function -/
  cb : Option Cb

/-- The constructor that `listExpiredCb` uses for its search. -/
def Timer.ofNext (next : UInt64) : Timer Cb where
  recurring := false
  ms := 0
  next := next
  cb := none

inductive TimerFault where
  /-- `erase` of the iterator `end()` -/
  | eraseEnd
  /-- `next_` assigned while the timer is in the set -/
  | keyInSet
  deriving DecidableEq, Repr

structure TimerManager (Cb : Type*) where
  /-- the timers that exist, by address -/
  heap : ℕ → Option (Timer Cb)
  timers : List ℕ
  tickled : Bool
  previouseTime : UInt64

namespace TimerManager

def create (now : UInt64) : TimerManager Cb where
  heap := fun _ => none
  timers := []
  tickled := false
  previouseTime := now

def nextAt (heap : ℕ → Option (Timer Cb)) (a : ℕ) : UInt64 := (heap a).elim 0 Timer.next

def comparator (heap : ℕ → Option (Timer Cb)) : Option ℕ → Option ℕ → Bool
  | none, none => false
  | none, some _ => true
  | some _, none => false
  | some lhs, some rhs =>
    if nextAt heap lhs < nextAt heap rhs then true
    else if nextAt heap rhs < nextAt heap lhs then false
    else lhs < rhs

def less (m : TimerManager Cb) (a b : ℕ) : Bool := comparator m.heap (some a) (some b)

def set (m : TimerManager Cb) (a : ℕ) (t : Timer Cb) : TimerManager Cb :=
  { m with heap := Function.update m.heap a (some t) }

/-- An assignment to `next_` (and `ms_`) of the timer at `a`. -/
def setNext (m : TimerManager Cb) (a : ℕ) (t : Timer Cb) (ms next : UInt64) :
    Except TimerFault (TimerManager Cb) :=
  if a ∈ m.timers then .error .keyInSet else .ok (m.set a { t with ms := ms, next := next })

def insert (m : TimerManager Cb) (a : ℕ) : TimerManager Cb :=
  { m with timers := OrderedSet.insert m.less a m.timers }

/-- `addTimer` under the lock, and whether `OnTimerInsertedAtFront` is called. -/
def addTimerLocked (m : TimerManager Cb) (val : ℕ) : TimerManager Cb × Bool :=
  let m := m.insert val
  let atFront := m.timers.head? = some val && !m.tickled
  (if atFront then { m with tickled := true } else m, atFront)

def addTimer (m : TimerManager Cb) (a : ℕ) (ms : UInt64) (cb : Option Cb) (recurring : Bool)
    (now : UInt64) : TimerManager Cb × Bool :=
  (m.set a { recurring := recurring, ms := ms, next := now + ms, cb := cb }).addTimerLocked a

def cancel (m : TimerManager Cb) (this : ℕ) (t : Timer Cb) :
    Except TimerFault (TimerManager Cb × Bool) :=
  if t.cb.isSome then
    let m := m.set this { t with cb := none }
    match OrderedSet.eraseFound m.less this m.timers with
    | none => .error .eraseEnd
    | some timers => .ok ({ m with timers := timers }, true)
  else .ok (m, false)

def refresh (m : TimerManager Cb) (this : ℕ) (t : Timer Cb) (now : UInt64) :
    Except TimerFault (TimerManager Cb × Bool) :=
  if t.cb.isNone then .ok (m, false)
  else
    match OrderedSet.eraseFound m.less this m.timers with
    | none => .ok (m, false)
    | some timers => do
      let m := { m with timers := timers }
      let m ← m.setNext this t t.ms (now + t.ms)
      return (m.insert this, true)

def reset (m : TimerManager Cb) (this : ℕ) (t : Timer Cb) (ms : UInt64) (fromNow : Bool)
    (now : UInt64) : Except TimerFault (TimerManager Cb × Bool) :=
  if ms = t.ms ∧ fromNow = false then .ok (m, true)
  else if t.cb.isNone then .ok (m, true)
  else
    match OrderedSet.eraseFound m.less this m.timers with
    | none => .ok (m, false)
    | some timers => do
      let m := { m with timers := timers }
      let start := if fromNow then now else t.next - t.ms
      let m ← m.setNext this t ms (start + ms)
      return ((m.addTimerLocked this).1, true)

/-- The subtraction wraps around when `previouseTime_` is below one hour. -/
def detectClockRolllover (m : TimerManager Cb) (now : UInt64) : TimerManager Cb × Bool :=
  ({ m with previouseTime := now },
    now < m.previouseTime && now < m.previouseTime - 60 * 60 * 1000)

/-- The timers before and from the iterator `it`; the timer made for the search is at `d`. -/
def splitExpired (m : TimerManager Cb) (now : UInt64) (d : ℕ) (rollover : Bool) : List ℕ × List ℕ :=
  if rollover then (m.timers, [])
  else
    let nowTimer := m.set d (Timer.ofNext now)
    let it := OrderedSet.lowerBound nowTimer.less d m.timers
    (m.timers.takeWhile (nowTimer.less · d) ++ it.takeWhile (nextAt m.heap · = now),
      it.dropWhile (nextAt m.heap · = now))

def expireOne (now : UInt64) (r : TimerManager Cb × List (Option Cb)) (a : ℕ) :
    Except TimerFault (TimerManager Cb × List (Option Cb)) :=
  match r.1.heap a with
  | none => .ok r
  | some t =>
    if t.recurring then do
      let m ← r.1.setNext a t t.ms (now + t.ms)
      return (m.insert a, r.2 ++ [t.cb])
    else .ok (r.1.set a { t with cb := none }, r.2 ++ [t.cb])

/-- The vector `expired`, and the manager after the range has been erased. -/
def takeExpired (m : TimerManager Cb) (now : UInt64) (d : ℕ) : List ℕ × TimerManager Cb :=
  match m.timers with
  | [] => ([], m)
  | front :: _ =>
    let (m, rollover) := m.detectClockRolllover now
    if !rollover && nextAt m.heap front > now then ([], m)
    else
      let (expired, rest) := m.splitExpired now d rollover
      (expired, { m with timers := rest })

/-- `now` was read before the lock was taken. -/
def listExpiredCb (m : TimerManager Cb) (now : UInt64) (d : ℕ) :
    Except TimerFault (TimerManager Cb × List (Option Cb)) :=
  let (expired, m) := m.takeExpired now d
  expired.foldlM (expireOne now) (m, [])

def getNextTimer (m : TimerManager Cb) (now : UInt64) : TimerManager Cb × UInt64 :=
  ({ m with tickled := false },
    match m.timers with
    | [] => ~~~0
    | next :: _ => if now ≥ nextAt m.heap next then 0 else nextAt m.heap next - now)

end TimerManager

/-! ## Runs -/

/-- A call on the timers other than `listExpiredCb`. A timer that is not in the set goes away with
the last pointer to it, and its address can be used again. -/
inductive TimerCall (Cb : Type*) where
  | addTimer (a : ℕ) (ms : UInt64) (cb : Cb) (recurring : Bool) (now : UInt64)
  | cancel (a : ℕ)
  | refresh (a : ℕ) (now : UInt64)
  | reset (a : ℕ) (ms : UInt64) (fromNow : Bool) (now : UInt64)
  | getNextTimer (now : UInt64)
  | release (a : ℕ)

inductive TimerAction (Cb : Type*) where
  | call (c : TimerCall Cb)
  | listExpiredCb (now : UInt64) (d : ℕ)

namespace TimerManager

/-- No timer is made at an address in use, and only timers that exist are called. -/
def call (m : TimerManager Cb) : TimerCall Cb → Except TimerFault (TimerManager Cb)
  | .addTimer a ms cb recurring now =>
    if (m.heap a).isNone then .ok (m.addTimer a ms (some cb) recurring now).1 else .ok m
  | .cancel a =>
    match m.heap a with
    | none => .ok m
    | some t => (m.cancel a t).map Prod.fst
  | .refresh a now =>
    match m.heap a with
    | none => .ok m
    | some t => (m.refresh a t now).map Prod.fst
  | .reset a ms fromNow now =>
    match m.heap a with
    | none => .ok m
    | some t => (m.reset a t ms fromNow now).map Prod.fst
  | .getNextTimer now => .ok (m.getNextTimer now).1
  | .release a =>
    if a ∈ m.timers then .ok m else .ok { m with heap := Function.update m.heap a none }

def step (m : TimerManager Cb) : TimerAction Cb → Except TimerFault (TimerManager Cb)
  | .call c => m.call c
  | .listExpiredCb now d =>
    if (m.heap d).isNone then (m.listExpiredCb now d).map Prod.fst else .ok m

end TimerManager

end RaftStorage.Monsoon
