import RaftStorage.Library.Transition
import Mathlib.Logic.Function.Basic

/-! Fibers and the workers that run them: `Scheduler::run`, the firing of timers and events in `idle`,
and the hooked calls, which register the current fiber first and call `yield` afterwards. The steps
are those between which another worker can come in, but for `yield`, which is one step: that a worker
takes the fiber after `state_ = READY` and before `swapcontext` is left out. -/

namespace RaftStorage.Monsoon
open Library

inductive FiberState where
  | ready | running | term
  deriving DecidableEq, Repr

inductive FiberPoint where
  | user
  /-- in a hooked call, after `addTimer` or `addEvent` and before `yield` -/
  | registered
  /-- in the callback of a sleep timer, which is `scheduler(fiber)` -/
  | wake (fiber : ℕ)
  deriving DecidableEq, Repr

inductive TaskKind where
  | fiber (fiber : ℕ)
  | wake (fiber : ℕ)
  | cb
  deriving DecidableEq, Repr

/-- `thread = none` is the source's `-1`. -/
structure SchedulerTask where
  kind : TaskKind
  thread : Option ℕ

inductive Worker where
  | looping
  | idle
  | taken (task : TaskKind)
  | running (fiber : ℕ)
  deriving DecidableEq, Repr

inductive SchedulerPanic where
  /-- `fiber task state error` -/
  | taskState
  /-- `state error` in `resume` -/
  | resumeState
  deriving DecidableEq, Repr

structure Scheduler where
  state : ℕ → FiberState
  point : ℕ → FiberPoint
  fibers : ℕ
  tasks : List SchedulerTask
  /-- the fibers with a sleep timer that has not fired -/
  timers : List ℕ
  /-- the fibers with a registered event that has not fired -/
  events : List ℕ
  workers : ℕ → Worker
  panic : Option SchedulerPanic

inductive SchedulerAction where
  | spawn (thread : Option ℕ)
  | take (worker : ℕ)
  | enterIdle (worker : ℕ)
  | leaveIdle (worker : ℕ)
  | resume (worker : ℕ)
  /-- `addTimer` in `sleep`, `usleep` or `nanosleep` -/
  | addTimer (worker : ℕ)
  /-- `addEvent` in `do_io` -/
  | addEvent (worker : ℕ)
  | yield (worker : ℕ)
  | finish (worker : ℕ)
  | runWake (worker : ℕ)
  | fireTimer (worker fiber : ℕ)
  /-- the delivery loop of `idle`, or `cancelEvent` called by a fiber -/
  | fireEvent (worker fiber : ℕ)

namespace Scheduler

def create : Scheduler where
  state := fun _ => .ready
  point := fun _ => .user
  fibers := 0
  tasks := []
  timers := []
  events := []
  workers := fun _ => .looping
  panic := none

def eligible (worker : ℕ) (task : SchedulerTask) : Bool :=
  task.thread = none || task.thread = some worker

def setWorker (s : Scheduler) (worker : ℕ) (w : Worker) : Scheduler :=
  { s with workers := Function.update s.workers worker w }

/-- `schedulerNoLock` with `thread = -1`. -/
def push (s : Scheduler) (kind : TaskKind) : Scheduler :=
  { s with tasks := s.tasks ++ [⟨kind, none⟩] }

/-- The locked part of the loop of `run`. -/
def take (s : Scheduler) (worker : ℕ) : Scheduler :=
  match s.tasks.find? (eligible worker) with
  | none => s
  | some task =>
    let taken := { s with tasks := s.tasks.eraseP (eligible worker) }.setWorker worker (.taken task.kind)
    match task.kind with
    | .fiber f => if s.state f = .ready then taken else { s with panic := some .taskState }
    | _ => taken

/-- A new fiber for a callback, and its first `resume`. -/
def runCb (s : Scheduler) (worker : ℕ) (point : FiberPoint) : Scheduler :=
  { s with
    state := Function.update s.state s.fibers .running
    point := Function.update s.point s.fibers point
    fibers := s.fibers + 1
    workers := Function.update s.workers worker (.running s.fibers) }

def resume (s : Scheduler) (worker : ℕ) : TaskKind → Scheduler
  | .fiber f =>
    if s.state f = .ready then
      { s with
        state := Function.update s.state f .running
        workers := Function.update s.workers worker (.running f) }
    else { s with panic := some .resumeState }
  | .wake f => s.runCb worker (.wake f)
  | .cb => s.runCb worker .user

def leave (s : Scheduler) (worker f : ℕ) (state : FiberState) : Scheduler :=
  { s with
    state := Function.update s.state f state
    point := Function.update s.point f .user
    workers := Function.update s.workers worker .looping }

def setPoint (s : Scheduler) (f : ℕ) (point : FiberPoint) : Scheduler :=
  { s with point := Function.update s.point f point }

def fiberStep (s : Scheduler) (worker f : ℕ) : SchedulerAction → Scheduler
  | .addTimer _ =>
    if s.point f = .user then { s with timers := s.timers ++ [f] }.setPoint f .registered else s
  | .addEvent _ =>
    if s.point f = .user then { s with events := s.events ++ [f] }.setPoint f .registered else s
  | .yield _ => if s.point f = .registered then s.leave worker f .ready else s
  | .finish _ => if s.point f = .user then s.leave worker f .term else s
  | .runWake _ =>
    match s.point f with
    | .wake g => (s.push (.fiber g)).leave worker f .term
    | _ => s
  | _ => s

def fiberOn (s : Scheduler) (worker : ℕ) : Option ℕ :=
  match s.workers worker with
  | .running f => some f
  | _ => none

/-- `idle` delivers events; a fiber calls `cancelEvent` only from its own code. -/
def delivers (s : Scheduler) (worker : ℕ) : Bool :=
  match s.workers worker with
  | .idle => true
  | .running f => s.point f = .user
  | _ => false

def fiberTurn (s : Scheduler) (worker : ℕ) (act : SchedulerAction) : Scheduler :=
  match s.fiberOn worker with
  | some f => s.fiberStep worker f act
  | none => s

def step (s : Scheduler) (act : SchedulerAction) : Scheduler :=
  if s.panic.isSome then s
  else
    match act with
    | .spawn thread => { s with tasks := s.tasks ++ [⟨.cb, thread⟩] }
    | .take worker => if s.workers worker = .looping then s.take worker else s
    | .enterIdle worker =>
      if s.workers worker = .looping ∧ s.tasks.find? (eligible worker) = none then
        s.setWorker worker .idle
      else s
    | .leaveIdle worker => if s.workers worker = .idle then s.setWorker worker .looping else s
    | .resume worker =>
      match s.workers worker with
      | .taken task => s.resume worker task
      | _ => s
    | .fireTimer worker f =>
      if s.workers worker = .idle ∧ f ∈ s.timers then
        { s with timers := s.timers.erase f }.push (.wake f)
      else s
    | .fireEvent worker f =>
      if s.delivers worker = true ∧ f ∈ s.events then
        { s with events := s.events.erase f }.push (.fiber f)
      else s
    | .addTimer worker | .addEvent worker | .yield worker | .finish worker | .runWake worker =>
      s.fiberTurn worker act

end Scheduler

end RaftStorage.Monsoon
