import Mathlib.Logic.Function.Basic
import Mathlib.Data.List.Basic
import Mathlib.Data.Int.Notation

/-! The event registrations of `iomanager.cpp`. A call first looks up the `FdContext` of its descriptor
under the manager's lock and then works on it under the lock of the context, so a call is two or three
steps, and other threads come in between. What the kernel does is part of the actions: whether
`epoll_ctl` succeeds, and what `epoll_wait` returns among the events it was asked for. -/

namespace RaftStorage.Monsoon

inductive Event where
  | read | write
  deriving DecidableEq, Repr

/-- What `addEvent` stores for an event: the callback if there is one, else the current fiber. The
number of the registration is not in the source. -/
structure EventContext (Task : Type*) where
  task : Task
  ticket : ℕ

/-- The mask `events` and the contexts `read` and `write`, by event. -/
structure FdContext (Task : Type*) where
  fd : ℕ
  events : Event → Bool
  eveContext : Event → Option (EventContext Task)

variable {Task : Type*}

def someEvent (events : Event → Bool) : Bool := events .read || events .write

namespace FdContext

def create (fd : ℕ) : FdContext Task where
  fd := fd
  events := fun _ => false
  eveContext := fun _ => none

def resetEveContext (c : FdContext Task) (event : Event) : FdContext Task :=
  { c with eveContext := Function.update c.eveContext event none }

/-- The context after it, with what goes to the scheduler; `none` when the `CondPanic` fails. -/
def triggerEvent (c : FdContext Task) (event : Event) :
    Option (FdContext Task × Option (EventContext Task)) :=
  if c.events event then
    let c := { c with events := Function.update c.events event false }
    some (c.resetEveContext event, c.eveContext event)
  else none

end FdContext

/-- An `epoll_event`: `EPOLLIN` and `EPOLLOUT` are the bits of `READ` and `WRITE`, and `error` is
`EPOLLERR | EPOLLHUP`. -/
structure EpollEvent where
  events : Event → Bool
  error : Bool

inductive FdCall (Task : Type*) where
  | addEvent (event : Event) (task : Task)
  | delEvent (event : Event)
  | cancelEvent (event : Event)
  | cancelAll

inductive CallPoint (Task : Type*) where
  | outside
  /-- `addEvent` found the vector too short and waits for the write lock -/
  | resizing (fd : ℕ) (event : Event) (task : Task)
  | holding (fd ptr : ℕ) (call : FdCall Task)

inductive IOPanic where
  /-- `event hasn't been registed` -/
  | notRegistered
  /-- `addevent error` -/
  | addTwice
  /-- `event_ctx is nullptr` -/
  | contextInUse
  /-- `fd not totally clear` -/
  | notClear
  /-- access behind the end of `fdContexts_` -/
  | outOfRange
  deriving DecidableEq, Repr

structure IOManager (Task : Type*) where
  /-- every `FdContext` that was allocated, by address -/
  contexts : List (FdContext Task)
  fdContexts : List ℕ
  pendingEventCnt : ℤ
  /-- the kernel's side: the events asked for and `data.ptr`, by descriptor -/
  interest : ℕ → Option ((Event → Bool) × ℕ)
  /-- what a worker got from `epoll_wait` and has not come to yet -/
  ready : ℕ → List (ℕ × EpollEvent)
  calls : ℕ → CallPoint Task
  tickets : ℕ
  /-- what was handed to the scheduler -/
  scheduled : List (EventContext Task)
  panic : Option IOPanic

inductive IOAction (Task : Type*) where
  | call (thread fd : ℕ) (call : FdCall Task)
  | resize (thread : ℕ)
  | locked (thread : ℕ) (ok : Bool)
  | epollWait (worker : ℕ) (events : List (ℕ × EpollEvent))
  | deliver (worker : ℕ) (ok : Bool)

namespace IOManager

def contextResize (s : IOManager Task) (size : ℕ) : IOManager Task :=
  let missing := size - s.fdContexts.length
  { s with
    contexts := s.contexts ++ (List.range' s.fdContexts.length missing).map FdContext.create
    fdContexts := s.fdContexts.take size ++ List.range' s.contexts.length missing }

def create : IOManager Task :=
  contextResize
    { contexts := []
      fdContexts := []
      pendingEventCnt := 0
      interest := fun _ => none
      ready := fun _ => []
      calls := fun _ => .outside
      tickets := 0
      scheduled := []
      panic := none } 32

/-- `EPOLL_CTL_DEL` when no event is left, else `EPOLL_CTL_ADD` or `EPOLL_CTL_MOD`. -/
def epollCtl (s : IOManager Task) (fd : ℕ) (events : Event → Bool) (ptr : ℕ) : IOManager Task :=
  { s with
    interest := Function.update s.interest fd
      (if someEvent events then some (events, ptr) else none) }

/-- `triggerEvent` and `--pendingEventCnt_`. -/
def trigger (ptr : ℕ) (s : IOManager Task) (event : Event) : IOManager Task :=
  match s.contexts[ptr]? with
  | none => s
  | some c =>
    match c.triggerEvent event with
    | none => { s with panic := some .notRegistered }
    | some (c, task) =>
      { s with
        contexts := s.contexts.set ptr c
        scheduled := s.scheduled ++ task.toList
        pendingEventCnt := s.pendingEventCnt - 1 }

def triggerAll (s : IOManager Task) (ptr : ℕ) (events : Event → Bool) : IOManager Task :=
  [Event.read, Event.write].foldl
    (fun s event => if s.panic.isNone && events event then s.trigger ptr event else s) s

def addEvent (s : IOManager Task) (fd ptr : ℕ) (c : FdContext Task) (event : Event) (task : Task)
    (ok : Bool) : IOManager Task :=
  if c.events event then { s with panic := some .addTwice }
  else if ok then
    let events := Function.update c.events event true
    let s := s.epollCtl fd events ptr
    let s := { s with pendingEventCnt := s.pendingEventCnt + 1 }
    let c := { c with events := events }
    if (c.eveContext event).isSome then
      { s with contexts := s.contexts.set ptr c, panic := some .contextInUse }
    else
      { s with
        contexts := s.contexts.set ptr
          { c with eveContext := Function.update c.eveContext event (some ⟨task, s.tickets⟩) }
        tickets := s.tickets + 1 }
  else s

def delEvent (s : IOManager Task) (fd ptr : ℕ) (c : FdContext Task) (event : Event) (ok : Bool) :
    IOManager Task :=
  if c.events event then
    if ok then
      let newEvents := Function.update c.events event false
      let s := s.epollCtl fd newEvents ptr
      { s with
        pendingEventCnt := s.pendingEventCnt - 1
        contexts := s.contexts.set ptr ({ c with events := newEvents }.resetEveContext event) }
    else s
  else s

def cancelEvent (s : IOManager Task) (fd ptr : ℕ) (c : FdContext Task) (event : Event) (ok : Bool) :
    IOManager Task :=
  if c.events event then
    if ok then (s.epollCtl fd (Function.update c.events event false) ptr).trigger ptr event else s
  else s

def cancelAll (s : IOManager Task) (fd ptr : ℕ) (c : FdContext Task) (ok : Bool) : IOManager Task :=
  if someEvent c.events then
    if ok then
      let s := (s.epollCtl fd (fun _ => false) ptr).triggerAll ptr c.events
      if s.contexts[ptr]?.any fun c => someEvent c.events then { s with panic := some .notClear }
      else s
    else s
  else s

def realEvents (c : FdContext Task) (event : EpollEvent) : Event → Bool :=
  if event.error then fun e => event.events e || c.events e else event.events

/-- One iteration of the delivery loop of `idle`. -/
def deliverEvent (s : IOManager Task) (ptr : ℕ) (c : FdContext Task) (event : EpollEvent)
    (ok : Bool) : IOManager Task :=
  let real := realEvents c event
  if someEvent fun e => c.events e && real e then
    let leftEvents := fun e => c.events e && !real e
    if ok then (s.epollCtl c.fd leftEvents ptr).triggerAll ptr real else s
  else s

def locked (s : IOManager Task) (fd ptr : ℕ) (ok : Bool) (call : FdCall Task) : IOManager Task :=
  match s.contexts[ptr]? with
  | none => s
  | some c =>
    match call with
    | .addEvent event task => s.addEvent fd ptr c event task ok
    | .delEvent event => s.delEvent fd ptr c event ok
    | .cancelEvent event => s.cancelEvent fd ptr c event ok
    | .cancelAll => s.cancelAll fd ptr c ok

def setCall (s : IOManager Task) (thread : ℕ) (point : CallPoint Task) : IOManager Task :=
  { s with calls := Function.update s.calls thread point }

/-- The part of a call under the read lock. The cast in `(int)fdContexts_.size()` is left out: it
changes nothing below 2 ^ 31 contexts. -/
def lookUp (s : IOManager Task) (thread fd : ℕ) (call : FdCall Task) : IOManager Task :=
  match s.fdContexts[fd]?, call with
  | some ptr, call => s.setCall thread (.holding fd ptr call)
  | none, .addEvent event task => s.setCall thread (.resizing fd event task)
  | none, _ => s

/-- The part of `addEvent` under the write lock: `fd * 1.5` is cut down to a whole number. -/
def resize (s : IOManager Task) (thread : ℕ) : IOManager Task :=
  match s.calls thread with
  | .resizing fd event task =>
    let s := s.contextResize (fd * 3 / 2)
    match s.fdContexts[fd]? with
    | none => { s with panic := some .outOfRange }
    | some ptr => s.setCall thread (.holding fd ptr (.addEvent event task))
  | _ => s

/-- The events asked for that the kernel finds among `events`, which are given by descriptor. -/
def epollWait (s : IOManager Task) (worker : ℕ) (events : List (ℕ × EpollEvent)) : IOManager Task :=
  { s with
    ready := Function.update s.ready worker (events.filterMap fun e =>
      (s.interest e.1).map fun asked =>
        (asked.2, ⟨fun event => asked.1 event && e.2.events event, e.2.error⟩)) }

def step (s : IOManager Task) (act : IOAction Task) : IOManager Task :=
  if s.panic.isSome then s
  else
    match act with
    | .call thread fd call =>
      match s.calls thread with
      | .outside => s.lookUp thread fd call
      | _ => s
    | .resize thread => s.resize thread
    | .locked thread ok =>
      match s.calls thread with
      | .holding fd ptr call => (s.locked fd ptr ok call).setCall thread .outside
      | _ => s
    | .epollWait worker events =>
      match s.ready worker with
      | [] => s.epollWait worker events
      | _ => s
    | .deliver worker ok =>
      match s.ready worker with
      | [] => s
      | (ptr, event) :: rest =>
        let s := { s with ready := Function.update s.ready worker rest }
        match s.contexts[ptr]? with
        | none => s
        | some c => s.deliverEvent ptr c event ok

end IOManager

end RaftStorage.Monsoon
