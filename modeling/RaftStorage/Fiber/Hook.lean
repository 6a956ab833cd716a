import RaftStorage.Library.Transition
import Mathlib.Data.Int.Notation
import Mathlib.Data.List.Induction

/-! The hooks of `fcntl` and `ioctl` for a managed descriptor. The program sees the flag it asked for,
and the kernel is to keep the one that `do_io` needs. -/

namespace RaftStorage.Monsoon
open Library

abbrev StatusFlags := BitVec 32

def oNonblock : StatusFlags := 0x800

def StatusFlags.nonblock (flags : StatusFlags) : Bool := flags &&& oNonblock ≠ 0

structure FdCtx where
  isInit : Bool
  isSocket : Bool
  sysNonblock : Bool
  userNonblock : Bool
  isClosed : Bool

/-- A descriptor with its entry in `FdManager` and its flags in the kernel. -/
structure ManagedFd where
  ctx : FdCtx
  flags : StatusFlags

namespace ManagedFd

/-- The constructor of `FdCtx` over a descriptor that `fstat` finds, or not, and that is a socket or
not. -/
def create (found isSocket : Bool) (flags : StatusFlags) : ManagedFd :=
  let isSocket := found && isSocket
  { ctx :=
      { isInit := found
        isSocket := isSocket
        sysNonblock := isSocket
        userNonblock := false
        isClosed := false }
    flags := if isSocket && !flags.nonblock then flags ||| oNonblock else flags }

def passedOn (s : ManagedFd) : Bool := s.ctx.isClosed || !s.ctx.isSocket

/-- `fcntl(fd, F_SETFL, arg)`; the kernel stores what it is given. -/
def fcntlSetfl (s : ManagedFd) (arg : StatusFlags) : ManagedFd :=
  if s.passedOn then { s with flags := arg }
  else
    let ctx := { s.ctx with userNonblock := arg.nonblock }
    { ctx := ctx
      flags := if ctx.sysNonblock then arg ||| oNonblock else arg &&& ~~~oNonblock }

def fcntlGetfl (s : ManagedFd) : StatusFlags :=
  if s.passedOn then s.flags
  else if s.ctx.userNonblock then s.flags ||| oNonblock
  else s.flags &&& ~~~oNonblock

/-- What the kernel does for `FIONBIO`. -/
def ioctlF (flags : StatusFlags) (value : ℤ) : StatusFlags :=
  if value ≠ 0 then flags ||| oNonblock else flags &&& ~~~oNonblock

/-- `ioctl(fd, FIONBIO, &value)`: the user's wish is noted and the call goes to the kernel as it is. -/
def ioctlFionbio (s : ManagedFd) (value : ℤ) : ManagedFd :=
  if s.passedOn then { s with flags := ioctlF s.flags value }
  else
    { ctx := { s.ctx with userNonblock := value ≠ 0 }
      flags := ioctlF s.flags value }

end ManagedFd

inductive HookCall where
  | setfl (arg : StatusFlags)
  | getfl
  | fionbio (value : ℤ)

def HookCall.asks : HookCall → Option Bool
  | .setfl arg => some arg.nonblock
  | .getfl => none
  | .fionbio value => some (value ≠ 0)

/-- The wish of the last setting call, and the blocking mode when there was none. -/
def lastAsked (calls : List HookCall) : Bool := (calls.filterMap HookCall.asks).getLast?.getD false

namespace ManagedFd

def step (s : ManagedFd) : HookCall → ManagedFd
  | .setfl arg => s.fcntlSetfl arg
  | .getfl => s
  | .fionbio value => s.ioctlFionbio value

def after (flags : StatusFlags) (calls : List HookCall) : ManagedFd :=
  run step (create true true flags) calls

theorem nonblock_or (flags : StatusFlags) : (flags ||| oNonblock).nonblock = true := by
  have hbits : (flags ||| oNonblock) &&& oNonblock = oNonblock := by
    ext i hi
    simp only [BitVec.getElem_and, BitVec.getElem_or]
    cases flags[i] <;> cases oNonblock[i] <;> rfl
  rw [StatusFlags.nonblock, hbits]
  decide

theorem nonblock_andNot (flags : StatusFlags) : (flags &&& ~~~oNonblock).nonblock = false := by
  have hbits : (flags &&& ~~~oNonblock) &&& oNonblock = 0 := by
    ext i hi
    simp only [BitVec.getElem_and, BitVec.getElem_not, BitVec.ofNat_eq_ofNat, BitVec.getElem_zero]
    cases flags[i] <;> cases oNonblock[i] <;> rfl
  rw [StatusFlags.nonblock, hbits]
  decide

structure Hooked (s : ManagedFd) (asked : Bool) : Prop where
  isSocket : s.ctx.isSocket = true
  isOpen : s.ctx.isClosed = false
  sysNonblock : s.ctx.sysNonblock = true
  userNonblock : s.ctx.userNonblock = asked

variable {s : ManagedFd} {asked : Bool}

theorem Hooked.passedOn (h : s.Hooked asked) : s.passedOn = false := by
  simp [ManagedFd.passedOn, h.isSocket, h.isOpen]

theorem hooked_create (flags : StatusFlags) : (create true true flags).Hooked false :=
  ⟨rfl, rfl, rfl, rfl⟩

theorem Hooked.step (h : s.Hooked asked) (call : HookCall) :
    (s.step call).Hooked (call.asks.getD asked) := by
  cases call with
  | setfl arg =>
    rw [ManagedFd.step, fcntlSetfl, if_neg (by simp [h.passedOn])]
    exact ⟨h.isSocket, h.isOpen, h.sysNonblock, rfl⟩
  | getfl => exact h
  | fionbio value =>
    rw [ManagedFd.step, ioctlFionbio, if_neg (by simp [h.passedOn])]
    exact ⟨h.isSocket, h.isOpen, h.sysNonblock, rfl⟩

theorem lastAsked_concat (calls : List HookCall) (call : HookCall) :
    lastAsked (calls ++ [call]) = call.asks.getD (lastAsked calls) := by
  rw [lastAsked, List.filterMap_append]
  cases hasks : call.asks with
  | none => simp [hasks, lastAsked]
  | some asked => simp [hasks]

theorem hooked_after (flags : StatusFlags) (calls : List HookCall) :
    (after flags calls).Hooked (lastAsked calls) := by
  induction calls using List.reverseRecOn with
  | nil => exact hooked_create flags
  | append_singleton calls call ih =>
    rw [after, run_concat, lastAsked_concat]
    exact ih.step call

theorem Hooked.getfl (h : s.Hooked asked) : s.fcntlGetfl.nonblock = asked := by
  rw [fcntlGetfl, if_neg (by simp [h.passedOn]), h.userNonblock]
  cases asked with
  | true => exact nonblock_or s.flags
  | false => exact nonblock_andNot s.flags

theorem Hooked.nonblock_step (h : s.Hooked asked) (hflags : s.flags.nonblock = true)
    (call : HookCall) : (s.step call).flags.nonblock = true ↔ call ≠ .fionbio 0 := by
  cases call with
  | setfl arg =>
    rw [ManagedFd.step, fcntlSetfl, if_neg (by simp [h.passedOn])]
    simp [h.sysNonblock, nonblock_or]
  | getfl => simp [ManagedFd.step, hflags]
  | fionbio value =>
    rw [ManagedFd.step, ioctlFionbio, if_neg (by simp [h.passedOn]), ioctlF]
    by_cases hvalue : value = 0
    · simp [hvalue, nonblock_andNot]
    · simp [hvalue, nonblock_or]

theorem nonblock_create (flags : StatusFlags) : (create true true flags).flags.nonblock = true := by
  rw [create]
  cases hflags : flags.nonblock with
  | true => simp [hflags]
  | false => simp [nonblock_or]

theorem nonblock_after (flags : StatusFlags) (calls : List HookCall) :
    (∀ before rest, calls = before ++ rest → (after flags before).flags.nonblock = true) ↔
      HookCall.fionbio 0 ∉ calls := by
  induction calls using List.reverseRecOn with
  | nil =>
    refine ⟨fun _ => List.not_mem_nil, fun _ before rest heq => ?_⟩
    obtain ⟨rfl, -⟩ := List.nil_eq_append_iff.mp heq
    exact nonblock_create flags
  | append_singleton calls call ih =>
    have hstep := fun hlast => (hooked_after flags calls).nonblock_step hlast call
    rw [List.mem_append, List.mem_singleton, not_or]
    constructor
    · intro h
      have hbefore := h calls [call] rfl
      refine ⟨ih.mp fun before rest heq => h before (rest ++ [call]) (by simp [heq]), ?_⟩
      have hall := h (calls ++ [call]) [] (by simp)
      rw [after, run_concat] at hall
      exact fun heq => (hstep hbefore).mp hall heq.symm
    · rintro ⟨hcalls, hcall⟩ before rest heq
      rcases List.eq_nil_or_concat rest with rfl | ⟨init, last, rfl⟩
      · rw [List.append_nil] at heq
        rw [← heq, after, run_concat]
        exact (hstep (ih.mpr hcalls calls [] (by simp))).mpr fun heq' => hcall heq'.symm
      · rw [List.concat_eq_append, ← List.append_assoc] at heq
        exact ih.mpr hcalls before init (List.append_inj' heq rfl).1

/-- After every call the kernel's flag is `m_sysNonblock`, so that `do_io` does not block, and
`F_GETFL` reports what the program asked for last, exactly when no call of `ioctl` asks for the
blocking mode. -/
theorem stays_nonblocking_iff (flags : StatusFlags) (calls : List HookCall) :
    (∀ before rest, calls = before ++ rest →
      (after flags before).flags.nonblock = (after flags before).ctx.sysNonblock ∧
      (after flags before).ctx.sysNonblock = true ∧
      (after flags before).fcntlGetfl.nonblock = lastAsked before) ↔
    HookCall.fionbio 0 ∉ calls := by
  rw [← nonblock_after flags calls]
  constructor
  · intro h before rest heq
    obtain ⟨hflag, hsys, -⟩ := h before rest heq
    rw [hflag, hsys]
  · intro h before rest heq
    have hhooked := hooked_after flags before
    exact ⟨(h before rest heq).trans hhooked.sysNonblock.symm, hhooked.sysNonblock, hhooked.getfl⟩

theorem fionbio_blocks :
    ¬∀ (flags : StatusFlags) (calls : List HookCall),
      (after flags calls).flags.nonblock = (after flags calls).ctx.sysNonblock ∧
      (after flags calls).fcntlGetfl.nonblock = lastAsked calls := by
  intro h
  have hcall := h 2 [.fionbio 0]
  exact absurd hcall.1 (by decide)

end ManagedFd

end RaftStorage.Monsoon
