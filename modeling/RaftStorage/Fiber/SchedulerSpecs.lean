import RaftStorage.Fiber.Scheduler
import RaftStorage.Library.Tokens
import Mathlib.Algebra.Order.Group.Nat

/-! Who may resume a fiber. A fiber that has registered itself leaves one token, which moves from the
timer or the event over the tasks to the worker that resumes it, so a fiber is never in `tasks_` twice.
What the registration does not give is that the fiber has yielded when its task is taken. -/

namespace RaftStorage.Monsoon
open Library

def TaskKind.wakes : TaskKind → Option ℕ
  | .fiber f => some f
  | .wake f => some f
  | .cb => none

namespace Scheduler

def pool (s : Scheduler) : List ℕ :=
  s.timers ++ s.events ++ s.tasks.filterMap fun task => task.kind.wakes

def held (s : Scheduler) (worker : ℕ) : Option ℕ :=
  match s.workers worker with
  | .taken task => task.wakes
  | .running g =>
    match s.point g with
    | .wake f => some f
    | _ => none
  | _ => none

def Awaited (s : Scheduler) (f : ℕ) : Prop := Placed s.pool s.held f

structure Parked (s : Scheduler) (f : ℕ) : Prop where
  state : s.state f = .ready
  point : s.point f = .user
  off : ∀ worker, s.workers worker ≠ .running f

def InWindow (s : Scheduler) (f : ℕ) : Prop :=
  s.point f = .registered ∧ ∃ worker, s.workers worker = .running f

structure Sound (s : Scheduler) : Prop where
  tokens : OnePlace s.pool s.held
  waiting : ∀ f, s.Awaited f → s.Parked f ∨ s.InWindow f
  taken : ∀ worker f, s.workers worker = .taken (.fiber f) → s.Parked f
  running : ∀ worker f, s.workers worker = .running f → s.state f = .running
  running_inj : ∀ v w f, s.workers v = .running f → s.workers w = .running f → v = w
  running_lt : ∀ worker f, s.workers worker = .running f → f < s.fibers
  awaited_lt : ∀ f, s.Awaited f → f < s.fibers

variable {s s' : Scheduler} {worker f g : ℕ}

theorem sound_create : create.Sound := by
  have hnone : ∀ f, ¬create.Awaited f := by
    rintro f (hmem | ⟨w, hw⟩)
    · cases hmem
    · cases hw
  constructor
  · refine ⟨List.nodup_nil, ?_, ?_⟩
    · intro w x hx
      cases hx
    · intro v w x hx
      cases hx
  · exact fun f hf => absurd hf (hnone f)
  · intro w f hw
    cases hw
  · intro w f hw
    cases hw
  · intro v w f hv
    cases hv
  · intro w f hw
    cases hw
  · exact fun f hf => absurd hf (hnone f)

/-! ## What a step leaves alone -/

structure SameFor (s s' : Scheduler) (f : ℕ) : Prop where
  state : s'.state f = s.state f
  point : s'.point f = s.point f
  on : ∀ worker, s'.workers worker = .running f ↔ s.workers worker = .running f

theorem Parked.frame (h : s.Parked f) (hsame : SameFor s s' f) : s'.Parked f where
  state := hsame.state.trans h.state
  point := hsame.point.trans h.point
  off := fun w hw => h.off w ((hsame.on w).mp hw)

theorem waiting_frame (h : s.Parked f ∨ s.InWindow f) (hsame : SameFor s s' f) :
    s'.Parked f ∨ s'.InWindow f := by
  rcases h with hparked | ⟨hpoint, w, hw⟩
  · exact Or.inl (hparked.frame hsame)
  · exact Or.inr ⟨hsame.point.trans hpoint, w, (hsame.on w).mpr hw⟩

theorem held_eq_update (s s' : Scheduler) (worker : ℕ)
    (hworkers : ∀ v, v ≠ worker → s'.workers v = s.workers v)
    (hpoint : ∀ v g, v ≠ worker → s.workers v = .running g → s'.point g = s.point g) :
    s'.held = Function.update s.held worker (s'.held worker) := by
  funext v
  by_cases hv : v = worker
  · subst hv
    rw [Function.update_self]
  · rw [Function.update_of_ne hv, held, held, hworkers v hv]
    cases hw : s.workers v with
    | running g =>
      simp only
      rw [hpoint v g hv hw]
    | looping => rfl
    | idle => rfl
    | taken task => rfl

theorem held_of_worker (hworkers : s'.workers = s.workers) (hpoint : s'.point = s.point) :
    s'.held = s.held := by
  funext v
  rw [held, held, hworkers, hpoint]

theorem Sound.moved (h : s.Sound) (hworkers : s'.workers = s.workers) (hpoint : s'.point = s.point)
    (hstate : s'.state = s.state) (hfibers : s'.fibers = s.fibers) (hpool : s.pool.Perm s'.pool) :
    s'.Sound := by
  have hheld : s'.held = s.held := held_of_worker hworkers hpoint
  have hawaited : ∀ f, s'.Awaited f → s.Awaited f := by
    rintro f (hmem | hw)
    · exact Or.inl (hpool.mem_iff.mpr hmem)
    · exact Or.inr (hheld ▸ hw)
  have hsame : ∀ f, SameFor s s' f := fun f =>
    ⟨by rw [hstate], by rw [hpoint], fun w => by rw [hworkers]⟩
  constructor
  · rw [hheld]
    exact h.tokens.perm hpool
  · exact fun f hf => waiting_frame (h.waiting f (hawaited f hf)) (hsame f)
  · intro w f hw
    rw [hworkers] at hw
    exact (h.taken w f hw).frame (hsame f)
  · rw [hworkers, hstate]
    exact h.running
  · rw [hworkers]
    exact h.running_inj
  · rw [hworkers, hfibers]
    exact h.running_lt
  · rw [hfibers]
    exact fun f hf => h.awaited_lt f (hawaited f hf)

theorem pool_push (s : Scheduler) (kind : TaskKind) (thread : Option ℕ) :
    pool { s with tasks := s.tasks ++ [⟨kind, thread⟩] } = s.pool ++ kind.wakes.toList := by
  rw [pool, pool, List.filterMap_append, ← List.append_assoc]
  cases kind <;> rfl

theorem Sound.spawn (h : s.Sound) (thread : Option ℕ) :
    Sound { s with tasks := s.tasks ++ [⟨.cb, thread⟩] } := by
  refine h.moved rfl rfl rfl rfl ?_
  rw [pool_push]
  exact (List.append_nil _).symm ▸ List.Perm.refl _

theorem Sound.fireTimer (h : s.Sound) (hf : f ∈ s.timers) :
    Sound ({ s with timers := s.timers.erase f }.push (.wake f)) := by
  refine h.moved rfl rfl rfl rfl ?_
  rw [push, pool_push, pool, pool]
  have herase := List.perm_cons_erase hf
  have hlast : (s.timers.erase f ++ s.events ++ s.tasks.filterMap (·.kind.wakes) ++ [f]).Perm
      (f :: (s.timers.erase f ++ s.events ++ s.tasks.filterMap (·.kind.wakes))) :=
    List.perm_append_singleton _ _
  exact ((herase.append_right _).append_right _).trans hlast.symm

theorem Sound.fireEvent (h : s.Sound) (hf : f ∈ s.events) :
    Sound ({ s with events := s.events.erase f }.push (.fiber f)) := by
  refine h.moved rfl rfl rfl rfl ?_
  rw [push, pool_push, pool, pool]
  have herase := List.perm_cons_erase hf
  have hlast : (s.timers ++ s.events.erase f ++ s.tasks.filterMap (·.kind.wakes) ++ [f]).Perm
      (f :: (s.timers ++ s.events.erase f ++ s.tasks.filterMap (·.kind.wakes))) :=
    List.perm_append_singleton _ _
  have hmiddle : (s.timers ++ s.events).Perm (f :: (s.timers ++ s.events.erase f)) :=
    (herase.append_left _).trans List.perm_middle
  exact (hmiddle.append_right _).trans hlast.symm

/-! ## Steps of one worker -/

theorem Sound.of_touched (h : s.Sound) (touched : ℕ → Prop)
    (hsame : ∀ f, ¬touched f → SameFor s s' f) (htokens : OnePlace s'.pool s'.held)
    (hfibers : s.fibers ≤ s'.fibers) (hawaited : ∀ f, s'.Awaited f → ¬touched f → s.Awaited f)
    (hwaiting : ∀ f, touched f → s'.Awaited f → (s'.Parked f ∨ s'.InWindow f) ∧ f < s'.fibers)
    (htaken : ∀ w f, s'.workers w = .taken (.fiber f) → s'.Parked f)
    (hrunning : ∀ f, touched f → ∀ w, s'.workers w = .running f →
      s'.state f = .running ∧ f < s'.fibers ∧ ∀ v, s'.workers v = .running f → v = w) :
    s'.Sound := by
  constructor
  · exact htokens
  · intro f hf
    by_cases ht : touched f
    · exact (hwaiting f ht hf).1
    · exact waiting_frame (h.waiting f (hawaited f hf ht)) (hsame f ht)
  · exact htaken
  · intro w f hw
    by_cases ht : touched f
    · exact (hrunning f ht w hw).1
    · exact (hsame f ht).state.trans (h.running w f (((hsame f ht).on w).mp hw))
  · intro v w f hv hw
    by_cases ht : touched f
    · exact (hrunning f ht w hw).2.2 v hv
    · exact h.running_inj v w f (((hsame f ht).on v).mp hv) (((hsame f ht).on w).mp hw)
  · intro w f hw
    by_cases ht : touched f
    · exact (hrunning f ht w hw).2.1
    · exact (h.running_lt w f (((hsame f ht).on w).mp hw)).trans_le hfibers
  · intro f hf
    by_cases ht : touched f
    · exact (hwaiting f ht hf).2
    · exact (h.awaited_lt f (hawaited f hf ht)).trans_le hfibers

theorem on_update {workers : ℕ → Worker} {new : Worker}
    (hiff : new = .running f ↔ workers worker = .running f) (v : ℕ) :
    Function.update workers worker new v = .running f ↔ workers v = .running f := by
  by_cases hv : v = worker
  · subst hv
    rw [Function.update_self]
    exact hiff
  · rw [Function.update_of_ne hv]

theorem Sound.setHands (h : s.Sound) (tasks : List SchedulerTask) {new : Worker}
    (hold : ∀ f, s.workers worker ≠ .running f) (hnew : ∀ f, new ≠ .running f)
    (htokens : OnePlace (pool { s with tasks := tasks })
      (Function.update s.held worker (({ s with tasks := tasks }.setWorker worker new).held worker)))
    (hawaited : ∀ f, ({ s with tasks := tasks }.setWorker worker new).Awaited f → s.Awaited f)
    (htaken : ∀ f, new = .taken (.fiber f) → s.Parked f) :
    ({ s with tasks := tasks }.setWorker worker new).Sound := by
  set s' := { s with tasks := tasks }.setWorker worker new with hs'
  have hsame : ∀ f, SameFor s s' f := fun f =>
    ⟨rfl, rfl, on_update ⟨fun heq => absurd heq (hnew f), fun heq => absurd heq (hold f)⟩⟩
  have hheld : s'.held = Function.update s.held worker (s'.held worker) :=
    held_eq_update s s' worker (fun v hv => Function.update_of_ne hv ..) fun _ _ _ _ => rfl
  refine h.of_touched (fun _ => False) (fun f _ => hsame f) ?_ le_rfl (fun f hf _ => hawaited f hf)
    (fun f hf => hf.elim) ?_ fun f hf => hf.elim
  · rw [hheld]
    exact htokens
  · intro w f hw
    by_cases hwork : w = worker
    · subst hwork
      have hnew' : new = .taken (.fiber f) := by simpa [hs', setWorker] using hw
      exact (htaken f hnew').frame (hsame f)
    · have hw' : s.workers w = .taken (.fiber f) := by simpa [hs', setWorker, hwork] using hw
      exact (h.taken w f hw').frame (hsame f)

theorem Sound.setIdle (h : s.Sound) {new : Worker} (hold : s.workers worker = .looping ∨
    s.workers worker = .idle) (hnew : new = .looping ∨ new = .idle) :
    (s.setWorker worker new).Sound := by
  have hheld : (s.setWorker worker new).held = s.held := by
    rw [held_eq_update s (s.setWorker worker new) worker
      (fun v hv => Function.update_of_ne hv ..) fun _ _ _ _ => rfl]
    have hafter : (s.setWorker worker new).held worker = s.held worker := by
      rcases hold with hold | hold <;> rcases hnew with rfl | rfl <;> simp [held, setWorker, hold]
    rw [hafter, Function.update_eq_self]
  refine h.setHands s.tasks ?_ ?_ ?_ ?_ ?_
  · intro f hf
    rcases hold with hold | hold <;> simp [hold] at hf
  · rintro f rfl
    rcases hnew with hnew | hnew <;> cases hnew
  · have hafter : (s.setWorker worker new).held worker = s.held worker := by rw [hheld]
    show OnePlace s.pool (Function.update s.held worker ((s.setWorker worker new).held worker))
    rw [hafter, Function.update_eq_self]
    exact h.tokens
  · intro f hf
    have hf' : Placed s.pool (s.setWorker worker new).held f := hf
    rw [hheld] at hf'
    exact hf'
  · rintro f rfl
    rcases hnew with hnew | hnew <;> cases hnew

/-! ## Taking a task -/

theorem perm_eraseP {task : SchedulerTask} (h : s.tasks.find? (eligible worker) = some task) :
    s.tasks.Perm (task :: s.tasks.eraseP (eligible worker)) := by
  obtain ⟨hp, before, after, heq, hbefore⟩ := List.find?_eq_some_iff_append.mp h
  rw [heq, List.eraseP_append_right _ fun b hb => by simpa using hbefore b hb,
    List.eraseP_cons_of_pos hp]
  exact List.perm_middle

theorem pool_eraseP {task : SchedulerTask} (h : s.tasks.find? (eligible worker) = some task) :
    s.pool.Perm (task.kind.wakes.toList ++ pool { s with tasks := s.tasks.eraseP (eligible worker) }) := by
  have hperm := (perm_eraseP h).filterMap fun task => task.kind.wakes
  have hcons : (task :: s.tasks.eraseP (eligible worker)).filterMap (·.kind.wakes) =
      task.kind.wakes.toList ++ (s.tasks.eraseP (eligible worker)).filterMap (·.kind.wakes) := by
    cases hwakes : task.kind.wakes with
    | none => simp [hwakes]
    | some f => simp [hwakes]
  rw [hcons] at hperm
  rw [pool, pool]
  refine (hperm.append_left _).trans ?_
  rw [← List.append_assoc]
  exact List.perm_append_comm.append_right _ |>.trans (by rw [List.append_assoc])

theorem Sound.takeTask (h : s.Sound) (hloop : s.workers worker = .looping) {task : SchedulerTask}
    (hfind : s.tasks.find? (eligible worker) = some task)
    (hready : ∀ f, task.kind = .fiber f → s.state f = .ready) :
    ({ s with tasks := s.tasks.eraseP (eligible worker) }.setWorker worker (.taken task.kind)).Sound := by
  have hpool := pool_eraseP hfind
  set tasks := s.tasks.eraseP (eligible worker) with htasks
  have hhands : ({ s with tasks := tasks }.setWorker worker (.taken task.kind)).held worker =
      task.kind.wakes := by simp [held, setWorker]
  have hempty : s.held worker = none := by simp [held, hloop]
  have hawaited : ∀ f, ({ s with tasks := tasks }.setWorker worker (.taken task.kind)).Awaited f →
      s.Awaited f := by
    rintro f (hmem | ⟨v, hv⟩)
    · exact Or.inl (hpool.mem_iff.mpr (List.mem_append_right _ hmem))
    · by_cases hvw : v = worker
      · subst hvw
        rw [hhands] at hv
        exact Or.inl (hpool.mem_iff.mpr (by simp [hv]))
      · refine Or.inr ⟨v, ?_⟩
        rw [← hv, held, held]
        simp [setWorker, Function.update_of_ne hvw]
  refine h.setHands _ ?_ ?_ ?_ hawaited ?_
  · intro f hf
    simp [hloop] at hf
  · rintro f ⟨⟩
  · rw [hhands]
    cases hwakes : task.kind.wakes with
    | none =>
      rw [hwakes] at hpool
      rw [← hempty, Function.update_eq_self]
      exact h.tokens.perm hpool
    | some f =>
      rw [hwakes] at hpool
      exact (h.tokens.perm hpool).grab worker
  · intro f hf
    have hkind : task.kind = .fiber f := by simpa using hf
    have hmem : f ∈ s.pool := hpool.mem_iff.mpr (by simp [hkind, TaskKind.wakes])
    rcases h.waiting f (Or.inl hmem) with hparked | ⟨-, w, hw⟩
    · exact hparked
    · have hrun := h.running w f hw
      rw [hready f hkind] at hrun
      cases hrun

/-! ## Resuming -/

theorem Sound.resumeFiber (h : s.Sound) (hw : s.workers worker = .taken (.fiber f)) :
    Sound { s with
      state := Function.update s.state f .running
      workers := Function.update s.workers worker (.running f) } := by
  set s' : Scheduler := { s with
    state := Function.update s.state f .running
    workers := Function.update s.workers worker (.running f) } with hs'
  have hparked := h.taken worker f hw
  have hhands : s.held worker = some f := by simp [held, hw, TaskKind.wakes]
  have hheld : s'.held = Function.update s.held worker none := by
    rw [held_eq_update s s' worker
      (fun v hv => Function.update_of_ne hv ..) fun _ _ _ _ => rfl]
    congr 1
    simp [held, hs', hparked.point]
  have hsame : ∀ g, g ≠ f → SameFor s s' g := by
    intro g hg
    refine ⟨Function.update_of_ne hg .., rfl, on_update ?_⟩
    constructor
    · intro heq
      exact absurd (Worker.running.inj heq).symm hg
    · intro heq
      simp [hw] at heq
  have hgone : ¬s'.Awaited f := by
    rw [Awaited, hheld]
    exact h.tokens.not_placed_drop hhands
  refine h.of_touched (· = f) hsame ?_ le_rfl ?_ ?_ ?_ ?_
  · rw [hheld]
    exact h.tokens.drop worker
  · rintro g (hmem | ⟨v, hv⟩) _
    · exact Or.inl hmem
    · rw [hheld] at hv
      rcases OnePlace.held_update hv with ⟨-, hnone⟩ | ⟨-, hv⟩
      · cases hnone
      · exact Or.inr ⟨v, hv⟩
  · rintro g rfl hg
    exact absurd hg hgone
  · intro v g hv
    have hvw : v ≠ worker := by
      rintro rfl
      simp [hs'] at hv
    have hv' : s.workers v = .taken (.fiber g) := by simpa [hs', hvw] using hv
    apply (h.taken v g hv').frame
    apply hsame
    rintro rfl
    exact hvw (h.tokens.held_inj v worker g (by simp [held, hv', TaskKind.wakes]) hhands)
  · rintro g rfl v hv
    have hon : ∀ u, s'.workers u = .running g → u = worker := by
      intro u hu
      by_contra hne
      exact hparked.off u (by simpa [hs', hne] using hu)
    refine ⟨Function.update_self .., h.awaited_lt g (Or.inr ⟨worker, hhands⟩), fun u hu => ?_⟩
    rw [hon u hu, hon v hv]

theorem Sound.runCb (h : s.Sound) {task : TaskKind} {point : FiberPoint}
    (hw : s.workers worker = .taken task)
    (hhands : task.wakes = match point with | .wake f => some f | _ => none) :
    (s.runCb worker point).Sound := by
  set s' := s.runCb worker point with hs'
  have hheld : s'.held = s.held := by
    rw [held_eq_update s s' worker
      (fun v hv => Function.update_of_ne hv ..)
      fun v g _ hg => Function.update_of_ne (h.running_lt v g hg).ne ..]
    have hbefore : s.held worker = task.wakes := by simp [held, hw]
    have hafter : s'.held worker = s.held worker := by
      rw [hbefore, hhands]
      simp [held, hs', Scheduler.runCb]
    rw [hafter, Function.update_eq_self]
  have hsame : ∀ g, ¬s.fibers = g → SameFor s s' g := by
    intro g hg
    refine ⟨Function.update_of_ne (Ne.symm hg) .., Function.update_of_ne (Ne.symm hg) ..,
      on_update ?_⟩
    constructor
    · intro heq
      exact absurd (Worker.running.inj heq) hg
    · intro heq
      simp [hw] at heq
  have hawaited : ∀ g, s'.Awaited g → s.Awaited g := by
    intro g hg
    rw [Awaited, hheld] at hg
    exact hg
  have hold : ∀ g, s'.Awaited g → g < s.fibers := fun g hg => h.awaited_lt g (hawaited g hg)
  refine h.of_touched (s.fibers = ·) hsame ?_ (Nat.le_succ _) (fun g hg _ => hawaited g hg) ?_ ?_ ?_
  · rw [hheld]
    exact h.tokens
  · rintro g rfl hg
    exact absurd (hold _ hg) (lt_irrefl _)
  · intro v g hv
    have hvw : v ≠ worker := by
      rintro rfl
      simp [hs', Scheduler.runCb] at hv
    have hv' : s.workers v = .taken (.fiber g) := by simpa [hs', Scheduler.runCb, hvw] using hv
    apply (h.taken v g hv').frame
    apply hsame
    have hlt := h.awaited_lt g (Or.inr ⟨v, by simp [held, hv', TaskKind.wakes]⟩)
    exact hlt.ne'
  · rintro g rfl v hv
    have hon : ∀ u, s'.workers u = .running s.fibers → u = worker := by
      intro u hu
      by_contra hne
      have hu' : s.workers u = .running s.fibers := by
        simpa [hs', Scheduler.runCb, hne] using hu
      exact absurd (h.running_lt u _ hu') (lt_irrefl _)
    refine ⟨Function.update_self .., Nat.lt_succ_self _, fun u hu => ?_⟩
    rw [hon u hu, hon v hv]

theorem Sound.resume (h : s.Sound) {task : TaskKind} (hw : s.workers worker = .taken task) :
    (s.resume worker task).Sound ∧ (s.resume worker task).panic = s.panic := by
  cases task with
  | fiber f =>
    rw [Scheduler.resume, if_pos (h.taken worker f hw).state]
    exact ⟨h.resumeFiber hw, rfl⟩
  | wake f => exact ⟨h.runCb hw rfl, rfl⟩
  | cb => exact ⟨h.runCb hw rfl, rfl⟩

/-! ## What a fiber does -/

theorem Sound.not_awaited (h : s.Sound) (hw : s.workers worker = .running f)
    (hpoint : s.point f ≠ .registered) : ¬s.Awaited f := by
  intro hawaited
  rcases h.waiting f hawaited with hparked | hwindow
  · exact hparked.off worker hw
  · exact hpoint hwindow.1

theorem Sound.register (h : s.Sound) (hw : s.workers worker = .running f) (hpoint : s.point f = .user)
    (hworkers : s'.workers = s.workers) (hstate : s'.state = s.state)
    (hfibers : s'.fibers = s.fibers) (hpoint' : s'.point = Function.update s.point f .registered)
    (hpool : (f :: s.pool).Perm s'.pool) : s'.Sound := by
  have hfree : ¬s.Awaited f := h.not_awaited hw (by simp [hpoint])
  have hheld : s'.held = s.held := by
    rw [held_eq_update s s' worker (fun v _ => by rw [hworkers])]
    · have hbefore : s.held worker = none := by simp [held, hw, hpoint]
      have hafter : s'.held worker = none := by simp [held, hworkers, hw, hpoint']
      rw [hafter, ← hbefore, Function.update_eq_self]
    · intro v g hv hg
      rw [hpoint']
      apply Function.update_of_ne
      rintro rfl
      exact hv (h.running_inj v worker g hg hw)
  have hon : ∀ g w, s'.workers w = .running g ↔ s.workers w = .running g := fun g w => by rw [hworkers]
  have hsame : ∀ g, ¬g = f → SameFor s s' g := fun g hg =>
    ⟨by rw [hstate], by rw [hpoint', Function.update_of_ne hg], hon g⟩
  refine h.of_touched (· = f) hsame ?_ hfibers.ge ?_ ?_ ?_ ?_
  · rw [hheld]
    exact (h.tokens.add hfree).perm hpool
  · rintro g (hmem | ⟨v, hv⟩) hg
    · rcases List.mem_cons.mp (hpool.mem_iff.mpr hmem) with heq | hmem
      · exact absurd heq hg
      · exact Or.inl hmem
    · exact Or.inr ⟨v, hheld ▸ hv⟩
  · rintro g rfl -
    refine ⟨Or.inr ⟨by rw [hpoint', Function.update_self], worker, (hon g worker).mpr hw⟩, ?_⟩
    rw [hfibers]
    exact h.running_lt worker g hw
  · intro v g hv
    rw [hworkers] at hv
    have hparked := h.taken v g hv
    apply hparked.frame
    apply hsame
    rintro rfl
    exact hparked.off worker hw
  · rintro g rfl v hv
    rw [hworkers] at hv
    refine ⟨by rw [hstate]; exact h.running v g hv, by rw [hfibers]; exact h.running_lt v g hv, ?_⟩
    intro u hu
    rw [hworkers] at hu
    exact h.running_inj u v g hu hv

theorem Sound.held_leave (h : s.Sound) (hw : s.workers worker = .running f)
    (tasks : List SchedulerTask) (state : FiberState) :
    ({ s with tasks := tasks }.leave worker f state).held = Function.update s.held worker none := by
  set s' := { s with tasks := tasks }.leave worker f state with hs'
  rw [held_eq_update s s' worker
    (fun v hv => Function.update_of_ne hv ..)]
  · congr 1
    simp [held, hs', Scheduler.leave]
  · intro v g hv hg
    apply Function.update_of_ne
    rintro rfl
    exact hv (h.running_inj v worker g hg hw)

theorem Sound.leave (h : s.Sound) (tasks : List SchedulerTask)
    (hw : s.workers worker = .running f) {state : FiberState}
    (htokens : OnePlace (pool { s with tasks := tasks }) (Function.update s.held worker none))
    (hawaited : ∀ g, ({ s with tasks := tasks }.leave worker f state).Awaited g → s.Awaited g)
    (hready : ({ s with tasks := tasks }.leave worker f state).Awaited f → state = .ready) :
    ({ s with tasks := tasks }.leave worker f state).Sound := by
  set s' := { s with tasks := tasks }.leave worker f state with hs'
  have hheld : s'.held = Function.update s.held worker none := h.held_leave hw tasks state
  have hoff : ∀ v, s'.workers v ≠ .running f := by
    intro v hv
    by_cases hvw : v = worker
    · subst hvw
      simp [hs', Scheduler.leave] at hv
    · have hv' : s.workers v = .running f := by simpa [hs', Scheduler.leave, hvw] using hv
      exact hvw (h.running_inj v worker f hv' hw)
  have hsame : ∀ g, ¬g = f → SameFor s s' g := by
    intro g hg
    refine ⟨Function.update_of_ne hg .., Function.update_of_ne hg .., on_update ?_⟩
    constructor
    · intro heq
      cases heq
    · intro heq
      rw [hw] at heq
      exact absurd (Worker.running.inj heq).symm hg
  refine h.of_touched (· = f) hsame ?_ le_rfl (fun g hg _ => hawaited g hg) ?_ ?_ ?_
  · rw [hheld]
    exact htokens
  · rintro g rfl hg
    refine ⟨Or.inl ⟨?_, Function.update_self .., hoff⟩, h.awaited_lt g (hawaited g hg)⟩
    rw [hready hg] at hs'
    rw [hs']
    exact Function.update_self ..
  · intro v g hv
    have hvw : v ≠ worker := by
      rintro rfl
      simp [hs', Scheduler.leave] at hv
    have hv' : s.workers v = .taken (.fiber g) := by simpa [hs', Scheduler.leave, hvw] using hv
    have hparked := h.taken v g hv'
    apply hparked.frame
    apply hsame
    rintro rfl
    exact hparked.off worker hw
  · rintro g rfl v hv
    exact absurd hv (hoff v)

theorem Sound.leave_quiet (h : s.Sound) (hw : s.workers worker = .running f) (state : FiberState)
    (hpoint : ∀ g, s.point f ≠ .wake g) (hready : s.Awaited f → state = .ready) :
    (s.leave worker f state).Sound := by
  have hempty : s.held worker = none := by
    rw [held, hw]
    cases hp : s.point f with
    | wake g => exact absurd hp (hpoint g)
    | user => simp [hp]
    | registered => simp [hp]
  have hsame : Function.update s.held worker none = s.held := by
    rw [← hempty, Function.update_eq_self]
  have hheld : (s.leave worker f state).held = s.held := (h.held_leave hw s.tasks state).trans hsame
  have hawaited : ∀ g, (s.leave worker f state).Awaited g → s.Awaited g := by
    intro g hg
    have hg' : Placed s.pool (s.leave worker f state).held g := hg
    rw [hheld] at hg'
    exact hg'
  refine h.leave s.tasks hw ?_ hawaited fun hf => hready (hawaited f hf)
  rw [hsame]
  exact h.tokens

theorem Sound.runWake (h : s.Sound) (hw : s.workers worker = .running f)
    (hpoint : s.point f = .wake g) : ((s.push (.fiber g)).leave worker f .term).Sound := by
  have hhands : s.held worker = some g := by simp [held, hw, hpoint]
  have hpool : pool { s with tasks := s.tasks ++ [⟨.fiber g, none⟩] } = s.pool ++ [g] :=
    pool_push s (.fiber g) none
  have hawaited : ∀ x, ((s.push (.fiber g)).leave worker f .term).Awaited x → s.Awaited x := by
    rintro x (hmem | ⟨v, hv⟩)
    · have hmem' : x ∈ s.pool ++ [g] := hpool ▸ hmem
      rcases List.mem_append.mp hmem' with hmem' | hlast
      · exact Or.inl hmem'
      · exact Or.inr ⟨worker, List.mem_singleton.mp hlast ▸ hhands⟩
    · have hv' : Function.update s.held worker none v = some x := h.held_leave hw _ .term ▸ hv
      rcases OnePlace.held_update hv' with ⟨-, hnone⟩ | ⟨-, hv'⟩
      · cases hnone
      · exact Or.inr ⟨v, hv'⟩
  apply h.leave _ hw _ hawaited
  · intro hf
    exact absurd (hawaited f hf) (h.not_awaited hw (by simp [hpoint]))
  · rw [hpool]
    exact (h.tokens.release hhands).perm (List.perm_append_singleton g s.pool).symm

theorem pool_addTimer (s : Scheduler) (f : ℕ) :
    (f :: s.pool).Perm (pool ({ s with timers := s.timers ++ [f] }.setPoint f .registered)) := by
  show (f :: s.pool).Perm (s.timers ++ [f] ++ s.events ++ s.tasks.filterMap (·.kind.wakes))
  rw [pool, List.append_assoc, List.append_assoc, List.append_assoc]
  exact List.perm_middle.symm

theorem pool_addEvent (s : Scheduler) (f : ℕ) :
    (f :: s.pool).Perm (pool ({ s with events := s.events ++ [f] }.setPoint f .registered)) := by
  show (f :: s.pool).Perm (s.timers ++ (s.events ++ [f]) ++ s.tasks.filterMap (·.kind.wakes))
  rw [pool, ← List.append_assoc s.timers, List.append_assoc (s.timers ++ s.events)]
  exact List.perm_middle.symm

theorem Sound.fiberStep (h : s.Sound) (hw : s.workers worker = .running f) (act : SchedulerAction) :
    (s.fiberStep worker f act).Sound ∧ (s.fiberStep worker f act).panic = s.panic := by
  unfold Scheduler.fiberStep
  split
  · split_ifs with hpoint
    · exact ⟨h.register hw hpoint rfl rfl rfl rfl (pool_addTimer s f), rfl⟩
    · exact ⟨h, rfl⟩
  · split_ifs with hpoint
    · exact ⟨h.register hw hpoint rfl rfl rfl rfl (pool_addEvent s f), rfl⟩
    · exact ⟨h, rfl⟩
  · split_ifs with hpoint
    · exact ⟨h.leave_quiet hw .ready (by simp [hpoint]) fun _ => rfl, rfl⟩
    · exact ⟨h, rfl⟩
  · split_ifs with hpoint
    · refine ⟨h.leave_quiet hw .term (by simp [hpoint]) fun hawaited => ?_, rfl⟩
      exact absurd hawaited (h.not_awaited hw (by simp [hpoint]))
    · exact ⟨h, rfl⟩
  · split
    · rename_i g hpoint
      exact ⟨h.runWake hw hpoint, rfl⟩
    · exact ⟨h, rfl⟩
  · exact ⟨h, rfl⟩

/-! ## Runs -/

/-- The worker does not take the task of a fiber that is still on its way from its registration to
`yield`. -/
def TakesYielded (s : Scheduler) : SchedulerAction → Prop
  | .take worker => s.panic = none → s.workers worker = .looping → ∀ task f,
      s.tasks.find? (eligible worker) = some task → task.kind = .fiber f → s.point f ≠ .registered
  | _ => True

def fiberTasks (s : Scheduler) : List ℕ :=
  s.tasks.filterMap fun task =>
    match task.kind with
    | .fiber f => some f
    | _ => none

def ResumesParked (s : Scheduler) (act : SchedulerAction) : Prop :=
  (s.step act).panic = none ∧ (s.step act).fiberTasks.Nodup

instance (s : Scheduler) (act : SchedulerAction) : Decidable (s.ResumesParked act) :=
  inferInstanceAs (Decidable (_ = _ ∧ _))

theorem Sound.take (h : s.Sound) (hpanic : s.panic = none) (hloop : s.workers worker = .looping) :
    ((s.take worker).panic = none ↔ s.TakesYielded (.take worker)) ∧
      ((s.take worker).panic = none → (s.take worker).Sound) := by
  rw [Scheduler.take]
  cases hfind : s.tasks.find? (eligible worker) with
  | none =>
    refine ⟨⟨fun _ _ _ task f hsome => ?_, fun _ => hpanic⟩, fun _ => h⟩
    simp [hfind] at hsome
  | some task =>
    simp only
    split
    · rename_i f hkind
      have hmem : f ∈ s.pool := (pool_eraseP hfind).mem_iff.mpr (by simp [hkind, TaskKind.wakes])
      have hyielded : s.TakesYielded (.take worker) ↔ s.point f ≠ .registered := by
        constructor
        · exact fun htakes => htakes hpanic hloop task f hfind hkind
        · intro hpoint _ _ task' f' hfind' hkind'
          obtain rfl := Option.some.inj (hfind.symm.trans hfind')
          obtain rfl := TaskKind.fiber.inj (hkind.symm.trans hkind')
          exact hpoint
      rw [hyielded]
      split_ifs with hready
      · refine ⟨⟨fun _ hpoint => ?_, fun _ => hpanic⟩, fun _ => ?_⟩
        · rcases h.waiting f (Or.inl hmem) with hparked | ⟨-, w, hw⟩
          · simp [hparked.point] at hpoint
          · have hrun := h.running w f hw
            rw [hready] at hrun
            cases hrun
        · apply h.takeTask hloop hfind
          intro f' hkind'
          obtain rfl := TaskKind.fiber.inj (hkind.symm.trans hkind')
          exact hready
      · refine ⟨⟨fun hnone => (by cases hnone), fun hpoint => ?_⟩, fun hnone => (by cases hnone)⟩
        rcases h.waiting f (Or.inl hmem) with hparked | hwindow
        · exact absurd hparked.state hready
        · exact absurd hwindow.1 hpoint
    · rename_i hkind
      refine ⟨⟨fun _ _ _ task' f hfind' hkind' => ?_, fun _ => hpanic⟩, fun _ => ?_⟩
      · obtain rfl := Option.some.inj (hfind.symm.trans hfind')
        exact absurd hkind' (hkind f)
      · exact h.takeTask hloop hfind fun f hkind' => absurd hkind' (hkind f)

theorem Sound.nodup_fiberTasks (h : s.Sound) : s.fiberTasks.Nodup := by
  have htasks : (s.tasks.filterMap fun task => task.kind.wakes).Nodup :=
    h.tokens.pool_nodup.sublist (List.sublist_append_right _ _)
  refine htasks.sublist ?_
  rw [fiberTasks]
  generalize s.tasks = tasks
  induction tasks with
  | nil => exact List.Sublist.slnil
  | cons task tasks ih =>
    obtain ⟨kind, thread⟩ := task
    cases kind with
    | fiber f => exact ih.cons_cons f
    | wake f => exact ih.cons f
    | cb => exact ih

theorem Sound.fiberTurn (h : s.Sound) (act : SchedulerAction) :
    (s.fiberTurn worker act).Sound ∧ (s.fiberTurn worker act).panic = s.panic := by
  rw [Scheduler.fiberTurn, fiberOn]
  cases hw : s.workers worker with
  | running f => exact h.fiberStep hw act
  | looping => exact ⟨h, rfl⟩
  | idle => exact ⟨h, rfl⟩
  | taken task => exact ⟨h, rfl⟩

theorem Sound.step (h : s.Sound) (hpanic : s.panic = none) (act : SchedulerAction) :
    ((s.step act).panic = none ↔ s.TakesYielded act) ∧
      ((s.step act).panic = none → (s.step act).Sound) := by
  have hkeep : ∀ {s' : Scheduler} {D : Prop}, D → s'.Sound ∧ s'.panic = s.panic →
      (s'.panic = none ↔ D) ∧ (s'.panic = none → s'.Sound) := fun hD hs =>
    ⟨⟨fun _ => hD, fun _ => hs.2.trans hpanic⟩, fun _ => hs.1⟩
  have hsame : s.Sound ∧ s.panic = s.panic := ⟨h, rfl⟩
  rw [Scheduler.step.eq_def, if_neg (by simp [hpanic])]
  cases act with
  | spawn thread => exact hkeep trivial ⟨h.spawn thread, rfl⟩
  | take worker =>
    simp only
    split_ifs with hloop
    · exact h.take hpanic hloop
    · exact hkeep (fun _ hl => absurd hl hloop) hsame
  | enterIdle worker =>
    simp only
    split_ifs with hloop
    · exact hkeep trivial ⟨h.setIdle (Or.inl hloop.1) (Or.inr rfl), rfl⟩
    · exact hkeep trivial hsame
  | leaveIdle worker =>
    simp only
    split_ifs with hidle
    · exact hkeep trivial ⟨h.setIdle (Or.inr hidle) (Or.inl rfl), rfl⟩
    · exact hkeep trivial hsame
  | resume worker =>
    apply hkeep trivial
    simp only
    split
    · rename_i task hw
      exact h.resume hw
    · exact hsame
  | fireTimer worker f =>
    simp only
    split_ifs with hfire
    · exact hkeep trivial ⟨h.fireTimer hfire.2, rfl⟩
    · exact hkeep trivial hsame
  | fireEvent worker f =>
    simp only
    split_ifs with hfire
    · exact hkeep trivial ⟨h.fireEvent hfire.2, rfl⟩
    · exact hkeep trivial hsame
  | addTimer worker => exact hkeep trivial (h.fiberTurn _)
  | addEvent worker => exact hkeep trivial (h.fiberTurn _)
  | yield worker => exact hkeep trivial (h.fiberTurn _)
  | finish worker => exact hkeep trivial (h.fiberTurn _)
  | runWake worker => exact hkeep trivial (h.fiberTurn _)

/-- Over every run of any number of workers, only parked fibers are resumed and none is in `tasks_`
twice, exactly when no worker takes the task of a fiber that has not come to its `yield` yet. -/
theorem resumes_parked_iff (acts : List SchedulerAction) :
    Along step ResumesParked create acts ↔ Along step TakesYielded create acts := by
  apply along_congr (P := fun s : Scheduler => s.Sound ∧ s.panic = none)
  · intro s act hs hresumes
    exact ⟨(hs.1.step hs.2 act).2 hresumes.1, hresumes.1⟩
  · intro s act hs
    obtain ⟨hiff, hsound⟩ := hs.1.step hs.2 act
    rw [← hiff, ResumesParked]
    exact and_iff_left_of_imp fun hnone => (hsound hnone).nodup_fiberTasks
  · exact ⟨sound_create, rfl⟩

/-- A fiber on worker 0 calls `usleep`; worker 1 fires the timer, runs its callback and comes to the
fiber's task before the fiber has yielded. -/
theorem resumed_before_yield :
    ¬∀ acts : List SchedulerAction, Along step ResumesParked create acts := by
  intro h
  have hrun := h [.spawn none, .take 0, .resume 0, .addTimer 0, .enterIdle 1, .fireTimer 1 0,
    .leaveIdle 1, .take 1, .resume 1, .runWake 1, .take 1]
  exact absurd hrun (by decide +kernel)

end Scheduler

end RaftStorage.Monsoon
