import RaftStorage.Fiber.Events
import Mathlib.Algebra.Order.Group.Nat

/-! The vector `fdContexts_` that leads from a descriptor to its context. `addEvent` checks its length
under the read lock and resizes it later under the write lock, to a length of its own, so a thread can
cut off what another one has added in between. -/

namespace RaftStorage.Monsoon
open Library

variable {Task : Type*}

namespace IOManager

/-- A context with a registered event is the one that its descriptor leads to. -/
def InPlace (s : IOManager Task) : Prop := ∀ (ptr : ℕ) (c : FdContext Task),
  s.contexts[ptr]? = some c → someEvent c.events = true → s.fdContexts[c.fd]? = some ptr

structure Placed (s : IOManager Task) : Prop where
  own : ∀ fd ptr : ℕ, s.fdContexts[fd]? = some ptr → ∃ c, s.contexts[ptr]? = some c ∧ c.fd = fd
  held : ∀ (thread fd ptr : ℕ) (call : FdCall Task), s.calls thread = .holding fd ptr call →
    s.fdContexts[fd]? = some ptr
  inPlace : s.InPlace

variable {s s' : IOManager Task} {ptr fd : ℕ} {c : FdContext Task} {event : Event} {ok : Bool}

theorem Placed.congr (h : s.Placed) (hcontexts : s'.contexts = s.contexts)
    (hfd : s'.fdContexts = s.fdContexts) (hcalls : s'.calls = s.calls) : s'.Placed where
  own := by rw [hcontexts, hfd]; exact h.own
  held := by rw [hfd, hcalls]; exact h.held
  inPlace := by rw [InPlace, hcontexts, hfd]; exact h.inPlace

theorem Placed.setCall (h : s.Placed) (thread : ℕ) (point : CallPoint Task)
    (hpoint : ∀ fd ptr call, point = .holding fd ptr call → s.fdContexts[fd]? = some ptr) :
    (s.setCall thread point).Placed where
  own := h.own
  held := by
    intro th fd ptr call hcall
    by_cases hth : th = thread
    · subst hth
      exact hpoint fd ptr call (by simpa [IOManager.setCall] using hcall)
    · exact h.held th fd ptr call (by simpa [IOManager.setCall, hth] using hcall)
  inPlace := h.inPlace

theorem Placed.outside (h : s.Placed) (thread : ℕ) : (s.setCall thread .outside).Placed :=
  h.setCall thread .outside fun _ _ _ heq => by cases heq

theorem Placed.assign (h : s.Placed) (hc : s.contexts[ptr]? = some c) (event : Event)
    (entry : Option (EventContext Task))
    (hin : entry.isSome = true → s.fdContexts[c.fd]? = some ptr)
    (hcontexts : s'.contexts = s.contexts.set ptr (c.assign event entry))
    (hfd : s'.fdContexts = s.fdContexts) (hcalls : s'.calls = s.calls) : s'.Placed := by
  have hlt : ptr < s.contexts.length := (List.getElem?_eq_some_iff.mp hc).1
  constructor
  · intro fd p hp
    rw [hfd] at hp
    obtain ⟨c', hc', hfd'⟩ := h.own fd p hp
    rw [hcontexts]
    by_cases hpp : p = ptr
    · subst hpp
      obtain rfl := Option.some.inj (hc.symm.trans hc')
      exact ⟨_, List.getElem?_set_self hlt, hfd'⟩
    · exact ⟨c', by rw [List.getElem?_set_ne (Ne.symm hpp)]; exact hc', hfd'⟩
  · rw [hfd, hcalls]
    exact h.held
  · intro p c' hc' hsome
    rw [hcontexts] at hc'
    rw [hfd]
    by_cases hpp : p = ptr
    · subst hpp
      rw [List.getElem?_set_self hlt] at hc'
      obtain rfl := Option.some.inj hc'
      obtain ⟨e, he⟩ := (someEvent_iff _).mp hsome
      by_cases hev : e = event
      · subst hev
        exact hin (by simpa using he)
      · rw [FdContext.events_assign_of_ne hev] at he
        exact h.inPlace p c hc ((someEvent_iff _).mpr ⟨e, he⟩)
    · rw [List.getElem?_set_ne (Ne.symm hpp)] at hc'
      exact h.inPlace p c' hc' hsome

/-! ## The calls -/

theorem Placed.trigger (h : s.Placed) (event : Event) : (s.trigger ptr event).Placed := by
  cases hc : s.contexts[ptr]? with
  | none =>
    rw [IOManager.trigger, hc]
    exact h
  | some c =>
    cases hreg : c.events event with
    | true =>
      rw [trigger_registered hc hreg]
      exact h.assign hc event none (by simp) rfl rfl rfl
    | false =>
      rw [trigger_unregistered hc hreg]
      exact h.congr rfl rfl rfl

theorem Placed.triggerAll (h : s.Placed) (events : Event → Bool) :
    (s.triggerAll ptr events).Placed := by
  rw [IOManager.triggerAll]
  generalize [Event.read, Event.write] = l
  induction l generalizing s with
  | nil => exact h
  | cons e l ih =>
    rw [List.foldl_cons]
    apply ih
    split_ifs
    · exact h.trigger e
    · exact h

theorem Placed.epollCtl (h : s.Placed) (fd : ℕ) (events : Event → Bool) (ptr : ℕ) :
    (s.epollCtl fd events ptr).Placed := h.congr rfl rfl rfl

theorem Placed.addEvent (h : s.Placed) (hs : s.Sound) (hc : s.contexts[ptr]? = some c)
    (hin : s.fdContexts[c.fd]? = some ptr) (task : Task) :
    (s.addEvent fd ptr c event task ok).Placed := by
  rw [IOManager.addEvent]
  split_ifs with hreg hok
  · exact h.congr rfl rfl rfl
  · have hempty : (c.eveContext event).isSome = false :=
      (hs.slots ptr c hc event).trans (by simpa using hreg)
    simp only [hempty, Bool.false_eq_true, if_false]
    exact h.assign hc event (some ⟨task, s.tickets⟩) (fun _ => hin) rfl rfl rfl
  · exact h

theorem Placed.delEvent (h : s.Placed) (hc : s.contexts[ptr]? = some c) :
    (s.delEvent fd ptr c event ok).Placed := by
  rw [IOManager.delEvent]
  split_ifs
  · exact h.assign hc event none (by simp) rfl rfl rfl
  · exact h
  · exact h

theorem Placed.cancelEvent (h : s.Placed) : (s.cancelEvent fd ptr c event ok).Placed := by
  rw [IOManager.cancelEvent]
  split_ifs
  · exact (h.epollCtl fd _ ptr).trigger event
  · exact h
  · exact h

theorem Placed.cancelAll (h : s.Placed) : (s.cancelAll fd ptr c ok).Placed := by
  rw [IOManager.cancelAll]
  split_ifs
  · simp only
    have hall : ((s.epollCtl fd (fun _ => false) ptr).triggerAll ptr c.events).Placed :=
      (h.epollCtl fd (fun _ => false) ptr).triggerAll c.events
    split_ifs
    · exact hall.congr rfl rfl rfl
    · exact hall
  · exact h
  · exact h

theorem Placed.locked (h : s.Placed) (hs : s.Sound) (hheld : s.fdContexts[fd]? = some ptr)
    (call : FdCall Task) : (s.locked fd ptr ok call).Placed := by
  rw [IOManager.locked]
  split
  · exact h
  · rename_i c hc
    obtain ⟨c', hc', hfd⟩ := h.own fd ptr hheld
    obtain rfl := Option.some.inj (hc.symm.trans hc')
    cases call with
    | addEvent event task => exact h.addEvent hs hc (hfd ▸ hheld) task
    | delEvent event => exact h.delEvent hc
    | cancelEvent event => exact h.cancelEvent
    | cancelAll => exact h.cancelAll

theorem Placed.deliverEvent (h : s.Placed) (event : EpollEvent) :
    (s.deliverEvent ptr c event ok).Placed := by
  simp only [IOManager.deliverEvent]
  split_ifs
  · exact (h.epollCtl c.fd _ ptr).triggerAll _
  · exact h
  · exact h

/-! ## The vector -/

theorem Placed.contextResize (h : s.Placed) {size : ℕ} (hsize : s.fdContexts.length ≤ size) :
    (s.contextResize size).Placed := by
  have hfds : (s.contextResize size).fdContexts =
      s.fdContexts ++ List.range' s.contexts.length (size - s.fdContexts.length) := by
    rw [IOManager.contextResize, List.take_of_length_le hsize]
  have hkeep : ∀ {fd ptr : ℕ}, s.fdContexts[fd]? = some ptr →
      (s.contextResize size).fdContexts[fd]? = some ptr := by
    intro fd ptr hfd
    rw [hfds, List.getElem?_append_left (List.getElem?_eq_some_iff.mp hfd).1]
    exact hfd
  constructor
  · intro fd ptr hfd
    rw [hfds] at hfd
    rcases Nat.lt_or_ge fd s.fdContexts.length with hlt | hge
    · rw [List.getElem?_append_left hlt] at hfd
      obtain ⟨c, hc, hcfd⟩ := h.own fd ptr hfd
      refine ⟨c, ?_, hcfd⟩
      rw [IOManager.contextResize, List.getElem?_append_left (List.getElem?_eq_some_iff.mp hc).1]
      exact hc
    · rw [List.getElem?_append_right hge, List.getElem?_eq_some_iff] at hfd
      obtain ⟨hnew, hptr⟩ := hfd
      rw [List.length_range'] at hnew
      rw [List.getElem_range', Nat.one_mul] at hptr
      refine ⟨FdContext.create fd, ?_, rfl⟩
      have hindex : ptr - s.contexts.length = fd - s.fdContexts.length := by omega
      have hfd' : s.fdContexts.length + 1 * (fd - s.fdContexts.length) = fd := by omega
      rw [IOManager.contextResize, List.getElem?_append_right (by omega), hindex, List.getElem?_map,
        List.getElem?_range' hnew, hfd']
      rfl
  · intro thread fd ptr call hcall
    exact hkeep (h.held thread fd ptr call hcall)
  · intro ptr c hc hsome
    rcases getElem?_append_create hc with hold | ⟨fd, rfl⟩
    · exact hkeep (h.inPlace ptr c hold hsome)
    · exact absurd hsome (by simp [someEvent, FdContext.create])

theorem length_contextResize (s : IOManager Task) (size : ℕ) :
    (s.contextResize size).fdContexts.length = size := by
  rw [IOManager.contextResize, List.length_append, List.length_take, List.length_range']
  omega

theorem placed_create : (create : IOManager Task).Placed := by
  apply Placed.contextResize _ (Nat.zero_le 32)
  constructor
  · intro fd ptr hfd
    simp at hfd
  · intro thread fd ptr call hcall
    cases hcall
  · intro ptr c hc
    simp at hc

/-! ## Only `contextResize` writes the vector -/

theorem fdContexts_trigger (s : IOManager Task) (ptr : ℕ) (event : Event) :
    (s.trigger ptr event).fdContexts = s.fdContexts := by
  rw [trigger]
  split
  · rfl
  · split <;> rfl

theorem fdContexts_triggerAll (s : IOManager Task) (ptr : ℕ) (events : Event → Bool) :
    (s.triggerAll ptr events).fdContexts = s.fdContexts := by
  rw [triggerAll]
  generalize [Event.read, Event.write] = l
  induction l generalizing s with
  | nil => rfl
  | cons e l ih =>
    rw [List.foldl_cons, ih]
    split_ifs
    · exact fdContexts_trigger s ptr e
    · rfl

theorem fdContexts_locked (s : IOManager Task) (fd ptr : ℕ) (ok : Bool) (call : FdCall Task) :
    (s.locked fd ptr ok call).fdContexts = s.fdContexts := by
  rw [locked]
  split
  · rfl
  · cases call with
    | addEvent event task =>
      simp only [addEvent]
      split_ifs <;> rfl
    | delEvent event =>
      simp only [delEvent]
      split_ifs <;> rfl
    | cancelEvent event =>
      simp only [cancelEvent]
      split_ifs
      · exact fdContexts_trigger _ ptr event
      · rfl
      · rfl
    | cancelAll =>
      simp only [cancelAll]
      split_ifs
      · exact fdContexts_triggerAll _ ptr _
      · exact fdContexts_triggerAll _ ptr _
      · rfl
      · rfl

theorem fdContexts_deliverEvent (s : IOManager Task) (ptr : ℕ) (c : FdContext Task)
    (event : EpollEvent) (ok : Bool) :
    (s.deliverEvent ptr c event ok).fdContexts = s.fdContexts := by
  simp only [deliverEvent]
  split_ifs
  · exact fdContexts_triggerAll _ ptr _
  · rfl
  · rfl

/-! ## Runs -/

/-- The step takes nothing from the vector, and after it every context with a registered event is in
its place. -/
def KeepsContexts (s : IOManager Task) (act : IOAction Task) : Prop :=
  s.fdContexts.length ≤ (s.step act).fdContexts.length ∧ (s.step act).InPlace

/-- A thread that comes to the write lock finds the vector no longer than the length it asks for. -/
def GrowsOnly (s : IOManager Task) : IOAction Task → Prop
  | .resize thread => s.panic = none → ∀ fd event task, s.calls thread = .resizing fd event task →
      s.fdContexts.length ≤ fd * 3 / 2
  | _ => True

theorem Placed.resize (h : s.Placed) {thread fd : ℕ} {task : Task}
    (hcall : s.calls thread = .resizing fd event task) (hsize : s.fdContexts.length ≤ fd * 3 / 2) :
    (s.resize thread).Placed := by
  have hplaced := h.contextResize hsize
  rw [IOManager.resize, hcall]
  simp only
  split
  · exact hplaced.congr rfl rfl rfl
  · rename_i ptr hptr
    apply hplaced.setCall
    rintro fd' ptr' call' heq
    cases heq
    exact hptr

theorem length_resize {thread fd : ℕ} {task : Task}
    (hcall : s.calls thread = .resizing fd event task) :
    (s.resize thread).fdContexts.length = fd * 3 / 2 := by
  rw [IOManager.resize, hcall]
  simp only
  split
  · exact length_contextResize s _
  · exact length_contextResize s _

theorem Placed.otherStep (h : s.Placed) (hs : s.Sound) (act : IOAction Task)
    (hact : ∀ thread, act ≠ .resize thread) :
    (s.step act).Placed ∧ (s.step act).fdContexts = s.fdContexts := by
  rw [IOManager.step.eq_def]
  split_ifs
  · exact ⟨h, rfl⟩
  · cases act with
    | call thread fd call =>
      simp only
      split
      · unfold IOManager.lookUp
        split
        · rename_i ptr call' hptr
          refine ⟨h.setCall thread _ ?_, rfl⟩
          rintro fd' ptr' c' heq
          cases heq
          exact hptr
        · exact ⟨h.setCall thread _ fun _ _ _ heq => (by cases heq), rfl⟩
        · exact ⟨h, rfl⟩
      · exact ⟨h, rfl⟩
    | resize thread => exact absurd rfl (hact thread)
    | locked thread ok =>
      simp only
      split
      · rename_i fd ptr call hcall
        have hheld := h.held thread fd ptr call hcall
        exact ⟨(h.locked hs hheld call).outside thread, fdContexts_locked s fd ptr ok call⟩
      · exact ⟨h, rfl⟩
    | epollWait worker events =>
      simp only
      split
      · exact ⟨h.congr rfl rfl rfl, rfl⟩
      · exact ⟨h, rfl⟩
    | deliver worker ok =>
      simp only
      split
      · exact ⟨h, rfl⟩
      · rename_i ptr event rest _
        have hplaced : Placed { s with ready := Function.update s.ready worker rest } :=
          h.congr rfl rfl rfl
        split
        · exact ⟨hplaced, rfl⟩
        · rename_i c _
          exact ⟨hplaced.deliverEvent event, fdContexts_deliverEvent _ ptr c event ok⟩

theorem Placed.step (h : s.Placed) (hs : s.Sound) (act : IOAction Task) (hgrows : s.GrowsOnly act) :
    (s.step act).Placed ∧ s.fdContexts.length ≤ (s.step act).fdContexts.length := by
  by_cases hact : ∃ thread, act = .resize thread
  · obtain ⟨thread, rfl⟩ := hact
    rw [IOManager.step]
    split_ifs with hpanic
    · exact ⟨h, le_rfl⟩
    · cases hcall : s.calls thread with
      | resizing fd event task =>
        have hsize := hgrows (by simpa using hpanic) fd event task hcall
        exact ⟨h.resize hcall hsize, hsize.trans (length_resize hcall).ge⟩
      | outside =>
        rw [IOManager.resize, hcall]
        exact ⟨h, le_rfl⟩
      | holding fd ptr call =>
        rw [IOManager.resize, hcall]
        exact ⟨h, le_rfl⟩
  · have hother := h.otherStep hs act fun thread heq => hact ⟨thread, heq⟩
    exact ⟨hother.1, hother.2.symm ▸ le_rfl⟩

theorem Placed.keepsContexts_iff (h : s.Placed) (hs : s.Sound) (act : IOAction Task) :
    s.KeepsContexts act ↔ s.GrowsOnly act := by
  constructor
  · intro hkeeps
    cases act with
    | resize thread =>
      intro hpanic fd event task hcall
      have hlength := hkeeps.1
      rw [IOManager.step, if_neg (by simp [hpanic]), length_resize hcall] at hlength
      exact hlength
    | call thread fd call => exact trivial
    | locked thread ok => exact trivial
    | epollWait worker events => exact trivial
    | deliver worker ok => exact trivial
  · intro hgrows
    obtain ⟨hplaced, hlength⟩ := h.step hs act hgrows
    exact ⟨hlength, hplaced.inPlace⟩

/-- Over every run, `fdContexts_` never gets shorter and every registered event stays where its
descriptor leads to, exactly when no thread resizes a vector that is longer than it asks for. -/
theorem contexts_kept_iff (acts : List (IOAction Task)) :
    Along step KeepsContexts (create : IOManager Task) acts ↔
      Along step GrowsOnly (create : IOManager Task) acts := by
  apply along_congr (P := fun s : IOManager Task => s.Placed ∧ s.Sound)
  · intro s act hs hkeeps
    exact ⟨(hs.1.step hs.2 act ((hs.1.keepsContexts_iff hs.2 act).mp hkeeps)).1, hs.2.next act⟩
  · exact fun s act hs => hs.1.keepsContexts_iff hs.2 act
  · exact ⟨placed_create, sound_create⟩

/-- Two threads find the vector of length 32 too short; the one with descriptor 100 makes it 150 long
and registers, and the other one cuts it down to 60. -/
theorem resize_loses_context :
    ¬∀ acts : List (IOAction Unit), Along step KeepsContexts (create : IOManager Unit) acts := by
  intro h
  have hrun := h [.call 0 40 (.addEvent .read ()), .call 1 100 (.addEvent .read ()), .resize 1,
    .locked 1 true, .resize 0]
  exact absurd hrun.2.2.2.2.1.1 (by decide +kernel)

end IOManager

end RaftStorage.Monsoon
