import RaftStorage.Fiber.IOManager
import RaftStorage.Library.Slots
import RaftStorage.Library.Transition
import Mathlib.Algebra.BigOperators.Group.List.Basic
import Mathlib.Algebra.Order.Ring.Int

/-! Every registration of an event is counted while it lasts and is used up at most once. The delivery
loop works on what `epoll_wait` returned earlier: it skips an event when none of it is registered any
more, but of one that is registered in part it triggers the whole. -/

namespace RaftStorage.Monsoon
open Library

variable {Task : Type*}

def FdContext.registered (c : FdContext Task) : ℤ :=
  (if c.events .read then 1 else 0) + if c.events .write then 1 else 0

def FdContext.assign (c : FdContext Task) (event : Event) (entry : Option (EventContext Task)) :
    FdContext Task :=
  { c with
    events := Function.update c.events event entry.isSome
    eveContext := Function.update c.eveContext event entry }

namespace FdContext

variable {c : FdContext Task} {event e : Event} {entry : Option (EventContext Task)}

@[simp]
theorem events_assign_self : (c.assign event entry).events event = entry.isSome :=
  Function.update_self ..

@[simp]
theorem eveContext_assign_self : (c.assign event entry).eveContext event = entry :=
  Function.update_self ..

theorem events_assign_of_ne (h : e ≠ event) : (c.assign event entry).events e = c.events e :=
  Function.update_of_ne h ..

theorem eveContext_assign_of_ne (h : e ≠ event) :
    (c.assign event entry).eveContext e = c.eveContext e := Function.update_of_ne h ..

theorem registered_assign (c : FdContext Task) (event : Event)
    (entry : Option (EventContext Task)) :
    (c.assign event entry).registered =
      c.registered - (if c.events event then 1 else 0) + if entry.isSome then 1 else 0 := by
  cases event with
  | read =>
    have hw : (c.assign .read entry).events .write = c.events .write :=
      events_assign_of_ne (by decide)
    simp only [registered, events_assign_self, hw]
    omega
  | write =>
    have hr : (c.assign .write entry).events .read = c.events .read :=
      events_assign_of_ne (by decide)
    simp only [registered, events_assign_self, hr]
    omega

end FdContext

namespace IOManager

def ticketAt (contexts : List (FdContext Task)) (slot : ℕ × Event) : Option ℕ :=
  contexts[slot.1]?.bind fun c => (c.eveContext slot.2).map EventContext.ticket

structure Sound (s : IOManager Task) : Prop where
  slots : ∀ (ptr : ℕ) (c : FdContext Task), s.contexts[ptr]? = some c →
    ∀ event, (c.eveContext event).isSome = c.events event
  count : s.pendingEventCnt = (s.contexts.map FdContext.registered).sum
  once : Issued (ticketAt s.contexts) (s.scheduled.map EventContext.ticket) s.tickets

variable {s : IOManager Task} {ptr fd : ℕ} {c : FdContext Task} {event : Event} {ok : Bool}

/-! ## One slot changes -/

theorem ticketAt_assign {contexts : List (FdContext Task)} (hc : contexts[ptr]? = some c)
    (event : Event) (entry : Option (EventContext Task)) :
    ticketAt (contexts.set ptr (c.assign event entry)) =
      Function.update (ticketAt contexts) (ptr, event) (entry.map EventContext.ticket) := by
  have hlt : ptr < contexts.length := (List.getElem?_eq_some_iff.mp hc).1
  funext slot
  obtain ⟨p, e⟩ := slot
  by_cases hp : p = ptr
  · subst hp
    by_cases he : e = event
    · subst he
      rw [Function.update_self, ticketAt, List.getElem?_set_self hlt, Option.bind_some,
        FdContext.eveContext_assign_self]
    · have hne : (p, e) ≠ (p, event) := fun h => he (Prod.mk.inj h).2
      rw [Function.update_of_ne hne, ticketAt, ticketAt, List.getElem?_set_self hlt, hc,
        Option.bind_some, Option.bind_some, FdContext.eveContext_assign_of_ne he]
  · have hne : (p, e) ≠ (ptr, event) := fun h => hp (Prod.mk.inj h).1
    rw [Function.update_of_ne hne, ticketAt, ticketAt, List.getElem?_set_ne (Ne.symm hp)]

theorem sum_assign {contexts : List (FdContext Task)} (hc : contexts[ptr]? = some c)
    (event : Event) (entry : Option (EventContext Task)) :
    ((contexts.set ptr (c.assign event entry)).map FdContext.registered).sum =
      (contexts.map FdContext.registered).sum - (if c.events event then 1 else 0) +
        if entry.isSome then 1 else 0 := by
  obtain ⟨hlt, rfl⟩ := List.getElem?_eq_some_iff.mp hc
  rw [List.map_set, List.sum_set', dif_pos (by simpa using hlt), List.getElem_map,
    FdContext.registered_assign]
  omega

theorem slots_assign (h : s.Sound) (hc : s.contexts[ptr]? = some c) (event : Event)
    (entry : Option (EventContext Task)) (p : ℕ) (c' : FdContext Task)
    (hc' : (s.contexts.set ptr (c.assign event entry))[p]? = some c') (e : Event) :
    (c'.eveContext e).isSome = c'.events e := by
  have hlt : ptr < s.contexts.length := (List.getElem?_eq_some_iff.mp hc).1
  by_cases hp : p = ptr
  · subst hp
    rw [List.getElem?_set_self hlt] at hc'
    obtain rfl := Option.some.inj hc'
    by_cases he : e = event
    · subst he
      rw [FdContext.eveContext_assign_self, FdContext.events_assign_self]
    · rw [FdContext.eveContext_assign_of_ne he, FdContext.events_assign_of_ne he]
      exact h.slots p c hc e
  · rw [List.getElem?_set_ne (Ne.symm hp)] at hc'
    exact h.slots p c' hc' e

theorem Sound.congr (h : s.Sound) {s' : IOManager Task} (hcontexts : s'.contexts = s.contexts)
    (hcount : s'.pendingEventCnt = s.pendingEventCnt) (hscheduled : s'.scheduled = s.scheduled)
    (htickets : s'.tickets = s.tickets) : s'.Sound where
  slots := by rw [hcontexts]; exact h.slots
  count := by rw [hcontexts, hcount]; exact h.count
  once := by rw [hcontexts, hscheduled, htickets]; exact h.once

theorem Sound.register (h : s.Sound) (hc : s.contexts[ptr]? = some c) (hnot : c.events event = false)
    {s' : IOManager Task} {task : Task}
    (hcontexts : s'.contexts = s.contexts.set ptr (c.assign event (some ⟨task, s.tickets⟩)))
    (hcount : s'.pendingEventCnt = s.pendingEventCnt + 1) (hscheduled : s'.scheduled = s.scheduled)
    (htickets : s'.tickets = s.tickets + 1) : s'.Sound where
  slots := by rw [hcontexts]; exact slots_assign h hc event _
  count := by
    rw [hcount, hcontexts, sum_assign hc, h.count]
    simp [hnot]
  once := by
    rw [hcontexts, hscheduled, htickets, ticketAt_assign hc]
    exact h.once.put (ptr, event)

theorem Sound.unregister (h : s.Sound) (hc : s.contexts[ptr]? = some c) (hreg : c.events event = true)
    {s' : IOManager Task} (hcontexts : s'.contexts = s.contexts.set ptr (c.assign event none))
    (hcount : s'.pendingEventCnt = s.pendingEventCnt - 1)
    (hscheduled : s'.scheduled = s.scheduled ∨ s'.scheduled = s.scheduled ++ (c.eveContext event).toList)
    (htickets : s'.tickets = s.tickets) : s'.Sound where
  slots := by rw [hcontexts]; exact slots_assign h hc event _
  count := by
    rw [hcount, hcontexts, sum_assign hc, h.count]
    simp [hreg]
  once := by
    rw [hcontexts, htickets, ticketAt_assign hc]
    rcases hscheduled with hsame | hmore
    · rw [hsame]
      exact h.once.drop (ptr, event)
    · have hsome : (c.eveContext event).isSome = true := (h.slots ptr c hc event).trans hreg
      obtain ⟨x, hx⟩ := Option.isSome_iff_exists.mp hsome
      have hslot : ticketAt s.contexts (ptr, event) = some x.ticket := by
        rw [ticketAt, hc, Option.bind_some, hx]
        rfl
      rw [hmore, hx, List.map_append]
      exact h.once.take hslot

/-! ## Triggering -/

theorem trigger_registered (hc : s.contexts[ptr]? = some c) (hreg : c.events event = true) :
    s.trigger ptr event =
      { s with
        contexts := s.contexts.set ptr (c.assign event none)
        scheduled := s.scheduled ++ (c.eveContext event).toList
        pendingEventCnt := s.pendingEventCnt - 1 } := by
  simp only [trigger, hc, FdContext.triggerEvent, hreg, if_true]
  rfl

theorem trigger_unregistered (hc : s.contexts[ptr]? = some c) (hnot : c.events event = false) :
    s.trigger ptr event = { s with panic := some .notRegistered } := by
  simp only [trigger, hc, FdContext.triggerEvent, hnot, Bool.false_eq_true, if_false]

theorem Sound.trigger (h : s.Sound) (event : Event) : (s.trigger ptr event).Sound := by
  cases hc : s.contexts[ptr]? with
  | none =>
    rw [IOManager.trigger, hc]
    exact h
  | some c =>
    cases hreg : c.events event with
    | true =>
      rw [trigger_registered hc hreg]
      exact h.unregister hc hreg rfl rfl (Or.inr rfl) rfl
    | false =>
      rw [trigger_unregistered hc hreg]
      exact h.congr rfl rfl rfl rfl

theorem Sound.triggerAll (h : s.Sound) (events : Event → Bool) : (s.triggerAll ptr events).Sound := by
  rw [IOManager.triggerAll]
  generalize [Event.read, Event.write] = l
  induction l generalizing s with
  | nil => exact h
  | cons e l ih =>
    rw [List.foldl_cons]
    apply ih
    split_ifs
    · exact h.trigger e
    · exact h

theorem panic_triggerAll (hpanic : s.panic = none) (hc : s.contexts[ptr]? = some c)
    (events : Event → Bool) : (s.triggerAll ptr events).panic = some .notRegistered ↔
      ¬∀ e, events e = true → c.events e = true := by
  have hlt : ptr < s.contexts.length := (List.getElem?_eq_some_iff.mp hc).1
  have hall : (∀ e, events e = true → c.events e = true) ↔
      (events .read = true → c.events .read = true) ∧
        (events .write = true → c.events .write = true) := by
    refine ⟨fun h => ⟨h .read, h .write⟩, fun h e => ?_⟩
    cases e with
    | read => exact h.1
    | write => exact h.2
  rw [hall]
  have hsecond : ∀ (s' : IOManager Task) {c' : FdContext Task}, s'.panic = none →
      s'.contexts[ptr]? = some c' → c'.events .write = c.events .write →
      ((if s'.panic.isNone && events .write then s'.trigger ptr .write else s').panic =
        some .notRegistered ↔ ¬(events .write = true → c.events .write = true)) := by
    intro s' c' hpanic' hc' hsame
    cases hw : events .write with
    | false => simp [hpanic']
    | true =>
      cases hreg : c'.events .write with
      | true => simp [trigger_registered hc' hreg, hpanic', ← hsame, hreg]
      | false => simp [trigger_unregistered hc' hreg, hpanic', ← hsame, hreg]
  simp only [triggerAll, List.foldl_cons, List.foldl_nil]
  cases hr : events .read with
  | false => simpa [hpanic] using hsecond s hpanic hc rfl
  | true =>
    cases hreg : c.events .read with
    | true =>
      have hc' : (s.contexts.set ptr (c.assign .read none))[ptr]? = some (c.assign .read none) :=
        List.getElem?_set_self hlt
      have hw : (c.assign .read none).events .write = c.events .write :=
        FdContext.events_assign_of_ne (by decide)
      simpa [hpanic, trigger_registered hc hreg] using
        hsecond { s with
          contexts := s.contexts.set ptr (c.assign .read none)
          scheduled := s.scheduled ++ (c.eveContext .read).toList
          pendingEventCnt := s.pendingEventCnt - 1 } hpanic hc' hw
    | false => simp [hpanic, trigger_unregistered hc hreg]

/-! ## The calls -/

def Registered (s : IOManager Task) : Prop := s.panic ≠ some .notRegistered

instance (s : IOManager Task) : Decidable s.Registered := inferInstanceAs (Decidable (_ ≠ _))

theorem registered_of_none (h : s.panic = none) : s.Registered := by
  rw [Registered, h]
  decide

theorem addEvent_sound (h : s.Sound) (hc : s.contexts[ptr]? = some c) (hpanic : s.panic = none)
    (task : Task) : (s.addEvent fd ptr c event task ok).Sound ∧
      (s.addEvent fd ptr c event task ok).Registered := by
  rw [addEvent]
  split_ifs with hreg hok
  · exact ⟨h.congr rfl rfl rfl rfl, by simp [Registered]⟩
  · have hnot : c.events event = false := by simpa using hreg
    have hempty : (c.eveContext event).isSome = false := (h.slots ptr c hc event).trans hnot
    simp only [hempty, Bool.false_eq_true, if_false]
    exact ⟨h.register hc hnot rfl rfl rfl rfl, registered_of_none hpanic⟩
  · exact ⟨h, registered_of_none hpanic⟩

theorem delEvent_sound (h : s.Sound) (hc : s.contexts[ptr]? = some c) (hpanic : s.panic = none) :
    (s.delEvent fd ptr c event ok).Sound ∧ (s.delEvent fd ptr c event ok).Registered := by
  rw [delEvent]
  split_ifs with hreg hok
  · exact ⟨h.unregister hc hreg rfl rfl (Or.inl rfl) rfl, registered_of_none hpanic⟩
  · exact ⟨h, registered_of_none hpanic⟩
  · exact ⟨h, registered_of_none hpanic⟩

theorem Sound.epollCtl (h : s.Sound) (fd : ℕ) (events : Event → Bool) (ptr : ℕ) :
    (s.epollCtl fd events ptr).Sound := h.congr rfl rfl rfl rfl

theorem registered_triggerAll (hpanic : s.panic = none) (hc : s.contexts[ptr]? = some c)
    (mask events : Event → Bool) : ((s.epollCtl fd mask ptr).triggerAll ptr events).Registered ↔
      ∀ e, events e = true → c.events e = true := by
  have hc' : (s.epollCtl fd mask ptr).contexts[ptr]? = some c := hc
  have hpanic' : (s.epollCtl fd mask ptr).panic = none := hpanic
  rw [Registered, ne_eq, panic_triggerAll hpanic' hc', not_not]

theorem cancelEvent_sound (h : s.Sound) (hc : s.contexts[ptr]? = some c) (hpanic : s.panic = none) :
    (s.cancelEvent fd ptr c event ok).Sound ∧ (s.cancelEvent fd ptr c event ok).Registered := by
  rw [cancelEvent]
  split_ifs with hreg hok
  · refine ⟨(h.epollCtl fd _ ptr).trigger event, ?_⟩
    have hc' : (s.epollCtl fd (Function.update c.events event false) ptr).contexts[ptr]? = some c := hc
    rw [trigger_registered hc' hreg]
    exact registered_of_none hpanic
  · exact ⟨h, registered_of_none hpanic⟩
  · exact ⟨h, registered_of_none hpanic⟩

theorem cancelAll_sound (h : s.Sound) (hc : s.contexts[ptr]? = some c) (hpanic : s.panic = none) :
    (s.cancelAll fd ptr c ok).Sound ∧ (s.cancelAll fd ptr c ok).Registered := by
  rw [cancelAll]
  split_ifs with hsome hok
  · simp only
    have hsound : ((s.epollCtl fd (fun _ => false) ptr).triggerAll ptr c.events).Sound :=
      (h.epollCtl fd (fun _ => false) ptr).triggerAll c.events
    split_ifs
    · exact ⟨hsound.congr rfl rfl rfl rfl, by simp [Registered]⟩
    · exact ⟨hsound, (registered_triggerAll hpanic hc _ _).mpr fun e he => he⟩
  · exact ⟨h, registered_of_none hpanic⟩
  · exact ⟨h, registered_of_none hpanic⟩

theorem locked_sound (h : s.Sound) (hpanic : s.panic = none) (call : FdCall Task) :
    (s.locked fd ptr ok call).Sound ∧ (s.locked fd ptr ok call).Registered := by
  rw [locked]
  split
  · exact ⟨h, registered_of_none hpanic⟩
  · rename_i c hc
    cases call with
    | addEvent event task => exact addEvent_sound h hc hpanic task
    | delEvent event => exact delEvent_sound h hc hpanic
    | cancelEvent event => exact cancelEvent_sound h hc hpanic
    | cancelAll => exact cancelAll_sound h hc hpanic

/-- What was returned for the context is registered as a whole, or none of it is. -/
def WholeOrNone (c : FdContext Task) (event : EpollEvent) : Prop :=
  (∃ e, c.events e = true ∧ realEvents c event e = true) →
    ∀ e, realEvents c event e = true → c.events e = true

theorem someEvent_iff (events : Event → Bool) : someEvent events = true ↔ ∃ e, events e = true := by
  rw [someEvent, Bool.or_eq_true]
  constructor
  · rintro (hr | hw)
    · exact ⟨.read, hr⟩
    · exact ⟨.write, hw⟩
  · rintro ⟨e, he⟩
    cases e with
    | read => exact Or.inl he
    | write => exact Or.inr he

theorem deliverEvent_sound (h : s.Sound) (hc : s.contexts[ptr]? = some c) (hpanic : s.panic = none)
    (event : EpollEvent) : (s.deliverEvent ptr c event ok).Sound ∧
      ((s.deliverEvent ptr c event ok).Registered ↔ (ok = true → WholeOrNone c event)) := by
  simp only [deliverEvent]
  split_ifs with hsome hok
  · refine ⟨(h.epollCtl c.fd _ ptr).triggerAll _, ?_⟩
    rw [someEvent_iff] at hsome
    rw [registered_triggerAll hpanic hc, WholeOrNone]
    constructor
    · exact fun hall _ _ => hall
    · exact fun hwhole => hwhole hok (by simpa using hsome)
  · refine ⟨h, fun _ htrue => absurd htrue hok, fun _ => registered_of_none hpanic⟩
  · refine ⟨h, fun _ _ hboth => ?_, fun _ => registered_of_none hpanic⟩
    rw [someEvent_iff] at hsome
    exact absurd hboth (by simpa using hsome)

/-! ## The vector -/

theorem getElem?_append_create {contexts : List (FdContext Task)} {ids : List ℕ} {ptr : ℕ}
    {c : FdContext Task} (hc : (contexts ++ ids.map FdContext.create)[ptr]? = some c) :
    contexts[ptr]? = some c ∨ ∃ fd, c = FdContext.create fd := by
  rcases Nat.lt_or_ge ptr contexts.length with hlt | hge
  · rw [List.getElem?_append_left hlt] at hc
    exact Or.inl hc
  · rw [List.getElem?_append_right hge, List.getElem?_map] at hc
    obtain ⟨fd, -, hfd⟩ := Option.map_eq_some_iff.mp hc
    exact Or.inr ⟨fd, hfd.symm⟩

theorem ticketAt_append_create (contexts : List (FdContext Task)) (ids : List ℕ) :
    ticketAt (contexts ++ ids.map FdContext.create) = ticketAt contexts := by
  funext slot
  rw [ticketAt, ticketAt]
  rcases Nat.lt_or_ge slot.1 contexts.length with hlt | hge
  · rw [List.getElem?_append_left hlt]
  · rw [List.getElem?_append_right hge, List.getElem?_eq_none hge, List.getElem?_map]
    cases ids[slot.1 - contexts.length]? with
    | none => rfl
    | some fd => rfl

theorem sum_create (ids : List ℕ) :
    ((ids.map fun fd => (FdContext.create fd : FdContext Task)).map FdContext.registered).sum = 0 := by
  rw [List.map_map]
  apply List.sum_eq_zero
  intro x hx
  obtain ⟨fd, -, rfl⟩ := List.mem_map.mp hx
  rfl

theorem Sound.contextResize (h : s.Sound) (size : ℕ) : (s.contextResize size).Sound where
  slots := by
    intro ptr c hc
    rcases getElem?_append_create hc with hold | ⟨fd, rfl⟩
    · exact h.slots ptr c hold
    · exact fun _ => rfl
  count := by
    show s.pendingEventCnt = _
    rw [IOManager.contextResize, List.map_append, List.sum_append, sum_create, add_zero]
    exact h.count
  once := by
    rw [IOManager.contextResize, ticketAt_append_create]
    exact h.once

theorem sound_create : (create : IOManager Task).Sound := by
  apply Sound.contextResize
  constructor
  · intro ptr c hc
    simp at hc
  · rfl
  · exact Issued.empty

/-! ## Runs -/

theorem resize_sound (h : s.Sound) (hpanic : s.panic = none) (thread : ℕ) :
    (s.resize thread).Sound ∧ (s.resize thread).Registered := by
  rw [resize]
  split
  · simp only
    split
    · exact ⟨(h.contextResize _).congr rfl rfl rfl rfl, by simp [Registered]⟩
    · exact ⟨(h.contextResize _).congr rfl rfl rfl rfl, registered_of_none hpanic⟩
  · exact ⟨h, registered_of_none hpanic⟩

theorem lookUp_sound (h : s.Sound) (hpanic : s.panic = none) (thread fd : ℕ) (call : FdCall Task) :
    (s.lookUp thread fd call).Sound ∧ (s.lookUp thread fd call).Registered := by
  unfold lookUp
  split
  · exact ⟨h.congr rfl rfl rfl rfl, registered_of_none hpanic⟩
  · exact ⟨h.congr rfl rfl rfl rfl, registered_of_none hpanic⟩
  · exact ⟨h, registered_of_none hpanic⟩

/-- A worker comes to an event that `epoll_wait` returned: either all of it is still registered, or
nothing of it is, or `epoll_ctl` fails. -/
def DeliversRegistered (s : IOManager Task) : IOAction Task → Prop
  | .deliver worker ok => s.panic = none → ∀ ptr event c,
      (s.ready worker).head? = some (ptr, event) → s.contexts[ptr]? = some c → ok = true →
      WholeOrNone c event
  | _ => True

theorem Sound.step (h : s.Sound) (hreg : s.Registered) (act : IOAction Task) :
    (s.step act).Sound ∧ ((s.step act).Registered ↔ s.DeliversRegistered act) := by
  cases hpanic : s.panic with
  | some p =>
    have hstep : s.step act = s := by simp [IOManager.step, hpanic]
    rw [hstep]
    refine ⟨h, fun _ => ?_, fun _ => hreg⟩
    cases act <;> simp [DeliversRegistered, hpanic]
  | none =>
    have hkeep : ∀ {s' : IOManager Task} {D : Prop}, D → s'.Sound ∧ s'.Registered →
        s'.Sound ∧ (s'.Registered ↔ D) := fun hD hs => ⟨hs.1, fun _ => hD, fun _ => hs.2⟩
    have hsame : s.Sound ∧ s.Registered := ⟨h, hreg⟩
    rw [IOManager.step.eq_def, if_neg (by simp [hpanic])]
    cases act with
    | call thread fd call =>
      apply hkeep trivial
      simp only
      split
      · exact lookUp_sound h hpanic thread fd call
      · exact hsame
    | resize thread => exact hkeep trivial (resize_sound h hpanic thread)
    | locked thread ok =>
      apply hkeep trivial
      simp only
      split
      · rename_i fd ptr call _
        obtain ⟨hsound, hregistered⟩ : (s.locked fd ptr ok call).Sound ∧
            (s.locked fd ptr ok call).Registered := locked_sound h hpanic call
        exact ⟨hsound.congr rfl rfl rfl rfl, hregistered⟩
      · exact hsame
    | epollWait worker events =>
      apply hkeep trivial
      simp only
      split
      · exact ⟨h.congr rfl rfl rfl rfl, registered_of_none hpanic⟩
      · exact hsame
    | deliver worker ok =>
      simp only
      split
      · rename_i hready
        apply hkeep _ hsame
        intro _ ptr event c hhead
        simp [hready] at hhead
      · rename_i ptr event rest hready
        have hsound : Sound { s with ready := Function.update s.ready worker rest } :=
          h.congr rfl rfl rfl rfl
        cases hc : s.contexts[ptr]? with
        | none =>
          apply hkeep _ ⟨hsound, registered_of_none hpanic⟩
          intro _ ptr' event' c hhead hc'
          rw [hready] at hhead
          obtain ⟨rfl, rfl⟩ := Prod.mk.inj (Option.some.inj hhead)
          simp [hc] at hc'
        | some c =>
          obtain ⟨hdelivered, hregistered⟩ := deliverEvent_sound hsound hc hpanic event
          refine ⟨hdelivered, hregistered.trans ?_⟩
          constructor
          · intro hwhole _ ptr' event' c' hhead hc' hok
            rw [hready] at hhead
            obtain ⟨rfl, rfl⟩ := Prod.mk.inj (Option.some.inj hhead)
            obtain rfl := Option.some.inj (hc.symm.trans hc')
            exact hwhole hok
          · intro hdelivers hok
            exact hdelivers hpanic ptr event c (by rw [hready]; rfl) hc hok

theorem Sound.next (h : s.Sound) (act : IOAction Task) : (s.step act).Sound := by
  cases hpanic : s.panic with
  | none => exact (h.step (registered_of_none hpanic) act).1
  | some p =>
    have hstep : s.step act = s := by simp [IOManager.step, hpanic]
    rw [hstep]
    exact h

/-- After the step the counter is right, no registration has been handed to the scheduler twice, and
no `triggerEvent` has met an event that is not registered. -/
def ConsumedOnce (s : IOManager Task) (act : IOAction Task) : Prop :=
  (s.step act).Registered ∧
    (s.step act).pendingEventCnt = ((s.step act).contexts.map FdContext.registered).sum ∧
    ((s.step act).scheduled.map EventContext.ticket).Nodup

instance (s : IOManager Task) (act : IOAction Task) : Decidable (s.ConsumedOnce act) :=
  inferInstanceAs (Decidable (_ ∧ _ = _ ∧ _))

/-- Over every run, registrations are consumed exactly once as long as no worker comes to an event
that has been taken back in part. -/
theorem consumed_once_iff (acts : List (IOAction Task)) :
    Along step ConsumedOnce (create : IOManager Task) acts ↔
      Along step DeliversRegistered (create : IOManager Task) acts := by
  apply along_congr (P := fun s : IOManager Task => s.Sound ∧ s.Registered)
  · intro s act hs hconsumed
    exact ⟨(hs.1.step hs.2 act).1, hconsumed.1⟩
  · intro s act hs
    obtain ⟨hsound, hiff⟩ := hs.1.step hs.2 act
    rw [← hiff, ConsumedOnce]
    exact and_iff_left ⟨hsound.count, hsound.once.used_nodup⟩
  · exact ⟨sound_create, registered_of_none rfl⟩

/-- One thread waits to read and another to write on descriptor 3; a worker is told that it is ready
for both, and before it comes to the context the writer is cancelled. -/
theorem stale_event_panics :
    ¬∀ acts : List (IOAction Unit), Along step ConsumedOnce (create : IOManager Unit) acts := by
  intro h
  have hrun := h [.call 0 3 (.addEvent .read ()), .locked 0 true, .call 1 3 (.addEvent .write ()),
    .locked 1 true, .epollWait 2 [(3, ⟨fun _ => true, false⟩)], .call 3 3 (.cancelEvent .write),
    .locked 3 true, .deliver 2 true]
  exact absurd hrun (by decide +kernel)

end IOManager

end RaftStorage.Monsoon
