import RaftStorage.Fiber.Timer

/-! What `timers_` holds over whole runs: exactly the timers that have a callback, in the order of
their deadlines. -/

namespace RaftStorage.Monsoon
open Library

variable {Cb : Type*}

namespace TimerManager

def key (heap : ℕ → Option (Timer Cb)) (a : ℕ) : ℕ ×ₗ ℕ := toLex ((nextAt heap a).toNat, a)

variable {heap : ℕ → Option (Timer Cb)} {m : TimerManager Cb} {a b : ℕ} {t : Timer Cb}
  {out : List ℕ}

theorem comparator_iff (heap : ℕ → Option (Timer Cb)) (a b : ℕ) :
    comparator heap (some a) (some b) = true ↔ key heap a < key heap b := by
  rw [key, key, Prod.Lex.toLex_lt_toLex, comparator]
  simp only [UInt64.lt_iff_toNat_lt]
  split_ifs with hlt hgt
  · simp [hlt]
  · simp only [false_iff]
    omega
  · simp only [decide_eq_true_eq]
    omega

theorem key_ne (hab : a ≠ b) : key heap a ≠ key heap b := by
  intro h
  exact hab (congrArg (fun k => (ofLex k).2) h)

theorem key_congr {heap' : ℕ → Option (Timer Cb)} (h : nextAt heap' a = nextAt heap a) :
    key heap' a = key heap a := by
  rw [key, key, h]

@[simp]
theorem heap_set_self : (m.set a t).heap a = some t := Function.update_self ..

theorem heap_set_of_ne (h : b ≠ a) : (m.set a t).heap b = m.heap b := Function.update_of_ne h ..

theorem nextAt_set_of_ne (h : b ≠ a) : nextAt (m.set a t).heap b = nextAt m.heap b := by
  rw [nextAt, heap_set_of_ne h]
  rfl

@[simp]
theorem nextAt_set_self : nextAt (m.set a t).heap a = t.next := by
  rw [nextAt, heap_set_self]
  rfl

def Armed (heap : ℕ → Option (Timer Cb)) (a : ℕ) : Prop :=
  ∃ t, heap a = some t ∧ t.cb.isSome = true

theorem armed_iff (h : heap a = some t) : Armed heap a ↔ t.cb.isSome = true := by
  constructor
  · rintro ⟨t', ht', hcb⟩
    obtain rfl : t = t' := Option.some.inj (h.symm.trans ht')
    exact hcb
  · exact fun hcb => ⟨t, h, hcb⟩

theorem armed_set_of_ne (h : b ≠ a) : Armed (m.set a t).heap b ↔ Armed m.heap b := by
  rw [Armed, heap_set_of_ne h]
  rfl

structure WellKept (m : TimerManager Cb) : Prop where
  mem_timers : ∀ a, a ∈ m.timers ↔ Armed m.heap a
  ordered : OrderedSet.Ordered (key m.heap) m.timers

/-- The same while the timers of `out` are taken out of the set. -/
structure KeptBut (out : List ℕ) (m : TimerManager Cb) : Prop where
  absent : ∀ a ∈ out, a ∉ m.timers
  mem_timers : ∀ a ∉ out, (a ∈ m.timers ↔ Armed m.heap a)
  ordered : OrderedSet.Ordered (key m.heap) m.timers

theorem keptBut_nil : KeptBut [] m ↔ m.WellKept := by
  constructor
  · exact fun h => ⟨fun a => h.mem_timers a List.not_mem_nil, h.ordered⟩
  · exact fun h => ⟨fun a ha => absurd ha List.not_mem_nil, fun a _ => h.mem_timers a, h.ordered⟩

theorem wellKept_create (now : UInt64) : (create now : TimerManager Cb).WellKept where
  mem_timers := by simp [create, Armed]
  ordered := List.Pairwise.nil

theorem KeptBut.set (h : KeptBut (a :: out) m) (t : Timer Cb) : KeptBut (a :: out) (m.set a t) where
  absent := h.absent
  mem_timers := by
    intro b hb
    rw [armed_set_of_ne (List.ne_of_not_mem_cons hb)]
    exact h.mem_timers b hb
  ordered := by
    apply h.ordered.congr
    intro b hb
    apply key_congr
    apply nextAt_set_of_ne
    rintro rfl
    exact h.absent b List.mem_cons_self hb

theorem KeptBut.setNext (h : KeptBut (a :: out) m) (t : Timer Cb) (ms next : UInt64) :
    m.setNext a t ms next = .ok (m.set a { t with ms := ms, next := next }) :=
  if_neg (h.absent a List.mem_cons_self)

theorem KeptBut.disarmed (h : KeptBut (a :: out) m) (ha : ¬Armed m.heap a) : KeptBut out m where
  absent := fun b hb => h.absent b (List.mem_cons_of_mem _ hb)
  mem_timers := by
    intro b hb
    by_cases hba : b = a
    · subst hba
      exact ⟨fun hmem => absurd hmem (h.absent b List.mem_cons_self), fun harm => absurd harm ha⟩
    · exact h.mem_timers b (by simp [hba, hb])
  ordered := h.ordered

theorem KeptBut.key_ne (h : KeptBut (a :: out) m) : ∀ b ∈ m.timers, key m.heap b ≠ key m.heap a := by
  intro b hb
  apply TimerManager.key_ne
  rintro rfl
  exact h.absent b List.mem_cons_self hb

theorem KeptBut.mem_insert (h : KeptBut (a :: out) m) :
    b ∈ (m.insert a).timers ↔ b = a ∨ b ∈ m.timers :=
  OrderedSet.mem_insert (comparator_iff m.heap) h.ordered h.key_ne

theorem KeptBut.insert (h : KeptBut (a :: out) m) (hout : a ∉ out) (ha : Armed m.heap a) :
    KeptBut out (m.insert a) where
  absent := by
    intro b hb
    rw [h.mem_insert]
    rintro (rfl | hmem)
    · exact hout hb
    · exact h.absent b (List.mem_cons_of_mem _ hb) hmem
  mem_timers := by
    intro b hb
    rw [h.mem_insert]
    by_cases hba : b = a
    · subst hba
      exact ⟨fun _ => ha, fun _ => Or.inl rfl⟩
    · rw [h.mem_timers b (by simp [hba, hb])]
      exact or_iff_right hba
  ordered := h.ordered.insert (comparator_iff m.heap) h.key_ne

theorem KeptBut.addTimerLocked (h : KeptBut (a :: out) m) (hout : a ∉ out) (ha : Armed m.heap a) :
    KeptBut out (m.addTimerLocked a).1 := by
  have hins := h.insert hout ha
  rw [TimerManager.addTimerLocked]
  simp only
  split
  · exact ⟨hins.absent, hins.mem_timers, hins.ordered⟩
  · exact hins

theorem WellKept.fresh (h : m.WellKept) (ha : m.heap a = none) : KeptBut [a] m := by
  have hnot : ¬Armed m.heap a := by
    rintro ⟨t, ht, -⟩
    simp [ha] at ht
  refine ⟨?_, fun b _ => h.mem_timers b, h.ordered⟩
  intro b hb
  rw [List.mem_singleton.mp hb, h.mem_timers]
  exact hnot

theorem WellKept.eraseFound (h : m.WellKept) (ha : Armed m.heap a) (heap : ℕ → Option (Timer Cb))
    (hnext : ∀ b, nextAt heap b = nextAt m.heap b) :
    ∃ timers, OrderedSet.eraseFound (fun b c => comparator heap (some b) (some c)) a m.timers =
        some timers ∧ KeptBut [a] { m with timers := timers } := by
  have hordered : OrderedSet.Ordered (key heap) m.timers :=
    h.ordered.congr fun b _ => key_congr (hnext b)
  obtain ⟨timers, herase, hkept, hmem⟩ :=
    OrderedSet.eraseFound_eq (comparator_iff heap) hordered ((h.mem_timers a).mpr ha)
  refine ⟨timers, herase, ?_, ?_, hkept.congr fun b _ => key_congr (hnext b).symm⟩
  · intro b hb
    rw [List.mem_singleton.mp hb, hmem]
    exact fun hne => hne.1 rfl
  · intro b hb
    rw [hmem, h.mem_timers]
    exact and_iff_right (List.ne_of_not_mem_cons hb)

/-! ## One call -/

theorem WellKept.addTimer (h : m.WellKept) (ha : m.heap a = none) (ms : UInt64) (cb : Cb)
    (recurring : Bool) (now : UInt64) : (m.addTimer a ms (some cb) recurring now).1.WellKept := by
  apply keptBut_nil.mp
  apply ((h.fresh ha).set _).addTimerLocked List.not_mem_nil
  exact (armed_iff heap_set_self).mpr rfl

theorem WellKept.cancel (h : m.WellKept) (ha : m.heap a = some t) :
    ∃ r, m.cancel a t = .ok r ∧ r.1.WellKept := by
  rw [TimerManager.cancel]
  by_cases hcb : t.cb.isSome = true
  · set m₁ := m.set a { t with cb := none } with hm₁
    have hnext : ∀ b, nextAt m₁.heap b = nextAt m.heap b := by
      intro b
      by_cases hb : b = a
      · subst hb
        rw [hm₁, nextAt_set_self, nextAt, ha]
        rfl
      · exact nextAt_set_of_ne hb
    obtain ⟨timers, herase, hkept⟩ := h.eraseFound ((armed_iff ha).mpr hcb) m₁.heap hnext
    have herase' : OrderedSet.eraseFound m₁.less a m₁.timers = some timers := herase
    simp only [if_pos hcb, herase']
    refine ⟨_, rfl, keptBut_nil.mp ?_⟩
    have hout : KeptBut [a] { m₁ with timers := timers } := hkept.set { t with cb := none }
    apply hout.disarmed
    rw [armed_iff heap_set_self]
    simp
  · exact ⟨_, if_neg hcb, h⟩

theorem WellKept.rearmed (h : m.WellKept) (ha : m.heap a = some t) (hcb : t.cb.isSome = true) :
    ∃ timers, OrderedSet.eraseFound m.less a m.timers = some timers ∧
      ∀ ms next, ∃ m', setNext { m with timers := timers } a t ms next = .ok m' ∧
        KeptBut [a] m' ∧ Armed m'.heap a := by
  obtain ⟨timers, herase, hkept⟩ := h.eraseFound ((armed_iff ha).mpr hcb) m.heap fun _ => rfl
  refine ⟨timers, herase, fun ms next => ⟨_, hkept.setNext t ms next, hkept.set _, ?_⟩⟩
  exact (armed_iff heap_set_self).mpr hcb

theorem WellKept.refresh (h : m.WellKept) (ha : m.heap a = some t) (now : UInt64) :
    ∃ r, m.refresh a t now = .ok r ∧ r.1.WellKept := by
  rw [TimerManager.refresh]
  by_cases hcb : t.cb.isNone = true
  · exact ⟨_, if_pos hcb, h⟩
  · obtain ⟨timers, herase, hset⟩ := h.rearmed ha (by simpa [Option.isSome_iff_ne_none] using hcb)
    obtain ⟨m', hm', hkept, harmed⟩ := hset t.ms (now + t.ms)
    simp only [if_neg hcb, herase, hm']
    exact ⟨_, rfl, keptBut_nil.mp (hkept.insert List.not_mem_nil harmed)⟩

theorem WellKept.reset (h : m.WellKept) (ha : m.heap a = some t) (ms : UInt64) (fromNow : Bool)
    (now : UInt64) : ∃ r, m.reset a t ms fromNow now = .ok r ∧ r.1.WellKept := by
  rw [TimerManager.reset]
  by_cases hsame : ms = t.ms ∧ fromNow = false
  · exact ⟨_, if_pos hsame, h⟩
  by_cases hcb : t.cb.isNone = true
  · exact ⟨_, by rw [if_neg hsame, if_pos hcb], h⟩
  · obtain ⟨timers, herase, hset⟩ := h.rearmed ha (by simpa [Option.isSome_iff_ne_none] using hcb)
    obtain ⟨m', hm', hkept, harmed⟩ := hset ms ((if fromNow then now else t.next - t.ms) + ms)
    simp only [if_neg hsame, if_neg hcb, herase, hm']
    exact ⟨_, rfl, keptBut_nil.mp (hkept.addTimerLocked List.not_mem_nil harmed)⟩

/-! ## A round of expiry -/

def fired (now : UInt64) (t : Timer Cb) : Timer Cb :=
  if t.recurring then { t with next := now + t.ms } else { t with cb := none }

def cbAt (heap : ℕ → Option (Timer Cb)) (a : ℕ) : Option Cb := (heap a).bind Timer.cb

theorem KeptBut.expireOne (h : KeptBut (a :: out) m) (hout : a ∉ out) (ht : m.heap a = some t)
    (hcb : t.cb.isSome = true) (now : UInt64) (cbs : List (Option Cb)) :
    ∃ m', TimerManager.expireOne now (m, cbs) a = .ok (m', cbs ++ [cbAt m.heap a]) ∧
      KeptBut out m' ∧ m'.heap = Function.update m.heap a (some (fired now t)) := by
  have hat : cbAt m.heap a = t.cb := by rw [cbAt, ht, Option.bind_some]
  by_cases hrec : t.recurring = true
  · have harmed : Armed (m.set a { t with next := now + t.ms }).heap a :=
      (armed_iff heap_set_self).mpr hcb
    refine ⟨(m.set a { t with next := now + t.ms }).insert a, ?_, (h.set _).insert hout harmed, ?_⟩
    · simp only [TimerManager.expireOne, ht, if_pos hrec, h.setNext, hat]
      rfl
    · rw [fired, if_pos hrec]
      rfl
  · have hdisarmed : ¬Armed (m.set a { t with cb := none }).heap a := by
      rw [armed_iff heap_set_self]
      simp
    refine ⟨m.set a { t with cb := none }, ?_, (h.set _).disarmed hdisarmed, ?_⟩
    · simp only [TimerManager.expireOne, ht, if_neg hrec, hat]
    · rw [fired, if_neg hrec]
      rfl

theorem KeptBut.expireAll (now : UInt64) {expired : List ℕ} (h : KeptBut expired m)
    (hnodup : expired.Nodup) (harmed : ∀ a ∈ expired, Armed m.heap a) (cbs : List (Option Cb)) :
    ∃ m', expired.foldlM (TimerManager.expireOne now) (m, cbs) =
        .ok (m', cbs ++ expired.map (cbAt m.heap)) ∧ m'.WellKept ∧
      ∀ a, m'.heap a = if a ∈ expired then (m.heap a).map (fired now) else m.heap a := by
  induction expired generalizing m cbs with
  | nil => exact ⟨m, by simp [pure, Except.pure], keptBut_nil.mp h, by simp⟩
  | cons a expired ih =>
    obtain ⟨hout, hnodup⟩ := List.nodup_cons.mp hnodup
    obtain ⟨t, ht, hcb⟩ := harmed a List.mem_cons_self
    obtain ⟨m₁, hone, hkept, hheap⟩ := h.expireOne hout ht hcb now cbs
    have hother : ∀ b, b ≠ a → m₁.heap b = m.heap b := by
      intro b hb
      rw [hheap, Function.update_of_ne hb]
    have hne : ∀ b ∈ expired, b ≠ a := fun b hb heq => hout (heq ▸ hb)
    obtain ⟨m', hrest, hwell, hheap'⟩ := ih hkept hnodup
      (fun b hb => by
        rw [Armed, hother b (hne b hb)]
        exact harmed b (List.mem_cons_of_mem _ hb))
      (cbs ++ [cbAt m.heap a])
    refine ⟨m', ?_, hwell, ?_⟩
    · have hcbs : expired.map (cbAt m₁.heap) = expired.map (cbAt m.heap) := by
        apply List.map_congr_left
        intro b hb
        rw [cbAt, cbAt, hother b (hne b hb)]
      rw [List.foldlM_cons, hone]
      show expired.foldlM (TimerManager.expireOne now) (m₁, cbs ++ [cbAt m.heap a]) = _
      rw [hrest, hcbs, List.append_assoc]
      rfl
    · intro b
      rw [hheap']
      by_cases hb : b = a
      · subst hb
        rw [if_neg hout, if_pos List.mem_cons_self, hheap, Function.update_self, ht]
        rfl
      · simp [hother b hb, hb]

theorem WellKept.not_mem (h : m.WellKept) {d : ℕ} (hd : m.heap d = none) : d ∉ m.timers :=
  (h.fresh hd).absent d (List.mem_singleton.mpr rfl)

theorem WellKept.splitExpired (h : m.WellKept) {d : ℕ} (hd : m.heap d = none) (now : UInt64) :
    m.splitExpired now d false =
      (m.timers.filter (nextAt m.heap · ≤ now), m.timers.filter (¬nextAt m.heap · ≤ now)) := by
  set m₁ := m.set d (Timer.ofNext now) with hm₁
  have hnext : ∀ a ∈ m.timers, nextAt m₁.heap a = nextAt m.heap a := by
    intro a ha
    apply nextAt_set_of_ne
    rintro rfl
    exact h.not_mem hd ha
  have hordered : OrderedSet.Ordered (key m₁.heap) m.timers :=
    h.ordered.congr fun a ha => key_congr (hnext a ha)
  have hcomp : ∀ a b, m₁.less a b = true ↔ key m₁.heap a < key m₁.heap b := comparator_iff m₁.heap
  set it := OrderedSet.lowerBound m₁.less d m.timers with hit
  have hsub : it.Sublist m.timers := List.dropWhile_sublist _
  have hkey : key m₁.heap d = toLex (now.toNat, d) := by rw [key, hm₁, nextAt_set_self]; rfl
  have hge : ∀ a ∈ it, now.toNat ≤ (nextAt m.heap a).toNat := by
    intro a ha
    have hle := OrderedSet.lowerBound_le hcomp hordered a ha
    rw [hkey, key, hnext a (hsub.subset ha), Prod.Lex.toLex_le_toLex] at hle
    omega
  have hties : Cuts (nextAt m.heap · = now) it := by
    apply (hordered.sublist hsub).imp_of_mem
    intro a b ha hb hab hlate
    have hlate' : nextAt m.heap b = now := by simpa using hlate
    rw [key, key, hnext a (hsub.subset ha), hnext b (hsub.subset hb), Prod.Lex.toLex_lt_toLex,
      hlate'] at hab
    have hage := hge a ha
    have heq : nextAt m.heap a = now := UInt64.toNat_inj.mp (by omega)
    simpa using heq
  have hsplit : m.timers.takeWhile (m₁.less · d) ++ it.takeWhile (nextAt m.heap · = now) ++
      it.dropWhile (nextAt m.heap · = now) = m.timers := by
    rw [List.append_assoc, List.takeWhile_append_dropWhile, hit, OrderedSet.lowerBound,
      List.takeWhile_append_dropWhile]
  have hparts := eq_filter_of_append (p := fun a => nextAt m.heap a ≤ now) hsplit ?_ ?_
  · show (_, _) = _
    exact Prod.ext hparts.1 hparts.2
  · intro a ha
    rcases List.mem_append.mp ha with ha | ha
    · have hlt := OrderedSet.takeWhile_lt hcomp hordered a ha
      rw [hkey, key, hnext a ((List.takeWhile_sublist _).subset ha), Prod.Lex.toLex_lt_toLex] at hlt
      apply UInt64.le_iff_toNat_le.mpr
      omega
    · have heq : nextAt m.heap a = now := by simpa using List.mem_takeWhile_imp ha
      exact heq ▸ UInt64.le_refl _
  · intro a ha
    rw [hties.dropWhile_eq, List.mem_filter] at ha
    have hne : nextAt m.heap a ≠ now := by simpa using ha.2
    have hage := hge a ha.1
    intro hle
    apply hne
    apply UInt64.toNat_inj.mp
    have := UInt64.le_iff_toNat_le.mp hle
    omega

def due (m : TimerManager Cb) (now : UInt64) : List ℕ :=
  if (m.detectClockRolllover now).2 then m.timers else m.timers.filter (nextAt m.heap · ≤ now)

theorem mem_due {now : UInt64} : a ∈ m.due now ↔
    a ∈ m.timers ∧ ((m.detectClockRolllover now).2 = true ∨ nextAt m.heap a ≤ now) := by
  rw [due]
  split_ifs with hroll
  · simp [hroll]
  · simp [hroll]

theorem due_of_no_rollover {now : UInt64} (h : (m.detectClockRolllover now).2 = false) :
    m.due now = m.timers.filter (nextAt m.heap · ≤ now) := by
  rw [due, h]
  rfl

theorem WellKept.nodup_due (h : m.WellKept) (now : UInt64) : (m.due now).Nodup := by
  rw [due]
  split_ifs
  · exact h.ordered.nodup
  · exact h.ordered.nodup.filter _

theorem WellKept.taken (h : m.WellKept) {expired rest : List ℕ} (hrest : rest.Sublist m.timers)
    (hmem : ∀ a ∈ m.timers, a ∈ rest ↔ a ∉ expired) (now : UInt64) :
    KeptBut expired { m with timers := rest, previouseTime := now } where
  absent := fun a ha hr => (hmem a (hrest.subset hr)).mp hr ha
  mem_timers := by
    intro a ha
    rw [← h.mem_timers]
    exact ⟨fun hr => hrest.subset hr, fun ht => (hmem a ht).mpr ha⟩
  ordered := h.ordered.sublist hrest

theorem WellKept.takeExpired (h : m.WellKept) {d : ℕ} (hd : m.heap d = none) (now : UInt64) :
    (m.takeExpired now d).1 = m.due now ∧ KeptBut (m.due now) (m.takeExpired now d).2 ∧
      (m.takeExpired now d).2.heap = m.heap := by
  cases hroll : (m.detectClockRolllover now).2 with
  | true =>
    have hdue : m.due now = m.timers := by rw [due, if_pos hroll]
    rw [TimerManager.takeExpired, hdue]
    split
    case h_1 hnil =>
      rw [hnil]
      exact ⟨rfl, keptBut_nil.mpr h, rfl⟩
    case h_2 front rest hcons =>
      simp only [hroll, Bool.not_true, Bool.false_and, Bool.false_eq_true, if_false,
        TimerManager.splitExpired, if_true]
      refine ⟨rfl, ?_, rfl⟩
      exact h.taken (List.nil_sublist _) (by simp) now
  | false =>
    have hsplit := h.splitExpired hd now
    rw [TimerManager.takeExpired, due_of_no_rollover hroll]
    split
    case h_1 hnil =>
      rw [hnil]
      exact ⟨rfl, keptBut_nil.mpr h, rfl⟩
    case h_2 front rest hcons =>
      simp only [hroll, Bool.not_false, Bool.true_and, decide_eq_true_eq]
      split
      case isTrue hlate =>
        have hnone : m.timers.filter (nextAt m.heap · ≤ now) = [] := by
          rw [List.filter_eq_nil_iff]
          intro a ha
          have hfirst : (nextAt m.heap front).toNat ≤ (nextAt m.heap a).toNat := by
            rw [hcons] at ha
            rcases List.mem_cons.mp ha with rfl | ha
            · exact le_rfl
            · have hordered := h.ordered
              rw [hcons] at hordered
              have hlt := (List.pairwise_cons.mp hordered).1 a ha
              rw [key, key, Prod.Lex.toLex_lt_toLex] at hlt
              omega
          have hnow : now.toNat < (nextAt m.heap front).toNat := UInt64.lt_iff_toNat_lt.mp hlate
          simp only [decide_eq_true_eq, UInt64.le_iff_toNat_le]
          omega
        rw [hnone]
        exact ⟨rfl, h.taken (List.Sublist.refl _) (by simp) now, rfl⟩
      case isFalse =>
        have hsplit' : (m.detectClockRolllover now).1.splitExpired now d false = _ := hsplit
        rw [hsplit']
        refine ⟨rfl, h.taken List.filter_sublist ?_ now, rfl⟩
        intro a ha
        simp [ha]

theorem WellKept.listExpiredCb (h : m.WellKept) {d : ℕ} (hd : m.heap d = none) (now : UInt64) :
    ∃ m', m.listExpiredCb now d = .ok (m', (m.due now).map (cbAt m.heap)) ∧ m'.WellKept ∧
      ∀ a, m'.heap a = if a ∈ m.due now then (m.heap a).map (fired now) else m.heap a := by
  obtain ⟨hexpired, hkept, hheap⟩ := h.takeExpired hd now
  have harmed : ∀ a ∈ m.due now, Armed (m.takeExpired now d).2.heap a := by
    intro a ha
    rw [hheap]
    exact (h.mem_timers a).mp (mem_due.mp ha).1
  obtain ⟨m', hall, hwell, hheap'⟩ := hkept.expireAll now (h.nodup_due now) harmed []
  refine ⟨m', ?_, hwell, fun a => by rw [hheap' a, hheap]⟩
  rw [TimerManager.listExpiredCb]
  simp only [hexpired, hall, hheap, List.nil_append]

/-! ## Runs -/

theorem WellKept.release (h : m.WellKept) (ha : a ∉ m.timers) :
    WellKept { m with heap := Function.update m.heap a none } where
  mem_timers := by
    intro b
    by_cases hb : b = a
    · subst hb
      simp [ha, Armed]
    · have hsame : Function.update m.heap a none b = m.heap b := Function.update_of_ne hb ..
      simp only [h.mem_timers, Armed, hsame]
  ordered := by
    apply h.ordered.congr
    intro b hb
    have hba : b ≠ a := fun heq => ha (heq ▸ hb)
    have hsame : Function.update m.heap a none b = m.heap b := Function.update_of_ne hba ..
    simp only [key, nextAt, hsame]

theorem WellKept.call (h : m.WellKept) (c : TimerCall Cb) : ∃ m', m.call c = .ok m' ∧ m'.WellKept := by
  cases c with
  | addTimer a ms cb recurring now =>
    rw [TimerManager.call]
    split_ifs with ha
    · exact ⟨_, rfl, h.addTimer (Option.isNone_iff_eq_none.mp ha) ms cb recurring now⟩
    · exact ⟨m, rfl, h⟩
  | cancel a =>
    rw [TimerManager.call]
    split
    · exact ⟨m, rfl, h⟩
    · rename_i t ht
      obtain ⟨r, hr, hkept⟩ := h.cancel ht
      exact ⟨r.1, by rw [hr]; rfl, hkept⟩
  | refresh a now =>
    rw [TimerManager.call]
    split
    · exact ⟨m, rfl, h⟩
    · rename_i t ht
      obtain ⟨r, hr, hkept⟩ := h.refresh ht now
      exact ⟨r.1, by rw [hr]; rfl, hkept⟩
  | reset a ms fromNow now =>
    rw [TimerManager.call]
    split
    · exact ⟨m, rfl, h⟩
    · rename_i t ht
      obtain ⟨r, hr, hkept⟩ := h.reset ht ms fromNow now
      exact ⟨r.1, by rw [hr]; rfl, hkept⟩
  | getNextTimer now => exact ⟨_, rfl, h.mem_timers, h.ordered⟩
  | release a =>
    rw [TimerManager.call]
    split_ifs with ha
    · exact ⟨m, rfl, h⟩
    · exact ⟨_, rfl, h.release ha⟩

theorem WellKept.step (h : m.WellKept) (act : TimerAction Cb) :
    ∃ m', m.step act = .ok m' ∧ m'.WellKept := by
  cases act with
  | call c => exact h.call c
  | listExpiredCb now d =>
    rw [TimerManager.step]
    split_ifs with hd
    · obtain ⟨m', hm', hkept, -⟩ := h.listExpiredCb (Option.isNone_iff_eq_none.mp hd) now
      exact ⟨m', by rw [hm']; rfl, hkept⟩
    · exact ⟨m, rfl, h⟩

theorem WellKept.run (h : m.WellKept) (acts : List (TimerAction Cb)) :
    ∃ m', acts.foldlM TimerManager.step m = .ok m' ∧ m'.WellKept := by
  induction acts generalizing m with
  | nil => exact ⟨m, rfl, h⟩
  | cons act acts ih =>
    obtain ⟨m₁, hstep, hkept⟩ := h.step act
    obtain ⟨m', hrun, hkept'⟩ := ih hkept
    refine ⟨m', ?_, hkept'⟩
    rw [List.foldlM_cons, hstep]
    exact hrun

/-- No call ever erases `end()` or moves a timer inside the set; the set holds the timers with a
callback, each once and in order; and a round that sees no rollover hands out exactly those whose
deadline has come, in order, and touches no other. -/
theorem timer_set_correct (start : UInt64) (acts : List (TimerAction Cb)) :
    ∃ m, acts.foldlM TimerManager.step (create start) = .ok m ∧ m.WellKept ∧ m.timers.Nodup ∧
      ∀ now d, m.heap d = none → (m.detectClockRolllover now).2 = false →
        ∃ m', m.listExpiredCb now d =
            .ok (m', (m.timers.filter (nextAt m.heap · ≤ now)).map (cbAt m.heap)) ∧ m'.WellKept ∧
          ∀ a, m'.heap a =
            if a ∈ m.timers ∧ nextAt m.heap a ≤ now then (m.heap a).map (fired now)
            else m.heap a := by
  obtain ⟨m, hrun, hkept⟩ := (wellKept_create start).run acts
  refine ⟨m, hrun, hkept, hkept.ordered.nodup, fun now d hd hroll => ?_⟩
  obtain ⟨m', hlist, hkept', hheap⟩ := hkept.listExpiredCb hd now
  rw [due_of_no_rollover hroll] at hlist hheap
  refine ⟨m', hlist, hkept', fun a => ?_⟩
  rw [hheap a]
  simp [List.mem_filter]

end TimerManager

end RaftStorage.Monsoon
