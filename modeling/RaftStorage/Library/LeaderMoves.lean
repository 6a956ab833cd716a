import RaftStorage.Library.LeaderHistory

/-! The moves of a system of replicated logs, and that each of them keeps the history safe. -/

set_option linter.unusedSectionVars false

namespace RaftStorage.Library

namespace History
variable {N τ E : Type*} [DecidableEq N] [DecidableEq τ]

def bump (H : History N τ E) (p : N) (T : τ) : History N τ E :=
  { H with term := Function.update H.term p T }

/-- `c` enters term `T` as a candidate: it votes for itself and offers its log. -/
def stand (H : History N τ E) (c : N) (T : τ) : History N τ E :=
  { H with
    term := Function.update H.term c T
    vote := fun p T' c' => H.vote p T' c' ∨ p = c ∧ T' = T ∧ c' = c
    offer := fun c' T' => if c' = c ∧ T' = T then H.log c else H.offer c' T' }

def castVote (H : History N τ E) (p c : N) : History N τ E :=
  { H with vote := fun p' T' c' => H.vote p' T' c' ∨ p' = p ∧ T' = H.term p ∧ c' = c }

def win (H : History N τ E) (c : N) : History N τ E :=
  { H with leaderLog := Function.update H.leaderLog (H.term c) (some (H.log c)) }

def append (H : History N τ E) (c : N) (e : E) : History N τ E :=
  { H with
    log := Function.update H.log c (H.log c ++ [e])
    leaderLog := Function.update H.leaderLog (H.term c) (some (H.log c ++ [e]))
    ack := fun p T => if p = c ∧ T = H.term c then (H.log c).length + 1 else H.ack p T }

/-- `p` has the first `k` entries of its leader's log in `l` and says so. -/
def accept (H : History N τ E) (p : N) (l : List E) (k : ℕ) : History N τ E :=
  { H with
    log := Function.update H.log p l
    ack := fun q T => if q = p ∧ T = H.term p then max (H.ack p T) k else H.ack q T }

def install (H : History N τ E) (p : N) (l : List E) : History N τ E :=
  { H with log := Function.update H.log p l }

end History

section Moves
variable {N τ E : Type*} [LinearOrder τ] [Fintype N] [DecidableEq N] {tm : E → τ}
  {H : History N τ E} {T : τ} {L l : List E} {k : ℕ} {p c : N} {e : E}

theorem term_le_update (hT : H.term p ≤ T) (q : N) : H.term q ≤ Function.update H.term p T q := by
  by_cases hq : q = p
  · subst hq
    simpa using hT
  · rw [Function.update_of_ne hq]

theorem Safe.candidate_grows (h : Safe tm H) {H' : History N τ E} (hg : Grows H H')
    (hv : H.vote c T c) (hterm : H.term c = T) (hnone : H.leaderLog T = none) :
    H.log c = H.offer c T ∨
      Certified tm H' T (H.log c) ∧ (H.offer c T).length ≤ (H.log c).length := by
  rcases h.candidate c T hv hterm hnone with heq | ⟨hcert, hlen⟩
  · exact Or.inl heq
  · exact Or.inr ⟨hcert.grows hg le_rfl, hlen⟩

theorem Safe.left_of_vote (h : Safe tm H) {T' : τ} {q c' : N} (hv : H.vote q T' c') (hlt : T < T') :
    q ≠ p ∨ T ≠ H.term p := by
  by_contra hno
  push Not at hno
  obtain ⟨rfl, rfl⟩ := hno
  exact absurd (h.vote_term q T' c' hv) (not_le.mpr hlt)

theorem History.grows_bump (hT : H.term p ≤ T) : Grows H (H.bump p T) where
  leaderLog := fun _ L hL => ⟨L, hL, List.prefix_rfl⟩
  ack := fun _ _ => le_rfl
  term := term_le_update hT
  fresh := fun _ _ hlt => absurd hlt (lt_irrefl _)

theorem Safe.bump (h : Safe tm H) (hT : H.term p < T) : Safe tm (H.bump p T) := by
  have hg : Grows H (H.bump p T) := History.grows_bump hT.le
  refine
    { h with
      log_le := fun q e he => (h.log_le q e he).trans (hg.term q)
      ack_term := fun q T' ha => (h.ack_term q T' ha).trans (hg.term q)
      ack_prefix := fun q T' L k hL hcl hk hch =>
        h.ack_prefix q T' L k hL hcl hk (hch.of_grows hg)
      complete := fun T₁ T₂ L L' k hlt hL hL' hcl hch =>
        h.complete T₁ T₂ L L' k hlt hL hL' hcl (hch.of_grows hg)
      elected := fun T' L hL => ?_
      vote_term := fun q T' c hv => (h.vote_term q T' c hv).trans (hg.term q)
      vote_prefix := fun q T' c hv T₁ L k hlt hL hcl hk hch =>
        h.vote_prefix q T' c hv T₁ L k hlt hL hcl hk (hch.of_grows hg)
      candidate := fun c T' hv hterm hnone => ?_ }
  · obtain ⟨S, hS, hall⟩ := h.elected T' L hL
    exact ⟨S, hS, fun q hq => (hall q hq).trans (hg.term q)⟩
  · by_cases hc : c = p
    · subst hc
      have hTT : T' = T := by simpa [History.bump] using hterm.symm
      exact absurd (h.vote_term c T' c hv) (not_le.mpr (hTT ▸ hT))
    · have hterm' : H.term c = T' := by simpa [History.bump, Function.update_of_ne hc] using hterm
      exact h.candidate_grows hg hv hterm' hnone

theorem Safe.bump_le (h : Safe tm H) (hT : H.term p ≤ T) : Safe tm (H.bump p T) := by
  rcases hT.lt_or_eq with hlt | rfl
  · exact h.bump hlt
  · rw [History.bump, Function.update_eq_self]
    exact h

theorem History.grows_stand (hT : H.term c ≤ T) : Grows H (H.stand c T) where
  leaderLog := fun _ L hL => ⟨L, hL, List.prefix_rfl⟩
  ack := fun _ _ => le_rfl
  term := term_le_update hT
  fresh := fun _ _ hlt => absurd hlt (lt_irrefl _)

theorem Safe.stand (h : Safe tm H) (hT : H.term c < T) (hno : ∀ p, ¬H.vote p T c) :
    Safe tm (H.stand c T) := by
  have hg : Grows H (H.stand c T) := History.grows_stand hT.le
  refine
    { h with
      offer_consistent := fun c' T' => ?_
      log_le := fun q e he => (h.log_le q e he).trans (hg.term q)
      ack_term := fun q T' ha => (h.ack_term q T' ha).trans (hg.term q)
      ack_prefix := fun q T' L k hL hcl hk hch =>
        h.ack_prefix q T' L k hL hcl hk (hch.of_grows hg)
      complete := fun T₁ T₂ L L' k hlt hL hL' hcl hch =>
        h.complete T₁ T₂ L L' k hlt hL hL' hcl (hch.of_grows hg)
      elected := fun T' L hL => ?_
      vote_term := fun q T' c' hv => ?_
      vote_prefix := fun q T' c' hv T₁ L k hlt hL hcl hk hch => ?_
      candidate := fun c' T' hv hterm hnone => ?_ }
  · simp only [History.stand]
    split_ifs
    · exact h.log_consistent c
    · exact h.offer_consistent c' T'
  · obtain ⟨S, hS, hall⟩ := h.elected T' L hL
    exact ⟨S, hS, fun q hq => (hall q hq).trans (hg.term q)⟩
  · rcases hv with hv | ⟨rfl, rfl, rfl⟩
    · exact (h.vote_term q T' c' hv).trans (hg.term q)
    · simp [History.stand]
  · simp only [History.stand]
    rcases hv with hv | ⟨rfl, rfl, rfl⟩
    · rw [if_neg (by rintro ⟨rfl, rfl⟩; exact hno q hv)]
      exact h.vote_prefix q T' c' hv T₁ L k hlt hL hcl hk (hch.of_grows hg)
    · rw [if_pos ⟨rfl, rfl⟩]
      exact h.ack_prefix _ T₁ L k hL hcl hk (hch.of_grows hg)
  · simp only [History.stand]
    rcases hv with hv | ⟨rfl, rfl, -⟩
    · have hne : c' ≠ c := by
        rintro rfl
        have hTT : T' = T := by simpa [History.stand] using hterm.symm
        exact hno c' (hTT ▸ hv)
      have hterm' : H.term c' = T' := by
        simpa [History.stand, Function.update_of_ne hne] using hterm
      rw [if_neg (by rintro ⟨rfl, -⟩; exact hne rfl)]
      exact h.candidate_grows hg hv hterm' hnone
    · rw [if_pos ⟨rfl, rfl⟩]
      exact Or.inl rfl

theorem History.grows_castVote (H : History N τ E) (p c : N) : Grows H (H.castVote p c) where
  leaderLog := fun _ L hL => ⟨L, hL, List.prefix_rfl⟩
  ack := fun _ _ => le_rfl
  term := fun _ => le_rfl
  fresh := fun _ _ hlt => absurd hlt (lt_irrefl _)

theorem Safe.castVote (h : Safe tm H) (hne : p ≠ c)
    (hup : UpToDate tm (H.offer c (H.term p)) (H.log p)) : Safe tm (H.castVote p c) := by
  have hg := H.grows_castVote p c
  refine
    { h with
      vote_term := fun q T' c' hv => ?_
      vote_prefix := fun q T' c' hv T₁ L k hlt hL hcl hk hch => ?_
      candidate := fun c' T' hv hterm hnone => ?_ }
  · rcases hv with hv | ⟨rfl, rfl, rfl⟩
    · exact h.vote_term q T' c' hv
    · exact le_rfl
  · rcases hv with hv | ⟨rfl, rfl, rfl⟩
    · exact h.vote_prefix q T' c' hv T₁ L k hlt hL hcl hk hch
    · exact h.upToDate_prefix (h.offer_consistent _ _) (h.log_consistent _) hup hL hcl hch
        (h.ack_prefix _ T₁ L k hL hcl hk hch)
  · rcases hv with hv | ⟨rfl, -, rfl⟩
    · exact h.candidate c' T' hv hterm hnone
    · exact absurd rfl hne

theorem History.grows_win (hnone : H.leaderLog (H.term c) = none) : Grows H (H.win c) where
  leaderLog := by
    intro T L hL
    have hT : T ≠ H.term c := by
      rintro rfl
      rw [hnone] at hL
      cases hL
    exact ⟨L, by simpa [History.win, Function.update_of_ne hT] using hL, List.prefix_rfl⟩
  ack := fun _ _ => le_rfl
  term := fun _ => le_rfl
  fresh := fun _ _ hlt => absurd hlt (lt_irrefl _)

theorem Safe.not_closes_of_none (h : Safe tm H) (hnone : H.leaderLog T = none) :
    ¬Closes tm (H.log p) T k := by
  rintro ⟨j, e, rfl, hj, rfl⟩
  obtain ⟨L, hL, -⟩ := h.log_consistent p j e hj
  rw [hnone] at hL
  cases hL

theorem History.win_leaderLog (hL : (H.win c).leaderLog T = some L) :
    H.leaderLog T = some L ∨ T = H.term c ∧ L = H.log c := by
  by_cases hT : T = H.term c
  · subst hT
    simp only [History.win, Function.update_self, Option.some.injEq] at hL
    exact Or.inr ⟨rfl, hL.symm⟩
  · simp only [History.win, Function.update_of_ne hT] at hL
    exact Or.inl hL

theorem Safe.win (h : Safe tm H) {S : Finset N} (hS : IsMajority S)
    (hvote : ∀ p ∈ S, H.vote p (H.term c) c) (hself : H.vote c (H.term c) c)
    (hnone : H.leaderLog (H.term c) = none) : Safe tm (H.win c) := by
  have hg := History.grows_win hnone
  have hoffer := h.log_eq_offer hS hvote hself rfl hnone
  have hold : ∀ {T L k}, (H.win c).leaderLog T = some L → Closes tm L T k →
      H.leaderLog T = some L := by
    intro T L k hL hcl
    rcases History.win_leaderLog hL with hL | ⟨rfl, rfl⟩
    · exact hL
    · exact absurd hcl (h.not_closes_of_none hnone)
  refine
    { log_consistent := fun p => (h.log_consistent p).mono hg.leaderLog
      leaderLog_consistent := fun T L hL => ?_
      offer_consistent := fun c' T' => (h.offer_consistent c' T').mono hg.leaderLog
      leaderLog_le := fun T L hL => ?_
      log_le := h.log_le
      ack_term := h.ack_term
      ack_length := fun p T ha => ?_
      ack_prefix := fun p T L k hL hcl hk hch =>
        h.ack_prefix p T L k (hold hL hcl) hcl hk (hch.of_grows hg)
      complete := fun T T' L L' k hlt hL hL' hcl hch => ?_
      elected := fun T L hL => ?_
      vote_term := h.vote_term
      vote_prefix := fun p T' c' hv T L k hlt hL hcl hk hch =>
        h.vote_prefix p T' c' hv T L k hlt (hold hL hcl) hcl hk (hch.of_grows hg)
      candidate := fun c' T' hv hterm hnone' => ?_ }
  · rcases History.win_leaderLog hL with hL | ⟨rfl, rfl⟩
    · exact (h.leaderLog_consistent T L hL).mono hg.leaderLog
    · exact (h.log_consistent c).mono hg.leaderLog
  · rcases History.win_leaderLog hL with hL | ⟨rfl, rfl⟩
    · exact h.leaderLog_le T L hL
    · exact h.log_le c
  · obtain ⟨L, hL, hle⟩ := h.ack_length p T ha
    obtain ⟨L', hL', hpre⟩ := hg.leaderLog T L hL
    exact ⟨L', hL', hle.trans hpre.length_le⟩
  · have hL := hold hL hcl
    rcases History.win_leaderLog hL' with hL' | ⟨rfl, rfl⟩
    · exact h.complete T T' L L' k hlt hL hL' hcl (hch.of_grows hg)
    · rw [hoffer]
      exact h.offer_complete hS hvote hlt hL hcl (hch.of_grows hg)
  · rcases History.win_leaderLog hL with hL | ⟨rfl, rfl⟩
    · exact h.elected T L hL
    · exact ⟨S, hS, fun p hp => h.vote_term p _ c (hvote p hp)⟩
  · have hnone'' : H.leaderLog T' = none := by
      by_contra hsome
      obtain ⟨L, hL⟩ := Option.ne_none_iff_exists'.mp hsome
      obtain ⟨L', hL', -⟩ := hg.leaderLog T' L hL
      rw [hnone'] at hL'
      cases hL'
    exact h.candidate_grows hg hv hterm hnone''

theorem Consistent.concat (h : Consistent tm H l) (hL : H.leaderLog (tm e) = some (l ++ [e])) :
    Consistent tm H (l ++ [e]) := by
  intro j e' hj
  rcases Nat.lt_or_ge j l.length with hlt | hge
  · rw [List.getElem?_append_left hlt] at hj
    rw [List.take_append_of_le_length hlt]
    exact h j e' hj
  · have hlast : j = l.length := by
      have := (List.getElem?_eq_some_iff.mp hj).1
      simp only [List.length_append, List.length_cons, List.length_nil] at this
      omega
    subst hlast
    simp only [List.getElem?_concat_length, Option.some.injEq] at hj
    subst hj
    exact ⟨_, hL, List.take_prefix _ _⟩

theorem History.append_leaderLog (hL : (H.append c e).leaderLog T = some L) :
    T = H.term c ∧ L = H.log c ++ [e] ∨ T ≠ H.term c ∧ H.leaderLog T = some L := by
  by_cases hT : T = H.term c
  · subst hT
    simp only [History.append, Function.update_self, Option.some.injEq] at hL
    exact Or.inl ⟨rfl, hL.symm⟩
  · simp only [History.append, Function.update_of_ne hT] at hL
    exact Or.inr ⟨hT, hL⟩

theorem Safe.ack_le_length (h : Safe tm H) (hL : H.leaderLog T = some L) (p : N) :
    H.ack p T ≤ L.length := by
  rcases Nat.eq_zero_or_pos (H.ack p T) with h0 | hpos
  · omega
  · obtain ⟨L', hL', hle⟩ := h.ack_length p T hpos
    rw [hL] at hL'
    exact Option.some.inj hL' ▸ hle

theorem Safe.grows_append (h : Safe tm H) (hlead : H.leaderLog (H.term c) = some (H.log c)) :
    Grows H (H.append c e) where
  leaderLog := by
    intro T L hL
    by_cases hT : T = H.term c
    · subst hT
      rw [hlead] at hL
      obtain rfl := Option.some.inj hL
      exact ⟨H.log c ++ [e], by simp [History.append], List.prefix_append _ _⟩
    · exact ⟨L, by simpa [History.append, Function.update_of_ne hT] using hL, List.prefix_rfl⟩
  ack := by
    intro p T
    simp only [History.append]
    split_ifs with hp
    · obtain ⟨rfl, rfl⟩ := hp
      exact (h.ack_le_length hlead _).trans (Nat.le_succ _)
    · exact le_rfl
  term := fun _ => le_rfl
  fresh := by
    intro p T hlt
    simp only [History.append] at hlt
    split_ifs at hlt with hp
    · obtain ⟨rfl, rfl⟩ := hp
      exact le_rfl
    · exact absurd hlt (lt_irrefl _)

theorem History.append_ack_of_ne (hp : p ≠ c ∨ T ≠ H.term c) :
    (H.append c e).ack p T = H.ack p T := by
  simp only [History.append]
  rw [if_neg (by rintro ⟨rfl, rfl⟩; exact hp.elim (· rfl) (· rfl))]

theorem History.log_append (H : History N τ E) (p : N) : H.log p <+: (H.append c e).log p := by
  by_cases hp : p = c
  · subst hp
    simp [History.append]
  · simp [History.append, Function.update_of_ne hp]

theorem Safe.append_acked (h : Safe tm H) (hlead : H.leaderLog (H.term c) = some (H.log c))
    (hL : (H.append c e).leaderLog T = some L) (hcl : Closes tm L T k) (hk : k ≤ H.ack p T) :
    ∃ L₀, H.leaderLog T = some L₀ ∧ Closes tm L₀ T k ∧ L.take k = L₀.take k := by
  rcases History.append_leaderLog hL with ⟨rfl, rfl⟩ | ⟨hT, hL⟩
  · have hk' := hk.trans (h.ack_le_length hlead p)
    exact ⟨_, hlead, hcl.of_isPrefix (List.prefix_append _ _) hk',
      take_eq_of_isPrefix (List.prefix_append _ _) hk'⟩
  · exact ⟨L, hL, hcl, rfl⟩

theorem Safe.complete_append (h : Safe tm H) (hlead : H.leaderLog (H.term c) = some (H.log c))
    {T' : τ} {L' : List E} (hlt : T < T') (hL : (H.append c e).leaderLog T = some L)
    (hL' : (H.append c e).leaderLog T' = some L') (hcl : Closes tm L T k)
    (hch : Choosable (H.append c e) T k) : L.take k <+: L' := by
  have hch₀ : Choosable H T k := hch.of_grows (h.grows_append hlead)
  rcases History.append_leaderLog hL with ⟨rfl, rfl⟩ | ⟨hT, hL⟩
  · have hL' : H.leaderLog T' = some L' := by
      rcases History.append_leaderLog hL' with ⟨rfl, -⟩ | ⟨-, hL'⟩
      · exact absurd hlt (lt_irrefl _)
      · exact hL'
    -- a majority has already left the outdated leader's term, one of them with the entry
    obtain ⟨S, hS, hterm⟩ := h.elected T' L' hL'
    obtain ⟨S', hS', hall⟩ := id hch
    obtain ⟨p, hp, hp'⟩ := hS.exists_common hS'
    have hltp : H.term c < H.term p := hlt.trans_le (hterm p hp)
    have hk : k ≤ H.ack p (H.term c) := by
      rcases hall p hp' with hk | ht
      · rwa [History.append_ack_of_ne (Or.inl fun hpc => absurd (hpc ▸ hltp) (lt_irrefl _))] at hk
      · exact absurd ht (not_le.mpr hltp)
    obtain ⟨L₀, hL₀, hcl₀, htake⟩ := h.append_acked hlead hL hcl hk
    rw [htake]
    exact h.complete _ T' L₀ L' k hlt hL₀ hL' hcl₀ hch₀
  · rcases History.append_leaderLog hL' with ⟨rfl, rfl⟩ | ⟨-, hL'⟩
    · exact (h.complete T _ L _ k hlt hL hlead hcl hch₀).trans (List.prefix_append _ _)
    · exact h.complete T T' L L' k hlt hL hL' hcl hch₀

theorem Safe.append (h : Safe tm H) (hlead : H.leaderLog (H.term c) = some (H.log c))
    (htm : tm e = H.term c) : Safe tm (H.append c e) := by
  have hg : Grows H (H.append c e) := h.grows_append hlead
  have hcons : Consistent tm (H.append c e) (H.log c ++ [e]) := by
    refine ((h.log_consistent c).mono hg.leaderLog).concat ?_
    rw [htm]
    simp [History.append]
  have hle : ∀ e' ∈ H.log c ++ [e], tm e' ≤ H.term c := by
    intro e' he'
    rcases List.mem_append.mp he' with he' | he'
    · exact h.log_le c e' he'
    · rw [List.mem_singleton] at he'
      exact he' ▸ htm.le
  refine
    { log_consistent := (Function.forall_update_iff _ fun _ l => Consistent tm _ l).mpr
        ⟨hcons, fun p _ => (h.log_consistent p).mono hg.leaderLog⟩
      leaderLog_consistent := fun T L hL => ?_
      offer_consistent := fun c' T' => (h.offer_consistent c' T').mono hg.leaderLog
      leaderLog_le := fun T L hL => ?_
      log_le := (Function.forall_update_iff _ fun p l => ∀ e ∈ l, tm e ≤ H.term p).mpr
        ⟨hle, fun p _ => h.log_le p⟩
      ack_term := fun p T ha => ?_
      ack_length := fun p T ha => ?_
      ack_prefix := fun p T L k hL hcl hk hch => ?_
      complete := fun _ _ _ _ _ hlt hL hL' hcl hch => h.complete_append hlead hlt hL hL' hcl hch
      elected := fun T L hL => ?_
      vote_term := h.vote_term
      vote_prefix := fun p T' c' hv T L k hlt hL hcl hk hch => ?_
      candidate := fun c' T' hv hterm hnone => ?_ }
  · rcases History.append_leaderLog hL with ⟨rfl, rfl⟩ | ⟨hT, hL⟩
    · exact hcons
    · exact (h.leaderLog_consistent T L hL).mono hg.leaderLog
  · rcases History.append_leaderLog hL with ⟨rfl, rfl⟩ | ⟨hT, hL⟩
    · exact hle
    · exact h.leaderLog_le T L hL
  · by_cases hp : p = c ∧ T = H.term c
    · exact hp.1 ▸ hp.2.le
    · rw [History.append_ack_of_ne (not_and_or.mp hp)] at ha
      exact h.ack_term p T ha
  · by_cases hp : p = c ∧ T = H.term c
    · obtain ⟨rfl, rfl⟩ := hp
      exact ⟨H.log p ++ [e], by simp [History.append], by simp [History.append]⟩
    · rw [History.append_ack_of_ne (not_and_or.mp hp)] at ha ⊢
      obtain ⟨L, hL, hle⟩ := h.ack_length p T ha
      obtain ⟨L', hL', hpre⟩ := hg.leaderLog T L hL
      exact ⟨L', hL', hle.trans hpre.length_le⟩
  · by_cases hp : p = c ∧ T = H.term c
    · obtain ⟨rfl, rfl⟩ := hp
      rcases History.append_leaderLog hL with ⟨-, rfl⟩ | ⟨hT, -⟩
      · simpa [History.append] using List.take_prefix k (H.log p ++ [e])
      · exact absurd rfl hT
    · rw [History.append_ack_of_ne (not_and_or.mp hp)] at hk
      obtain ⟨L₀, hL₀, hcl₀, htake⟩ := h.append_acked hlead hL hcl hk
      rw [htake]
      exact (h.ack_prefix p T L₀ k hL₀ hcl₀ hk (hch.of_grows hg)).trans (H.log_append p)
  · rcases History.append_leaderLog hL with ⟨rfl, rfl⟩ | ⟨-, hL⟩
    · exact h.elected _ _ hlead
    · exact h.elected T L hL
  · rw [History.append_ack_of_ne (h.left_of_vote hv hlt)] at hk
    obtain ⟨L₀, hL₀, hcl₀, htake⟩ := h.append_acked hlead hL hcl hk
    rw [htake]
    exact h.vote_prefix p T' c' hv T L₀ k hlt hL₀ hcl₀ hk (hch.of_grows hg)
  · have hne : T' ≠ H.term c := by
      rintro rfl
      simp [History.append] at hnone
    have hc : c' ≠ c := by
      rintro rfl
      exact hne hterm.symm
    have hnone' : H.leaderLog T' = none := by
      simpa [History.append, Function.update_of_ne hne] using hnone
    simp only [History.append, Function.update_of_ne hc]
    exact h.candidate_grows hg hv hterm hnone'

theorem History.grows_accept (H : History N τ E) (p : N) (l : List E) (k : ℕ) :
    Grows H (H.accept p l k) where
  leaderLog := fun _ L hL => ⟨L, hL, List.prefix_rfl⟩
  ack := by
    intro q T
    simp only [History.accept]
    split_ifs with hq
    · exact hq.1 ▸ le_max_left _ _
    · exact le_rfl
  term := fun _ => le_rfl
  fresh := by
    intro q T hlt
    simp only [History.accept] at hlt
    split_ifs at hlt with hq
    · exact hq.1 ▸ hq.2.ge
    · exact absurd hlt (lt_irrefl _)

theorem History.accept_ack_of_ne {q : N} (hq : q ≠ p ∨ T ≠ H.term p) :
    (H.accept p l k).ack q T = H.ack q T := by
  simp only [History.accept]
  rw [if_neg (by rintro ⟨rfl, rfl⟩; exact hq.elim (· rfl) (· rfl))]

/-- A node takes over its leader's first `k` entries, either because its log already has them or
because they replace a log that is no longer than `k`. -/
theorem Safe.accept (h : Safe tm H) (hL : H.leaderLog (H.term p) = some L) (hk : k ≤ L.length)
    (hl : l = H.log p ∧ L.take k <+: H.log p ∨ l = L.take k ∧ (H.log p).length ≤ k) :
    Safe tm (H.accept p l k) := by
  have hg := H.grows_accept p l k
  have hsub : L.take k <+: l := by
    rcases hl with ⟨rfl, hpre⟩ | ⟨rfl, -⟩
    · exact hpre
    · exact List.prefix_rfl
  have hcons : Consistent tm H l := by
    rcases hl with ⟨rfl, -⟩ | ⟨rfl, -⟩
    · exact h.log_consistent p
    · exact (h.leaderLog_consistent _ L hL).of_isPrefix (List.take_prefix _ _)
  have hle : ∀ e ∈ l, tm e ≤ H.term p := by
    rcases hl with ⟨rfl, -⟩ | ⟨rfl, -⟩
    · exact h.log_le p
    · exact fun e he => h.leaderLog_le _ L hL e (List.mem_of_mem_take he)
  -- whatever was choosable in the old log is in the new one
  have hkeep : ∀ {T₁ L₁ k₁}, T₁ ≤ H.term p → H.leaderLog T₁ = some L₁ → Closes tm L₁ T₁ k₁ →
      Choosable H T₁ k₁ → L₁.take k₁ <+: H.log p → L₁.take k₁ <+: l := by
    intro T₁ L₁ k₁ hT₁ hL₁ hcl hch hpre
    rcases hl with ⟨rfl, -⟩ | ⟨rfl, hlen⟩
    · exact hpre
    · refine List.prefix_take_iff.mpr ⟨?_, hpre.length_le.trans hlen⟩
      rcases hT₁.lt_or_eq with hlt | rfl
      · exact h.complete T₁ _ L₁ L k₁ hlt hL₁ hL hcl hch
      · rw [hL] at hL₁
        exact Option.some.inj hL₁ ▸ List.take_prefix _ _
  refine
    { h with
      log_consistent := (Function.forall_update_iff _ fun _ l => Consistent tm H l).mpr
        ⟨hcons, fun q _ => h.log_consistent q⟩
      log_le := (Function.forall_update_iff _ fun q l => ∀ e ∈ l, tm e ≤ H.term q).mpr
        ⟨hle, fun q _ => h.log_le q⟩
      ack_term := fun q T' ha => ?_
      ack_length := fun q T' ha => ?_
      ack_prefix := fun q T' L' k' hL' hcl hk' hch => ?_
      complete := fun T₁ T₂ L L' k hlt hL hL' hcl hch =>
        h.complete T₁ T₂ L L' k hlt hL hL' hcl (hch.of_grows hg)
      vote_prefix := fun q T' c' hv T₁ L₁ k₁ hlt hL₁ hcl hk₁ hch => ?_
      candidate := fun c' T' hv hterm hnone => ?_ }
  · by_cases hq : q = p ∧ T' = H.term p
    · exact hq.1 ▸ hq.2.le
    · rw [History.accept_ack_of_ne (not_and_or.mp hq)] at ha
      exact h.ack_term q T' ha
  · by_cases hq : q = p ∧ T' = H.term p
    · obtain ⟨rfl, rfl⟩ := hq
      refine ⟨L, hL, ?_⟩
      simp only [History.accept, and_self, if_true]
      exact max_le (h.ack_le_length hL q) hk
    · rw [History.accept_ack_of_ne (not_and_or.mp hq)] at ha ⊢
      exact h.ack_length q T' ha
  · have hch' := hch.of_grows hg
    by_cases hq : q = p
    · subst hq
      simp only [History.accept, Function.update_self]
      by_cases hT : T' = H.term q
      · subst hT
        have hLL : L' = L := Option.some.inj (hL'.symm.trans hL)
        subst hLL
        simp only [History.accept, and_self, if_true] at hk'
        rcases le_max_iff.mp hk' with hk' | hk'
        · exact hkeep le_rfl hL hcl hch' (h.ack_prefix q _ L' k' hL hcl hk' hch')
        · exact (List.take_prefix_take_left hk').trans hsub
      · rw [History.accept_ack_of_ne (Or.inr hT)] at hk'
        exact hkeep (h.ack_term q T' (hcl.pos.trans_le hk')) hL' hcl hch'
          (h.ack_prefix q T' L' k' hL' hcl hk' hch')
    · rw [History.accept_ack_of_ne (Or.inl hq)] at hk'
      simpa [History.accept, Function.update_of_ne hq] using
        h.ack_prefix q T' L' k' hL' hcl hk' hch'
  · rw [History.accept_ack_of_ne (h.left_of_vote hv hlt)] at hk₁
    exact h.vote_prefix q T' c' hv T₁ L₁ k₁ hlt hL₁ hcl hk₁ (hch.of_grows hg)
  · have hc : c' ≠ p := by
      rintro rfl
      have hsome : H.leaderLog T' = some L := hterm ▸ hL
      have hnone' : H.leaderLog T' = none := hnone
      rw [hsome] at hnone'
      cases hnone'
    simp only [History.accept, Function.update_of_ne hc]
    exact h.candidate_grows hg hv hterm hnone

theorem History.grows_install (H : History N τ E) (p : N) (l : List E) :
    Grows H (H.install p l) where
  leaderLog := fun _ L hL => ⟨L, hL, List.prefix_rfl⟩
  ack := fun _ _ => le_rfl
  term := fun _ => le_rfl
  fresh := fun _ _ hlt => absurd hlt (lt_irrefl _)

theorem Safe.install (h : Safe tm H) (hcert : Certified tm H (H.term p) l)
    (hlen : (H.log p).length ≤ l.length) : Safe tm (H.install p l) := by
  have hg := H.grows_install p l
  have hcons : Consistent tm H l ∧ ∀ e ∈ l, tm e ≤ H.term p := by
    rcases hcert with rfl | ⟨T₀, hT₀, L₀, k₀, hL₀, -, hpre⟩
    · exact ⟨fun j e hj => by simp at hj, by simp⟩
    · have hpre' := hpre.trans (List.take_prefix _ _)
      exact ⟨(h.leaderLog_consistent T₀ L₀ hL₀).of_isPrefix hpre',
        fun e he => (h.leaderLog_le T₀ L₀ hL₀ e (hpre'.subset he)).trans hT₀⟩
  refine
    { h with
      log_consistent := (Function.forall_update_iff _ fun _ l => Consistent tm H l).mpr
        ⟨hcons.1, fun q _ => h.log_consistent q⟩
      log_le := (Function.forall_update_iff _ fun q l => ∀ e ∈ l, tm e ≤ H.term q).mpr
        ⟨hcons.2, fun q _ => h.log_le q⟩
      ack_prefix := fun q T' L' k' hL' hcl hk' hch => ?_
      complete := fun T₁ T₂ L L' k hlt hL hL' hcl hch =>
        h.complete T₁ T₂ L L' k hlt hL hL' hcl (hch.of_grows hg)
      candidate := fun c' T' hv hterm hnone => ?_ }
  · have hold := h.ack_prefix q T' L' k' hL' hcl hk' (hch.of_grows hg)
    by_cases hq : q = p
    · subst hq
      simp only [History.install, Function.update_self]
      have hle := hold.length_le.trans hlen
      rcases hcert with rfl | ⟨T₀, hT₀, L₀, k₀, hL₀, hc, hpre⟩
      · have hnil := List.eq_nil_of_length_eq_zero (Nat.le_zero.mp hle)
        rw [hnil]
      · -- the installed prefix and the acknowledged one lie in the log of the later leader
        obtain ⟨⟨L₁, hL₁, hcl₁⟩, -⟩ := id hc
        rw [hL₀] at hL₁
        obtain rfl := Option.some.inj hL₁
        rcases lt_trichotomy T' T₀ with hlt | rfl | hlt
        · exact List.prefix_of_prefix_length_le
            (h.complete T' T₀ L' L₀ k' hlt hL' hL₀ hcl (hch.of_grows hg))
            (hpre.trans (List.take_prefix _ _)) hle
        · obtain rfl : L₀ = L' := Option.some.inj (hL₀.symm.trans hL')
          exact List.prefix_of_prefix_length_le (List.take_prefix _ _)
            (hpre.trans (List.take_prefix _ _)) hle
        · exact List.prefix_of_prefix_length_le (List.take_prefix _ _)
            (hpre.trans (h.complete T₀ T' L₀ L' k₀ hlt hL₀ hL' hcl₁ hc.choosable)) hle
    · simpa [History.install, Function.update_of_ne hq] using hold
  · by_cases hc : c' = p
    · subst hc
      simp only [History.install, Function.update_self]
      have hT : H.term c' = T' := hterm
      refine Or.inr ⟨hT ▸ hcert.grows hg le_rfl, ?_⟩
      rcases h.candidate c' T' hv hterm hnone with heq | ⟨-, hlen'⟩
      · exact heq ▸ hlen
      · exact hlen'.trans hlen
    · simp only [History.install, Function.update_of_ne hc]
      exact h.candidate_grows hg hv hterm hnone

end Moves
end RaftStorage.Library
