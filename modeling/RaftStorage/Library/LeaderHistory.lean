import RaftStorage.Library.Quorum
import Mathlib.Data.List.Infix
import Mathlib.Order.Defs.LinearOrder
import Mathlib.Logic.Function.Basic

/-! Replicated logs under a sequence of elected leaders, with the history that their safety needs:
for every term the log of its leader, how much of it each node has acknowledged in that term, and
which candidate each node voted for. No messages occur here, only what their exchange achieves. -/

set_option linter.unusedSectionVars false

namespace RaftStorage.Library

structure History (N τ E : Type*) where
  term : N → τ
  log : N → List E
  leaderLog : τ → Option (List E)
  ack : N → τ → ℕ
  vote : N → τ → N → Prop
  offer : N → τ → List E

section Definitions
variable {N τ E : Type*} [LinearOrder τ] (tm : E → τ)

/-- Position `k` of the log is filled in term `T`. -/
def Closes (L : List E) (T : τ) (k : ℕ) : Prop := ∃ j e, k = j + 1 ∧ L[j]? = some e ∧ tm e = T

/-- Up to each of its entries, the log is what the leader of that entry's term had. -/
def Consistent (H : History N τ E) (l : List E) : Prop :=
  ∀ j e, l[j]? = some e → ∃ L, H.leaderLog (tm e) = some L ∧ l.take (j + 1) <+: L

/-- The comparison a voter makes between the offered log and its own. -/
def UpToDate (offered own : List E) : Prop :=
  ∀ e, own.getLast? = some e → ∃ e', offered.getLast? = some e' ∧
    (tm e < tm e' ∨ tm e = tm e' ∧ own.length ≤ offered.length)

variable [Fintype N]

/-- A majority can still come to have acknowledged `k` entries in term `T`. -/
def Choosable (H : History N τ E) (T : τ) (k : ℕ) : Prop :=
  ∃ S, IsMajority S ∧ ∀ p ∈ S, k ≤ H.ack p T ∨ H.term p ≤ T

def Committed (H : History N τ E) (T : τ) (k : ℕ) : Prop :=
  (∃ L, H.leaderLog T = some L ∧ Closes tm L T k) ∧ ∃ S, IsMajority S ∧ ∀ p ∈ S, k ≤ H.ack p T

/-- The list is part of what some leader of a term up to `T` has committed. -/
def Certified (H : History N τ E) (T : τ) (l : List E) : Prop :=
  l = [] ∨ ∃ T₀ ≤ T, ∃ L k, H.leaderLog T₀ = some L ∧ Committed tm H T₀ k ∧ l <+: L.take k

structure Safe (H : History N τ E) : Prop where
  log_consistent : ∀ p, Consistent tm H (H.log p)
  leaderLog_consistent : ∀ T L, H.leaderLog T = some L → Consistent tm H L
  offer_consistent : ∀ c T, Consistent tm H (H.offer c T)
  leaderLog_le : ∀ T L, H.leaderLog T = some L → ∀ e ∈ L, tm e ≤ T
  log_le : ∀ p, ∀ e ∈ H.log p, tm e ≤ H.term p
  ack_term : ∀ p T, 0 < H.ack p T → T ≤ H.term p
  ack_length : ∀ p T, 0 < H.ack p T → ∃ L, H.leaderLog T = some L ∧ H.ack p T ≤ L.length
  ack_prefix : ∀ p T L k, H.leaderLog T = some L → Closes tm L T k → k ≤ H.ack p T →
    Choosable H T k → L.take k <+: H.log p
  complete : ∀ T T' L L' k, T < T' → H.leaderLog T = some L → H.leaderLog T' = some L' →
    Closes tm L T k → Choosable H T k → L.take k <+: L'
  elected : ∀ T L, H.leaderLog T = some L → ∃ S, IsMajority S ∧ ∀ p ∈ S, T ≤ H.term p
  vote_term : ∀ p T c, H.vote p T c → T ≤ H.term p
  vote_prefix : ∀ p T' c, H.vote p T' c → ∀ T L k, T < T' → H.leaderLog T = some L →
    Closes tm L T k → k ≤ H.ack p T → Choosable H T k → L.take k <+: H.offer c T'
  candidate : ∀ c T, H.vote c T c → H.term c = T → H.leaderLog T = none →
    H.log c = H.offer c T ∨ Certified tm H T (H.log c) ∧ (H.offer c T).length ≤ (H.log c).length

end Definitions

section Facts
variable {N τ E : Type*} [LinearOrder τ] [Fintype N] [DecidableEq N] {tm : E → τ}
  {H H' : History N τ E} {T T' : τ} {L L' l l' : List E} {j k : ℕ} {e e' : E}

theorem getElem?_of_isPrefix (h : l <+: L) (hj : l[j]? = some e) : L[j]? = some e := by
  obtain ⟨t, rfl⟩ := h
  rw [List.getElem?_append_left (List.getElem?_eq_some_iff.mp hj).1, hj]

theorem take_eq_of_isPrefix (h : l <+: L) (hk : k ≤ l.length) : L.take k = l.take k := by
  obtain ⟨t, rfl⟩ := h
  exact List.take_append_of_le_length hk

theorem Closes.pos (h : Closes tm L T k) : 0 < k := by
  obtain ⟨j, e, rfl, -, -⟩ := h
  exact Nat.succ_pos j

theorem Closes.le_length (h : Closes tm L T k) : k ≤ L.length := by
  obtain ⟨j, e, rfl, hj, -⟩ := h
  exact (List.getElem?_eq_some_iff.mp hj).1

theorem Closes.mono (h : Closes tm L T k) (hL : L <+: L') : Closes tm L' T k := by
  obtain ⟨j, e, rfl, hj, he⟩ := h
  exact ⟨j, e, rfl, getElem?_of_isPrefix hL hj, he⟩

theorem Closes.of_isPrefix (h : Closes tm L' T k) (hL : L <+: L') (hk : k ≤ L.length) :
    Closes tm L T k := by
  obtain ⟨j, e, rfl, hj, he⟩ := h
  refine ⟨j, e, rfl, ?_, he⟩
  rw [← hj]
  exact (getElem?_of_isPrefix hL (List.getElem?_eq_getElem hk)).symm ▸ List.getElem?_eq_getElem hk

theorem Consistent.mono (h : Consistent tm H l)
    (hext : ∀ T L, H.leaderLog T = some L → ∃ L', H'.leaderLog T = some L' ∧ L <+: L') :
    Consistent tm H' l := by
  intro j e hj
  obtain ⟨L, hL, hpre⟩ := h j e hj
  obtain ⟨L', hL', hLL'⟩ := hext _ _ hL
  exact ⟨L', hL', hpre.trans hLL'⟩

theorem Consistent.of_isPrefix (h : Consistent tm H L) (hl : l <+: L) : Consistent tm H l := by
  intro j e hj
  obtain ⟨L', hL', hpre⟩ := h j e (getElem?_of_isPrefix hl hj)
  rw [take_eq_of_isPrefix hl (List.getElem?_eq_some_iff.mp hj).1] at hpre
  exact ⟨L', hL', hpre⟩

theorem Consistent.take_eq (h : Consistent tm H l) (h' : Consistent tm H l')
    (hj : l[j]? = some e) (hj' : l'[j]? = some e') (he : tm e = tm e') :
    l.take (j + 1) = l'.take (j + 1) := by
  obtain ⟨L, hL, hpre⟩ := h j e hj
  obtain ⟨L', hL', hpre'⟩ := h' j e' hj'
  rw [he, hL'] at hL
  obtain rfl := Option.some.inj hL
  have hlen := (List.getElem?_eq_some_iff.mp hj).1
  have hlen' := (List.getElem?_eq_some_iff.mp hj').1
  rw [List.prefix_iff_eq_take] at hpre hpre'
  rw [hpre, hpre', List.length_take, List.length_take, min_eq_left hlen, min_eq_left hlen']

theorem Consistent.prefix_last (h : Consistent tm H l) (he : l.getLast? = some e) :
    ∃ L, H.leaderLog (tm e) = some L ∧ l <+: L := by
  rw [List.getLast?_eq_getElem?] at he
  obtain ⟨L, hL, hpre⟩ := h _ e he
  have hlen := (List.getElem?_eq_some_iff.mp he).1
  rw [List.take_of_length_le (by omega)] at hpre
  exact ⟨L, hL, hpre⟩

theorem Committed.choosable (h : Committed tm H T k) : Choosable H T k := by
  obtain ⟨-, S, hS, hack⟩ := h
  exact ⟨S, hS, fun p hp => Or.inl (hack p hp)⟩

/-- What one step of the system can do to the history: leaders' logs and acknowledgements grow,
terms rise, and only a node that is still in term `T` acknowledges in `T`. -/
structure Grows (H H' : History N τ E) : Prop where
  leaderLog : ∀ T L, H.leaderLog T = some L → ∃ L', H'.leaderLog T = some L' ∧ L <+: L'
  ack : ∀ p T, H.ack p T ≤ H'.ack p T
  term : ∀ p, H.term p ≤ H'.term p
  fresh : ∀ p T, H.ack p T < H'.ack p T → H.term p ≤ T

theorem Grows.refl (H : History N τ E) : Grows H H where
  leaderLog := fun _ L hL => ⟨L, hL, List.prefix_rfl⟩
  ack := fun _ _ => le_rfl
  term := fun _ => le_rfl
  fresh := fun _ _ hlt => absurd hlt (lt_irrefl _)

theorem Grows.trans {H'' : History N τ E} (h : Grows H H') (h' : Grows H' H'') : Grows H H'' where
  leaderLog := by
    intro T L hL
    obtain ⟨L', hL', hpre⟩ := h.leaderLog T L hL
    obtain ⟨L'', hL'', hpre'⟩ := h'.leaderLog T L' hL'
    exact ⟨L'', hL'', hpre.trans hpre'⟩
  ack := fun p T => (h.ack p T).trans (h'.ack p T)
  term := fun p => (h.term p).trans (h'.term p)
  fresh := by
    intro p T hlt
    by_cases hfirst : H.ack p T < H'.ack p T
    · exact h.fresh p T hfirst
    · exact (h.term p).trans (h'.fresh p T (lt_of_le_of_lt (not_lt.mp hfirst) hlt))

theorem Choosable.of_grows (h : Choosable H' T k) (hg : Grows H H') : Choosable H T k := by
  obtain ⟨S, hS, hall⟩ := h
  refine ⟨S, hS, fun p hp => ?_⟩
  rcases hall p hp with hk | ht
  · by_cases hle : k ≤ H.ack p T
    · exact Or.inl hle
    · exact Or.inr (hg.fresh p T (by omega))
  · exact Or.inr ((hg.term p).trans ht)

theorem Committed.grows (h : Committed tm H T k) (hg : Grows H H') : Committed tm H' T k := by
  obtain ⟨⟨L, hL, hcl⟩, S, hS, hack⟩ := h
  obtain ⟨L', hL', hpre⟩ := hg.leaderLog T L hL
  exact ⟨⟨L', hL', hcl.mono hpre⟩, S, hS, fun p hp => (hack p hp).trans (hg.ack p T)⟩

theorem Certified.grows (h : Certified tm H T l) (hg : Grows H H') (hT : T ≤ T') :
    Certified tm H' T' l := by
  rcases h with rfl | ⟨T₀, hT₀, L, k, hL, hc, hpre⟩
  · exact Or.inl rfl
  · obtain ⟨L', hL', hLL'⟩ := hg.leaderLog T₀ L hL
    have hk : k ≤ L.length := by
      obtain ⟨⟨L₂, hL₂, hcl⟩, -⟩ := hc
      rw [hL] at hL₂
      exact Option.some.inj hL₂ ▸ hcl.le_length
    refine Or.inr ⟨T₀, hT₀.trans hT, L', k, hL', hc.grows hg, ?_⟩
    rwa [take_eq_of_isPrefix hLL' hk]

theorem Certified.of_isPrefix (h : Certified tm H T L) (hl : l <+: L) : Certified tm H T l := by
  rcases h with rfl | ⟨T₀, hT₀, L', k, hL, hc, hpre⟩
  · exact Or.inl (List.prefix_nil.mp hl)
  · exact Or.inr ⟨T₀, hT₀, L', k, hL, hc, hl.trans hpre⟩

end Facts

section Consequences
variable {N τ E : Type*} [LinearOrder τ] [Fintype N] [DecidableEq N] {tm : E → τ}
  {H : History N τ E} {T T' : τ} {L L' l l' : List E} {k : ℕ}

theorem Certified.prefix_leaderLog (h : Safe tm H) (hl : Certified tm H T l)
    (hL : H.leaderLog T = some L) : l <+: L := by
  rcases hl with rfl | ⟨T₀, hT₀, L₀, k, hL₀, hc, hpre⟩
  · exact List.nil_prefix
  · rcases hT₀.lt_or_eq with hlt | rfl
    · obtain ⟨⟨L₁, hL₁, hcl⟩, -⟩ := id hc
      rw [hL₀] at hL₁
      obtain rfl := Option.some.inj hL₁
      exact hpre.trans (h.complete T₀ T L₀ L k hlt hL₀ hL hcl hc.choosable)
    · rw [hL₀] at hL
      obtain rfl := Option.some.inj hL
      exact hpre.trans (List.take_prefix _ _)

/-- **State machine safety.** Of two committed prefixes one extends the other. -/
theorem Certified.comparable (h : Safe tm H) (hl : Certified tm H T l)
    (hl' : Certified tm H T' l') : l <+: l' ∨ l' <+: l := by
  rcases hl with rfl | ⟨T₀, -, L₀, k, hL₀, hc, hpre⟩
  · exact Or.inl List.nil_prefix
  rcases hl' with rfl | ⟨T₁, -, L₁, k', hL₁, hc', hpre'⟩
  · exact Or.inr List.nil_prefix
  have hself : ∀ {T L k l}, H.leaderLog T = some L → Committed tm H T k → l <+: L.take k →
      ∀ {T'}, T ≤ T' → Certified tm H T' l :=
    fun hL hc hpre _ hT => Or.inr ⟨_, hT, _, _, hL, hc, hpre⟩
  rcases le_total T₀ T₁ with hle | hle
  · exact List.prefix_or_prefix_of_prefix ((hself hL₀ hc hpre hle).prefix_leaderLog h hL₁)
      (hpre'.trans (List.take_prefix _ _))
  · exact List.prefix_or_prefix_of_prefix (hpre.trans (List.take_prefix _ _))
      ((hself hL₁ hc' hpre' hle).prefix_leaderLog h hL₀)

/-- A log that a voter finds up to date contains whatever is choosable in the voter's log. -/
theorem Safe.upToDate_prefix (h : Safe tm H) (hcons : Consistent tm H l)
    (hcons' : Consistent tm H l') (hup : UpToDate tm l l') (hL : H.leaderLog T = some L)
    (hcl : Closes tm L T k) (hch : Choosable H T k) (hpre : L.take k <+: l') :
    L.take k <+: l := by
  obtain ⟨j, e, rfl, hj, rfl⟩ := id hcl
  have hjL := (List.getElem?_eq_some_iff.mp hj).1
  have hj' : l'[j]? = some e :=
    getElem?_of_isPrefix hpre (by rw [List.getElem?_take_of_lt (Nat.lt_succ_self j), hj])
  have hjl' := (List.getElem?_eq_some_iff.mp hj').1
  obtain ⟨last', hlast'⟩ : ∃ x, l'.getLast? = some x :=
    ⟨_, List.getLast?_eq_some_getLast (List.ne_nil_of_length_pos (by omega))⟩
  obtain ⟨L', hL', hpre'⟩ := hcons'.prefix_last hlast'
  have hle' : tm e ≤ tm last' :=
    h.leaderLog_le _ _ hL' e (List.mem_of_getElem? (getElem?_of_isPrefix hpre' hj'))
  obtain ⟨last, hlast, hcmp⟩ := hup last' hlast'
  obtain ⟨L₁, hL₁, hpre₁⟩ := hcons.prefix_last hlast
  have hle : tm last' ≤ tm last := hcmp.elim le_of_lt fun hc => hc.1.le
  rcases (hle'.trans hle).lt_or_eq with hlt | heq
  · -- the offered log ends in a later term, whose leader already holds the prefix
    have hcomp := h.complete _ _ L L₁ _ hlt hL hL₁ hcl hch
    rcases List.prefix_or_prefix_of_prefix hcomp hpre₁ with hsub | hsub
    · exact hsub
    · have hmem : last ∈ L :=
        List.mem_of_mem_take (hsub.subset (List.mem_of_getLast? hlast))
      exact absurd (h.leaderLog_le _ _ hL last hmem) (not_le.mpr hlt)
  · -- both logs end in the same leader's entries, and the offered one is at least as long
    have hsame : tm last' = tm last := le_antisymm hle (heq ▸ hle')
    have hlen : l'.length ≤ l.length := by
      rcases hcmp with hc | hc
      · exact absurd hsame hc.ne
      · exact hc.2
    rw [← heq, hL] at hL₁
    obtain rfl := Option.some.inj hL₁
    exact List.prefix_of_prefix_length_le (List.take_prefix _ _) hpre₁ (by
      rw [List.length_take]
      omega)

/-- The log offered by a candidate that a majority voted for contains everything choosable. -/
theorem Safe.offer_complete (h : Safe tm H) {S : Finset N} (hS : IsMajority S) {c : N}
    (hvote : ∀ p ∈ S, H.vote p T' c) (hT : T < T') (hL : H.leaderLog T = some L)
    (hcl : Closes tm L T k) (hch : Choosable H T k) : L.take k <+: H.offer c T' := by
  obtain ⟨S', hS', hall⟩ := id hch
  obtain ⟨p, hp, hp'⟩ := hS.exists_common hS'
  have hterm := h.vote_term p T' c (hvote p hp)
  rcases hall p hp' with hk | ht
  · exact h.vote_prefix p T' c (hvote p hp) T L k hT hL hcl hk hch
  · exact absurd (hterm.trans ht) (not_le.mpr hT)

theorem Safe.log_eq_offer (h : Safe tm H) {S : Finset N} (hS : IsMajority S) {c : N}
    (hvote : ∀ p ∈ S, H.vote p T c) (hself : H.vote c T c) (hterm : H.term c = T)
    (hnone : H.leaderLog T = none) : H.log c = H.offer c T := by
  rcases h.candidate c T hself hterm hnone with heq | ⟨hcert, hlen⟩
  · exact heq
  · rcases hcert with hnil | ⟨T₀, hT₀, L, k, hL, hc, hpre⟩
    · rw [hnil] at hlen ⊢
      exact (List.eq_nil_of_length_eq_zero (Nat.le_zero.mp hlen)).symm
    · obtain ⟨⟨L₁, hL₁, hcl⟩, -⟩ := id hc
      rw [hL] at hL₁
      obtain rfl := Option.some.inj hL₁
      have hlt : T₀ < T := hT₀.lt_of_ne (by rintro rfl; rw [hL] at hnone; cases hnone)
      have hsub := hpre.trans (h.offer_complete hS hvote hlt hL hcl hc.choosable)
      exact hsub.eq_of_length_le hlen

end Consequences

end RaftStorage.Library
