import Mathlib.Data.Fintype.Card
import Mathlib.Data.Fin.Tuple.Basic

/-! Scatter and gather over unreliable links. One round starts a call to each of several peers; a
request may be answered any number of times, each call takes at most one answer, and the calls
of a round share one counter. -/

namespace RaftStorage.Library
open Finset

structure Call (α ρ : Type*) where
  args : α
  replies : List ρ
  taken : Option ρ

structure Round (n : ℕ) (ι α ρ : Type*) where
  owner : Fin n
  info : ι
  counter : ℤ
  calls : Fin n → Option (Call α ρ)

variable {n : ℕ} {ι α ρ ε β : Type*}

def Call.start (args : α) : Call α ρ := ⟨args, [], none⟩

def Round.respond (r : Round n ι α ρ) (p : Fin n) (reply : ρ) : Round n ι α ρ :=
  { r with
    calls := Function.update r.calls p
      ((r.calls p).map fun c => { c with replies := c.replies ++ [reply] }) }

def Round.take (r : Round n ι α ρ) (p : Fin n) (reply : ρ) (counter : ℤ) : Round n ι α ρ :=
  { r with
    counter
    calls := Function.update r.calls p ((r.calls p).map fun c => { c with taken := some reply }) }

def Round.passed (r : Round n ι α ρ) (test : ρ → Bool) : Finset (Fin n) :=
  univ.filter fun p => ((r.calls p).bind Call.taken).any test

def Round.Sent (r : Round n ι α ρ) (p : Fin n) (args : α) : Prop :=
  ∃ c, r.calls p = some c ∧ c.args = args

def Round.Answered (r : Round n ι α ρ) (p : Fin n) (reply : ρ) : Prop :=
  ∃ c, r.calls p = some c ∧ reply ∈ c.replies

def Round.Matched (r : Round n ι α ρ) : Prop :=
  ∀ p c reply, r.calls p = some c → c.taken = some reply → reply ∈ c.replies

/-- Evaluate one computation for every peer, in order, stopping at the first failure. -/
def forPeers : {n : ℕ} → (Fin n → Except ε β) → Except ε (Fin n → β)
  | 0, _ => .ok Fin.elim0
  | _ + 1, f =>
    match f 0 with
    | .error e => .error e
    | .ok b =>
      match forPeers fun i => f i.succ with
      | .error e => .error e
      | .ok g => .ok (Fin.cons b g)

theorem forPeers_ok {f : Fin n → Except ε β} {g : Fin n → β} (h : forPeers f = .ok g) (i : Fin n) :
    f i = .ok (g i) := by
  induction n with
  | zero => exact i.elim0
  | succ n ih =>
    simp only [forPeers] at h
    split at h
    · cases h
    · rename_i b hb
      split at h
      · cases h
      · rename_i g' hg
        obtain rfl := Except.ok.inj h
        induction i using Fin.cases with
        | zero => simpa using hb
        | succ i => simpa using ih hg i

theorem forPeers_error {f : Fin n → Except ε β} {err : ε} (h : forPeers f = .error err) :
    ∃ i, f i = .error err := by
  induction n with
  | zero => cases h
  | succ n ih =>
    simp only [forPeers] at h
    split at h
    · rename_i hb
      exact ⟨0, Except.error.inj h ▸ hb⟩
    · split at h
      · rename_i hg
        rw [Except.error.inj h] at hg
        obtain ⟨i, hi⟩ := ih hg
        exact ⟨i.succ, hi⟩
      · cases h

@[simp] theorem Round.respond_owner (r : Round n ι α ρ) (p : Fin n) (reply : ρ) :
    (r.respond p reply).owner = r.owner := rfl

@[simp] theorem Round.respond_info (r : Round n ι α ρ) (p : Fin n) (reply : ρ) :
    (r.respond p reply).info = r.info := rfl

@[simp] theorem Round.respond_counter (r : Round n ι α ρ) (p : Fin n) (reply : ρ) :
    (r.respond p reply).counter = r.counter := rfl

@[simp] theorem Round.take_owner (r : Round n ι α ρ) (p : Fin n) (reply : ρ) (v : ℤ) :
    (r.take p reply v).owner = r.owner := rfl

@[simp] theorem Round.take_info (r : Round n ι α ρ) (p : Fin n) (reply : ρ) (v : ℤ) :
    (r.take p reply v).info = r.info := rfl

@[simp] theorem Round.take_counter (r : Round n ι α ρ) (p : Fin n) (reply : ρ) (v : ℤ) :
    (r.take p reply v).counter = v := rfl

section Calls
variable {r : Round n ι α ρ} {p q : Fin n} {args : α} {reply reply' : ρ} {v : ℤ} {c : Call α ρ}

theorem update_call_some {calls : Fin n → Option (Call α ρ)} {f : Call α ρ → Call α ρ}
    {c' : Call α ρ} : Function.update calls p ((calls p).map f) q = some c' ↔
      ∃ c, calls q = some c ∧ c' = if q = p then f c else c := by
  by_cases hq : q = p
  · subst hq
    simp [eq_comm]
  · simp [hq]

@[simp] theorem Round.sent_respond :
    (r.respond p reply).Sent q args ↔ r.Sent q args := by
  unfold Round.Sent Round.respond
  simp only [update_call_some]
  constructor
  · rintro ⟨_, ⟨c, hc, rfl⟩, rfl⟩
    exact ⟨c, hc, by split_ifs <;> rfl⟩
  · rintro ⟨c, hc, rfl⟩
    exact ⟨_, ⟨c, hc, rfl⟩, by split_ifs <;> rfl⟩

@[simp] theorem Round.sent_take : (r.take p reply v).Sent q args ↔ r.Sent q args := by
  unfold Round.Sent Round.take
  simp only [update_call_some]
  constructor
  · rintro ⟨_, ⟨c, hc, rfl⟩, rfl⟩
    exact ⟨c, hc, by split_ifs <;> rfl⟩
  · rintro ⟨c, hc, rfl⟩
    exact ⟨_, ⟨c, hc, rfl⟩, by split_ifs <;> rfl⟩

theorem Round.answered_respond (h : (r.respond p reply).Answered q reply') :
    r.Answered q reply' ∨ q = p ∧ reply' = reply := by
  obtain ⟨_, hc', hmem⟩ := h
  obtain ⟨c, hc, rfl⟩ := update_call_some.mp hc'
  split_ifs at hmem with hq
  · rcases List.mem_append.mp hmem with hmem | hmem
    · exact Or.inl ⟨c, hc, hmem⟩
    · exact Or.inr ⟨hq, List.mem_singleton.mp hmem⟩
  · exact Or.inl ⟨c, hc, hmem⟩

theorem Round.Answered.respond (h : r.Answered q reply') (p : Fin n) (reply : ρ) :
    (r.respond p reply).Answered q reply' := by
  obtain ⟨c, hc, hmem⟩ := h
  refine ⟨_, update_call_some.mpr ⟨c, hc, rfl⟩, ?_⟩
  split_ifs
  · exact List.mem_append_left _ hmem
  · exact hmem

@[simp] theorem Round.answered_take :
    (r.take p reply v).Answered q reply' ↔ r.Answered q reply' := by
  unfold Round.Answered Round.take
  simp only [update_call_some]
  constructor
  · rintro ⟨_, ⟨c, hc, rfl⟩, hmem⟩
    exact ⟨c, hc, by split_ifs at hmem <;> exact hmem⟩
  · rintro ⟨c, hc, hmem⟩
    exact ⟨_, ⟨c, hc, rfl⟩, by split_ifs <;> exact hmem⟩

theorem Round.Matched.respond (h : r.Matched) (p : Fin n) (reply : ρ) :
    (r.respond p reply).Matched := by
  intro q _ reply' hc' htaken
  obtain ⟨c, hc, rfl⟩ := update_call_some.mp hc'
  split_ifs at htaken ⊢
  · exact List.mem_append_left _ (h q c reply' hc htaken)
  · exact h q c reply' hc htaken

theorem Round.Matched.take (h : r.Matched) (hans : r.Answered p reply) (v : ℤ) :
    (r.take p reply v).Matched := by
  intro q _ reply' hc' htaken
  obtain ⟨c, hc, rfl⟩ := update_call_some.mp hc'
  split_ifs at htaken ⊢ with hq
  · subst hq
    obtain rfl := Option.some.inj htaken
    obtain ⟨c₁, hc₁, hmem⟩ := hans
    rw [hc] at hc₁
    exact Option.some.inj hc₁ ▸ hmem
  · exact h q c reply' hc htaken

theorem Round.mem_passed {test : ρ → Bool} : q ∈ r.passed test ↔
    ∃ c reply, r.calls q = some c ∧ c.taken = some reply ∧ test reply = true := by
  simp only [Round.passed, mem_filter, mem_univ, true_and, Option.any_eq_true,
    Option.bind_eq_some_iff]
  constructor
  · rintro ⟨reply, ⟨c, hc, ht⟩, htest⟩
    exact ⟨c, reply, hc, ht, htest⟩
  · rintro ⟨c, reply, hc, ht, htest⟩
    exact ⟨reply, ⟨c, hc, ht⟩, htest⟩

theorem Round.Matched.answered {test : ρ → Bool} (h : r.Matched) (hq : q ∈ r.passed test) :
    ∃ reply, r.Answered q reply ∧ test reply = true := by
  obtain ⟨c, reply, hc, ht, htest⟩ := Round.mem_passed.mp hq
  exact ⟨reply, ⟨c, hc, h q c reply hc ht⟩, htest⟩

theorem Round.passed_respond (test : ρ → Bool) :
    (r.respond p reply).passed test = r.passed test := by
  ext q
  rw [Round.mem_passed, Round.mem_passed]
  unfold Round.respond
  simp only [update_call_some]
  constructor
  · rintro ⟨_, reply', ⟨c, hc, rfl⟩, ht, htest⟩
    exact ⟨c, reply', hc, by split_ifs at ht <;> exact ht, htest⟩
  · rintro ⟨c, reply', hc, ht, htest⟩
    exact ⟨_, reply', ⟨c, hc, rfl⟩, by split_ifs <;> exact ht, htest⟩

theorem Round.mem_passed_take {test : ρ → Bool} (hc : r.calls p = some c) (ht : c.taken = none) :
    q ∈ (r.take p reply v).passed test ↔ q = p ∧ test reply = true ∨ q ∈ r.passed test := by
  rw [Round.mem_passed, Round.mem_passed]
  unfold Round.take
  simp only [update_call_some]
  by_cases hq : q = p
  · subst hq
    simp [hc, ht]
  · simp only [hq, if_false, false_and, false_or]
    constructor
    · rintro ⟨c', reply', ⟨_, hc', rfl⟩, htaken⟩
      exact ⟨c', reply', hc', htaken⟩
    · rintro ⟨c, reply', hc, htaken⟩
      exact ⟨c, reply', ⟨c, hc, rfl⟩, htaken⟩

theorem Round.card_passed_take {test : ρ → Bool} (hc : r.calls p = some c) (ht : c.taken = none) :
    ((r.take p reply v).passed test).card =
      (r.passed test).card + if test reply = true then 1 else 0 := by
  have hp : p ∉ r.passed test := by
    rw [Round.mem_passed]
    rintro ⟨c', reply', hc', ht', -⟩
    rw [hc] at hc'
    rw [← Option.some.inj hc', ht] at ht'
    cases ht'
  split_ifs with htest
  · rw [← card_insert_of_notMem hp]
    congr 1
    ext q
    rw [Round.mem_passed_take hc ht, mem_insert]
    simp [htest]
  · rw [Nat.add_zero]
    congr 1
    ext q
    rw [Round.mem_passed_take hc ht]
    simp [htest]

theorem forall_mem_modify {σ : Type*} {P : σ → Prop} {l : List σ} {i : ℕ} {f : σ → σ}
    (h : ∀ x ∈ l, P x) (hi : ∀ x, l[i]? = some x → P (f x)) : ∀ x ∈ l.modify i f, P x := by
  intro x hx
  obtain ⟨j, hj⟩ := List.mem_iff_getElem?.mp hx
  by_cases hij : i = j
  · subst hij
    rw [List.getElem?_modify_eq] at hj
    obtain ⟨y, hy, rfl⟩ := Option.map_eq_some_iff.mp hj
    exact hi y hy
  · rw [List.getElem?_modify_ne _ _ hij] at hj
    exact h x (List.mem_of_getElem? hj)

theorem forall_mem_modify_of_nodup {σ κ : Type*} {P : σ → Prop} {l : List σ} {key : σ → κ} {i : ℕ}
    {f : σ → σ} {x₀ : σ} (hnd : (l.map key).Nodup) (hx₀ : l[i]? = some x₀)
    (h : ∀ x ∈ l, key x ≠ key x₀ → P x) (hi : P (f x₀)) : ∀ x ∈ l.modify i f, P x := by
  intro x hx
  obtain ⟨j, hj⟩ := List.mem_iff_getElem?.mp hx
  by_cases hij : i = j
  · subst hij
    rw [List.getElem?_modify_eq, hx₀] at hj
    exact Option.some.inj hj ▸ hi
  · rw [List.getElem?_modify_ne _ _ hij] at hj
    refine h x (List.mem_of_getElem? hj) fun hkey => hij ?_
    have hlen := (List.getElem?_eq_some_iff.mp hx₀).1
    refine (List.getElem?_inj (l := l.map key) (by simpa using hlen) hnd).mp ?_
    rw [List.getElem?_map, List.getElem?_map, hx₀, hj, Option.map_some, Option.map_some, hkey]

theorem mem_modify_of_mem {σ : Type*} {l : List σ} {x : σ} (hx : x ∈ l) (i : ℕ) (f : σ → σ) :
    x ∈ l.modify i f ∨ l[i]? = some x ∧ f x ∈ l.modify i f := by
  obtain ⟨j, hj⟩ := List.mem_iff_getElem?.mp hx
  by_cases hij : i = j
  · subst hij
    exact Or.inr ⟨hj, List.mem_of_getElem? (i := i) (by rw [List.getElem?_modify_eq, hj]; rfl)⟩
  · exact Or.inl (List.mem_of_getElem? (i := j) (by rw [List.getElem?_modify_ne _ _ hij, hj]))

theorem map_modify {σ κ : Type*} {key : σ → κ} {f : σ → σ} (hf : ∀ x, key (f x) = key x)
    (l : List σ) (i : ℕ) : (l.modify i f).map key = l.map key := by
  apply List.ext_getElem?
  intro j
  rw [List.getElem?_map, List.getElem?_map, List.getElem?_modify]
  cases l[j]? with
  | none => rfl
  | some x => split_ifs <;> simp [hf]

end Calls

end RaftStorage.Library
