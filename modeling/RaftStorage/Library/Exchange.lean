import Mathlib.Data.List.Basic
import Mathlib.Algebra.Order.Group.Nat

/-! Requests and replies over a byte stream: the requests are answered in the order in which they were
sent, and the replies are read off the stream in pieces that know nothing of where a reply ends. -/

namespace RaftStorage.Library

variable {ι β : Type*}

structure Exchange (ι β : Type*) where
  requests : List ι := []
  replies : List (List β) := []
  arrived : ℕ := 0
  received : ℕ := 0
  reads : ℕ := 0
  closed : Bool := false
  replies_le : replies.length ≤ requests.length := by simp
  arrived_le : arrived ≤ replies.flatten.length := by simp
  received_le : received ≤ arrived := by simp

namespace Exchange

variable {e e' e'' : Exchange ι β} {k cap : ℕ} {x : ι} {reply got : List β}

def create : Exchange ι β := {}

def send (e : Exchange ι β) (x : ι) : Exchange ι β :=
  { e with
    requests := e.requests ++ [x]
    replies_le := e.replies_le.trans (by simp) }

def answer (e : Exchange ι β) (reply : List β) : Exchange ι β :=
  if h : e.replies.length < e.requests.length then
    { e with
      replies := e.replies ++ [reply]
      replies_le := by simpa using Nat.succ_le_of_lt h
      arrived_le := e.arrived_le.trans (by simp) }
  else e

def arrive (e : Exchange ι β) (size : ℕ) : Exchange ι β :=
  if h : e.closed = false ∧ e.arrived + size ≤ e.replies.flatten.length then
    { e with
      arrived := e.arrived + size
      arrived_le := h.2
      received_le := e.received_le.trans (Nat.le_add_right _ _) }
  else e

def close (e : Exchange ι β) : Exchange ι β := { e with closed := true }

def unread (e : Exchange ι β) : ℕ := e.arrived - e.received

def Ready (e : Exchange ι β) : Prop := 0 < e.unread ∨ e.closed = true

instance : Decidable e.Ready := inferInstanceAs (Decidable (_ ∨ _))

def read (cap : ℕ) (e : Exchange ι β) : List β × Exchange ι β :=
  let size := min cap e.unread
  ((e.replies.flatten.drop e.received).take size,
    { e with
      received := e.received + size
      reads := e.reads + 1
      received_le := by
        have hle := e.received_le
        simp only [size, unread]
        omega })

/-! ## What was sent and answered stays -/

structure Grows (e e' : Exchange ι β) : Prop where
  requests : e.requests <+: e'.requests
  replies : e.replies <+: e'.replies

theorem Grows.refl (e : Exchange ι β) : Grows e e := ⟨List.prefix_rfl, List.prefix_rfl⟩

theorem grows_send : Grows e (e.send x) := ⟨List.prefix_append _ _, List.prefix_rfl⟩

theorem grows_answer : Grows e (e.answer reply) := by
  unfold answer
  split_ifs
  · exact ⟨List.prefix_rfl, List.prefix_append _ _⟩
  · exact Grows.refl e

theorem grows_arrive : Grows e (e.arrive k) := by
  unfold arrive
  split_ifs
  · exact ⟨List.prefix_rfl, List.prefix_rfl⟩
  · exact Grows.refl e

def RequestAt (e : Exchange ι β) (k : ℕ) (x : ι) : Prop := e.requests[k]? = some x

def ReplyAt (e : Exchange ι β) (k : ℕ) (reply : List β) : Prop := e.replies[k]? = some reply

theorem RequestAt.mono (h : Grows e e') (hx : e.RequestAt k x) : e'.RequestAt k x := by
  obtain ⟨hk, rfl⟩ := List.getElem?_eq_some_iff.mp hx
  exact List.prefix_iff_getElem?.mp h.requests k hk

theorem ReplyAt.mono (h : Grows e e') (hreply : e.ReplyAt k reply) : e'.ReplyAt k reply := by
  obtain ⟨hk, rfl⟩ := List.getElem?_eq_some_iff.mp hreply
  exact List.prefix_iff_getElem?.mp h.replies k hk

theorem requestAt_send : (e.send x).RequestAt e.requests.length x := by
  simp [RequestAt, send]

/-! ## Reading the replies one by one -/

def lengthOf (e : Exchange ι β) (k : ℕ) : ℕ := (e.replies.take k).flatten.length

structure Aligned (e : Exchange ι β) : Prop where
  reads_le : e.reads ≤ e.replies.length
  received : e.received = e.lengthOf e.reads

structure Whole (cap : ℕ) (e : Exchange ι β) (k : ℕ) : Prop where
  turn : k = e.reads
  answered : k < e.replies.length
  arrived : e.arrived = e.lengthOf (k + 1)
  fits : e.lengthOf (k + 1) ≤ e.lengthOf k + cap

theorem aligned_create : (create : Exchange ι β).Aligned := ⟨le_rfl, rfl⟩

theorem lengthOf_answer (h : k ≤ e.replies.length) (reply : List β) :
    (e.answer reply).lengthOf k = e.lengthOf k := by
  unfold answer
  split_ifs
  · simp only [lengthOf]
    rw [List.take_append_of_le_length h]
  · rfl

theorem Aligned.answer (h : e.Aligned) : (e.answer reply).Aligned := by
  have hsize := lengthOf_answer h.reads_le reply
  unfold Exchange.answer at hsize ⊢
  split_ifs at hsize ⊢ with hlt
  · refine ⟨h.reads_le.trans (by simp), ?_⟩
    exact h.received.trans hsize.symm
  · exact h

theorem Aligned.arrive (h : e.Aligned) : (e.arrive k).Aligned := by
  unfold Exchange.arrive
  split_ifs
  · exact ⟨h.reads_le, h.received⟩
  · exact h

theorem lengthOf_succ (h : k < e.replies.length) :
    e.lengthOf (k + 1) = e.lengthOf k + e.replies[k].length := by
  rw [lengthOf, List.take_add_one, List.getElem?_eq_getElem h, Option.toList_some,
    List.flatten_append, List.length_append, List.flatten_singleton, lengthOf]

theorem drop_lengthOf (h : k < e.replies.length) :
    e.replies[k] <+: e.replies.flatten.drop (e.lengthOf k) := by
  have hsplit : e.replies.flatten =
      (e.replies.take k).flatten ++ (e.replies[k] ++ (e.replies.drop (k + 1)).flatten) := by
    rw [← List.flatten_cons, ← List.drop_eq_getElem_cons h, ← List.flatten_append,
      List.take_append_drop]
  rw [hsplit, lengthOf, List.drop_left]
  exact List.prefix_append _ _

theorem Whole.read (hw : e.Whole cap k) (h : e.Aligned) :
    (e.read cap).2.Aligned ∧ (e.read cap).2.ReplyAt k (e.read cap).1 := by
  obtain ⟨rfl, hk, harrived, hfits⟩ := hw
  have hsucc := lengthOf_succ hk
  have hsize : min cap e.unread = e.replies[e.reads].length := by
    rw [unread, harrived, h.received]
    omega
  constructor
  · refine ⟨hk, ?_⟩
    change e.received + min cap e.unread = e.lengthOf (e.reads + 1)
    rw [hsize, h.received, hsucc]
  · change e.replies[e.reads]? =
      some ((e.replies.flatten.drop e.received).take (min cap e.unread))
    rw [hsize, h.received, ← List.prefix_iff_eq_take.mp (drop_lengthOf hk)]
    exact List.getElem?_eq_getElem hk

end Exchange
end RaftStorage.Library
