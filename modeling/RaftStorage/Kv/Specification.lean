import RaftStorage.Kv.AtMostOnce
import RaftStorage.Kv.Determinism
import RaftStorage.Store.Contents
import Mathlib.Data.List.Induction

/-! The key-value store as it is meant, and when the apply loop keeps to it. A `Put` sets its key and
an `Append` adds to it; both set it in `KvServer`. -/

namespace RaftStorage
open Library SkipList

instance (op : Op) : Decidable op.isWrite := inferInstanceAs (Decidable (_ ∨ _))

def Op.Repeats (op : Op) (earlier : List Op) : Prop :=
  ∃ w ∈ earlier, w.isWrite ∧ w.clientId = op.clientId ∧ op.requestId ≤ w.requestId

instance (op : Op) (earlier : List Op) : Decidable (op.Repeats earlier) :=
  inferInstanceAs (Decidable (∃ w ∈ earlier, _))

theorem Sequential.repeats_iff {before after : List Op} {op : Op}
    (h : Sequential (before ++ op :: after)) (hop : op.isWrite) :
    op.Repeats before ↔ op ∈ before := by
  constructor
  · rintro ⟨w, hw, -, hclient, hle⟩
    exact h.mem_of_later hw hclient hle
  · exact fun hmem => ⟨op, hmem, hop, rfl, le_rfl⟩

/-- The writes of `ops` that are no duplicates when they come after `earlier`. -/
def freshWrites (earlier : List Op) : List Op → List Op
  | [] => []
  | op :: ops =>
    if op.isWrite ∧ ¬op.Repeats earlier then op :: freshWrites (earlier ++ [op]) ops
    else freshWrites (earlier ++ [op]) ops

theorem freshWrites_concat (earlier ops : List Op) (op : Op) :
    freshWrites earlier (ops ++ [op]) = freshWrites earlier ops ++
      if op.isWrite ∧ ¬op.Repeats (earlier ++ ops) then [op] else [] := by
  induction ops generalizing earlier with
  | nil =>
    simp only [List.nil_append, List.append_nil, freshWrites]
  | cons x ops ih =>
    have hcat : earlier ++ x :: ops = (earlier ++ [x]) ++ ops := by simp
    simp only [List.cons_append, freshWrites]
    rw [ih, hcat]
    split_ifs <;> rfl

theorem isWrite_of_mem_freshWrites {earlier ops : List Op} {op : Op}
    (h : op ∈ freshWrites earlier ops) : op.isWrite := by
  induction ops generalizing earlier with
  | nil => cases h
  | cons x ops ih =>
    rw [freshWrites] at h
    split_ifs at h with hx
    · rcases List.mem_cons.mp h with rfl | h
      · exact hx.1
      · exact ih h
    · exact ih h

/-! ## The reference map -/

namespace Reference

def apply (m : String → Option String) (op : Op) : String → Option String :=
  if op.operation = "Put" then Function.update m op.key (some op.value)
  else if op.operation = "Append" then
    Function.update m op.key (some ((m op.key).getD "" ++ op.value))
  else m

/-- What the operations are meant to make of an empty store. -/
def contents (ops : List Op) : String → Option String :=
  (freshWrites [] ops).foldl apply fun _ => none

def value (writes : List Op) : Option String :=
  writes.foldl (fun v op =>
    some (if op.operation = "Put" then op.value else v.getD "" ++ op.value)) none

theorem value_concat (writes : List Op) (op : Op) : value (writes ++ [op]) =
    some (if op.operation = "Put" then op.value else (value writes).getD "" ++ op.value) := by
  simp [value]

theorem foldl_apply (writes : List Op) (hw : ∀ op ∈ writes, op.isWrite) (key : String) :
    writes.foldl apply (fun _ => none) key = value (writes.filter (·.key = key)) := by
  induction writes using List.reverseRecOn with
  | nil => rfl
  | append_singleton writes op ih =>
    have ih := ih fun x hx => hw x (List.mem_append_left _ hx)
    rw [List.foldl_concat, List.filter_append]
    by_cases hkey : op.key = key
    · subst hkey
      have hself : [op].filter (fun x => x.key = op.key) = [op] := by simp
      rw [hself, value_concat, ← ih]
      unfold apply
      rcases hw op (by simp) with hput | happend
      · simp [hput]
      · simp [happend]
    · have hnone : [op].filter (fun x => x.key = key) = [] := by simp [hkey]
      rw [hnone, List.append_nil, ← ih]
      unfold apply
      split_ifs
      · exact Function.update_of_ne (Ne.symm hkey) _ _
      · exact Function.update_of_ne (Ne.symm hkey) _ _
      · rfl

end Reference

/-- The writes from the last `Put` on, or all of them when there is none. -/
def sincePut (writes : List Op) : List Op :=
  writes.foldl (fun since op => if op.operation = "Put" then [op] else since ++ [op]) []

theorem sincePut_concat (writes : List Op) (op : Op) : sincePut (writes ++ [op]) =
    if op.operation = "Put" then [op] else sincePut writes ++ [op] := by
  simp [sincePut]

theorem append_eq_right_iff {s t : String} : s ++ t = t ↔ s = "" := by
  rw [← String.toList_inj, String.toList_append, ← String.toList_inj]
  simp

theorem append_eq_empty_iff {s t : String} : s ++ t = "" ↔ s = "" ∧ t = "" := by
  rw [← String.toList_inj, String.toList_append, ← String.toList_inj, ← String.toList_inj]
  simp

namespace Reference

theorem value_getD_eq_empty (writes : List Op) :
    (value writes).getD "" = "" ↔ ∀ op ∈ sincePut writes, op.value = "" := by
  induction writes using List.reverseRecOn with
  | nil => simp [value, sincePut]
  | append_singleton writes op ih =>
    rw [value_concat, sincePut_concat]
    split_ifs
    · simp
    · rw [Option.getD_some, append_eq_empty_iff, ih]
      simp [or_imp, forall_and]

theorem value_eq_getLast_iff (writes : List Op) : writes.getLast?.map Op.value = value writes ↔
    ∀ op ∈ (sincePut writes).dropLast, op.value = "" := by
  rcases List.eq_nil_or_concat writes with rfl | ⟨rest, op, rfl⟩
  · simp [value, sincePut]
  · rw [List.concat_eq_append, value_concat, sincePut_concat]
    split_ifs
    · simp
    · rw [List.getLast?_concat, Option.map_some, List.dropLast_concat, Option.some.injEq, eq_comm,
        append_eq_right_iff]
      exact value_getD_eq_empty rest

end Reference

/-! ## The apply loop -/

namespace Replica

variable {ar : Archives}

structure Digest (r : Replica) (ops : List Op) : Prop where
  snapIndex : r.snapIndex = 0
  duplicate : ∀ op, r.Duplicate op ↔ op.Repeats ops
  value : ∀ key, lookup r.contents key =
    ((freshWrites [] ops).filter (·.key = key)).getLast?.map Op.value

theorem digest_empty : Digest empty [] where
  snapIndex := rfl
  duplicate := fun op => by simp [Duplicate, Op.Repeats, empty]
  value := fun key => by simp [empty, freshWrites, lookup]

theorem repeats_concat {ops : List Op} {op w : Op} : op.Repeats (ops ++ [w]) ↔
    op.Repeats ops ∨ w.isWrite ∧ w.clientId = op.clientId ∧ op.requestId ≤ w.requestId := by
  simp only [Op.Repeats, List.mem_append, List.mem_singleton, or_and_right, exists_or,
    exists_eq_left]

theorem Digest.skip {r : Replica} {ops : List Op} {w : Op} (h : Digest r ops)
    (hw : ¬(w.isWrite ∧ ¬w.Repeats ops)) : Digest r (ops ++ [w]) where
  snapIndex := h.snapIndex
  duplicate := by
    intro op
    rw [h.duplicate, repeats_concat]
    refine ⟨Or.inl, fun hrep => hrep.elim id ?_⟩
    rintro ⟨hwrite, hclient, hle⟩
    obtain ⟨w', hmem, hwrite', hclient', hle'⟩ := not_not.mp fun hnot => hw ⟨hwrite, hnot⟩
    exact ⟨w', hmem, hwrite', hclient'.trans hclient, hle.trans hle'⟩
  value := by
    intro key
    rw [h.value, freshWrites_concat, List.nil_append, if_neg hw, List.append_nil]

def write (r : Replica) (w : Op) : Replica :=
  { r with
    contents := upsert r.contents w.key w.value
    lastRequestId := Function.update r.lastRequestId w.clientId (some w.requestId) }

theorem duplicate_write {r : Replica} {op w : Op} : (r.write w).Duplicate op ↔
    if op.clientId = w.clientId then op.requestId ≤ w.requestId else r.Duplicate op := by
  unfold Duplicate write
  split_ifs with hclient
  · simp [hclient]
  · simp [hclient]

theorem Digest.write {r : Replica} {ops : List Op} {w : Op} (h : Digest r ops)
    (hwrite : w.isWrite) (hnew : ¬w.Repeats ops) : Digest (r.write w) (ops ++ [w]) where
  snapIndex := h.snapIndex
  duplicate := by
    intro op
    rw [duplicate_write, repeats_concat]
    split_ifs with hclient
    · -- the new mark is above all earlier ones of the client
      have hmark : op.Repeats ops → op.requestId ≤ w.requestId := by
        rintro ⟨w', hmem, hwrite', hclient', hle⟩
        by_contra hlt
        exact hnew ⟨w', hmem, hwrite', hclient'.trans hclient, by omega⟩
      exact ⟨fun hle => Or.inr ⟨hwrite, hclient.symm, hle⟩,
        fun hrep => hrep.elim hmark fun hrep => hrep.2.2⟩
    · rw [h.duplicate]
      exact ⟨Or.inl, fun hrep => hrep.resolve_right fun hrep => hclient hrep.2.1.symm⟩
  value := by
    intro key
    have hfresh : freshWrites [] (ops ++ [w]) = freshWrites [] ops ++ [w] := by
      rw [freshWrites_concat, List.nil_append, if_pos ⟨hwrite, hnew⟩]
    rw [hfresh, List.filter_append, Replica.write, lookup_upsert]
    split_ifs with hkey
    · have hself : [w].filter (fun x => x.key = key) = [w] := by simp [hkey]
      rw [hself, List.getLast?_concat]
      rfl
    · have hnone : [w].filter (fun x => x.key = key) = [] := by simp [Ne.symm hkey]
      rw [hnone, List.append_nil]
      exact h.value key

theorem digest_replay (ar : Archives) {messages : List ApplyMsg}
    (h : ∀ message ∈ messages, KvSystem.Plain message) :
    Digest (replay ar messages) (KvSystem.ops ar messages) := by
  induction messages using List.reverseRecOn with
  | nil => exact digest_empty
  | append_singleton messages message ih =>
    have ih := ih fun x hx => h x (List.mem_append_left _ hx)
    obtain ⟨hvalid, hsnap, hidx⟩ := h message (by simp)
    have hops : KvSystem.ops ar (messages ++ [message]) =
        KvSystem.ops ar messages ++ [ar.parseOp message.command] := by simp [KvSystem.ops]
    have hinstall : ∀ r : Replica, r.install ar message = r := by
      intro r
      simp [install, hsnap]
    have hlt : (replay ar messages).snapIndex < message.commandIndex := ih.snapIndex ▸ hidx
    rw [replay_concat, hinstall, hops]
    unfold command
    dsimp only
    by_cases hset : (ar.parseOp message.command).isWrite ∧
        ¬(ar.parseOp message.command).Repeats (KvSystem.ops ar messages)
    · rw [if_pos ⟨hvalid, hlt, (not_congr (ih.duplicate _)).mpr hset.2, hset.1⟩]
      exact ih.write hset.1 hset.2
    · rw [if_neg fun hc => hset ⟨hc.2.2.2, (not_congr (ih.duplicate _)).mp hc.2.2.1⟩]
      exact ih.skip hset

end Replica

namespace KvSystem

variable {ar : Archives}

/-- After the apply loop of an empty server has worked off a series of log entries, a key has the
value of the reference map exactly when everything that its last write should add to is empty. -/
theorem search_eq_reference_iff {maxRaftState : ℤ} {acts : List KvAction}
    (h : Along (step ar) Recorded (init maxRaftState) acts)
    (hidle : (runOf ar maxRaftState acts).loop = .popping)
    (hplain : ∀ message ∈ (runOf ar maxRaftState acts).processed, Plain message) (key : String) :
    let entries := ops ar (runOf ar maxRaftState acts).processed
    (runOf ar maxRaftState acts).server.skipList.searchElement key =
        Reference.contents entries key ↔
      ∀ op ∈ (sincePut ((freshWrites [] entries).filter (·.key = key))).dropLast, op.value = "" := by
  intro entries
  have hm := follows_runOf h
  simp only [Follows, hidle] at hm
  have hvalue := (Replica.digest_replay ar hplain).value key
  have href := Reference.foldl_apply (freshWrites [] entries)
    (fun op => isWrite_of_mem_freshWrites) key
  rw [hm.skipList.search, Reference.contents, href, ← Reference.value_eq_getLast_iff]
  exact Iff.of_eq (congrArg (· = _) hvalue)

instance (message : ApplyMsg) : Decidable (Plain message) :=
  inferInstanceAs (Decidable (_ ∧ _ ∧ _))

/-- What Boost reads back from the requests of one client: a `Put` of `a` or of nothing, and an
`Append` of `b`. -/
def appendArchives : Archives where
  parseOp := fun text =>
    if text = "22 serialization::archive 17 0 0 3 Put 1 k 1 a 1 c 1" then ⟨"Put", "k", "a", "c", 1⟩
    else if text = "22 serialization::archive 17 0 0 3 Put 1 k 0  1 c 1" then ⟨"Put", "k", "", "c", 1⟩
    else ⟨"Append", "k", "b", "c", 2⟩
  saveDump := fun _ => ""
  loadDump := fun _ => ([], [])
  saveServer := fun _ => ""
  loadServer := fun _ => ("", fun _ => none)

def putFirst : ApplyMsg where
  commandValid := true
  command := "22 serialization::archive 17 0 0 3 Put 1 k 1 a 1 c 1"
  commandIndex := 1

def putNothing : ApplyMsg where
  commandValid := true
  command := "22 serialization::archive 17 0 0 3 Put 1 k 0  1 c 1"
  commandIndex := 1

def appendSecond : ApplyMsg where
  commandValid := true
  command := "22 serialization::archive 17 0 0 6 Append 1 k 1 b 1 c 2"
  commandIndex := 2

/-- The client puts nothing under the key, appends to it and retries the `Append`. -/
theorem search_eq_reference_appendSecond :
    let acts := applied putNothing 0 ++ applied appendSecond 3 ++
      applied { appendSecond with commandIndex := 3 } 0
    (runOf appendArchives (-1) acts).server.skipList.searchElement "k" = some "b" ∧
      (runOf appendArchives (-1) acts).server.skipList.searchElement "k" =
        Reference.contents (ops appendArchives (runOf appendArchives (-1) acts).processed) "k" :=
  ⟨by decide +kernel, (search_eq_reference_iff (by decide +kernel) (by decide +kernel)
    (by decide +kernel) "k").mpr (by decide +kernel)⟩

theorem append_overwrites :
    ¬∀ (ar : Archives) (maxRaftState : ℤ) (acts : List KvAction),
      Along (step ar) Recorded (init maxRaftState) acts →
      (runOf ar maxRaftState acts).loop = .popping →
      (∀ message ∈ (runOf ar maxRaftState acts).processed, Plain message) → ∀ key,
      (runOf ar maxRaftState acts).server.skipList.searchElement key =
        Reference.contents (ops ar (runOf ar maxRaftState acts).processed) key := by
  intro h
  have heq := h appendArchives (-1) (applied putFirst 0 ++ applied appendSecond 0)
    (by decide +kernel) (by decide +kernel) (by decide +kernel) "k"
  exact absurd heq (by decide +kernel)

end KvSystem
end RaftStorage
