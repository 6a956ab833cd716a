import RaftStorage.Kv.Executed

/-! Clerk objects in several processes. The constructor makes `m_clientId` of the next four numbers of
`rand()`; no process calls `srand`, so all processes draw the same sequence. While no two objects
that make requests have the same id, the objects are the clerks of `ClerkSystem`. -/

namespace RaftStorage
open Library

/-- `Clerk::Uuid` in a process that has drawn `n` numbers before. C++ leaves open in which order the
operands of `+` are evaluated; here the first number drawn comes first, while g++ draws from the
right. Every process does the same, and nothing below looks into an id. -/
def uuid (rand : ℕ → ℕ) (n : ℕ) : String :=
  toString (rand n) ++ toString (rand (n + 1)) ++ toString (rand (n + 2)) ++ toString (rand (n + 3))

structure ClerkObject extends Clerk where
  clientId : String

structure ClerkProcesses where
  kv : KvSystem
  /-- how many numbers each process has drawn -/
  drawn : ℕ → ℕ
  objects : List ClerkObject
  /-- the requests, with the object that makes each -/
  issued : List (ℕ × Rpc × Op)
  callers : List ℕ
  log : List String
  delivered : ℕ

inductive ProcessAction where
  | create (process : ℕ)
  | get (j : ℕ) (key : String)
  | putAppend (j : ℕ) (key value op : String)
  | call (i : ℕ)
  | commit (i : ℕ) (command : String)
  | deliver
  | answer (j : ℕ)
  /-- the reply of the `i`-th handler reaches the object that called it -/
  | reply (i : ℕ)
  | loop (raftStateSize : ℤ) (flips : ℕ → ℕ)
  | handler (i : ℕ) (a : HandlerAction)

namespace ClerkProcesses

variable {ar : Archives} {rand : ℕ → ℕ} {s s' : ClerkProcesses}

def init (maxRaftState : ℤ) : ClerkProcesses where
  kv := KvSystem.init maxRaftState
  drawn := fun _ => 0
  objects := []
  issued := []
  callers := []
  log := []
  delivered := 0

def issue (s : ClerkProcesses) (j : ℕ) (rpc : Rpc) (op : String → ℤ → Op) : ClerkProcesses :=
  match s.objects[j]? with
  | some o =>
    if o.waiting then s
    else
      let requestId := o.requestId + 1
      { s with
        objects := s.objects.set j ⟨⟨requestId, true⟩, o.clientId⟩
        issued := s.issued ++ [(j, rpc, op o.clientId requestId)] }
  | none => s

def finish (s : ClerkProcesses) (j : ℕ) (o : ClerkObject) : ClerkProcesses :=
  { s with objects := s.objects.set j ⟨⟨o.requestId, false⟩, o.clientId⟩ }

def step (ar : Archives) (rand : ℕ → ℕ) (s : ClerkProcesses) : ProcessAction → ClerkProcesses
  | .create p =>
    { s with
      drawn := Function.update s.drawn p (s.drawn p + 4)
      objects := s.objects ++ [⟨⟨0, false⟩, uuid rand (s.drawn p)⟩] }
  | .get j key => s.issue j .get fun clientId requestId => ⟨"Get", key, "", clientId, requestId⟩
  | .putAppend j key value op =>
    s.issue j .putAppend fun clientId requestId => ⟨op, key, value, clientId, requestId⟩
  | .call i =>
    match s.issued[i]? with
    | some (j, .get, op) =>
      { s with
        kv := s.kv.step ar (.get op.key op.clientId op.requestId)
        callers := s.callers ++ [j] }
    | some (j, .putAppend, op) =>
      { s with
        kv := s.kv.step ar (.putAppend op.operation op.key op.value op.clientId op.requestId)
        callers := s.callers ++ [j] }
    | none => s
  | .commit i command =>
    match s.issued[i]? with
    | some (_, _, op) =>
      if ar.parseOp command = op then { s with log := s.log ++ [command] } else s
    | none => s
  | .deliver =>
    match s.log[s.delivered]? with
    | some command =>
      { s with
        kv := s.kv.step ar (.push (ClerkSystem.entryMessage s.delivered command))
        delivered := s.delivered + 1 }
    | none => s
  | .answer j =>
    match s.objects[j]? with
    | some o =>
      if ∃ op ∈ s.log.map ar.parseOp, op.clientId = o.clientId ∧ o.requestId ≤ op.requestId then
        s.finish j o
      else s
    | none => s
  | .reply i =>
    match s.kv.handlers[i]?, s.callers[i]? with
    | some h, some j =>
      match h.phase, s.objects[j]? with
      | .returned reply, some o =>
        if reply.err ≠ .errWrongLeader ∧ h.op.requestId = o.requestId then s.finish j o else s
      | _, _ => s
    | _, _ => s
  | .loop raftStateSize flips => { s with kv := s.kv.step ar (.loop raftStateSize flips) }
  | .handler i a => { s with kv := s.kv.step ar (.handler i a) }

def runOf (ar : Archives) (rand : ℕ → ℕ) (maxRaftState : ℤ) (acts : List ProcessAction) :
    ClerkProcesses :=
  run (step ar rand) (init maxRaftState) acts

def AcknowledgedExecuted (s : ClerkProcesses) : Prop :=
  ∀ h ∈ s.kv.handlers, h.rpc = .putAppend → h.op.isWrite →
    (∃ value, h.phase = .returned ⟨.ok, value⟩) → h.op ∈ s.kv.executed

def Alone (s : ClerkProcesses) (j : ℕ) : Prop :=
  ∀ o ∈ s.objects[j]?, ∀ o' ∈ s.objects.eraseIdx j, o'.clientId = o.clientId → o'.requestId = 0

/-- An object makes a request only when no other object with its id has made one. -/
def OwnId (s : ClerkProcesses) : ProcessAction → Prop
  | .get j _ => s.Alone j
  | .putAppend j _ _ _ => s.Alone j
  | _ => True

/-! ## Objects as clerks -/

structure Matches (objects : List ClerkObject) (clerks : String → Clerk) : Prop where
  fresh : ∀ o ∈ objects, 0 < o.requestId ∨ o.toClerk = ⟨0, false⟩
  single : ∀ {i j : ℕ} {o o' : ClerkObject}, objects[i]? = some o → objects[j]? = some o' →
    o.clientId = o'.clientId → 0 < o.requestId → 0 < o'.requestId → i = j
  used : ∀ o ∈ objects, 0 < o.requestId → clerks o.clientId = o.toClerk
  unused : ∀ c, (∀ o ∈ objects, o.clientId = c → o.requestId = 0) → clerks c = ⟨0, false⟩

theorem mem_set_cases {α : Type*} {l : List α} {j : ℕ} {x y : α} (h : x ∈ l.set j y) :
    x = y ∨ x ∈ l.eraseIdx j := by
  obtain ⟨i, hi⟩ := List.mem_iff_getElem?.mp h
  rw [List.getElem?_set] at hi
  split_ifs at hi with hij hlt
  · exact Or.inl (Option.some.inj hi).symm
  · exact Or.inr (List.mem_eraseIdx_iff_getElem?.mpr ⟨i, Ne.symm hij, hi⟩)

variable {objects : List ClerkObject} {clerks : String → Clerk} {j : ℕ} {o : ClerkObject}

theorem Matches.alone (h : Matches objects clerks) (hj : objects[j]? = some o)
    (hpos : 0 < o.requestId) :
    ∀ o' ∈ objects.eraseIdx j, o'.clientId = o.clientId → o'.requestId = 0 := by
  intro o' ho' hid
  obtain ⟨i, hne, hi⟩ := List.mem_eraseIdx_iff_getElem?.mp ho'
  rcases h.fresh o' (List.mem_of_getElem? hi) with hpos' | hzero
  · exact (hne (h.single hi hj hid hpos' hpos)).elim
  · rw [hzero]

theorem Matches.clerk (h : Matches objects clerks) (hj : objects[j]? = some o)
    (halone : ∀ o' ∈ objects.eraseIdx j, o'.clientId = o.clientId → o'.requestId = 0) :
    clerks o.clientId = o.toClerk := by
  rcases h.fresh o (List.mem_of_getElem? hj) with hpos | hzero
  · exact h.used o (List.mem_of_getElem? hj) hpos
  · rw [hzero]
    refine h.unused _ fun o' ho' hid => ?_
    obtain ⟨i, hi⟩ := List.mem_iff_getElem?.mp ho'
    by_cases hij : i = j
    · subst hij
      obtain rfl := Option.some.inj (hj.symm.trans hi)
      rw [hzero]
    · exact halone o' (List.mem_eraseIdx_iff_getElem?.mpr ⟨i, hij, hi⟩) hid

theorem Matches.set (h : Matches objects clerks) (hj : objects[j]? = some o)
    (halone : ∀ o' ∈ objects.eraseIdx j, o'.clientId = o.clientId → o'.requestId = 0) {c : Clerk}
    (hpos : 0 < c.requestId) :
    Matches (objects.set j ⟨c, o.clientId⟩) (Function.update clerks o.clientId c) := by
  have hlt : j < objects.length := (List.getElem?_eq_some_iff.mp hj).1
  have hold : ∀ {x}, x ∈ objects.eraseIdx j → x ∈ objects := List.mem_of_mem_eraseIdx
  refine ⟨?_, ?_, ?_, ?_⟩
  · intro x hx
    rcases mem_set_cases hx with rfl | hx
    · exact Or.inl hpos
    · exact h.fresh x (hold hx)
  · intro i i' x x' hi hi' hid hx hx'
    -- an object with this id elsewhere has made no request
    have hother : ∀ {k y}, k ≠ j → objects[k]? = some y → 0 < y.requestId →
        y.clientId ≠ o.clientId := by
      intro k y hk hy hlt heq
      have := halone y (List.mem_eraseIdx_iff_getElem?.mpr ⟨k, hk, hy⟩) heq
      omega
    rw [List.getElem?_set] at hi hi'
    split_ifs at hi hi' with hij hij'
    · exact hij.symm.trans hij'
    · obtain rfl := Option.some.inj hi
      exact (hother (Ne.symm hij') hi' hx' hid.symm).elim
    · obtain rfl := Option.some.inj hi'
      exact (hother (Ne.symm hij) hi hx hid).elim
    · exact h.single hi hi' hid hx hx'
  · intro x hx hxpos
    rcases mem_set_cases hx with rfl | hx
    · exact Function.update_self _ _ _
    · have hne : x.clientId ≠ o.clientId := by
        intro heq
        have := halone x hx heq
        omega
      rw [Function.update_of_ne hne]
      exact h.used x (hold hx) hxpos
  · intro c' hc'
    have hne : c' ≠ o.clientId := by
      rintro rfl
      have := hc' _ (List.mem_set hlt _) rfl
      dsimp only at this
      omega
    rw [Function.update_of_ne hne]
    refine h.unused c' fun o' ho' hid => ?_
    obtain ⟨i, hi⟩ := List.mem_iff_getElem?.mp ho'
    refine hc' o' (List.mem_iff_getElem?.mpr ⟨i, ?_⟩) hid
    rw [List.getElem?_set_ne, hi]
    rintro rfl
    obtain rfl := Option.some.inj (hj.symm.trans hi)
    exact hne hid.symm

theorem Matches.create (h : Matches objects clerks) (id : String) :
    Matches (objects ++ [⟨⟨0, false⟩, id⟩]) clerks := by
  -- the new object has made no request
  have hnew : ∀ {i : ℕ} {x : ClerkObject}, (objects ++ [⟨⟨0, false⟩, id⟩])[i]? = some x →
      0 < x.requestId → objects[i]? = some x := by
    intro i x hi hpos
    rw [List.getElem?_append] at hi
    split_ifs at hi with hlt
    · exact hi
    · rw [List.getElem?_singleton] at hi
      split_ifs at hi
      obtain rfl := Option.some.inj hi
      exact absurd hpos (lt_irrefl 0)
  refine ⟨?_, ?_, ?_, ?_⟩
  · intro x hx
    rcases List.mem_append.mp hx with hx | hx
    · exact h.fresh x hx
    · exact Or.inr (List.mem_singleton.mp hx ▸ rfl)
  · intro i i' x x' hi hi' hid hx hx'
    exact h.single (hnew hi hx) (hnew hi' hx') hid hx hx'
  · intro x hx hpos
    obtain ⟨i, hi⟩ := List.mem_iff_getElem?.mp hx
    exact h.used x (List.mem_of_getElem? (hnew hi hpos)) hpos
  · exact fun c hc => h.unused c fun o ho => hc o (List.mem_append_left _ ho)

def Owns (objects : List ClerkObject) (j : ℕ) (id : String) : Prop :=
  ∃ o, objects[j]? = some o ∧ o.clientId = id ∧ 0 < o.requestId

theorem Owns.set {i : ℕ} {id : String} (h : Owns objects i id) (hj : objects[j]? = some o)
    {c : Clerk} (hpos : 0 < c.requestId) : Owns (objects.set j ⟨c, o.clientId⟩) i id := by
  obtain ⟨x, hi, hid, hx⟩ := h
  by_cases hij : i = j
  · subst hij
    obtain rfl := Option.some.inj (hj.symm.trans hi)
    have hlt : i < objects.length := (List.getElem?_eq_some_iff.mp hi).1
    exact ⟨_, List.getElem?_set_self hlt, hid, hpos⟩
  · refine ⟨x, ?_, hid, hx⟩
    rw [List.getElem?_set_ne (Ne.symm hij), hi]

theorem Owns.append {i : ℕ} {id : String} (h : Owns objects i id) (more : List ClerkObject) :
    Owns (objects ++ more) i id := by
  obtain ⟨x, hi, hid, hx⟩ := h
  have hlt : i < objects.length := (List.getElem?_eq_some_iff.mp hi).1
  exact ⟨x, by rw [List.getElem?_append_left hlt, hi], hid, hx⟩

structure Simulates (s : ClerkProcesses) (t : ClerkSystem) : Prop where
  kv : t.kv = s.kv
  issued : t.issued = s.issued.map Prod.snd
  log : t.log = s.log
  delivered : t.delivered = s.delivered
  clerks : Matches s.objects t.clerks
  owners : ∀ x ∈ s.issued, Owns s.objects x.1 x.2.2.clientId
  length : s.callers.length = s.kv.requests.length
  callers : ∀ {i j : ℕ} {x : Rpc × Op}, s.kv.requests[i]? = some x → s.callers[i]? = some j →
    Owns s.objects j x.2.clientId

variable {t : ClerkSystem}

theorem simulates_init (maxRaftState : ℤ) :
    (init maxRaftState).Simulates (ClerkSystem.init maxRaftState) where
  kv := rfl
  issued := rfl
  log := rfl
  delivered := rfl
  clerks := ⟨by simp [init], by simp [init], by simp [init], fun _ _ => rfl⟩
  owners := by simp [init]
  length := rfl
  callers := by simp [init]

theorem Simulates.create (h : s.Simulates t) (p : ℕ) : (s.step ar rand (.create p)).Simulates t where
  kv := h.kv
  issued := h.issued
  log := h.log
  delivered := h.delivered
  clerks := h.clerks.create _
  owners := fun x hx => (h.owners x hx).append _
  length := h.length
  callers := fun hi hj => (h.callers hi hj).append _

theorem Simulates.issue (h : s.Simulates t) (hj : s.objects[j]? = some o) (halone : s.Alone j)
    (rpc : Rpc) {op : String → ℤ → Op} (hid : ∀ c r, (op c r).clientId = c) :
    (s.issue j rpc op).Simulates (t.issue o.clientId rpc (op o.clientId)) := by
  have hothers := halone o hj
  have hclerk := h.clerks.clerk hj hothers
  unfold ClerkProcesses.issue ClerkSystem.issue
  rw [hj, hclerk]
  dsimp only
  split_ifs with hwait
  · exact h
  have hpos : 0 < o.requestId + 1 := by
    rcases h.clerks.fresh o (List.mem_of_getElem? hj) with hpos | hzero
    · omega
    · rw [hzero]
      decide
  have hlt : j < s.objects.length := (List.getElem?_eq_some_iff.mp hj).1
  refine
    { kv := h.kv
      issued := by simp [h.issued]
      log := h.log
      delivered := h.delivered
      clerks := h.clerks.set hj hothers hpos
      owners := fun x hx => ?_
      length := h.length
      callers := fun hi hc => (h.callers hi hc).set hj hpos }
  rcases List.mem_append.mp hx with hx | hx
  · exact (h.owners x hx).set hj hpos
  · obtain rfl := List.mem_singleton.mp hx
    exact ⟨_, List.getElem?_set_self hlt, (hid _ _).symm, hpos⟩

theorem Simulates.finish (h : s.Simulates t) (hj : s.objects[j]? = some o)
    (hpos : 0 < o.requestId) : (s.finish j o).Simulates (t.finish o.clientId) := by
  have hothers := h.clerks.alone hj hpos
  have hclerk := h.clerks.clerk hj hothers
  unfold ClerkProcesses.finish ClerkSystem.finish
  rw [hclerk]
  exact
    { kv := h.kv
      issued := h.issued
      log := h.log
      delivered := h.delivered
      clerks := h.clerks.set hj hothers hpos
      owners := fun x hx => (h.owners x hx).set hj hpos
      length := h.length
      callers := fun hi hc => (h.callers hi hc).set hj hpos }

theorem Simulates.server (h : s.Simulates t) (ar : Archives) {a : KvAction} (ha : KvSystem.called a = []) :
    Simulates { s with kv := s.kv.step ar a } { t with kv := t.kv.step ar a } := by
  have hreq : (s.kv.step ar a).requests = s.kv.requests := by
    rw [KvSystem.requests_step, ha, List.append_nil]
  refine ⟨by rw [h.kv], h.issued, h.log, h.delivered, h.clerks, h.owners, ?_, ?_⟩
  · rw [hreq]
    exact h.length
  · rw [hreq]
    exact h.callers

theorem Simulates.call (h : s.Simulates t) {x : ℕ × Rpc × Op} (hx : x ∈ s.issued) {a : KvAction}
    {y : Rpc × Op} (ha : KvSystem.called a = [y]) (hid : y.2.clientId = x.2.2.clientId) :
    Simulates { s with kv := s.kv.step ar a, callers := s.callers ++ [x.1] }
      { t with kv := t.kv.step ar a } := by
  have hreq : (s.kv.step ar a).requests = s.kv.requests ++ [y] := by
    rw [KvSystem.requests_step, ha]
  refine ⟨by rw [h.kv], h.issued, h.log, h.delivered, h.clerks, h.owners, ?_, ?_⟩
  · rw [hreq]
    simpa using h.length
  · intro i j z hi hj
    rw [hreq, List.getElem?_append] at hi
    rw [List.getElem?_append, h.length] at hj
    split_ifs at hi hj with hlt
    · exact h.callers hi hj
    · rw [List.getElem?_singleton] at hi hj
      split_ifs at hi hj
      obtain rfl := Option.some.inj hi
      obtain rfl := Option.some.inj hj
      rw [hid]
      exact h.owners x hx

theorem finish_fresh (hj : s.objects[j]? = some o) (hzero : o.toClerk = ⟨0, false⟩) :
    s.finish j o = s := by
  obtain ⟨hlt, rfl⟩ := List.getElem?_eq_some_iff.mp hj
  obtain ⟨hreq, hwait⟩ := Clerk.mk.inj hzero
  have hsame : (⟨⟨s.objects[j].requestId, false⟩, s.objects[j].clientId⟩ : ClerkObject) =
      s.objects[j] := by
    rw [← hwait]
  unfold ClerkProcesses.finish
  rw [hsame, List.set_getElem_self]

theorem Simulates.answer (h : s.Simulates t) (j : ℕ) :
    ∃ bs, (s.step ar rand (.answer j)).Simulates (run (ClerkSystem.step ar) t bs) := by
  simp only [ClerkProcesses.step]
  split
  · rename_i o hj
    split_ifs with hop
    · rcases h.clerks.fresh o (List.mem_of_getElem? hj) with hpos | hzero
      · have hclerk := h.clerks.used o (List.mem_of_getElem? hj) hpos
        refine ⟨[.answer o.clientId], ?_⟩
        change Simulates _ (t.step ar (.answer o.clientId))
        have hentries : t.entries ar = s.log.map ar.parseOp := by rw [ClerkSystem.entries, h.log]
        simp only [ClerkSystem.step, hentries, hclerk, if_pos hop]
        exact h.finish hj hpos
      · rw [finish_fresh hj hzero]
        exact ⟨[], h⟩
    · exact ⟨[], h⟩
  · exact ⟨[], h⟩

theorem Simulates.reply (h : s.Simulates t) (i : ℕ) :
    ∃ bs, (s.step ar rand (.reply i)).Simulates (run (ClerkSystem.step ar) t bs) := by
  simp only [ClerkProcesses.step]
  split
  · rename_i hd j hi hj
    split
    · rename_i reply o hphase ho
      split_ifs with hok
      · -- the caller is the clerk that the reply names
        have hreq : s.kv.requests[i]? = some (hd.rpc, hd.op) := by simp [KvSystem.requests, hi]
        obtain ⟨o', ho', hid, hpos⟩ := h.callers hreq hj
        obtain rfl := Option.some.inj (ho.symm.trans ho')
        have hclerk := h.clerks.used o (List.mem_of_getElem? ho) hpos
        refine ⟨[.reply i], ?_⟩
        change Simulates _ (t.step ar (.reply i))
        dsimp only at hid
        simp only [ClerkSystem.step, h.kv, hi, hphase, ← hid, hclerk, if_pos hok]
        exact h.finish ho hpos
      · exact ⟨[], h⟩
    · exact ⟨[], h⟩
  · exact ⟨[], h⟩

theorem Simulates.step (h : s.Simulates t) (ar : Archives) (rand : ℕ → ℕ) {a : ProcessAction}
    (ha : OwnId s a) : ∃ bs, (s.step ar rand a).Simulates (run (ClerkSystem.step ar) t bs) := by
  cases a with
  | create p => exact ⟨[], h.create p⟩
  | get j key =>
    cases hj : s.objects[j]? with
    | none =>
      simp only [ClerkProcesses.step, ClerkProcesses.issue, hj]
      exact ⟨[], h⟩
    | some o => exact ⟨[.get o.clientId key], h.issue hj ha .get fun _ _ => rfl⟩
  | putAppend j key value op =>
    cases hj : s.objects[j]? with
    | none =>
      simp only [ClerkProcesses.step, ClerkProcesses.issue, hj]
      exact ⟨[], h⟩
    | some o =>
      exact ⟨[.putAppend o.clientId key value op], h.issue hj ha .putAppend fun _ _ => rfl⟩
  | call i =>
    have hget : t.issued[i]? = (s.issued[i]?).map Prod.snd := by rw [h.issued, List.getElem?_map]
    simp only [ClerkProcesses.step]
    split
    · rename_i j op hi
      rw [hi] at hget
      refine ⟨[.call i], ?_⟩
      change Simulates _ (t.step ar (.call i))
      simp only [ClerkSystem.step, hget, Option.map_some]
      exact h.call (List.mem_of_getElem? hi) rfl rfl
    · rename_i j op hi
      rw [hi] at hget
      refine ⟨[.call i], ?_⟩
      change Simulates _ (t.step ar (.call i))
      simp only [ClerkSystem.step, hget, Option.map_some]
      exact h.call (List.mem_of_getElem? hi) rfl rfl
    · exact ⟨[], h⟩
  | commit i command =>
    have hget : t.issued[i]? = (s.issued[i]?).map Prod.snd := by rw [h.issued, List.getElem?_map]
    simp only [ClerkProcesses.step]
    split
    · rename_i j rpc op hi
      rw [hi] at hget
      split_ifs with hcmd
      · refine ⟨[.commit i command], ?_⟩
        change Simulates _ (t.step ar (.commit i command))
        simp only [ClerkSystem.step, hget, Option.map_some, if_pos hcmd]
        exact { h with log := by rw [h.log] }
      · exact ⟨[], h⟩
    · exact ⟨[], h⟩
  | deliver =>
    simp only [ClerkProcesses.step]
    split
    · rename_i command hcmd
      refine ⟨[.deliver], ?_⟩
      change Simulates _ (t.step ar .deliver)
      simp only [ClerkSystem.step, h.log, h.delivered, hcmd]
      have hpush := h.server ar (a := .push (ClerkSystem.entryMessage s.delivered command)) rfl
      exact { hpush with log := rfl, delivered := rfl }
    · exact ⟨[], h⟩
  | answer j => exact h.answer j
  | reply i => exact h.reply i
  | loop raftStateSize flips => exact ⟨[.loop raftStateSize flips], h.server ar rfl⟩
  | handler i a => exact ⟨[.handler i a], h.server ar rfl⟩

theorem simulates_runOf {maxRaftState : ℤ} {acts : List ProcessAction}
    (h : Along (step ar rand) OwnId (init maxRaftState) acts) :
    ∃ bs, (runOf ar rand maxRaftState acts).Simulates (ClerkSystem.runOf ar maxRaftState bs) := by
  refine run_invariant_along
    (P := fun s => ∃ bs, s.Simulates (ClerkSystem.runOf ar maxRaftState bs)) ?_ ?_ h
  · exact ⟨[], simulates_init maxRaftState⟩
  · rintro s a ⟨bs, hs⟩ ha
    obtain ⟨more, hstep⟩ := hs.step ar rand ha
    exact ⟨bs ++ more, by rwa [ClerkSystem.runOf_append]⟩

theorem acknowledged_executed_of_ownId {maxRaftState : ℤ} {acts : List ProcessAction}
    (h : Along (step ar rand) OwnId (init maxRaftState) acts) :
    (runOf ar rand maxRaftState acts).AcknowledgedExecuted := by
  obtain ⟨bs, hs⟩ := simulates_runOf h
  have hserving := ClerkSystem.serving_runOf ar maxRaftState bs
  rintro hd hmem hput hw ⟨value, hphase⟩
  rw [← hs.kv] at hmem ⊢
  exact hserving.executed hmem hput hw hphase Err.noConfusion

/-- The first numbers of a `rand()` that was not seeded. -/
def unseeded (n : ℕ) : ℕ :=
  [1804289383, 846930886, 1681692777, 1714636915, 1957747793, 424238335, 719885386, 1649760492].getD
    n 0

/-- The text archive of the first request of a clerk, which puts `value`. -/
def putText (value clientId : String) : String :=
  "22 serialization::archive 17 0 0 3 Put 1 k 1 " ++ value ++ " " ++ toString clientId.length ++
    " " ++ clientId ++ " 1"

def putArchives (second : String) : Archives where
  parseOp := fun text =>
    if text = putText "a" (uuid unseeded 0) then ⟨"Put", "k", "a", uuid unseeded 0, 1⟩
    else ⟨"Put", "k", "b", second, 1⟩
  saveDump := fun _ => ""
  loadDump := fun _ => ([], [])
  saveServer := fun _ => ""
  loadServer := fun _ => ("", fun _ => none)

def serve (i : ℕ) (command : String) : List ProcessAction :=
  [.call i, .handler i (.start (some (i + 1))), .handler i .openWaitChan, .commit i command,
    .deliver] ++ List.replicate 5 (.loop 0 fun _ => 0) ++
  [.handler i .pop, .handler i .closeWaitChan, .reply i]

/-- Two objects, one in each of the processes, put one value each. -/
def twoClerks (p q : ℕ) (second : String) : List ProcessAction :=
  [.create p, .create q, .putAppend 0 "k" "a" "Put", .putAppend 1 "k" "b" "Put"] ++
  serve 0 (putText "a" (uuid unseeded 0)) ++ serve 1 (putText "b" second)

instance Alone.decidable (s : ClerkProcesses) (j : ℕ) : Decidable (s.Alone j) :=
  inferInstanceAs (Decidable (∀ o ∈ s.objects[j]?, ∀ o' ∈ s.objects.eraseIdx j,
    o'.clientId = o.clientId → o'.requestId = 0))

instance OwnId.decidable (s : ClerkProcesses) : ∀ a, Decidable (OwnId s a)
  | .get j _ => Alone.decidable s j
  | .putAppend j _ _ _ => Alone.decidable s j
  | .create _ | .call _ | .commit _ _ | .deliver | .answer _ | .reply _ | .loop _ _
  | .handler _ _ => inferInstanceAs (Decidable True)

theorem acknowledged_executed_oneProcess :
    let s := runOf (putArchives (uuid unseeded 4)) unseeded (-1) (twoClerks 0 0 (uuid unseeded 4))
    s.AcknowledgedExecuted ∧ s.kv.executed.map Op.value = ["a", "b"] :=
  ⟨acknowledged_executed_of_ownId (by decide +kernel), by decide +kernel⟩

theorem second_process_put_skipped :
    ¬∀ (ar : Archives) (rand : ℕ → ℕ) (maxRaftState : ℤ) (acts : List ProcessAction),
      (runOf ar rand maxRaftState acts).AcknowledgedExecuted := by
  intro h
  set s := runOf (putArchives (uuid unseeded 0)) unseeded (-1) (twoClerks 0 1 (uuid unseeded 0))
  have hrun : s.AcknowledgedExecuted := h _ _ _ _
  have hacked : s.kv.handlers[1]? =
      some ⟨.putAppend, ⟨"Put", "k", "b", uuid unseeded 0, 1⟩, .returned ⟨.ok, ""⟩⟩ := by
    decide +kernel
  have hskipped : s.kv.executed.map Op.value = ["a"] := by
    decide +kernel
  have hmem := hrun _ (List.mem_of_getElem? hacked) rfl (Or.inl rfl) ⟨"", rfl⟩
  have hvalue := List.mem_map_of_mem (f := Op.value) hmem
  rw [hskipped] at hvalue
  simp at hvalue

end ClerkProcesses
end RaftStorage
