import RaftStorage.Raft.PersisterFiles
import RaftStorage.Raft.SnapshotSpecs
import RaftStorage.Kv.Threads

/-! The size that decides about compaction. `KvServer` asks its node for the size of the persisted raft
state after each command, and the node passes on the number that its persister keeps beside the file.
`SaveRaftState` adds up what it writes; `Save` only clears. -/

namespace RaftStorage
open Library Persister

/-- Boost's text archive, which begins with a header. -/
structure TextArchive (n : ℕ) extends NodeArchive n where
  header : ∀ d, save d ≠ ""

/-- A number kept in an `int`. -/
def asInt (i : ℤ) : ℤ := if i % 2 ^ 32 < 2 ^ 31 then i % 2 ^ 32 else i % 2 ^ 32 - 2 ^ 32

def Raft.getRaftStateSize (persister : Streams) : ℤ := asInt persister.raftStateSize

/-- The raft state string that the persister was handed last. -/
def Persister.handed {n : ℕ} (ar : TextArchive n) (p : Persister n) : String :=
  (p.raftState.map ar.save).getD ""

namespace Raft

variable {n : ℕ}

/-- The calls that `Snapshot` makes of the persister when it leaves the node as `rf'`. -/
def snapshotUses (rf rf' : Raft n) (index : ℤ) (snapshot : String) : List (Use n) :=
  if rf.lastSnapshotIncludeIndex ≥ index ∨ index > rf.commitIndex then []
  else [.save rf'.persistData snapshot]

def catchUpUses (rf : Raft n) (term : ℤ) : List (Use n) :=
  if term > rf.currentTerm then [.saveRaftState (rf.stepDown term).persistData] else []

def installSnapshotUses (rf rf' : Raft n) (args : InstallSnapshotRequest n) : List (Use n) :=
  if args.term < rf.currentTerm then []
  else if args.lastSnapshotIncludeIndex ≤ rf.lastSnapshotIncludeIndex then rf.catchUpUses args.term
  else rf.catchUpUses args.term ++ [.save rf'.persistData args.data]

end Raft

structure SizedNode (n : ℕ) where
  rf : Raft n
  files : Streams
  kv : KvSystem

inductive SizedAction (n : ℕ) where
  /-- another handler of the node, or a part of it, that leaves the persister alone -/
  | handler (rf : Raft n)
  | persist
  | installSnapshot (args : InstallSnapshotRequest n)
  | leaderSendSnapShot
  | snapshot (index : ℤ) (snapshot : String)
  /-- the apply loop asks the node for the size itself -/
  | server (a : KvAction)

namespace SizedNode

variable {n : ℕ} (ar : TextArchive n) (passed : ℕ → ℕ) (archives : Archives)

def init (me : Fin n) (disk : Disk) (maxRaftState : Int32) : SizedNode n where
  rf := Raft.init me
  files := Streams.create disk
  kv := KvSystem.init maxRaftState.toInt

def goOn (s : SizedNode n) (rf : Raft n) (uses : List (Use n)) : SizedNode n :=
  { s with rf := rf, files := uses.foldl (Use.onStreams ar.toNodeArchive passed) s.files }

def sized (s : SizedNode n) : KvAction → KvAction
  | .loop _ flips => .loop (Raft.getRaftStateSize s.files) flips
  | a => a

/-- A failed assertion ends the process: a run that goes on is one without that call. -/
def step (s : SizedNode n) : SizedAction n → SizedNode n
  | .handler rf => { s with rf := { rf with persister := s.rf.persister } }
  | .persist => s.goOn ar passed s.rf.persist [.saveRaftState s.rf.persistData]
  | .installSnapshot args =>
    match s.rf.installSnapshot args with
    | .ok (rf, _) => s.goOn ar passed rf (s.rf.installSnapshotUses rf args)
    | .error _ => s
  | .leaderSendSnapShot => s.goOn ar passed s.rf.leaderSendSnapShot.1 [.readSnapshot]
  | .snapshot index snapshot =>
    match s.rf.snapshot index snapshot with
    | .ok rf => s.goOn ar passed rf (s.rf.snapshotUses rf index snapshot)
    | .error _ => s
  | .server a => { s with kv := s.kv.step archives (s.sized a) }

def runOf (me : Fin n) (disk : Disk) (maxRaftState : Int32) (acts : List (SizedAction n)) :
    SizedNode n :=
  run (step ar passed archives) (init me disk maxRaftState) acts

def SizeTrue (s : SizedNode n) : Prop := s.files.raftStateSize = (s.rf.persister.handed ar).length

/-- The step leaves the right size on record, and if it is the check after a command, then the check
takes a snapshot exactly when the raft state is longer than a tenth of the limit. -/
structure SeesSize (s : SizedNode n) (a : SizedAction n) : Prop where
  size : (s.step ar passed archives a).SizeTrue ar
  check : ∀ size flips message op, a = .server (.loop size flips) →
    s.kv.loop = .snapshotting message op → s.kv.server.maxRaftState ≠ -1 →
    (s.step ar passed archives a).kv.snapshots = s.kv.snapshots ++
      if 10 * ((s.rf.persister.handed ar).length : ℤ) > s.kv.server.maxRaftState then
        [(message.commandIndex, s.kv.server.makeSnapShot archives)]
      else []

/-- The step leaves no `Save` behind: the snapshot is refused, or an assertion ends the process. -/
def NoSave (s : SizedNode n) : SizedAction n → Prop
  | .installSnapshot args =>
    args.term < s.rf.currentTerm ∨ args.lastSnapshotIncludeIndex ≤ s.rf.lastSnapshotIncludeIndex
  | .snapshot index snapshot =>
    s.rf.lastSnapshotIncludeIndex ≥ index ∨ index > s.rf.commitIndex ∨
      ∃ e, s.rf.snapshot index snapshot = .error e
  | _ => True

/-- If the step is the check, the length fits into an `int`, or what is left of it is over the
limit too. -/
def LengthFits (s : SizedNode n) : SizedAction n → Prop
  | .server (.loop _ _) => ∀ message op, s.kv.loop = .snapshotting message op →
    s.kv.server.maxRaftState ≠ -1 → (s.rf.persister.handed ar).length < 2 ^ 31 ∨
      10 * asInt (s.rf.persister.handed ar).length > s.kv.server.maxRaftState
  | _ => True

end SizedNode

/-! ## The calls of the persister -/

namespace Raft

variable {n : ℕ} {rf rf' : Raft n}

theorem snapshot_uses {index : ℤ} {str : String} (h : rf.snapshot index str = .ok rf') :
    rf'.persister = (rf.snapshotUses rf' index str).foldl Use.onRecords rf.persister := by
  rcases snapshot_cases h with ⟨hguard, hsame⟩ | ⟨hguard, term, logs, hcut⟩
  · rw [snapshotUses, if_pos hguard, hsame]
    rfl
  · rw [snapshotUses, if_neg hguard, hcut]
    rfl

theorem receive_uses (rf : Raft n) (term : ℤ) :
    (rf.receive term).persister = (rf.catchUpUses term).foldl Use.onRecords rf.persister := by
  rw [receive, catchUpUses]
  split_ifs <;> rfl

theorem installSnapshot_uses {args : InstallSnapshotRequest n}
    {out : InstallSnapshotResponse × Option ApplyMsg}
    (h : rf.installSnapshot args = .ok (rf', out)) :
    rf'.persister = (rf.installSnapshotUses rf' args).foldl Use.onRecords rf.persister := by
  obtain ⟨reply, msg⟩ := out
  cases installSnapshot_step h with
  | stale term =>
    rw [installSnapshotUses, if_pos term]
    rfl
  | old term index =>
    rw [installSnapshotUses, if_neg term, if_pos index]
    exact receive_uses rf args.term
  | installed term index kept =>
    rw [installSnapshotUses, if_neg term, if_neg index, List.foldl_append]
    rfl

end Raft

/-! ## The size on record -/

namespace SizedNode

variable {n : ℕ} {ar : TextArchive n} {passed : ℕ → ℕ} {archives : Archives} {s : SizedNode n}

def isSave : Use n → Bool
  | .save _ _ => true
  | _ => false

theorem size_uses {uses : List (Use n)} (huses : ∀ use ∈ uses, isSave use = false) {p : Persister n}
    {q : Streams} (h : q.raftStateSize = (p.handed ar).length) :
    (uses.foldl (Use.onStreams ar.toNodeArchive passed) q).raftStateSize =
      ((uses.foldl Use.onRecords p).handed ar).length := by
  induction uses generalizing p q with
  | nil => exact h
  | cons use uses ih =>
    have htail : ∀ use ∈ uses, isSave use = false :=
      fun use' huse' => huses use' (List.mem_cons_of_mem _ huse')
    cases use with
    | save raftstate snapshot =>
      have hsave : true = false := huses (.save raftstate snapshot) List.mem_cons_self
      cases hsave
    | saveRaftState data => exact ih htail (Int.zero_add _)
    | readSnapshot => exact ih htail h

theorem sizeTrue_goOn {rf : Raft n} {uses : List (Use n)} (h : s.SizeTrue ar)
    (hrf : rf.persister = uses.foldl Use.onRecords s.rf.persister)
    (huses : ∀ use ∈ uses, isSave use = false) : (s.goOn ar passed rf uses).SizeTrue ar := by
  rw [SizeTrue, goOn, hrf]
  exact size_uses huses h

theorem not_sizeTrue_save {rf : Raft n} (uses : List (Use n)) {raftstate : BoostPersistRaftNode n}
    {snapshot : String} (hrf : rf.persister =
      (uses ++ [Use.save raftstate snapshot]).foldl Use.onRecords s.rf.persister) :
    ¬(s.goOn ar passed rf (uses ++ [.save raftstate snapshot])).SizeTrue ar := by
  intro h
  rw [SizeTrue, goOn, hrf, List.foldl_append, List.foldl_append] at h
  have hzero : (0 : ℤ) = (ar.save raftstate).length := h
  apply ar.header raftstate
  rw [← String.toList_eq_nil_iff, ← List.length_eq_zero_iff, String.length_toList]
  omega

theorem isSave_catchUpUses (rf : Raft n) (term : ℤ) :
    ∀ use ∈ rf.catchUpUses term, isSave use = false := by
  intro use huse
  rw [Raft.catchUpUses] at huse
  split_ifs at huse
  · rw [List.mem_singleton.mp huse]
    rfl
  · cases huse

theorem sizeTrue_installSnapshot_iff (h : s.SizeTrue ar) (args : InstallSnapshotRequest n) :
    (s.step ar passed archives (.installSnapshot args)).SizeTrue ar ↔
      s.NoSave (.installSnapshot args) := by
  cases heval : s.rf.installSnapshot args with
  | error e => exact absurd heval (Raft.installSnapshot_ne_error s.rf args e)
  | ok out =>
    obtain ⟨rf, reply⟩ := out
    have hstep : s.step ar passed archives (.installSnapshot args) =
        s.goOn ar passed rf (s.rf.installSnapshotUses rf args) := by rw [step, heval]
    have hrf := Raft.installSnapshot_uses heval
    rw [hstep, NoSave]
    by_cases hterm : args.term < s.rf.currentTerm
    · rw [Raft.installSnapshotUses, if_pos hterm] at hrf ⊢
      exact iff_of_true (sizeTrue_goOn h hrf (by simp)) (Or.inl hterm)
    · rw [Raft.installSnapshotUses, if_neg hterm] at hrf ⊢
      by_cases hindex : args.lastSnapshotIncludeIndex ≤ s.rf.lastSnapshotIncludeIndex
      · rw [if_pos hindex] at hrf ⊢
        exact iff_of_true (sizeTrue_goOn h hrf (isSave_catchUpUses _ _)) (Or.inr hindex)
      · rw [if_neg hindex] at hrf ⊢
        exact iff_of_false (not_sizeTrue_save _ hrf) (not_or.mpr ⟨hterm, hindex⟩)

theorem sizeTrue_snapshot_iff (h : s.SizeTrue ar) (index : ℤ) (str : String) :
    (s.step ar passed archives (.snapshot index str)).SizeTrue ar ↔ s.NoSave (.snapshot index str) := by
  cases heval : s.rf.snapshot index str with
  | error e =>
    have hstep : s.step ar passed archives (.snapshot index str) = s := by rw [step, heval]
    rw [hstep]
    exact iff_of_true h (Or.inr (Or.inr ⟨e, heval⟩))
  | ok rf =>
    have hstep : s.step ar passed archives (.snapshot index str) =
        s.goOn ar passed rf (s.rf.snapshotUses rf index str) := by rw [step, heval]
    have hrf := Raft.snapshot_uses heval
    rw [hstep, NoSave, heval]
    have hrefused : ¬∃ e, Except.ok rf = (Except.error e : Except AssertFail _) := by simp
    rw [or_iff_left hrefused]
    by_cases hreject : s.rf.lastSnapshotIncludeIndex ≥ index ∨ index > s.rf.commitIndex
    · rw [Raft.snapshotUses, if_pos hreject] at hrf ⊢
      exact iff_of_true (sizeTrue_goOn h hrf (by simp)) hreject
    · rw [Raft.snapshotUses, if_neg hreject] at hrf ⊢
      exact iff_of_false (not_sizeTrue_save [] hrf) hreject

theorem sizeTrue_step_iff (h : s.SizeTrue ar) (a : SizedAction n) :
    (s.step ar passed archives a).SizeTrue ar ↔ s.NoSave a := by
  cases a with
  | handler rf => exact iff_of_true h trivial
  | persist => exact iff_of_true (sizeTrue_goOn h rfl (by simp [isSave])) trivial
  | installSnapshot args => exact sizeTrue_installSnapshot_iff h args
  | leaderSendSnapShot => exact iff_of_true (sizeTrue_goOn h rfl (by simp [isSave])) trivial
  | snapshot index str => exact sizeTrue_snapshot_iff h index str
  | server a => exact iff_of_true h trivial

/-! ## The check -/

theorem check_iff {length limit : ℤ} (h₀ : 0 ≤ length) (hlimit : limit < 2 ^ 31) :
    (10 * asInt length > limit ↔ 10 * length > limit) ↔
      length < 2 ^ 31 ∨ 10 * asInt length > limit := by
  by_cases hfits : length < 2 ^ 31
  · have hasInt : asInt length = length := by
      rw [asInt]
      split_ifs <;> omega
    rw [hasInt]
    exact iff_of_true Iff.rfl (Or.inl hfits)
  · have hover : 10 * length > limit := by omega
    rw [iff_true_right hover, or_iff_right hfits]

theorem ite_singleton_eq_iff {α : Type*} {P Q : Prop} [Decidable P] [Decidable Q] (a : α) :
    ((if P then [a] else []) = if Q then [a] else []) ↔ (P ↔ Q) := by
  by_cases hP : P <;> by_cases hQ : Q <;> simp [hP, hQ]

theorem snapshots_check {size : ℤ} {flips : ℕ → ℕ} {message : ApplyMsg} {op : Op}
    (h : s.SizeTrue ar) (hloop : s.kv.loop = .snapshotting message op)
    (hmax : s.kv.server.maxRaftState ≠ -1) :
    (s.step ar passed archives (.server (.loop size flips))).kv.snapshots = s.kv.snapshots ++
      if 10 * asInt (s.rf.persister.handed ar).length > s.kv.server.maxRaftState then
        [(message.commandIndex, s.kv.server.makeSnapShot archives)]
      else [] := by
  have hsize : Raft.getRaftStateSize s.files = asInt (s.rf.persister.handed ar).length :=
    congrArg asInt h
  have hstep : (s.step ar passed archives (.server (.loop size flips))).kv.snapshots =
      s.kv.snapshots ++ (s.kv.server.ifNeedToSendSnapShotCommand archives message.commandIndex
        (Raft.getRaftStateSize s.files)).toList := by
    simp only [step, sized, KvSystem.step, KvSystem.loopStep, hloop, if_pos hmax]
  rw [hstep, hsize, KvServer.ifNeedToSendSnapShotCommand]
  split_ifs <;> rfl

theorem check_right_iff {size : ℤ} {flips : ℕ → ℕ} {message : ApplyMsg} {op : Op}
    (h : s.SizeTrue ar) (hlimit : s.kv.server.maxRaftState < 2 ^ 31)
    (hloop : s.kv.loop = .snapshotting message op) (hmax : s.kv.server.maxRaftState ≠ -1) :
    ((s.step ar passed archives (.server (.loop size flips))).kv.snapshots = s.kv.snapshots ++
        if 10 * ((s.rf.persister.handed ar).length : ℤ) > s.kv.server.maxRaftState then
          [(message.commandIndex, s.kv.server.makeSnapShot archives)]
        else []) ↔
      (s.rf.persister.handed ar).length < 2 ^ 31 ∨
        10 * asInt (s.rf.persister.handed ar).length > s.kv.server.maxRaftState := by
  have hlength : (0 : ℤ) ≤ (s.rf.persister.handed ar).length := Int.natCast_nonneg _
  have hcast : ((s.rf.persister.handed ar).length : ℤ) < 2 ^ 31 ↔
      (s.rf.persister.handed ar).length < 2 ^ 31 := by omega
  rw [snapshots_check h hloop hmax, List.append_cancel_left_eq, ite_singleton_eq_iff,
    check_iff hlength hlimit, hcast]

theorem seesSize_iff (h : s.SizeTrue ar) (hlimit : s.kv.server.maxRaftState < 2 ^ 31)
    (a : SizedAction n) :
    s.SeesSize ar passed archives a ↔ s.NoSave a ∧ s.LengthFits ar a := by
  constructor
  · intro hsees
    refine ⟨(sizeTrue_step_iff h a).mp hsees.size, ?_⟩
    cases a with
    | server a =>
      cases a with
      | loop size flips =>
        intro message op hloop hmax
        exact (check_right_iff h hlimit hloop hmax).mp
          (hsees.check size flips message op rfl hloop hmax)
      | _ => exact trivial
    | _ => exact trivial
  · rintro ⟨hsave, hfits⟩
    refine ⟨(sizeTrue_step_iff h a).mpr hsave, ?_⟩
    rintro size flips message op rfl hloop hmax
    exact (check_right_iff h hlimit hloop hmax).mpr (hfits message op hloop hmax)

/-! ## Runs -/

theorem maxRaftState_popWaitChan {kv kv' : KvServer} {q : ℕ} {op : Op}
    (h : kv.popWaitChan q = some (kv', op)) : kv'.maxRaftState = kv.maxRaftState := by
  unfold KvServer.popWaitChan at h
  split at h
  · obtain ⟨rfl, -⟩ := Prod.mk.inj (Option.some.inj h)
    rfl
  · cases h

theorem maxRaftState_handler {kv kv' : KvServer} {h : Handler} {a : HandlerAction}
    {next : HandlerPhase} (hs : HandlerStep kv h a kv' next) : kv'.maxRaftState = kv.maxRaftState := by
  cases hs with
  | opened =>
    unfold KvServer.openWaitChan
    split <;> rfl
  | matched _ popped => exact maxRaftState_popWaitChan popped
  | mismatched _ popped => exact maxRaftState_popWaitChan popped
  | _ => rfl

theorem maxRaftState_loop (kv : KvSystem) (size : ℤ) (flips : ℕ → ℕ) :
    (kv.loopStep archives size flips).server.maxRaftState = kv.server.maxRaftState := by
  unfold KvSystem.loopStep
  split
  · split <;> rfl
  · split_ifs <;> rfl
  · split_ifs <;> rfl
  · rfl
  · dsimp only
    unfold KvServer.sendMessageToWaitChan
    split <;> rfl
  · dsimp only
    unfold KvServer.getSnapShotFromRaft KvServer.readSnapShotToInstall
    split_ifs <;> rfl

theorem maxRaftState_step (kv : KvSystem) (a : KvAction) :
    (kv.step archives a).server.maxRaftState = kv.server.maxRaftState := by
  cases a with
  | push message => rfl
  | loop size flips => exact maxRaftState_loop kv size flips
  | get key clientId requestId => rfl
  | putAppend op key value clientId requestId => rfl
  | handler i a =>
    rw [KvSystem.step]
    split
    · split
      · rename_i h _ _ kv' h' hstep
        obtain ⟨next, -, hs⟩ := Handler.step_spec hstep
        exact maxRaftState_handler hs
      · rfl
    · rfl

def Limited (s : SizedNode n) : Prop := s.kv.server.maxRaftState < 2 ^ 31

theorem step_cases (s : SizedNode n) (a : SizedAction n) :
    (∃ rf uses, rf.persister = uses.foldl Use.onRecords s.rf.persister ∧
      s.step ar passed archives a = s.goOn ar passed rf uses) ∨
    ∃ b, s.step ar passed archives a = { s with kv := s.kv.step archives b } := by
  cases a with
  | handler rf => exact Or.inl ⟨{ rf with persister := s.rf.persister }, [], rfl, rfl⟩
  | persist => exact Or.inl ⟨s.rf.persist, [.saveRaftState s.rf.persistData], rfl, rfl⟩
  | installSnapshot args =>
    left
    rw [step]
    split
    · rename_i rf out heval
      exact ⟨rf, s.rf.installSnapshotUses rf args, Raft.installSnapshot_uses heval, rfl⟩
    · exact ⟨s.rf, [], rfl, rfl⟩
  | leaderSendSnapShot => exact Or.inl ⟨s.rf.leaderSendSnapShot.1, [.readSnapshot], rfl, rfl⟩
  | snapshot index str =>
    left
    rw [step]
    split
    · rename_i rf heval
      exact ⟨rf, s.rf.snapshotUses rf index str, Raft.snapshot_uses heval, rfl⟩
    · exact ⟨s.rf, [], rfl, rfl⟩
  | server a => exact Or.inr ⟨s.sized a, rfl⟩

theorem Limited.step (h : s.Limited) (a : SizedAction n) : (s.step ar passed archives a).Limited := by
  rcases step_cases s a with ⟨rf, uses, -, hstep⟩ | ⟨b, hstep⟩
  · rw [hstep]
    exact h
  · rw [hstep]
    exact (maxRaftState_step s.kv b).trans_lt h

def OnRecord (ar : TextArchive n) (s : SizedNode n) : Prop :=
  Holds ar.toNodeArchive s.rf.persister s.files

theorem OnRecord.step (h : s.OnRecord ar) (a : SizedAction n) :
    (s.step ar passed archives a).OnRecord ar := by
  rcases step_cases s a with ⟨rf, uses, hrf, hstep⟩ | ⟨b, hstep⟩
  · rw [hstep, OnRecord, goOn, hrf]
    exact Holds.uses h uses
  · rw [hstep]
    exact h

theorem sees_true_size_iff (ar : TextArchive n) (passed : ℕ → ℕ) (archives : Archives) (me : Fin n)
    (disk : Disk) (maxRaftState : Int32) (acts : List (SizedAction n)) :
    Along (step ar passed archives) (fun s a => s.SeesSize ar passed archives a)
        (init me disk maxRaftState) acts ↔
      Along (step ar passed archives) (fun s a => s.NoSave a ∧ s.LengthFits ar a)
        (init me disk maxRaftState) acts := by
  have hinit : (init me disk maxRaftState).SizeTrue ar ∧ (init me disk maxRaftState).Limited :=
    ⟨rfl, maxRaftState.toInt_lt⟩
  have hstep : ∀ (s : SizedNode n) (a : SizedAction n), s.SizeTrue ar ∧ s.Limited →
      s.SeesSize ar passed archives a →
      (s.step ar passed archives a).SizeTrue ar ∧ (s.step ar passed archives a).Limited :=
    fun s a h hsees => ⟨hsees.size, h.2.step a⟩
  exact along_congr hstep (fun s a h => seesSize_iff h.1 h.2 a) hinit acts

theorem contents_runOf (ar : TextArchive n) (passed : ℕ → ℕ) (archives : Archives) (me : Fin n)
    (disk : Disk) (maxRaftState : Int32) (acts : List (SizedAction n)) :
    (runOf ar passed archives me disk maxRaftState acts).files.raftState.contents =
      ((runOf ar passed archives me disk maxRaftState acts).rf.persister.handed ar).toList := by
  have hinit : (init me disk maxRaftState).OnRecord ar := holds_create ar.toNodeArchive disk
  exact (run_invariant hinit (fun s a h => h.step a) acts).raftState

/-- What Boost writes for a node of term 1 with its log behind a snapshot of one entry. -/
def archiveOfOne : TextArchive 3 where
  save := fun _ => "22 serialization::archive 17 0 0 1 -1 1 1 0 0 0 0"
  load := fun _ => ⟨1, none, 1, 1, []⟩
  header := fun _ => by decide

/-- A follower has appended and committed an entry. -/
def oneCommitted (me : Fin 3) : Raft 3 :=
  { Raft.init me with currentTerm := 1, logs := [⟨"a", 1, 1⟩], commitIndex := 1, lastApplied := 1 }

theorem size_zero_after_snapshot :
    ¬∀ (n : ℕ) (ar : TextArchive n) (passed : ℕ → ℕ) (archives : Archives) (me : Fin n) (disk : Disk)
      (maxRaftState : Int32) (acts : List (SizedAction n)),
      Along (step ar passed archives) (fun s a => s.SeesSize ar passed archives a)
        (init me disk maxRaftState) acts := by
  intro h
  have hsees := h 3 archiveOfOne filebuf textArchives 0 ⟨[], []⟩ 100
    [.handler (oneCommitted 0), .persist, .snapshot 1 "s"]
  have hsize : (0 : ℤ) = 49 := hsees.2.2.1.size
  exact absurd hsize (by decide)

end SizedNode
end RaftStorage
