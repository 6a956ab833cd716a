import RaftStorage.Raft.PersisterFiles
import RaftStorage.Library.Copies

/-! What the reads of `Persister` leave behind. `ReadSnapshot` reopens its stream on the way out, and
opening for output empties the file, so that only the first read of a snapshot sees it. -/

namespace RaftStorage.Persister
open Library

/-! ## Calls and their results -/

inductive Call where
  | save (raftstate snapshot : String)
  | saveRaftState (data : String)
  | readSnapshot
  | readRaftState
  | raftStateSize
deriving DecidableEq

inductive Result where
  | done
  | text (s : String)
  | size (k : ℤ)
deriving DecidableEq

namespace Call

def apply (passed : ℕ → ℕ) (q : Streams) : Call → Result × Streams
  | .save raftstate snapshot => (.done, q.save passed raftstate snapshot)
  | .saveRaftState data => (.done, q.saveRaftState passed data)
  | .readSnapshot => (.text q.readSnapshot.1, q.readSnapshot.2)
  | .readRaftState => (.text q.readRaftState, q)
  | .raftStateSize => (.size q.raftStateSize, q)

def isRead : Call → Bool
  | .readSnapshot | .readRaftState => true
  | _ => false

def isSave : Call → Bool
  | .save _ _ => true
  | _ => false

end Call

namespace Streams

def afterCalls (passed : ℕ → ℕ) (q : Streams) (calls : List Call) : Streams :=
  run (moves (Call.apply passed)) q calls

def snapshotContents (q : Streams) : List Char := q.snapshot.closeIfOpen.file

/-- The files when the process is killed. -/
def killed (q : Streams) : Disk := ⟨q.raftState.file, q.snapshot.file⟩

/-- The files when the process ends and the destructor closes the streams. -/
def exited (q : Streams) : Disk := ⟨q.raftState.closeIfOpen.file, q.snapshot.closeIfOpen.file⟩

end Streams

variable {passed : ℕ → ℕ} {q q' : Streams}

/-- However often the reads among the calls are made, each call has the result that it had, and the
files are left as they were. -/
def ReadsChangeNothing (passed : ℕ → ℕ) (q : Streams) (calls : List Call) : Prop :=
  ∀ plan : List (Call × ℕ), plan.map Prod.fst = calls →
    (∀ p ∈ plan, p.1.isRead = true ∨ p.2 = 1) →
    outputs (Call.apply passed) q (copies plan) =
        repeated plan (outputs (Call.apply passed) q calls) ∧
      (q.afterCalls passed (copies plan)).exited = (q.afterCalls passed calls).exited ∧
      (q.afterCalls passed (copies plan)).killed = (q.afterCalls passed calls).killed

def SaveIn (calls : List Call) : Prop := ∃ call ∈ calls, call.isSave = true

/-- No read finds anything in the snapshot file but white space that a later `Save` clears away. -/
def NothingToRead (passed : ℕ → ℕ) (q : Streams) (calls : List Call) : Prop :=
  ∀ before after, calls = before ++ .readSnapshot :: after →
    (q.afterCalls passed before).snapshotContents = [] ∨
      (∀ c ∈ (q.afterCalls passed before).snapshotContents, isSpace c = true) ∧
        SaveIn after

theorem NothingToRead.tail {call : Call} {calls : List Call}
    (h : NothingToRead passed q (call :: calls)) :
    NothingToRead passed (call.apply passed q).2 calls :=
  fun before after heq => h (call :: before) after (by rw [heq, List.cons_append])

/-! ## Reading a blank file -/

namespace Streams

def Blank (q : Streams) : Prop := word isSpace q.snapshotContents = []

theorem blank_iff : q.Blank ↔ ∀ c ∈ q.snapshotContents, isSpace c = true := word_eq_nil

theorem blank_of_nil (h : q.snapshotContents = []) : q.Blank := by
  rw [Blank, h]
  rfl

theorem file_of_contents_nil (h : q.snapshotContents = []) : q.snapshot.file = [] := by
  rw [snapshotContents, FileStream.closeIfOpen] at h
  split_ifs at h
  · exact (List.append_eq_nil_iff.mp h).1
  · exact h

theorem readSnapshot_of_blank (h : q.Blank) : q.readSnapshot.1 = "" := by
  have hword : word isSpace q.snapshot.closeIfOpen.file = [] := h
  rw [readSnapshot, hword]

theorem afterCalls_reads (k : ℕ) :
    q.afterCalls passed (List.replicate k .readSnapshot) = if k = 0 then q else q.readSnapshot.2 := by
  induction k generalizing q with
  | zero => rfl
  | succ k ih =>
    have hsucc : q.afterCalls passed (List.replicate (k + 1) .readSnapshot) =
        q.readSnapshot.2.afterCalls passed (List.replicate k .readSnapshot) := rfl
    rw [hsucc, ih, if_neg (Nat.succ_ne_zero k)]
    split_ifs <;> rfl

theorem outputs_reads (h : q.Blank) (k : ℕ) :
    outputs (Call.apply passed) q (List.replicate k .readSnapshot) =
      List.replicate k (Result.text "") := by
  induction k generalizing q with
  | zero => rfl
  | succ k ih =>
    have hsucc : outputs (Call.apply passed) q (List.replicate (k + 1) .readSnapshot) =
        Result.text q.readSnapshot.1 ::
          outputs (Call.apply passed) q.readSnapshot.2 (List.replicate k .readSnapshot) := rfl
    rw [hsucc, readSnapshot_of_blank h, ih (blank_of_nil rfl)]
    rfl

theorem readRaftStates (k : ℕ) :
    outputs (Call.apply passed) q (List.replicate k .readRaftState) =
        List.replicate k (Result.text q.readRaftState) ∧
      q.afterCalls passed (List.replicate k .readRaftState) = q := by
  induction k with
  | zero => exact ⟨rfl, rfl⟩
  | succ k ih => exact ⟨congrArg (Result.text q.readRaftState :: ·) ih.1, ih.2⟩

end Streams

/-! ## Streams that answer alike -/

/-- Streams that only a read of the snapshot could tell apart, and then only by white space that a
`Save` is still to clear. -/
structure Alike (later : Prop) (q q' : Streams) : Prop where
  raftState : q'.raftState = q.raftState
  raftStateSize : q'.raftStateSize = q.raftStateSize
  snapshot : (q'.snapshotContents = q.snapshotContents ∧ q'.snapshot.file = q.snapshot.file) ∨
    later ∧ q.Blank ∧ q'.Blank

theorem Alike.refl (later : Prop) (q : Streams) : Alike later q q := ⟨rfl, rfl, Or.inl ⟨rfl, rfl⟩⟩

theorem Alike.files (h : Alike False q q') : q'.exited = q.exited ∧ q'.killed = q.killed := by
  obtain ⟨hcontents, hfile⟩ : q'.snapshotContents = q.snapshotContents ∧
      q'.snapshot.file = q.snapshot.file := h.snapshot.resolve_right fun hlater => hlater.1
  have hclosed : q'.snapshot.closeIfOpen.file = q.snapshot.closeIfOpen.file := hcontents
  constructor
  · rw [Streams.exited, Streams.exited, h.raftState, hclosed]
  · rw [Streams.killed, Streams.killed, h.raftState, hfile]

theorem saveIn_cons {call : Call} {calls : List Call} (h : call.isSave = false) :
    SaveIn (call :: calls) ↔ SaveIn calls := by
  simp [SaveIn, h]

theorem Alike.step {call : Call} {calls : List Call} (h : Alike (SaveIn (call :: calls)) q q')
    (hread : call.isRead = false) : (call.apply passed q').1 = (call.apply passed q).1 ∧
      Alike (SaveIn calls) (call.apply passed q).2 (call.apply passed q').2 := by
  cases call with
  | save raftstate snapshot =>
    exact ⟨rfl, by simp [Call.apply, Streams.save, Streams.clearRaftStateAndSnapshot,
      Streams.clearRaftState, Streams.clearSnapshot, FileStream.reopen], rfl, Or.inl ⟨rfl, rfl⟩⟩
  | saveRaftState data =>
    have hsave : SaveIn (.saveRaftState data :: calls) ↔ SaveIn calls := saveIn_cons rfl
    rw [hsave] at h
    refine ⟨rfl, ?_, rfl, h.snapshot⟩
    simp [Call.apply, Streams.saveRaftState, Streams.clearRaftState, FileStream.reopen]
  | readSnapshot => cases hread
  | readRaftState => cases hread
  | raftStateSize =>
    have hsave : SaveIn (.raftStateSize :: calls) ↔ SaveIn calls := saveIn_cons rfl
    rw [hsave] at h
    exact ⟨congrArg Result.size h.raftStateSize, h⟩

theorem Alike.blank {later : Prop} (h : Alike later q q') (hq : q.Blank) : q'.Blank := by
  rcases h.snapshot with ⟨hcontents, -⟩ | ⟨-, -, hq'⟩
  · rw [Streams.Blank, hcontents]
    exact hq
  · exact hq'

theorem NothingToRead.blank {calls : List Call} (h : NothingToRead passed q (.readSnapshot :: calls)) :
    q.Blank := by
  rcases h [] calls rfl with hnil | ⟨hspace, -⟩
  · exact Streams.blank_of_nil hnil
  · exact Streams.blank_iff.mpr hspace

theorem Alike.reads {calls : List Call} (h : Alike (SaveIn (.readSnapshot :: calls)) q q')
    (hnothing : NothingToRead passed q (.readSnapshot :: calls)) (k : ℕ) :
    Alike (SaveIn calls) q.readSnapshot.2
      (q'.afterCalls passed (List.replicate k .readSnapshot)) := by
  have hsave : SaveIn (.readSnapshot :: calls) ↔ SaveIn calls := saveIn_cons rfl
  rw [hsave] at h
  have hblank : q'.Blank := h.blank hnothing.blank
  rw [Streams.afterCalls_reads]
  refine ⟨?_, ?_, ?_⟩
  · split_ifs <;> exact h.raftState
  · split_ifs <;> exact h.raftStateSize
  · have hblanks : SaveIn calls → SaveIn calls ∧ q.readSnapshot.2.Blank ∧
        (if k = 0 then q' else q'.readSnapshot.2).Blank := by
      intro hsaved
      refine ⟨hsaved, Streams.blank_of_nil rfl, ?_⟩
      split_ifs
      · exact hblank
      · exact Streams.blank_of_nil rfl
    rcases hnothing [] calls rfl with hnil | ⟨-, hsaved⟩
    · rcases h.snapshot with ⟨hcontents, -⟩ | ⟨hsaved, -⟩
      · left
        have hnil' : q'.snapshotContents = [] := hcontents.trans hnil
        split_ifs
        · exact ⟨hnil', Streams.file_of_contents_nil hnil'⟩
        · exact ⟨rfl, rfl⟩
      · exact Or.inr (hblanks hsaved)
    · exact Or.inr (hblanks hsaved)

structure Follows (passed : ℕ → ℕ) (plan : List (Call × ℕ)) (q q' : Streams) : Prop where
  planned : ∀ p ∈ plan, p.1.isRead = true ∨ p.2 = 1
  nothing : NothingToRead passed q (plan.map Prod.fst)
  alike : Alike (SaveIn (plan.map Prod.fst)) q q'

theorem Follows.step {call : Call} {k : ℕ} {plan : List (Call × ℕ)}
    (h : Follows passed ((call, k) :: plan) q q') :
    outputs (Call.apply passed) q' (List.replicate k call) =
        List.replicate k (call.apply passed q).1 ∧
      Follows passed plan (call.apply passed q).2
        (run (moves (Call.apply passed)) q' (List.replicate k call)) := by
  have hplanned : ∀ p ∈ plan, p.1.isRead = true ∨ p.2 = 1 :=
    fun p hp => h.planned p (List.mem_cons_of_mem _ hp)
  have hnothing : NothingToRead passed (call.apply passed q).2 (plan.map Prod.fst) := h.nothing.tail
  cases hread : call.isRead with
  | false =>
    have hk : k = 1 := by
      rcases h.planned (call, k) List.mem_cons_self with hcall | hk
      · rw [hread] at hcall
        cases hcall
      · exact hk
    obtain ⟨hresult, halike⟩ := h.alike.step hread
    rw [hk]
    exact ⟨congrArg (fun r => [r]) hresult, hplanned, hnothing, halike⟩
  | true =>
    cases call with
    | readSnapshot =>
      have hfirst : q.readSnapshot.1 = "" := Streams.readSnapshot_of_blank h.nothing.blank
      have hblank : q'.Blank := h.alike.blank h.nothing.blank
      refine ⟨?_, hplanned, hnothing, h.alike.reads h.nothing k⟩
      rw [Streams.outputs_reads hblank, Call.apply, hfirst]
    | readRaftState =>
      have hsave : SaveIn (.readRaftState :: plan.map Prod.fst) ↔ SaveIn (plan.map Prod.fst) :=
        saveIn_cons rfl
      have halike : Alike (SaveIn (.readRaftState :: plan.map Prod.fst)) q q' := h.alike
      rw [hsave] at halike
      obtain ⟨houtputs, hafter⟩ := Streams.readRaftStates k
      refine ⟨?_, hplanned, hnothing, ?_⟩
      · rw [houtputs, Streams.readRaftState, halike.raftState]
        rfl
      · have hsame : run (moves (Call.apply passed)) q' (List.replicate k .readRaftState) = q' := hafter
        rw [hsame]
        exact halike
    | save raftstate snapshot => cases hread
    | saveRaftState data => cases hread
    | raftStateSize => cases hread

theorem readsChangeNothing_of_nothing {calls : List Call} (h : NothingToRead passed q calls) :
    ReadsChangeNothing passed q calls := by
  intro plan hplan hplanned
  subst hplan
  have hfollows : Follows passed plan q q := ⟨hplanned, h, Alike.refl _ q⟩
  obtain ⟨houtputs, hend⟩ := outputs_copies (fun _ _ _ _ _ hstep => hstep.step) hfollows
  have halike : Alike False (q.afterCalls passed (plan.map Prod.fst))
      (q.afterCalls passed (copies plan)) := by
    have hnone : SaveIn ([] : List Call) = False := by simp [SaveIn]
    exact hnone ▸ hend.alike
  exact ⟨houtputs, halike.files⟩

/-! ## Plans that show the difference -/

def planAt (before after : List Call) (k : ℕ) (count : Call → ℕ) : List (Call × ℕ) :=
  before.map (fun c => (c, 1)) ++ (.readSnapshot, k) :: after.map fun c => (c, count c)

theorem map_planAt (before after : List Call) (k : ℕ) (count : Call → ℕ) :
    (planAt before after k count).map Prod.fst = before ++ .readSnapshot :: after := by
  simp [planAt, Function.comp_def]

theorem planAt_planned {before after : List Call} {k : ℕ} {count : Call → ℕ}
    (hcount : ∀ c, c.isRead = true ∨ count c = 1) :
    ∀ p ∈ planAt before after k count, p.1.isRead = true ∨ p.2 = 1 := by
  intro p hp
  simp only [planAt, List.mem_append, List.mem_cons, List.mem_map] at hp
  rcases hp with ⟨c, -, rfl⟩ | rfl | ⟨c, -, rfl⟩
  · exact Or.inr rfl
  · exact Or.inl rfl
  · exact hcount c

theorem blank_of_twice {before after : List Call}
    (h : ReadsChangeNothing passed q (before ++ .readSnapshot :: after)) :
    (q.afterCalls passed before).Blank := by
  have hcopies : copies (planAt before after 2 fun _ => 1) =
      before ++ .readSnapshot :: .readSnapshot :: after := by
    rw [planAt, copies_append, copies_once]
    exact congrArg (fun l => before ++ .readSnapshot :: .readSnapshot :: l) (copies_once after)
  have houtputs := (h _ (map_planAt before after 2 fun _ => 1)
    (planAt_planned fun _ => Or.inr rfl)).1
  rw [hcopies, planAt, outputs_append, outputs_append, repeated_append (by simp [length_outputs]),
    repeated_once (by simp [length_outputs])] at houtputs
  have hread : Result.text (q.afterCalls passed before).readSnapshot.2.readSnapshot.1 =
      Result.text (q.afterCalls passed before).readSnapshot.1 :=
    (List.cons.inj (List.cons.inj (List.append_cancel_left houtputs)).2).1
  have hempty : (q.afterCalls passed before).readSnapshot.2.readSnapshot.1 = "" := rfl
  rw [hempty] at hread
  exact String.ofList_injective (Result.text.inj hread).symm

theorem SaveIn.cons {calls : List Call} (h : SaveIn calls) (call : Call) : SaveIn (call :: calls) := by
  obtain ⟨c, hc, hsave⟩ := h
  exact ⟨c, List.mem_cons_of_mem _ hc, hsave⟩

theorem snapshotContents_noSave {calls : List Call} (h : ¬SaveIn calls)
    (hq : q.snapshotContents = []) : (q.afterCalls passed calls).snapshotContents = [] := by
  induction calls generalizing q with
  | nil => exact hq
  | cons call calls ih =>
    have htail : ¬SaveIn calls := fun hsave => h (hsave.cons call)
    cases call with
    | save raftstate snapshot => exact absurd ⟨_, List.mem_cons_self, rfl⟩ h
    | saveRaftState data => exact ih htail hq
    | readSnapshot => exact ih htail rfl
    | readRaftState => exact ih htail hq
    | raftStateSize => exact ih htail hq

theorem snapshot_noSave {calls : List Call} (h : ¬SaveIn calls) :
    (q.afterCalls passed (calls.filter fun c => !c.isRead)).snapshot = q.snapshot := by
  induction calls generalizing q with
  | nil => rfl
  | cons call calls ih =>
    have htail : ¬SaveIn calls := fun hsave => h (hsave.cons call)
    cases call with
    | save raftstate snapshot => exact absurd ⟨_, List.mem_cons_self, rfl⟩ h
    | saveRaftState data => exact ih htail
    | readSnapshot => exact ih htail
    | readRaftState => exact ih htail
    | raftStateSize => exact ih htail

theorem contents_of_left_out {before after : List Call} (hsave : ¬SaveIn after)
    (h : ReadsChangeNothing passed q (before ++ .readSnapshot :: after)) :
    (q.afterCalls passed before).snapshotContents = [] := by
  set plan := planAt before after 0 fun c => if !c.isRead then 1 else 0 with hplan
  have hplanned : ∀ p ∈ plan, p.1.isRead = true ∨ p.2 = 1 := by
    apply planAt_planned
    intro c
    cases c.isRead with
    | true => exact Or.inl rfl
    | false => exact Or.inr rfl
  have hcopies : copies plan = before ++ after.filter fun c => !c.isRead := by
    rw [hplan, planAt, copies_append, copies_once, ← copies_filter]
    rfl
  have hfiles := congrArg Disk.snapshot (h plan (map_planAt before after 0 _) hplanned).2.1
  have hleft : (q.afterCalls passed (copies plan)).snapshotContents =
      (q.afterCalls passed before).snapshotContents := by
    rw [hcopies, Streams.afterCalls, run_append, Streams.snapshotContents]
    exact congrArg (fun f => f.closeIfOpen.file) (snapshot_noSave hsave)
  have hmade : (q.afterCalls passed (before ++ .readSnapshot :: after)).snapshotContents = [] := by
    have hsplit : q.afterCalls passed (before ++ .readSnapshot :: after) =
        (q.afterCalls passed before).readSnapshot.2.afterCalls passed after :=
      run_append _ q before (.readSnapshot :: after)
    rw [hsplit]
    exact snapshotContents_noSave hsave rfl
  exact hleft.symm.trans (hfiles.trans hmade)

theorem reads_change_nothing_iff (passed : ℕ → ℕ) (q : Streams) (calls : List Call) :
    ReadsChangeNothing passed q calls ↔ NothingToRead passed q calls := by
  constructor
  · rintro h before after rfl
    by_cases hsave : SaveIn after
    · exact Or.inr ⟨Streams.blank_iff.mp (blank_of_twice h), hsave⟩
    · exact Or.inl (contents_of_left_out hsave h)
  · exact readsChangeNothing_of_nothing

/-- A leader that sends its snapshot to two followers. -/
theorem second_read_empty : ¬∀ (disk : Disk) (calls : List Call),
    ReadsChangeNothing filebuf (Streams.create disk) calls := by
  intro h
  have houtputs := (h ⟨[], []⟩ [.save "1" "x", .readSnapshot, .readSnapshot]
    [(.save "1" "x", 1), (.readSnapshot, 0), (.readSnapshot, 1)] rfl (by decide)).1
  exact absurd houtputs (by decide)

end RaftStorage.Persister
