import RaftStorage.Raft.Handlers
import RaftStorage.Library.FileStream

/-! `Persister` down to its two files. The raft state and the snapshot are written through buffered
streams and read back with `>>`; a character of a string stands for a byte. The `Persister` that the
node's handlers use keeps the saved records themselves; here it is shown to describe these streams. -/

namespace RaftStorage
open Library

namespace Persister

structure Streams where
  raftState : FileStream Char
  snapshot : FileStream Char
  raftStateSize : ℤ

structure Disk where
  raftState : List Char
  snapshot : List Char

namespace Streams

/-- The constructor: it truncates both files and binds the streams, which truncates them again. -/
def create (disk : Disk) : Streams where
  raftState := (FileStream.mk disk.raftState [] false).reopen.close.reopen
  snapshot := (FileStream.mk disk.snapshot [] false).reopen.close.reopen
  raftStateSize := 0

def clearRaftState (p : Streams) : Streams :=
  { p with raftStateSize := 0, raftState := p.raftState.closeIfOpen.reopen }

def clearSnapshot (p : Streams) : Streams := { p with snapshot := p.snapshot.closeIfOpen.reopen }

def clearRaftStateAndSnapshot (p : Streams) : Streams := p.clearRaftState.clearSnapshot

/-- The size is left at 0. -/
def save (passed : ℕ → ℕ) (p : Streams) (raftstate snapshot : String) : Streams :=
  let p := p.clearRaftStateAndSnapshot
  { p with
    raftState := p.raftState.write passed raftstate.toList
    snapshot := p.snapshot.write passed snapshot.toList }

def saveRaftState (passed : ℕ → ℕ) (p : Streams) (data : String) : Streams :=
  let p := p.clearRaftState
  { p with
    raftState := p.raftState.write passed data.toList
    raftStateSize := p.raftStateSize + data.length }

/-- The file is read while the output stream stays open. -/
def readRaftState (p : Streams) : String := String.ofList (word isSpace p.raftState.file)

/-- The stream is closed for the read and reopened on the way out. -/
def readSnapshot (p : Streams) : String × Streams :=
  let snapshot := p.snapshot.closeIfOpen
  (String.ofList (word isSpace snapshot.file), { p with snapshot := snapshot.reopen })

end Streams

/-! ## The streams behind the persister of a node -/

/-- The Boost archive of the persistent fields, with the entries serialized by protobuf. -/
structure NodeArchive (n : ℕ) where
  save : BoostPersistRaftNode n → String
  load : String → BoostPersistRaftNode n

variable {n : ℕ} {ar : NodeArchive n} {p : Persister n} {passed : ℕ → ℕ} {q : Streams}

/-- The streams have been given what the node handed over. -/
structure Holds (ar : NodeArchive n) (p : Persister n) (q : Streams) : Prop where
  raftState : q.raftState.contents = ((p.raftState.map ar.save).getD "").toList
  snapshot : q.snapshot.contents = p.snapshotFile.toList
  isOpen : q.snapshot.isOpen = true

theorem holds_create (ar : NodeArchive n) (disk : Disk) :
    Holds ar ⟨none, ""⟩ (Streams.create disk) := ⟨rfl, rfl, rfl⟩

theorem Holds.save (_ : Holds ar p q) (d : BoostPersistRaftNode n) (snapshot : String) :
    Holds ar (p.save d snapshot) (q.save passed (ar.save d) snapshot) where
  raftState := FileStream.contents_write_reopen _ q.raftState.closeIfOpen _
  snapshot := FileStream.contents_write_reopen _ q.snapshot.closeIfOpen _
  isOpen := rfl

theorem Holds.saveRaftState (h : Holds ar p q) (d : BoostPersistRaftNode n) :
    Holds ar (p.saveRaftState d) (q.saveRaftState passed (ar.save d)) where
  raftState := FileStream.contents_write_reopen _ q.raftState.closeIfOpen _
  snapshot := h.snapshot
  isOpen := h.isOpen

theorem Holds.readSnapshot (h : Holds ar p q) :
    q.readSnapshot.1 = p.readSnapshot.1 ∧ Holds ar p.readSnapshot.2 q.readSnapshot.2 := by
  have hfile : q.snapshot.closeIfOpen.file = p.snapshotFile.toList := by
    rw [FileStream.file_closeIfOpen h.isOpen, h.snapshot]
  refine ⟨?_, h.raftState, rfl, rfl⟩
  rw [Streams.readSnapshot, hfile]
  rfl

inductive Use (n : ℕ) where
  | save (raftstate : BoostPersistRaftNode n) (snapshot : String)
  | saveRaftState (data : BoostPersistRaftNode n)
  | readSnapshot

def Use.onRecords (p : Persister n) : Use n → Persister n
  | .save raftstate snapshot => p.save raftstate snapshot
  | .saveRaftState data => p.saveRaftState data
  | .readSnapshot => p.readSnapshot.2

def Use.onStreams (ar : NodeArchive n) (passed : ℕ → ℕ) (q : Streams) : Use n → Streams
  | .save raftstate snapshot => q.save passed (ar.save raftstate) snapshot
  | .saveRaftState data => q.saveRaftState passed (ar.save data)
  | .readSnapshot => q.readSnapshot.2

theorem Holds.uses (h : Holds ar p q) (uses : List (Use n)) :
    Holds ar (uses.foldl Use.onRecords p) (uses.foldl (Use.onStreams ar passed) q) := by
  induction uses generalizing p q with
  | nil => exact h
  | cons use uses ih =>
    cases use with
    | save raftstate snapshot => exact ih (h.save raftstate snapshot)
    | saveRaftState data => exact ih (h.saveRaftState data)
    | readSnapshot => exact ih h.readSnapshot.2

theorem holds_uses (ar : NodeArchive n) (passed : ℕ → ℕ) (disk : Disk) (uses : List (Use n)) :
    Holds ar (uses.foldl Use.onRecords ⟨none, ""⟩)
      (uses.foldl (Use.onStreams ar passed) (Streams.create disk)) :=
  (holds_create ar disk).uses uses

/-! ## Reading after writing -/

inductive Saving where
  | save (raftstate snapshot : String)
  | saveRaftState (data : String)

namespace Saving

def apply (passed : ℕ → ℕ) (q : Streams) : Saving → Streams
  | .save raftstate snapshot => q.save passed raftstate snapshot
  | .saveRaftState data => q.saveRaftState passed data

def raftState : Saving → String
  | .save raftstate _ => raftstate
  | .saveRaftState data => data

def snapshot? : Saving → Option String
  | .save _ snapshot => some snapshot
  | .saveRaftState _ => none

end Saving

def lastRaftState (calls : List Saving) : Option String := calls.getLast?.map Saving.raftState

def lastSnapshot (calls : List Saving) : Option String := (calls.filterMap Saving.snapshot?).getLast?

def NoSpace (s : String) : Prop := ∀ c ∈ s.toList, isSpace c = false

instance (s : String) : Decidable (NoSpace s) := inferInstanceAs (Decidable (∀ c ∈ _, _))

def Streams.after (passed : ℕ → ℕ) (q : Streams) (calls : List Saving) : Streams :=
  calls.foldl (Saving.apply passed) q

theorem after_concat (calls : List Saving) (call : Saving) :
    q.after passed (calls ++ [call]) = call.apply passed (q.after passed calls) := by
  simp [Streams.after]

theorem file_raftState_after {calls : List Saving} {data : String}
    (h : data ∈ lastRaftState calls) :
    (q.after passed calls).raftState.file = data.toList.take (passed data.length) := by
  obtain ⟨call, hcall, rfl⟩ := Option.map_eq_some_iff.mp h
  obtain ⟨before, rfl⟩ := List.getLast?_eq_some_iff.mp hcall
  rw [after_concat]
  cases call with
  | save raftstate snapshot =>
    simp only [Saving.apply, Streams.save, Streams.clearRaftStateAndSnapshot,
      Streams.clearRaftState, Streams.clearSnapshot, FileStream.write_reopen, String.length_toList]
    rfl
  | saveRaftState data =>
    simp only [Saving.apply, Streams.saveRaftState, Streams.clearRaftState,
      FileStream.write_reopen, String.length_toList]
    rfl

theorem snapshot_after {calls : List Saving} {snap : String} (h : snap ∈ lastSnapshot calls) :
    (q.after passed calls).snapshot.contents = snap.toList ∧
      (q.after passed calls).snapshot.isOpen = true := by
  induction calls using List.reverseRecOn with
  | nil => cases h
  | append_singleton calls call ih =>
    rw [after_concat]
    cases call with
    | save raftstate snapshot =>
      have heq : snapshot = snap := by simpa [lastSnapshot, Saving.snapshot?] using h
      rw [← heq]
      set q' := q.after passed calls
      exact ⟨FileStream.contents_write_reopen _ q'.snapshot.closeIfOpen _, rfl⟩
    | saveRaftState data => exact ih (by simpa [lastSnapshot, Saving.snapshot?] using h)

theorem readRaftState_after {calls : List Saving} {data : String}
    (h : data ∈ lastRaftState calls) : (q.after passed calls).readRaftState = data ↔
      NoSpace data ∧ data.length ≤ passed data.length := by
  rw [Streams.readRaftState, file_raftState_after h, ← String.toList_inj, String.toList_ofList,
    word_take_eq, String.length_toList]
  rfl

theorem readSnapshot_after {calls : List Saving} {snap : String}
    (h : snap ∈ lastSnapshot calls) :
    (q.after passed calls).readSnapshot.1 = snap ↔ NoSpace snap := by
  have hcontents : (q.after passed calls).snapshot.contents = snap.toList := (snapshot_after h).1
  have hopen : (q.after passed calls).snapshot.isOpen = true := (snapshot_after h).2
  rw [Streams.readSnapshot, FileStream.file_closeIfOpen hopen, hcontents, ← String.toList_inj,
    String.toList_ofList, word_eq_self]
  rfl

/-- The first reads after a series of calls give back what the last calls wrote, and the node ships
it as its snapshot, exactly when there is no white space in it and the stream has passed all of the
raft state to the file. -/
theorem read_after_write_iff (passed : ℕ → ℕ) (q : Streams) (calls : List Saving) :
    ((∀ data ∈ lastRaftState calls, (q.after passed calls).readRaftState = data) ∧
      ∀ snap ∈ lastSnapshot calls, (q.after passed calls).readSnapshot.1 = snap ∧
        ∀ rf : Raft n, Holds ar rf.persister (q.after passed calls) →
          rf.leaderSendSnapShot.2.data = snap) ↔
    (∀ data ∈ lastRaftState calls, NoSpace data ∧ data.length ≤ passed data.length) ∧
      ∀ snap ∈ lastSnapshot calls, NoSpace snap := by
  constructor
  · rintro ⟨hstate, hsnap⟩
    exact ⟨fun data hdata => (readRaftState_after hdata).mp (hstate data hdata),
      fun snap h => (readSnapshot_after h).mp (hsnap snap h).1⟩
  · rintro ⟨hstate, hsnap⟩
    refine ⟨fun data hdata => (readRaftState_after hdata).mpr (hstate data hdata),
      fun snap h => ?_⟩
    have hread : (q.after passed calls).readSnapshot.1 = snap :=
      (readSnapshot_after h).mpr (hsnap snap h)
    exact ⟨hread, fun rf hrf => hrf.readSnapshot.1.symm.trans hread⟩

/-- `std::filebuf` of libstdc++ passes a long string straight on and keeps a short one. From which
length on depends on its version: 1024 bytes here, 8191 in that of g++ 13. -/
def filebuf (k : ℕ) : ℕ := if 1024 ≤ k then k else 0

theorem archive_read_cut :
    ¬∀ (disk : Disk) (calls : List Saving) (snap : String), snap ∈ lastSnapshot calls →
      ((Streams.create disk).after filebuf calls).readSnapshot.1 = snap := by
  intro h
  have hread := h ⟨[], []⟩
    [.save "22 serialization::archive 17 0 0 1 0 0 0 0 0" "22 serialization::archive 17 0 0 1 k"]
    "22 serialization::archive 17 0 0 1 k" rfl
  have hspace := (readSnapshot_after rfl).mp hread ' ' (by decide)
  exact absurd hspace (by decide)

end Persister

/-! ## A new process -/

namespace Raft

variable {n : ℕ}

def readPersist (ar : Persister.NodeArchive n) (rf : Raft n) (data : String) : Raft n :=
  if data = "" then rf
  else
    let boostPersistRaftNode := ar.load data
    { rf with
      currentTerm := boostPersistRaftNode.currentTerm
      votedFor := boostPersistRaftNode.votedFor
      lastSnapshotIncludeIndex := boostPersistRaftNode.lastSnapshotIncludeIndex
      lastSnapshotIncludeTerm := boostPersistRaftNode.lastSnapshotIncludeTerm
      logs := boostPersistRaftNode.logs }

/-- `Raft::init` over the streams of its persister. -/
def initFrom (ar : Persister.NodeArchive n) (me : Fin n) (persister : Persister.Streams) : Raft n :=
  let rf := (init me).readPersist ar persister.readRaftState
  if rf.lastSnapshotIncludeIndex > 0 then
    { rf with lastApplied := rf.lastSnapshotIncludeIndex }
  else rf

/-- A new process on the given files: its node, and the snapshot that the constructor of `KvServer`
reads. -/
def restart (ar : Persister.NodeArchive n) (me : Fin n) (disk : Persister.Disk) : Raft n × String :=
  let persister := Persister.Streams.create disk
  (initFrom ar me persister, persister.readSnapshot.1)

theorem restart_eq (ar : Persister.NodeArchive n) (me : Fin n) (disk : Persister.Disk) :
    restart ar me disk = (init me, "") := by
  rfl

end Raft
end RaftStorage
