import RaftStorage.Kv.Server
import RaftStorage.Store.Contents

/-! What a snapshot carries from one server to another. `dump_file` archives keys and values, but
`load_file` inserts every key with itself as its value, into whatever the receiver already holds. -/

namespace RaftStorage
open SkipList

/-- The archives give back what `MakeSnapShot` hands to them, and are not empty. -/
structure Archives.RoundTrips (ar : Archives) (kv : KvServer) : Prop where
  dump : ar.loadDump (ar.saveDump (kv.skipList.dump.map Prod.fst, kv.skipList.dump.map Prod.snd)) =
    (kv.skipList.dump.map Prod.fst, kv.skipList.dump.map Prod.snd)
  server : ar.loadServer (kv.makeSnapShot ar) =
    (ar.saveDump (kv.skipList.dump.map Prod.fst, kv.skipList.dump.map Prod.snd), kv.lastRequestId)
  dump_ne : ar.saveDump (kv.skipList.dump.map Prod.fst, kv.skipList.dump.map Prod.snd) ≠ ""
  server_ne : kv.makeSnapShot ar ≠ ""

namespace KvServer

variable {ar : Archives} {kv kv₁ kv₂ : KvServer} {l : SkipList String String}

theorem search_loadKeys {kvs : List (String × String)} (h : Represents l kvs) (keys : List String)
    (flips : ℕ → ℕ) (i : ℕ) (k : String) :
    ((keys.zipIdx i).foldl (fun l (key, i) => (l.insertElement key key (flips i)).1) l).searchElement k
      = (l.searchElement k).or (if k ∈ keys then some k else none) := by
  induction keys generalizing l kvs i with
  | nil => simp
  | cons key keys ih =>
    rw [List.zipIdx_cons, List.foldl_cons, ih (h.insert key key (flips i)), h.search_insert,
      Option.or_assoc]
    congr 1
    by_cases hk : k = key
    · subst hk
      simp
    · simp [hk]

theorem search_install (har : ar.RoundTrips kv) (hkv : Built 6 kv.skipList)
    (hkv₁ : Built 6 kv₁.skipList) (flips : ℕ → ℕ) (k : String) :
    (kv₁.readSnapShotToInstall ar (kv.makeSnapShot ar) flips).skipList.searchElement k =
      (kv₁.skipList.searchElement k).or
        (if (kv.skipList.searchElement k).isSome then some k else none) := by
  unfold readSnapShotToInstall
  rw [if_neg har.server_ne, har.server]
  dsimp only
  unfold loadFile
  rw [if_neg har.dump_ne, har.dump, search_loadKeys hkv₁.represents]
  simp only [hkv.represents.mem_keys]

theorem lastRequestId_install (har : ar.RoundTrips kv) (kv₁ : KvServer) (flips : ℕ → ℕ) :
    (kv₁.readSnapShotToInstall ar (kv.makeSnapShot ar) flips).lastRequestId = kv.lastRequestId := by
  unfold readSnapShotToInstall
  rw [if_neg har.server_ne, har.server]

theorem built_init (maxRaftState : ℤ) : Built 6 (KvServer.init maxRaftState).skipList := ⟨[], rfl⟩

theorem search_init (maxRaftState : ℤ) (k : String) :
    (KvServer.init maxRaftState).skipList.searchElement k = none := by
  have hrep : Represents (KvServer.init maxRaftState).skipList [] := represents_create 6
  rw [hrep.search]
  rfl

/-- A fresh server that installs a snapshot holds what the sender held exactly when the sender bound
every key to itself. -/
theorem snapshot_round_trip_iff (hkv : Built 6 kv.skipList) (har : ar.RoundTrips kv)
    (maxRaftState : ℤ) (flips : ℕ → ℕ) :
    let kv' := (KvServer.init maxRaftState).readSnapShotToInstall ar (kv.makeSnapShot ar) flips
    ((∀ key, kv'.skipList.searchElement key = kv.skipList.searchElement key) ∧
      kv'.lastRequestId = kv.lastRequestId) ↔
    ∀ key value, kv.skipList.searchElement key = some value → value = key := by
  intro kv'
  have hsearch : ∀ k, kv'.skipList.searchElement k =
      if (kv.skipList.searchElement k).isSome then some k else none := by
    intro k
    rw [search_install har hkv (built_init maxRaftState), search_init, Option.none_or]
  constructor
  · rintro ⟨hsame, -⟩ key value hvalue
    have hkey := hsame key
    rw [hsearch, hvalue] at hkey
    exact (Option.some.inj hkey).symm
  · intro hown
    refine ⟨fun key => ?_, lastRequestId_install har _ flips⟩
    rw [hsearch]
    cases hvalue : kv.skipList.searchElement key with
    | none => rfl
    | some value =>
      rw [hown key value hvalue]
      rfl

def pairArchives (key value : String) : Archives where
  parseOp := fun _ => ⟨"", "", "", "", 0⟩
  saveDump := fun _ => "22 serialization::archive 17 0 0 0 0 1 0 1 " ++ key ++ " 1 0 1 " ++ value
  loadDump := fun _ => ([key], [value])
  saveServer := fun (serializedKVData, _) =>
    "22 serialization::archive 17 0 0 50 " ++ serializedKVData ++ " 0 0 0 0 0"
  loadServer := fun _ =>
    ("22 serialization::archive 17 0 0 0 0 1 0 1 " ++ key ++ " 1 0 1 " ++ value, fun _ => none)

/-- The server after one `Put`, its table forgotten. -/
def holding (key value : String) : KvServer :=
  { KvServer.init (-1) with skipList := (SkipList.create 6).insertSetElement key value 0 }

theorem built_holding (key value : String) : Built 6 (holding key value).skipList :=
  ⟨[.insertSetElement key value 0], rfl⟩

theorem pairArchives_roundTrips (key value : String) :
    (pairArchives key value).RoundTrips (holding key value) := by
  have hdump : (holding key value).skipList.dump = [(key, value)] :=
    ((represents_create 6).insertSet key value 0).dump
  refine ⟨by rw [hdump]; rfl, rfl, ?_, ?_⟩
  · simp [pairArchives]
  · simp [makeSnapShot, pairArchives]

theorem snapshot_round_trip_own_key :
    let kv' := (KvServer.init (-1)).readSnapShotToInstall (pairArchives "k" "k")
      ((holding "k" "k").makeSnapShot (pairArchives "k" "k")) fun _ => 0
    (∀ key, kv'.skipList.searchElement key = (holding "k" "k").skipList.searchElement key) ∧
      kv'.lastRequestId = (holding "k" "k").lastRequestId := by
  refine (snapshot_round_trip_iff (built_holding _ _) (pairArchives_roundTrips _ _) _ _).mpr ?_
  intro key value hfound
  have hrep : Represents (holding "k" "k").skipList [("k", "k")] :=
    (represents_create 6).insertSet "k" "k" 0
  rw [hrep.search] at hfound
  by_cases hk : "k" = key
  · subst hk
    exact (Option.some.inj hfound).symm
  · simp [hk] at hfound

theorem value_lost_in_snapshot :
    ¬∀ (ar : Archives) (kv : KvServer) (maxRaftState : ℤ) (flips : ℕ → ℕ), Built 6 kv.skipList →
      ar.RoundTrips kv → ∀ key, ((KvServer.init maxRaftState).readSnapShotToInstall ar
        (kv.makeSnapShot ar) flips).skipList.searchElement key = kv.skipList.searchElement key := by
  intro h
  have hkey := h (pairArchives "k" "v") (holding "k" "v") (-1) (fun _ => 0) (built_holding _ _)
    (pairArchives_roundTrips _ _) "k"
  exact absurd hkey (by decide +kernel)

/-! ## Two receivers -/

theorem or_eq_or_iff {α : Type} {x y : Option α} {a : α} {b : Bool} :
    x.or (if b then some a else none) = y.or (if b then some a else none) ↔
      (x ≠ y → b = true ∧ (∀ v ∈ x, v = a) ∧ ∀ v ∈ y, v = a) := by
  cases b with
  | false => simp
  | true =>
    cases x with
    | none =>
      cases y with
      | none => simp
      | some w => simp [eq_comm]
    | some v =>
      cases y with
      | none => simp
      | some w =>
        by_cases h : v = w
        · simp [h]
        · simp only [Option.some_or, Option.some.injEq, h, ne_eq, not_false_eq_true, Option.mem_def,
            true_and, true_implies, forall_eq', false_iff, not_and]
          rintro rfl rfl
          exact h rfl

/-- Two servers that install the same snapshot hold the same afterwards exactly when, on every key
where they differed, the snapshot has the key and neither bound it to anything but itself. -/
theorem install_agrees_iff (hkv : Built 6 kv.skipList) (har : ar.RoundTrips kv)
    (hkv₁ : Built 6 kv₁.skipList) (hkv₂ : Built 6 kv₂.skipList) {message : ApplyMsg}
    (hmessage : message.snapshot = kv.makeSnapShot ar) (flips₁ flips₂ : ℕ → ℕ) :
    let kv₁' := kv₁.getSnapShotFromRaft ar message flips₁
    let kv₂' := kv₂.getSnapShotFromRaft ar message flips₂
    ((∀ key, kv₁'.skipList.searchElement key = kv₂'.skipList.searchElement key) ∧
      kv₁'.lastRequestId = kv₂'.lastRequestId) ↔
    ∀ key, kv₁.skipList.searchElement key ≠ kv₂.skipList.searchElement key →
      (kv.skipList.searchElement key).isSome ∧
        (∀ value ∈ kv₁.skipList.searchElement key, value = key) ∧
        ∀ value ∈ kv₂.skipList.searchElement key, value = key := by
  intro kv₁' kv₂'
  have hsearch₁ : ∀ k, kv₁'.skipList.searchElement k = (kv₁.skipList.searchElement k).or
      (if (kv.skipList.searchElement k).isSome then some k else none) := by
    intro k
    rw [← search_install har hkv hkv₁ flips₁, ← hmessage]
    rfl
  have hsearch₂ : ∀ k, kv₂'.skipList.searchElement k = (kv₂.skipList.searchElement k).or
      (if (kv.skipList.searchElement k).isSome then some k else none) := by
    intro k
    rw [← search_install har hkv hkv₂ flips₂, ← hmessage]
    rfl
  have htable : kv₁'.lastRequestId = kv₂'.lastRequestId := by
    calc kv₁'.lastRequestId
        = (kv₁.readSnapShotToInstall ar message.snapshot flips₁).lastRequestId := rfl
      _ = kv.lastRequestId := by rw [hmessage, lastRequestId_install har]
      _ = (kv₂.readSnapShotToInstall ar message.snapshot flips₂).lastRequestId := by
        rw [hmessage, lastRequestId_install har]
      _ = kv₂'.lastRequestId := rfl
  simp only [htable, and_true, hsearch₁, hsearch₂]
  exact forall_congr' fun key => or_eq_or_iff

def snapshotMessage (snapshot : String) : ApplyMsg where
  snapshotValid := true
  snapshot := snapshot
  snapshotTerm := 1
  snapshotIndex := 1

/-- The server after a `Put` of the key under itself. -/
def bindingSelf (kv : KvServer) (key : String) : KvServer :=
  { kv with skipList := kv.skipList.insertSetElement key key 1 }

theorem built_bindingSelf (hkv : Built 6 kv.skipList) (key : String) :
    Built 6 (kv.bindingSelf key).skipList := by
  obtain ⟨edits, hedits⟩ := hkv
  refine ⟨edits ++ [.insertSetElement key key 1], ?_⟩
  rw [List.foldl_append, ← hedits]
  rfl

theorem search_bindingSelf (hkv : Built 6 kv.skipList) (key k : String) :
    (kv.bindingSelf key).skipList.searchElement k =
      if k = key then some key else kv.skipList.searchElement k := by
  rw [bindingSelf, (hkv.represents.insertSet key key 1).search, hkv.represents.search]
  exact lookup_upsert _ key key k

/-- Both receivers keep the stale key `a`, and only the second one has the key of the snapshot. -/
theorem install_agrees_bindingSelf :
    let message := snapshotMessage ((holding "k" "v").makeSnapShot (pairArchives "k" "v"))
    let kv₁ := holding "a" "b"
    let kv₂ := (holding "a" "b").bindingSelf "k"
    let kv₁' := kv₁.getSnapShotFromRaft (pairArchives "k" "v") message fun _ => 0
    let kv₂' := kv₂.getSnapShotFromRaft (pairArchives "k" "v") message fun _ => 3
    kv₁.skipList.searchElement "k" ≠ kv₂.skipList.searchElement "k" ∧
      (∀ key, kv₁'.skipList.searchElement key = kv₂'.skipList.searchElement key) ∧
      kv₁'.lastRequestId = kv₂'.lastRequestId := by
  refine ⟨by decide +kernel, ?_⟩
  refine (install_agrees_iff (built_holding _ _) (pairArchives_roundTrips _ _) (built_holding _ _)
    (built_bindingSelf (built_holding _ _) _) rfl _ _).mpr fun key hne => ?_
  rw [search_bindingSelf (built_holding _ _)] at hne ⊢
  by_cases hk : key = "k"
  · subst hk
    have hfresh : (holding "a" "b").skipList.searchElement "k" = none := by decide +kernel
    refine ⟨by decide +kernel, ?_, ?_⟩
    · simp [hfresh]
    · simp
  · rw [if_neg hk] at hne
    exact absurd rfl hne

theorem older_value_survives :
    ¬∀ (ar : Archives) (kv kv₁ kv₂ : KvServer) (flips : ℕ → ℕ), Built 6 kv.skipList →
      Built 6 kv₁.skipList → Built 6 kv₂.skipList → ar.RoundTrips kv → ∀ key,
      (kv₁.getSnapShotFromRaft ar (snapshotMessage (kv.makeSnapShot ar)) flips).skipList.searchElement
        key =
      (kv₂.getSnapShotFromRaft ar (snapshotMessage (kv.makeSnapShot ar)) flips).skipList.searchElement
        key := by
  intro h
  have hkey := h (pairArchives "k" "v") (holding "k" "v") (holding "k" "u") (KvServer.init (-1))
    (fun _ => 0) (built_holding _ _) (built_holding _ _) (built_init _)
    (pairArchives_roundTrips _ _) "k"
  exact absurd hkey (by decide +kernel)

end KvServer
end RaftStorage
