import RaftStorage.Library.Chain
import Mathlib.Data.Int.Notation
import Mathlib.Order.Lattice

/-! `SkipList<K, V>`. The nodes are cells of a memory whose addresses are handed out once; the
header is cell 0. Where the source draws random numbers, the model takes the number of odd values
drawn as an argument. -/

namespace RaftStorage
open Library

structure Node (K V : Type) where
  key : K
  value : V
  nodeLevel : ℕ
  forward : ℕ → Option ℕ

structure SkipList (K V : Type) where
  maxLevel : ℕ
  skipListLevel : ℕ
  elementCount : ℤ
  memory : ℕ → Option (Node K V)
  allocated : ℕ

namespace SkipList

variable {K V : Type}

def header : ℕ := 0

def create [Inhabited K] [Inhabited V] (maxLevel : ℕ) : SkipList K V where
  maxLevel := maxLevel
  skipListLevel := 0
  elementCount := 0
  memory := Function.update (fun _ => none) header (some ⟨default, default, maxLevel, fun _ => none⟩)
  allocated := 1

def forward (l : SkipList K V) (a i : ℕ) : Option ℕ := (l.memory a).bind (·.forward i)

def setForward (l : SkipList K V) (a i : ℕ) (t : Option ℕ) : SkipList K V :=
  let node := (l.memory a).map fun nd => { nd with forward := Function.update nd.forward i t }
  { l with memory := Function.update l.memory a node }

/-- `get_random_level` when `flips` odd numbers are drawn before the first even one. -/
def getRandomLevel (l : SkipList K V) (flips : ℕ) : ℕ :=
  let k := 1 + flips
  if k < l.maxLevel then k else l.maxLevel

variable [LinearOrder K]

def before (l : SkipList K V) (key : K) (a : ℕ) : Bool := (l.memory a).any (·.key < key)

def holds (l : SkipList K V) (key : K) (t : Option ℕ) : Bool :=
  (t.bind l.memory).any (·.key = key)

/-- The search loop over the levels below the first argument; it leaves `current` and `update`. -/
def descend (l : SkipList K V) (key : K) : ℕ → ℕ → (ℕ → Option ℕ) → ℕ × (ℕ → Option ℕ)
  | 0, current, update => (current, update)
  | i + 1, current, update =>
    let current := walk (l.forward · i) (l.before key) l.allocated current
    descend l key i current (Function.update update i (some current))

def path (l : SkipList K V) (key : K) : ℕ × (ℕ → Option ℕ) :=
  l.descend key (l.skipListLevel + 1) header fun _ => none

def searchElement (l : SkipList K V) (key : K) : Option V :=
  let current := l.forward (l.path key).1 0
  if l.holds key current then (current.bind l.memory).map Node.value else none

/-- One round of the loop that links the inserted node. -/
def linkAt (inserted : ℕ) (update : ℕ → Option ℕ) (l : SkipList K V) (i : ℕ) : SkipList K V :=
  match update i with
  | some u => (l.setForward inserted i (l.forward u i)).setForward u i (some inserted)
  | none => l

def insertElement (l : SkipList K V) (key : K) (value : V) (flips : ℕ) : SkipList K V × ℤ :=
  let (current, update) := l.path key
  if l.holds key (l.forward current 0) then (l, 1)
  else
    let randomLevel := l.getRandomLevel flips
    let update := fun i =>
      if l.skipListLevel < i ∧ i < randomLevel + 1 then some header else update i
    let inserted := l.allocated
    let l :=
      { l with
        skipListLevel := if randomLevel > l.skipListLevel then randomLevel else l.skipListLevel
        memory := Function.update l.memory inserted (some ⟨key, value, randomLevel, fun _ => none⟩)
        allocated := l.allocated + 1 }
    let l := (List.range (randomLevel + 1)).foldl (linkAt inserted update) l
    ({ l with elementCount := l.elementCount + 1 }, 0)

/-- The loop that unlinks `current`, from level `i` on for the given number of levels; it stops at
the first level where `update` does not point to `current`. -/
def unlink (current : ℕ) (update : ℕ → Option ℕ) : ℕ → ℕ → SkipList K V → SkipList K V
  | 0, _, l => l
  | k + 1, i, l =>
    match update i with
    | some u =>
      if l.forward u i ≠ some current then l
      else unlink current update k (i + 1) (l.setForward u i (l.forward current i))
    | none => l

/-- The highest level from the given one down, 0 apart, that is not empty. -/
def lowerLevel (l : SkipList K V) : ℕ → ℕ
  | 0 => 0
  | i + 1 => if l.forward header (i + 1) = none then lowerLevel l i else i + 1

def deleteElement (l : SkipList K V) (key : K) : SkipList K V :=
  let (current, update) := l.path key
  match l.forward current 0 with
  | some current =>
    if l.holds key (some current) then
      let l := unlink current update (l.skipListLevel + 1) 0 l
      { l with
        skipListLevel := l.lowerLevel l.skipListLevel
        memory := Function.update l.memory current none
        elementCount := l.elementCount - 1 }
    else l
  | none => l

def insertSetElement (l : SkipList K V) (key : K) (value : V) (flips : ℕ) : SkipList K V :=
  let l := if (l.searchElement key).isSome then l.deleteElement key else l
  (l.insertElement key value flips).1

/-- The loop of `dump_file` along level 0. -/
def dumpFrom (l : SkipList K V) : ℕ → Option ℕ → List (K × V)
  | 0, _ => []
  | k + 1, node =>
    match node.bind l.memory with
    | some nd => (nd.key, nd.value) :: dumpFrom l k (nd.forward 0)
    | none => []

/-- The keys and values that `dump_file` archives. -/
def dump (l : SkipList K V) : List (K × V) := l.dumpFrom l.allocated (l.forward header 0)

end SkipList
end RaftStorage
