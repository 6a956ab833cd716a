import RaftStorage.Library.Text
import Mathlib.Logic.Function.Basic

/-! The cluster configuration. Every `RpcProvider` appends the address of its node to a text file, and
the servers and clerks read the list of nodes back from it with `MprpcConfig`. -/

namespace RaftStorage
open Library

structure MprpcConfig where
  configMap : List Char → Option (List Char)

namespace MprpcConfig

def empty : MprpcConfig := ⟨fun _ => none⟩

/-- A string of spaces only stays as it is: both searches return -1. -/
def trim (srcBuf : List Char) : List Char :=
  let srcBuf := if srcBuf.all (· = ' ') then srcBuf else srcBuf.dropWhile (· = ' ')
  if srcBuf.all (· = ' ') then srcBuf else srcBuf.rdropWhile (· = ' ')

/-- A key that is there keeps its value. -/
def insert (config : MprpcConfig) (key value : List Char) : MprpcConfig :=
  if (config.configMap key).isSome then config
  else ⟨Function.update config.configMap key (some value)⟩

/-- The body of the loop of `LoadConfigFile`, with what `fgets` has read. -/
def loadLine (config : MprpcConfig) (buf : List Char) : MprpcConfig :=
  let readBuf := trim (cString buf)
  if readBuf.head? = some '#' ∨ readBuf = [] then config
  else
    let idx := find readBuf '=' 0
    if idx = -1 then config
    else
      let key := trim (substr readBuf 0 idx)
      let endidx := find readBuf '\n' idx.toNat
      let value := trim (substr readBuf (idx.toNat + 1) (endidx - idx - 1))
      config.insert key value

/-- `while (!feof(pf))`, from the given place in the file. -/
def loadFrom (config : MprpcConfig) (file : List Char) : MprpcConfig :=
  if (fgets 512 file).2.2 = true then config.loadLine (fgets 512 file).1
  else (config.loadLine (fgets 512 file).1).loadFrom (fgets 512 file).2.1
termination_by file.length
decreasing_by exact length_fgetsLoop (by decide) (Bool.eq_false_iff.mpr ‹_›)

def loadConfigFile (file : List Char) : MprpcConfig := empty.loadFrom file

def load (config : MprpcConfig) (key : List Char) : List Char := (config.configMap key).getD []

end MprpcConfig

/-! ## The writer and the readers -/

structure InAddr where
  a : UInt8
  b : UInt8
  c : UInt8
  d : UInt8

def InAddr.ntoa (addr : InAddr) : List Char :=
  Nat.toDigits 10 addr.a.toNat ++ '.' :: (Nat.toDigits 10 addr.b.toNat ++ '.' ::
    (Nat.toDigits 10 addr.c.toNat ++ '.' :: Nat.toDigits 10 addr.d.toNat))

def nodeName (i : ℕ) : List Char := "node".toList ++ Nat.toDigits 10 i

def ipKey (i : ℕ) : List Char := nodeName i ++ "ip".toList

def portKey (i : ℕ) : List Char := nodeName i ++ "port".toList

/-- The keys and values that `RpcProvider::Run` appends, each as `key=value` on a line. -/
def RpcProvider.runEntries (nodeIndex : ℕ) (ip : InAddr) (port : Int16) :
    List (List Char × List Char) :=
  [(ipKey nodeIndex, ip.ntoa), (portKey nodeIndex, toStringInt port.toInt)]

/-- `INT_MAX - 1` -/
def nodeLimit : ℕ := 2147483646

/-- The loop over the nodes from `i` on, with `k` iterations left. -/
def nodeLoop (config : MprpcConfig) : ℕ → ℕ → List (List Char × Int16)
  | 0, _ => []
  | k + 1, i =>
    let nodeIp := config.load (ipKey i)
    let nodePortStr := config.load (portKey i)
    if nodeIp = [] then []
    else (nodeIp, Int16.ofInt (atoi nodePortStr)) :: nodeLoop config k (i + 1)

/-- `ipPortVt` in the constructor of `KvServer`. -/
def KvServer.ipPortVt (config : MprpcConfig) : List (List Char × Int16) := nodeLoop config nodeLimit 0

/-- `ipPortVt` in `Clerk::Init`. -/
def Clerk.ipPortVt (config : MprpcConfig) : List (List Char × Int16) := nodeLoop config nodeLimit 0

/-! ## Layouts of the file -/

/-- A line of the file. The numbers are runs of spaces. -/
inductive ConfLine where
  | blank (k : ℕ)
  | comment (k : ℕ) (text : { text : List Char // '\n' ∉ text })
  | entry (key value : List Char) (k₁ k₂ k₃ k₄ : ℕ)

def spaces (k : ℕ) : List Char := List.replicate k ' '

namespace ConfLine

def text : ConfLine → List Char
  | .blank k => spaces k
  | .comment k text => spaces k ++ '#' :: text.val
  | .entry key value k₁ k₂ k₃ k₄ =>
    spaces k₁ ++ (key ++ (spaces k₂ ++ '=' :: (spaces k₃ ++ (value ++ spaces k₄))))

def entry? : ConfLine → Option (List Char × List Char)
  | .entry key value _ _ _ _ => some (key, value)
  | _ => none

end ConfLine

def fileText (lines : List ConfLine) : List Char :=
  List.intercalate ['\n'] (lines.map ConfLine.text)

def writtenFrom : ℕ → List (InAddr × Int16) → List (List Char × List Char)
  | _, [] => []
  | i, (ip, port) :: nodes => RpcProvider.runEntries i ip port ++ writtenFrom (i + 1) nodes

end RaftStorage
