import RaftStorage.Rpc.Header

/-! `RpcProvider::OnMessage` and the encoder of `MprpcChannel::CallMethod`. The provider takes one
request off each buffer; the results of reading the header size and the header are not checked. -/

namespace RaftStorage
open Library

/-- A registered service: its descriptor, and which bytes the request of a method can be parsed
from. -/
structure Service where
  name : Bytes
  methods : List Bytes
  parses : Bytes → Bytes → Bool
  name_ne : name ≠ []
  method_ne : ∀ m ∈ methods, m ≠ []

structure Dispatch where
  service : Bytes
  method : Bytes
  args : Bytes
  deriving DecidableEq, Repr

structure RpcProvider where
  serviceMap : List Service

/-! ## The streams of the protobuf library -/

/-- `ArrayInputStream`, documented to stream the `size` bytes at its address. The size is an `int`, so
that of a large buffer wraps around; a negative one is not documented, and here the stream is then
empty, as nothing is left to read. -/
def arrayInput (buf : Bytes) : Bytes :=
  let size := buf.length % 2 ^ 32
  if size < 2 ^ 31 then buf.take size else []

/-- `CodedInputStream::ReadVarint32`, documented to be a 64-bit varint of at most ten bytes, cut to 32
bits. What a failed read leaves in the number is not documented: here all bits are set, the -1 that
the library casts. Where the stream then stands makes no difference below. -/
def codedReadVarint32 (input : Bytes) : ℕ × Bytes :=
  match readVarint 10 input with
  | some (v, rest) => (v % 2 ^ 32, rest)
  | none => (2 ^ 32 - 1, input)

/-- `CodedInputStream::ReadString`: whether it succeeds, the string and the rest. It is documented to
return false on short input, where it may leave the bytes that it got in the string; here it does.
The size is an `int`, and a negative one fails before anything is read. -/
def codedReadString (input : Bytes) (size : ℕ) : Bool × Bytes × Bytes :=
  if 2 ^ 31 ≤ size then (false, [], input)
  else if size ≤ input.length then (true, input.take size, input.drop size)
  else (false, input, [])

namespace RpcProvider

variable {unknown : RpcHeader.UnknownFieldParse} {p : RpcProvider} {d : Dispatch}

/-- `insert` keeps the service that already has the name. -/
def notifyService (p : RpcProvider) (service : Service) : RpcProvider :=
  if p.serviceMap.any (·.name = service.name) then p else ⟨p.serviceMap ++ [service]⟩

/-- `OnMessage` once it has the names and the arguments. -/
def dispatch (p : RpcProvider) (serviceName methodName argsStr : Bytes) : Option Dispatch :=
  match p.serviceMap.find? (·.name = serviceName) with
  | none => none
  | some service =>
    if methodName ∈ service.methods then
      if service.parses methodName argsStr then some ⟨serviceName, methodName, argsStr⟩ else none
    else none

/-- `OnMessage` once it has the header. -/
def readArgs (p : RpcProvider) (input : Bytes) (rpcHeader : RpcHeader) : Option Dispatch :=
  let (readArgsSuccess, argsStr, _) := codedReadString input rpcHeader.argsSize
  if readArgsSuccess then p.dispatch rpcHeader.serviceName rpcHeader.methodName argsStr else none

/-- `OnMessage` on its stream. The limit that is pushed around the read of the header ends where the
header ends. -/
def onInput (unknown : RpcHeader.UnknownFieldParse) (p : RpcProvider) (input : Bytes) :
    Option Dispatch :=
  let (headerSize, input) := codedReadVarint32 input
  let (_, rpcHeaderStr, input) := codedReadString input headerSize
  match RpcHeader.parseFromString unknown rpcHeaderStr with
  | none => none
  | some rpcHeader => p.readArgs input rpcHeader

def onMessage (unknown : RpcHeader.UnknownFieldParse) (p : RpcProvider) (recvBuf : Bytes) :
    Option Dispatch := p.onInput unknown (arrayInput recvBuf)

def Registered (p : RpcProvider) (serviceName methodName : Bytes) : Prop :=
  ∃ service, p.serviceMap.find? (·.name = serviceName) = some service ∧
    methodName ∈ service.methods

instance (s m : Bytes) : Decidable (p.Registered s m) :=
  match h : p.serviceMap.find? (·.name = s) with
  | none => isFalse fun ⟨_, hfind, _⟩ => nomatch h.symm.trans hfind
  | some service => decidable_of_iff (m ∈ service.methods)
    ⟨fun hm => ⟨service, h, hm⟩, fun ⟨_, hfind, hm⟩ => Option.some.inj (h.symm.trans hfind) ▸ hm⟩

def Accepts (p : RpcProvider) (serviceName methodName argsStr : Bytes) : Prop :=
  ∃ service, p.serviceMap.find? (·.name = serviceName) = some service ∧
    methodName ∈ service.methods ∧ service.parses methodName argsStr = true

theorem dispatch_eq_some_iff {s m a : Bytes} :
    p.dispatch s m a = some d ↔ d = ⟨s, m, a⟩ ∧ p.Accepts s m a := by
  unfold dispatch Accepts
  split
  · rename_i hfind
    simp [hfind]
  · rename_i service hfind
    split_ifs with hmethod hparses
    · rw [Option.some_inj, eq_comm]
      simp [hfind, hmethod, hparses]
    · simp [hfind, hparses]
    · simp [hfind, hmethod]

theorem dispatch_ne_none_iff {s m a : Bytes} : p.dispatch s m a ≠ none ↔ p.Accepts s m a := by
  rw [Option.ne_none_iff_exists']
  constructor
  · rintro ⟨d, hd⟩
    exact (dispatch_eq_some_iff.mp hd).2
  · intro h
    exact ⟨_, dispatch_eq_some_iff.mpr ⟨rfl, h⟩⟩

theorem Registered.ne_nil {s m : Bytes} (h : p.Registered s m) : s ≠ [] ∧ m ≠ [] := by
  obtain ⟨service, hfind, hmethod⟩ := h
  have hname : service.name = s := by simpa using List.find?_some hfind
  exact ⟨hname ▸ service.name_ne, service.method_ne m hmethod⟩

theorem Accepts.registered {s m a : Bytes} (h : p.Accepts s m a) : p.Registered s m := by
  obtain ⟨service, hfind, hmethod, -⟩ := h
  exact ⟨service, hfind, hmethod⟩

theorem dispatch_some {s m a : Bytes} (h : p.dispatch s m a = some d) :
    d = ⟨s, m, a⟩ ∧ s ≠ [] ∧ m ≠ [] := by
  obtain ⟨hd, haccepts⟩ := dispatch_eq_some_iff.mp h
  exact ⟨hd, haccepts.registered.ne_nil⟩

/-! ## Spurious dispatch -/

/-- The input starts with a complete frame for the call. -/
def StartsWith (unknown : RpcHeader.UnknownFieldParse) (input : Bytes) (d : Dispatch) : Prop :=
  ∃ v header rest, readVarint 10 input = some (v, header ++ (d.args ++ rest)) ∧
    header.length = v % 2 ^ 32 ∧
    RpcHeader.parseFromString unknown header = some ⟨d.service, d.method, d.args.length⟩

/-- The input ends within the announced header, and what is there of it is a header without
arguments for a method that can be called without arguments. -/
def CutHeader (unknown : RpcHeader.UnknownFieldParse) (p : RpcProvider) (input : Bytes)
    (d : Dispatch) : Prop :=
  ∃ v rest, readVarint 10 input = some (v, rest) ∧ rest.length < v % 2 ^ 32 ∧
    v % 2 ^ 32 < 2 ^ 31 ∧ RpcHeader.parseFromString unknown rest = some ⟨d.service, d.method, 0⟩ ∧
    d.args = [] ∧ p.Accepts d.service d.method []

theorem dispatch_nil (m a : Bytes) : p.dispatch [] m a = none := by
  cases h : p.dispatch [] m a with
  | none => rfl
  | some d => exact absurd rfl (dispatch_some h).2.1

theorem parse_nil : RpcHeader.parseFromString unknown [] = some {} := rfl

theorem readArgs_nil (input : Bytes) : p.readArgs input {} = none := by
  simp [readArgs, codedReadString, dispatch_nil]

theorem readArgs_some {input : Bytes} {h : RpcHeader} (hd : p.readArgs input h = some d) :
    d = ⟨h.serviceName, h.methodName, input.take h.argsSize⟩ ∧ h.argsSize ≤ input.length ∧
      p.dispatch h.serviceName h.methodName (input.take h.argsSize) = some d := by
  unfold readArgs codedReadString at hd
  split_ifs at hd with hlarge hle
  · cases hd
  · exact ⟨(dispatch_some hd).1, hle, hd⟩
  · cases hd

variable {input rest : Bytes} {v : ℕ}

theorem onInput_eq {size : ℕ} {input' str : Bytes} {success : Bool}
    (hsize : codedReadVarint32 input = (size, input'))
    (hstr : codedReadString input' size = (success, str, rest)) :
    p.onInput unknown input =
      (RpcHeader.parseFromString unknown str).bind (p.readArgs rest) := by
  unfold onInput
  rw [hsize]
  dsimp only
  rw [hstr]
  dsimp only
  cases RpcHeader.parseFromString unknown str <;> rfl

theorem codedReadVarint32_some (h : readVarint 10 input = some (v, rest)) :
    codedReadVarint32 input = (v % 2 ^ 32, rest) := by
  rw [codedReadVarint32, h]

theorem onInput_unsized (h : readVarint 10 input = none) :
    p.onInput unknown input = none := by
  have hsize : codedReadVarint32 input = (2 ^ 32 - 1, input) := by
    rw [codedReadVarint32, h]
  have hstr : codedReadString input (2 ^ 32 - 1) = (false, [], input) := by
    rw [codedReadString, if_pos (by omega)]
  rw [onInput_eq hsize hstr, parse_nil]
  exact readArgs_nil _

theorem onInput_negative (h : readVarint 10 input = some (v, rest))
    (hv : 2 ^ 31 ≤ v % 2 ^ 32) : p.onInput unknown input = none := by
  have hstr : codedReadString rest (v % 2 ^ 32) = (false, [], rest) := by
    rw [codedReadString, if_pos hv]
  rw [onInput_eq (codedReadVarint32_some h) hstr, parse_nil]
  exact readArgs_nil _

theorem onInput_whole (h : readVarint 10 input = some (v, rest))
    (hv : v % 2 ^ 32 < 2 ^ 31) (hle : v % 2 ^ 32 ≤ rest.length) :
    p.onInput unknown input = (RpcHeader.parseFromString unknown (rest.take (v % 2 ^ 32))).bind
      (p.readArgs (rest.drop (v % 2 ^ 32))) := by
  refine onInput_eq (codedReadVarint32_some h) (?_ : _ = (true, _, _))
  rw [codedReadString, if_neg (not_le.mpr hv), if_pos hle]

theorem onInput_short (h : readVarint 10 input = some (v, rest))
    (hv : v % 2 ^ 32 < 2 ^ 31) (hlt : rest.length < v % 2 ^ 32) :
    p.onInput unknown input =
      (RpcHeader.parseFromString unknown rest).bind (p.readArgs []) := by
  refine onInput_eq (codedReadVarint32_some h) (?_ : _ = (false, rest, []))
  rw [codedReadString, if_neg (not_le.mpr hv), if_neg (not_le.mpr hlt)]

theorem onInput_some (hd : p.onInput unknown input = some d) :
    StartsWith unknown input d ∨ CutHeader unknown p input d := by
  cases hread : readVarint 10 input with
  | none => rw [onInput_unsized hread] at hd; cases hd
  | some out =>
    obtain ⟨v, rest⟩ := out
    by_cases hv : v % 2 ^ 32 < 2 ^ 31
    case neg => rw [onInput_negative hread (not_lt.mp hv)] at hd; cases hd
    by_cases hle : v % 2 ^ 32 ≤ rest.length
    · rw [onInput_whole hread hv hle] at hd
      obtain ⟨h, hparse, hcall⟩ := Option.bind_eq_some_iff.mp hd
      obtain ⟨rfl, hargs, -⟩ := readArgs_some hcall
      refine Or.inl ⟨v, rest.take (v % 2 ^ 32), (rest.drop (v % 2 ^ 32)).drop h.argsSize, ?_, ?_, ?_⟩
      · rw [List.take_append_drop, List.take_append_drop, hread]
      · rw [List.length_take, min_eq_left hle]
      · rw [hparse, List.length_take, min_eq_left hargs]
    · rw [not_le] at hle
      rw [onInput_short hread hv hle] at hd
      obtain ⟨h, hparse, hcall⟩ := Option.bind_eq_some_iff.mp hd
      obtain ⟨rfl, hargs, hdisp⟩ := readArgs_some hcall
      have hzero : h.argsSize = 0 := by simpa using hargs
      refine Or.inr ⟨v, rest, hread, hle, hv, ?_, ?_, ?_⟩
      · rw [hparse, ← hzero]
      · exact List.take_nil
      · rw [List.take_nil] at hdisp
        exact (dispatch_eq_some_iff.mp hdisp).2

theorem CutHeader.onInput (h : CutHeader unknown p input d) : p.onInput unknown input = some d := by
  obtain ⟨v, rest, hread, hlt, hv, hparse, hargs, haccepts⟩ := h
  have hdisp : p.dispatch d.service d.method [] = some d :=
    dispatch_eq_some_iff.mpr ⟨by rw [← hargs], haccepts⟩
  rw [onInput_short hread hv hlt, hparse]
  simpa [readArgs, codedReadString] using hdisp

theorem CutHeader.not_startsWith (h : CutHeader unknown p input d) :
    ¬StartsWith unknown input d := by
  obtain ⟨v, rest, hread, hlt, -⟩ := h
  rintro ⟨v', header, rest', hread', hlen, -⟩
  rw [hread] at hread'
  obtain ⟨rfl, rfl⟩ := Prod.mk.inj (Option.some.inj hread')
  rw [List.length_append] at hlt
  omega

theorem StartsWith.append (h : StartsWith unknown input d) (more : Bytes) :
    StartsWith unknown (input ++ more) d := by
  obtain ⟨v, header, rest, hread, hlen, hparse⟩ := h
  refine ⟨v, header, rest ++ more, ?_, hlen, hparse⟩
  rw [readVarint_append hread more, List.append_assoc, List.append_assoc]

/-! ## Buffers -/

theorem arrayInput_isPrefix (buf : Bytes) : arrayInput buf <+: buf := by
  unfold arrayInput
  dsimp only
  split_ifs
  · exact List.take_prefix _ _
  · exact List.nil_prefix

theorem arrayInput_of_lt {buf : Bytes} (h : buf.length < 2 ^ 31) : arrayInput buf = buf := by
  unfold arrayInput
  dsimp only
  rw [Nat.mod_eq_of_lt (by omega), if_pos h, List.take_length]

/-- The stream of the buffer has a cut header, for a call that the buffer has no frame of. A stream
shows a buffer of less than 2 GiB whole, and then the second part follows from the first. -/
def CutFrame (unknown : RpcHeader.UnknownFieldParse) (p : RpcProvider) (recvBuf : Bytes) : Prop :=
  ∃ d, CutHeader unknown p (arrayInput recvBuf) d ∧ ¬StartsWith unknown recvBuf d

theorem cutFrame_iff {recvBuf : Bytes} (h : recvBuf.length < 2 ^ 31) :
    CutFrame unknown p recvBuf ↔ ∃ d, CutHeader unknown p recvBuf d := by
  unfold CutFrame
  rw [arrayInput_of_lt h]
  exact ⟨fun ⟨d, hcut, _⟩ => ⟨d, hcut⟩, fun ⟨d, hcut⟩ => ⟨d, hcut, hcut.not_startsWith⟩⟩

theorem onMessage_startsWith_iff (recvBuf : Bytes) :
    (∀ d, p.onMessage unknown recvBuf = some d → StartsWith unknown recvBuf d) ↔
      ¬CutFrame unknown p recvBuf := by
  constructor
  · rintro hall ⟨d, hcut, hnot⟩
    exact hnot (hall d hcut.onInput)
  · intro hnot d hd
    by_contra hstarts
    rcases onInput_some hd with hframe | hcut
    · obtain ⟨more, hmore⟩ := arrayInput_isPrefix recvBuf
      rw [← hmore] at hstarts
      exact hstarts (hframe.append more)
    · exact hnot ⟨d, hcut, hstarts⟩

end RpcProvider
end RaftStorage
