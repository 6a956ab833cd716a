import RaftStorage.Raft.Handlers
import RaftStorage.Rpc.Header

/-! The way back of a call. The provider writes the serialized response to the connection, without a
length in front, and `CallMethod` parses what a single `recv` returns. A response has the fields 1, 2
and so on, and a field with its default value is not written. -/

namespace RaftStorage
open Library

inductive FieldKind where
  | int32 | bool | bytes
  deriving DecidableEq, Repr

inductive FieldValue where
  | int32 (v : BitVec 32)
  | bool (b : Bool)
  | bytes (s : Bytes)
  deriving DecidableEq, Repr

namespace FieldKind

def default : FieldKind → FieldValue
  | .int32 => .int32 0
  | .bool => .bool false
  | .bytes => .bytes []

def tag (kind : FieldKind) (number : ℕ) : ℕ :=
  match kind with
  | .int32 | .bool => 8 * number
  | .bytes => 8 * number + 2

/-- `ReadVarint64`, converted to the type of the field, or `InlineGreedyStringParser`. -/
def read : FieldKind → Reader FieldValue
  | .int32 => (readVarint 10).map fun v => .int32 (BitVec.ofNat 32 v)
  | .bool => (readVarint 10).map fun v => .bool (v % 2 ^ 64 ≠ 0)
  | .bytes => readString.map .bytes

theorem tag_div (kind : FieldKind) (number : ℕ) : kind.tag number / 8 = number := by
  cases kind <;> simp only [tag] <;> omega

theorem tag_le (kind : FieldKind) (number : ℕ) : kind.tag number ≤ 8 * number + 2 := by
  cases kind <;> simp only [tag] <;> omega

end FieldKind

namespace FieldValue

def kind : FieldValue → FieldKind
  | .int32 _ => .int32
  | .bool _ => .bool
  | .bytes _ => .bytes

/-- A negative number is extended to 64 bits. -/
def write : FieldValue → Bytes
  | .int32 v => writeVarint 10 (v.signExtend 64).toNat
  | .bool b => writeVarint 1 b.toNat
  | .bytes s => writeString s

def field (number : ℕ) (v : FieldValue) : Bytes :=
  if v = v.kind.default then [] else writeVarint 5 (v.kind.tag number) ++ v.write

def Fits : FieldValue → Prop
  | .bytes s => s.length < 128 ^ 5
  | _ => True

theorem writeVarint_ne_nil (k n : ℕ) : writeVarint (k + 1) n ≠ [] := by
  rw [writeVarint]
  split_ifs <;> exact List.cons_ne_nil _ _

theorem field_eq_nil {number : ℕ} {v : FieldValue} : v.field number = [] ↔ v = v.kind.default := by
  unfold field
  split_ifs with h
  · exact ⟨fun _ => h, fun _ => rfl⟩
  · refine ⟨fun hnil => ?_, fun hdef => absurd hdef h⟩
    exact absurd (List.append_eq_nil_iff.mp hnil).1 (writeVarint_ne_nil 4 _)

theorem ofNat_signExtend (v : BitVec 32) : BitVec.ofNat 32 (v.signExtend 64).toNat = v := by
  rw [BitVec.ofNat_toNat]
  ext i hi
  have hlt : i < 64 := hi.trans (by decide)
  rw [BitVec.getElem_setWidth, BitVec.getLsbD_signExtend, if_pos hi, BitVec.getLsbD_eq_getElem hi]
  simp [hlt]

theorem reads_write {v : FieldValue} (h : v.Fits) : Reads v.kind.read v.write v := by
  cases v with
  | int32 v =>
    have hlt : (v.signExtend 64).toNat < 128 ^ 10 :=
      (v.signExtend 64).isLt.trans (by decide)
    have hmap := (reads_varint le_rfl hlt (by decide)).map fun v => FieldValue.int32 (BitVec.ofNat 32 v)
    rw [ofNat_signExtend] at hmap
    exact hmap
  | bool b =>
    have hlt : b.toNat < 128 ^ 1 := (Bool.toNat_lt b).trans (by decide)
    have hread : Reads (readVarint 10) (writeVarint 1 b.toNat) b.toNat :=
      reads_varint (by decide) hlt (by decide)
    have hmap := hread.map fun v => FieldValue.bool (v % 2 ^ 64 ≠ 0)
    have hsame : decide (b.toNat % 2 ^ 64 ≠ 0) = b := by cases b <;> decide
    rw [hsame] at hmap
    exact hmap
  | bytes s => exact (reads_string h).map FieldValue.bytes

end FieldValue

abbrev Message := List FieldValue

namespace Message

variable {unknown : RpcHeader.UnknownFieldParse} {m done rest : Message} {v w : FieldValue}

def serializeFrom : ℕ → Message → Bytes
  | _, [] => []
  | number, v :: m => v.field number ++ serializeFrom (number + 1) m

/-- `_InternalSerialize` -/
def serialize (m : Message) : Bytes := serializeFrom 1 m

def fieldAt (m : Message) (number : ℕ) : Option FieldValue :=
  if number = 0 then none else m[number - 1]?

def handleUnusual (unknown : RpcHeader.UnknownFieldParse) (m : Message) (tag : ℕ) :
    Reader Message :=
  if tag % 8 = 4 ∨ tag = 0 then fun _ => none
  else fun bytes => (unknown tag bytes).map fun rest => (m, rest)

/-- The `switch` of `_InternalParse`. -/
def parseTagged (unknown : RpcHeader.UnknownFieldParse) (m : Message) (tag : ℕ) : Reader Message :=
  match m.fieldAt (tag / 8) with
  | some v =>
    if tag % 256 = v.kind.tag (tag / 8) % 256 then v.kind.read.map fun v => m.set (tag / 8 - 1) v
    else handleUnusual unknown m tag
  | none => handleUnusual unknown m tag

def parseField (unknown : RpcHeader.UnknownFieldParse) (m : Message) : Reader Message :=
  (readVarint 5).andThen fun tag => parseTagged unknown m (tag % 2 ^ 32)

def parseFromArray (unknown : RpcHeader.UnknownFieldParse) (kinds : List FieldKind) (bytes : Bytes) :
    Option Message :=
  readAll (parseField unknown) bytes.length (kinds.map FieldKind.default) bytes

/-! ## Messages as they are written -/

theorem serializeFrom_append (number : ℕ) (m m' : Message) :
    serializeFrom number (m ++ m') = serializeFrom number m ++ serializeFrom (number + m.length) m' := by
  induction m generalizing number with
  | nil => rfl
  | cons v m ih =>
    rw [List.cons_append, serializeFrom, serializeFrom, ih, List.append_assoc, List.length_cons,
      Nat.add_assoc, Nat.add_comm 1]

def clear (m : Message) : Message := m.map fun v => v.kind.default

theorem serializeFrom_eq_nil (number : ℕ) (m : Message) :
    serializeFrom number m = [] ↔ m.clear = m := by
  induction m generalizing number with
  | nil => exact ⟨fun _ => rfl, fun _ => rfl⟩
  | cons v m ih =>
    rw [serializeFrom, List.append_eq_nil_iff, FieldValue.field_eq_nil, ih]
    simp only [clear, List.map_cons, List.cons.injEq]
    exact and_congr_left' eq_comm

theorem reads_tagged (hfits : v.Fits) (hkind : w.kind = v.kind) :
    Reads (parseTagged unknown (done ++ w :: rest) (v.kind.tag (done.length + 1))) v.write
      (done ++ v :: rest) := by
  rw [parseTagged]
  have hat : fieldAt (done ++ w :: rest) (v.kind.tag (done.length + 1) / 8) = some w := by
    simp [fieldAt, v.kind.tag_div]
  rw [hat]
  dsimp only
  rw [v.kind.tag_div, hkind, if_pos rfl]
  have hset : (done ++ w :: rest).set (done.length + 1 - 1) v = done ++ v :: rest := by simp
  rw [← hset]
  exact (FieldValue.reads_write hfits).map fun v => (done ++ w :: rest).set (done.length + 1 - 1) v

theorem reads_field (hfits : v.Fits) (hkind : w.kind = v.kind) (hlen : done.length < 2 ^ 28) :
    Reads (parseField unknown (done ++ w :: rest))
      (writeVarint 5 (v.kind.tag (done.length + 1)) ++ v.write) (done ++ v :: rest) := by
  have hle := v.kind.tag_le (done.length + 1)
  have htag : Reads (readVarint 5) (writeVarint 5 (v.kind.tag (done.length + 1)))
      (v.kind.tag (done.length + 1)) := reads_varint le_rfl (by omega) (by decide)
  refine htag.andThen ?_
  rw [Nat.mod_eq_of_lt (by omega)]
  exact reads_tagged hfits hkind

def records (done : Message) : Message → List (Bytes × Message)
  | [] => []
  | v :: rest =>
    (v.field (done.length + 1), done ++ [v] ++ clear rest) :: records (done ++ [v]) rest

theorem length_records (done rest : Message) : (records done rest).length = rest.length := by
  induction rest generalizing done with
  | nil => rfl
  | cons v rest ih => rw [records, List.length_cons, List.length_cons, ih]

theorem trail_records (unknown : RpcHeader.UnknownFieldParse) (hfits : ∀ v ∈ rest, v.Fits)
    (hlen : done.length + rest.length ≤ 2 ^ 28) :
    Trail (parseField unknown) (done ++ clear rest) (records done rest) := by
  induction rest generalizing done with
  | nil => exact .nil _
  | cons v rest ih =>
    have hnext : Trail (parseField unknown) (done ++ [v] ++ clear rest) (records (done ++ [v]) rest) := by
      refine ih (fun w hw => hfits w (List.mem_cons_of_mem v hw)) ?_
      simp only [List.length_append, List.length_cons, List.length_nil] at hlen ⊢
      omega
    by_cases hdef : v = v.kind.default
    · have hsame : done ++ clear (v :: rest) = done ++ [v] ++ clear rest := by
        simp [clear, ← hdef]
      rw [records, FieldValue.field_eq_nil.mpr hdef, hsame]
      exact .skip hnext
    · have hfield : v.field (done.length + 1) =
          writeVarint 5 (v.kind.tag (done.length + 1)) ++ v.write := by
        rw [FieldValue.field, if_neg hdef]
      have hkind : v.kind.default.kind = v.kind := by cases v <;> rfl
      rw [List.length_cons] at hlen
      have hread : Reads (parseField unknown (done ++ v.kind.default :: clear rest)) _
          (done ++ v :: clear rest) :=
        reads_field (hfits v List.mem_cons_self) hkind (by omega)
      rw [← hfield] at hread
      refine .cons ?_ (fun hnil => hdef (FieldValue.field_eq_nil.mp hnil)) hnext
      simpa [clear] using hread

theorem bytesOf_records (done rest : Message) (j : ℕ) :
    bytesOf ((records done rest).take j) = serializeFrom (done.length + 1) (rest.take j) := by
  induction rest generalizing done j with
  | nil => simp [records, bytesOf, serializeFrom]
  | cons v rest ih =>
    cases j with
    | zero => rfl
    | succ j =>
      rw [records, List.take_succ_cons, bytesOf, ih, List.take_succ_cons, serializeFrom]
      simp

theorem lastOf_records (done rest : Message) (j : ℕ) :
    lastOf (done ++ clear rest) ((records done rest).take j) =
      done ++ rest.take j ++ clear (rest.drop j) := by
  induction rest generalizing done j with
  | nil => simp [records, lastOf, clear]
  | cons v rest ih =>
    cases j with
    | zero => simp [lastOf]
    | succ j =>
      rw [records, List.take_succ_cons, lastOf, ih]
      simp

theorem parse_take_iff (hfits : ∀ v ∈ m, v.Fits) (hlen : m.length ≤ 2 ^ 28) {size : ℕ}
    (hsize : size ≤ m.serialize.length) {m' : Message} :
    parseFromArray unknown (m.map FieldValue.kind) (m.serialize.take size) = some m' ↔
      ∃ j, size = (serialize (m.take j)).length ∧ m' = m.take j ++ clear (m.drop j) := by
  have hbytes : bytesOf (records [] m) = m.serialize := by
    have hall := bytesOf_records [] m m.length
    rwa [List.take_of_length_le (length_records [] m).le, List.take_length] at hall
  have hlength : (m.serialize.take size).length = size := by
    rw [List.length_take]
    omega
  have hblank : (m.map FieldValue.kind).map FieldKind.default = [] ++ clear m := by
    simp [clear]
  have hlast : ∀ j, lastOf ([] ++ clear m) ((records [] m).take j) = m.take j ++ clear (m.drop j) :=
    fun j => lastOf_records [] m j
  rw [parseFromArray, hlength, hblank, ← hbytes,
    (trail_records unknown hfits (by simpa using hlen)).readAll_take (by rwa [hbytes]) le_rfl]
  simp only [StopsAt, bytesOf_records, hlast]
  rfl

theorem take_append_clear (m : Message) (j : ℕ) :
    m.take j ++ clear (m.drop j) = m ↔ (serialize (m.take j)).length = m.serialize.length := by
  have hsplit : m.serialize = serialize (m.take j) ++ serializeFrom (1 + (m.take j).length) (m.drop j) := by
    rw [serialize, serialize, ← serializeFrom_append, List.take_append_drop]
  have hrest : m.take j ++ clear (m.drop j) = m ↔ clear (m.drop j) = m.drop j := by
    constructor
    · intro h
      exact List.append_cancel_left (h.trans (List.take_append_drop j m).symm)
    · intro h
      rw [h, List.take_append_drop]
  have hnil := serializeFrom_eq_nil (1 + (m.take j).length) (m.drop j)
  rw [hrest, ← hnil, ← List.length_eq_zero_iff, hsplit, List.length_append]
  omega

theorem length_le_serializeFrom {s : Bytes} (h : FieldValue.bytes s ∈ m) (number : ℕ) :
    s.length ≤ (serializeFrom number m).length := by
  induction m generalizing number with
  | nil => cases h
  | cons v m ih =>
    rw [serializeFrom, List.length_append]
    rcases List.mem_cons.mp h with rfl | h
    · have hfield : s.length ≤ (FieldValue.field number (.bytes s)).length := by
        unfold FieldValue.field
        split_ifs with hdef
        · obtain rfl := FieldValue.bytes.inj hdef
          exact le_rfl
        · simp only [FieldValue.write, writeString, List.length_append]
          omega
      omega
    · have := ih h (number + 1)
      omega

theorem fits_of_length (h : m.serialize.length < 2 ^ 31) : ∀ v ∈ m, v.Fits := by
  intro v hv
  cases v with
  | bytes s =>
    have hle : s.length ≤ m.serialize.length := length_le_serializeFrom hv 1
    exact (hle.trans_lt h).trans (by decide)
  | int32 v => trivial
  | bool b => trivial

end Message

/-! ## One call -/

/-- The responses of `raftRpc` and `kvServerRpc`. -/
inductive ResponseType where
  | appendEntriesReply | requestVoteReply | installSnapshotResponse | getReply | putAppendReply
  deriving DecidableEq, Repr

def ResponseType.fields : ResponseType → List FieldKind
  | .appendEntriesReply => [.int32, .bool, .int32, .int32]
  | .requestVoteReply => [.int32, .bool, .int32]
  | .installSnapshotResponse => [.int32]
  | .getReply => [.bytes, .bytes]
  | .putAppendReply => [.bytes]

structure Response where
  type : ResponseType
  values : Message
  typed : values.map FieldValue.kind = type.fields

/-- What `SendRpcResponse` writes to the connection; a message of 2 GiB or more is not serialized. -/
def RpcProvider.sendRpcResponse (r : Response) : Bytes :=
  let responseStr := r.values.serialize
  if 2 ^ 31 ≤ responseStr.length then [] else responseStr

/-- What `recv` can come to: an error, the end of the connection, or as many bytes as have arrived and
fit. -/
inductive RecvOutcome where
  | error
  | closed
  | part (size : ℕ)

def RecvOutcome.Possible (sent : Bytes) : RecvOutcome → Prop
  | .part size => 0 < size ∧ size ≤ 1024 ∧ size ≤ sent.length
  | _ => True

/-- The bytes in `recv_buf`, or nothing when `recv` returns -1. -/
def RecvOutcome.recvBuf (sent : Bytes) : RecvOutcome → Option Bytes
  | .error => none
  | .closed => some []
  | .part size => some (sent.take size)

/-- `CallMethod` from `recv` on: the response, or nothing after `SetFailed`. -/
def MprpcChannel.receiveResponse (unknown : RpcHeader.UnknownFieldParse) (type : ResponseType)
    (recvBuf : Option Bytes) : Option Message :=
  recvBuf.bind (Message.parseFromArray unknown type.fields)

namespace Response

variable {unknown : RpcHeader.UnknownFieldParse} {r : Response} {size : ℕ}

def received (unknown : RpcHeader.UnknownFieldParse) (r : Response) (o : RecvOutcome) :
    Option Message :=
  MprpcChannel.receiveResponse unknown r.type (o.recvBuf (RpcProvider.sendRpcResponse r))

/-- A call that is not failed has the response that was sent, and the end of the connection is a
failure. -/
def Faithful (unknown : RpcHeader.UnknownFieldParse) (r : Response) (o : RecvOutcome) : Prop :=
  (∀ m, r.received unknown o = some m → m = r.values) ∧
    (o = .closed → r.received unknown o = none)

/-- The bytes end between two fields. -/
def CutBetweenFields (r : Response) (size : ℕ) : Prop :=
  size < r.values.serialize.length ∧ ∃ j, size = (Message.serialize (r.values.take j)).length

theorem received_closed (unknown : RpcHeader.UnknownFieldParse) (r : Response) :
    r.received unknown .closed = some (r.type.fields.map FieldKind.default) := rfl

theorem length_sendRpcResponse_le (r : Response) :
    (RpcProvider.sendRpcResponse r).length ≤ r.values.serialize.length := by
  unfold RpcProvider.sendRpcResponse
  dsimp only
  split_ifs
  · exact Nat.zero_le _
  · exact le_rfl

theorem length_values (r : Response) : r.values.length ≤ 2 ^ 28 := by
  have hlen : r.values.length = r.type.fields.length := by
    rw [← r.typed, List.length_map]
  have hfew : r.type.fields.length ≤ 4 := by cases r.type <;> decide
  omega

theorem received_part (hpos : 0 < size) (hle : size ≤ (RpcProvider.sendRpcResponse r).length)
    {m : Message} : r.received unknown (.part size) = some m ↔
      ∃ j, size = (Message.serialize (r.values.take j)).length ∧
        m = r.values.take j ++ Message.clear (r.values.drop j) := by
  unfold RpcProvider.sendRpcResponse at hle
  dsimp only at hle
  split_ifs at hle with hbig
  · rw [List.length_nil] at hle
    omega
  · have hsent : RpcProvider.sendRpcResponse r = r.values.serialize := by
      unfold RpcProvider.sendRpcResponse
      exact if_neg hbig
    have hparse : r.received unknown (.part size) = Message.parseFromArray unknown
        (r.values.map FieldValue.kind) (r.values.serialize.take size) := by
      rw [r.typed, ← hsent]
      rfl
    rw [hparse]
    exact Message.parse_take_iff (Message.fits_of_length (not_le.mp hbig)) r.length_values hle

/-- A call is faithful exactly when the connection has not ended and the bytes do not end between two
fields. -/
theorem faithful_iff (unknown : RpcHeader.UnknownFieldParse) (r : Response) (o : RecvOutcome)
    (h : o.Possible (RpcProvider.sendRpcResponse r)) :
    r.Faithful unknown o ↔ o ≠ .closed ∧ ∀ size, o = .part size → ¬r.CutBetweenFields size := by
  cases o with
  | error =>
    refine ⟨fun _ => ⟨RecvOutcome.noConfusion, fun _ => RecvOutcome.noConfusion⟩, fun _ => ?_⟩
    refine ⟨fun m hm => ?_, RecvOutcome.noConfusion⟩
    cases hm
  | closed =>
    refine ⟨fun hf => ?_, fun hcond => (hcond.1 rfl).elim⟩
    have hnone := hf.2 rfl
    rw [received_closed] at hnone
    cases hnone
  | part size =>
    obtain ⟨hpos, -, hle⟩ := h
    constructor
    · rintro ⟨hsame, -⟩
      refine ⟨RecvOutcome.noConfusion, fun size' heq hcut => ?_⟩
      obtain rfl := RecvOutcome.part.inj heq
      obtain ⟨hlt, j, hsize⟩ := hcut
      -- the fields behind the cut are lost
      have hm := hsame _ ((received_part hpos hle).mpr ⟨j, hsize, rfl⟩)
      rw [Message.take_append_clear, ← hsize] at hm
      exact absurd hm hlt.ne
    · rintro ⟨-, hcond⟩
      refine ⟨fun m hm => ?_, RecvOutcome.noConfusion⟩
      obtain ⟨j, hsize, rfl⟩ := (received_part hpos hle).mp hm
      have hge := not_lt.mp fun hlt => hcond size rfl ⟨hlt, j, hsize⟩
      rw [Message.take_append_clear, ← hsize]
      exact le_antisymm (hle.trans r.length_sendRpcResponse_le) hge

def snapshotAnswer : Response := ⟨.installSnapshotResponse, [.int32 1], rfl⟩

theorem faithful_snapshotAnswer :
    (RecvOutcome.part 2).Possible (RpcProvider.sendRpcResponse snapshotAnswer) ∧
      snapshotAnswer.Faithful (fun _ _ => none) (.part 2) := by
  have hpossible : (RecvOutcome.part 2).Possible (RpcProvider.sendRpcResponse snapshotAnswer) :=
    ⟨by decide, by decide, by decide⟩
  refine ⟨hpossible, (faithful_iff _ _ _ hpossible).mpr ⟨RecvOutcome.noConfusion, ?_⟩⟩
  intro size heq hcut
  obtain rfl := RecvOutcome.part.inj heq
  exact absurd hcut.1 (by decide)

theorem closed_connection_succeeds :
    ¬∀ (unknown : RpcHeader.UnknownFieldParse) (r : Response) (o : RecvOutcome),
      o.Possible (RpcProvider.sendRpcResponse r) → r.Faithful unknown o := by
  intro h
  have hsame := (h (fun _ _ => none) snapshotAnswer .closed trivial).1 [.int32 0] rfl
  exact absurd hsame (by decide)

end Response

/-! ## The leader that sent a snapshot -/

def Message.term : Message → ℤ
  | .int32 v :: _ => v.toInt
  | _ => 0

namespace Raft

variable {n : ℕ} {rf : Raft n} {server : Fin n} {args : InstallSnapshotRequest n}

/-- `leaderSendSnapShot` from the `recv` of its call on. -/
def leaderSendSnapShotRecv (unknown : RpcHeader.UnknownFieldParse) (rf : Raft n) (server : Fin n)
    (args : InstallSnapshotRequest n) (recvBuf : Option Bytes) : Raft n :=
  match MprpcChannel.receiveResponse unknown .installSnapshotResponse recvBuf with
  | some reply => rf.leaderSendSnapShotReply server args { term := reply.term }
  | none => rf

theorem closed_snapShot_matched (unknown : RpcHeader.UnknownFieldParse) (hl : rf.status = .leader)
    (ht : rf.currentTerm = args.term) (hnonneg : 0 ≤ rf.currentTerm) :
    (rf.leaderSendSnapShotRecv unknown server args (some [])).matchIndex server =
      args.lastSnapshotIncludeIndex := by
  have hreply : rf.leaderSendSnapShotRecv unknown server args (some []) =
      rf.leaderSendSnapShotReply server args { term := 0 } := rfl
  rw [hreply, leaderSendSnapShotReply, if_neg (by simp [hl, ht]), if_neg (not_lt.mpr hnonneg)]
  exact Function.update_self _ _ _

end Raft
end RaftStorage
