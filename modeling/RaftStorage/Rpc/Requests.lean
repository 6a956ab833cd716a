import RaftStorage.Rpc.Framing
import RaftStorage.Rpc.Responses

/-! The messages of `raftRPC.proto` and `kvServerRPC.proto` as the generated code serializes and parses
them. What is written is read back, the entries of an `AppendEntriesArgs` with their own fields
included. -/

namespace RaftStorage
open Library

/-! ## Numbers and strings -/

/-- An `int` of the source, as an `int32` field. -/
def FieldValue.ofInt (v : ℤ) : FieldValue := .int32 (BitVec.ofInt 32 v)

def IsInt32 (v : ℤ) : Prop := -2147483648 ≤ v ∧ v < 2147483648

instance (v : ℤ) : Decidable (IsInt32 v) := inferInstanceAs (Decidable (_ ∧ _))

theorem IsInt32.toInt {v : ℤ} (h : IsInt32 v) : (BitVec.ofInt 32 v).toInt = v := by
  obtain ⟨hlo, hhi⟩ := h
  rw [BitVec.toInt_ofInt]
  exact Int.bmod_eq_of_le (by omega) (by omega)

def stringBytes (s : String) : Bytes := s.toByteArray.data.toList

def FieldValue.ofString (s : String) : FieldValue := .bytes (stringBytes s)

def bytesString (bytes : Bytes) : Option String := String.fromUTF8? ⟨bytes.toArray⟩

theorem bytesString_stringBytes (s : String) : bytesString (stringBytes s) = some s := by
  have harray : (⟨(stringBytes s).toArray⟩ : ByteArray) = s.toByteArray := by
    simp [stringBytes]
  rw [bytesString, harray, String.fromUTF8?, dif_pos s.isValidUTF8]
  rfl

def nodeOf (n : ℕ) (v : BitVec 32) : Option (Fin n) :=
  if h : v.toInt.toNat < n then some ⟨v.toInt.toNat, h⟩ else none

theorem Message.parse_serialize {unknown : RpcHeader.UnknownFieldParse} {m : Message}
    (hlen : m.serialize.length < 2 ^ 31) (hfields : m.length ≤ 2 ^ 28) {kinds : List FieldKind}
    (hkinds : m.map FieldValue.kind = kinds) :
    parseFromArray unknown kinds m.serialize = some m := by
  have hwhole : parseFromArray unknown (m.map FieldValue.kind)
      (m.serialize.take m.serialize.length) = some m :=
    (parse_take_iff (fits_of_length hlen) hfields le_rfl).mpr
      ⟨m.length, by rw [List.take_length], by simp [clear]⟩
  rwa [List.take_length, hkinds] at hwhole

/-! ## Entries within a request -/

namespace LogEntry

def kinds : List FieldKind := [.bytes, .int32, .int32]

def toMessage (e : LogEntry) : Message := [.ofString e.command, .ofInt e.logTerm, .ofInt e.logIndex]

def ofMessage : Message → Option LogEntry
  | [.bytes command, .int32 logTerm, .int32 logIndex] =>
    (bytesString command).map fun command => ⟨command, logTerm.toInt, logIndex.toInt⟩
  | _ => none

structure InRange (e : LogEntry) : Prop where
  term : IsInt32 e.logTerm
  index : IsInt32 e.logIndex

theorem InRange.ofMessage {e : LogEntry} (h : e.InRange) : ofMessage e.toMessage = some e := by
  rw [toMessage, FieldValue.ofString, FieldValue.ofInt, FieldValue.ofInt, LogEntry.ofMessage,
    bytesString_stringBytes, Option.map_some, h.term.toInt, h.index.toInt]

end LogEntry

/-- An `AppendEntriesArgs`: its numbered fields, among which an empty string stands for field 5, and
the entries of field 5. -/
structure AppendEntriesMessage where
  fields : Message
  entries : List Message

namespace AppendEntriesMessage

variable {unknown : RpcHeader.UnknownFieldParse} {done rest fields : Message}
  {es es' : List Message} {v : FieldValue}

def entryField (e : Message) : Bytes := writeVarint 5 42 ++ writeString e.serialize

/-- `_InternalSerialize` -/
def serialize (m : AppendEntriesMessage) : Bytes :=
  Message.serializeFrom 1 (m.fields.take 4) ++
    (m.entries.flatMap entryField ++ Message.serializeFrom 6 (m.fields.drop 5))

/-- The `switch` of `_InternalParse`; `ParseMessage` reads an entry within its own limit. -/
def parseTagged (unknown : RpcHeader.UnknownFieldParse) (m : AppendEntriesMessage) (tag : ℕ) :
    Reader AppendEntriesMessage :=
  if tag = 42 then
    (readString.filterMap (Message.parseFromArray unknown LogEntry.kinds)).map fun e =>
      { m with entries := m.entries ++ [e] }
  else (Message.parseTagged unknown m.fields tag).map fun fields => { m with fields := fields }

def parseField (unknown : RpcHeader.UnknownFieldParse) (m : AppendEntriesMessage) :
    Reader AppendEntriesMessage :=
  (readVarint 5).andThen fun tag => parseTagged unknown m (tag % 2 ^ 32)

def blank : AppendEntriesMessage where
  fields := [.int32 0, .int32 0, .int32 0, .int32 0, .bytes [], .int32 0]
  entries := []

def parseFromString (unknown : RpcHeader.UnknownFieldParse) (bytes : Bytes) :
    Option AppendEntriesMessage := readAll (parseField unknown) bytes.length blank bytes

theorem scans_field (hfits : v.Fits) (hnumber : done.length ≠ 4) (hlen : done.length < 2 ^ 28) :
    Scans (parseField unknown) ⟨done ++ v.kind.default :: rest, es⟩ (v.field (done.length + 1))
      ⟨done ++ v :: rest, es⟩ := by
  unfold FieldValue.field
  split_ifs with hdef
  · rw [← hdef]
    exact .nil _
  have hle := v.kind.tag_le (done.length + 1)
  have htag : Reads (readVarint 5) (writeVarint 5 (v.kind.tag (done.length + 1)))
      (v.kind.tag (done.length + 1)) := reads_varint le_rfl (by omega) (by decide)
  refine .single (htag.andThen ?_) fun hnil =>
    FieldValue.writeVarint_ne_nil 4 _ (List.append_eq_nil_iff.mp hnil).1
  have hkind : v.kind.default.kind = v.kind := by cases v <;> rfl
  have hentry : v.kind.tag (done.length + 1) ≠ 42 := by
    have := v.kind.tag_div (done.length + 1)
    omega
  rw [Nat.mod_eq_of_lt (by omega), parseTagged, if_neg hentry]
  exact (Message.reads_tagged hfits hkind).map fun fields => AppendEntriesMessage.mk fields es

theorem reads_entry {e : Message} (hkinds : e.map FieldValue.kind = LogEntry.kinds)
    (hlen : e.serialize.length < 2 ^ 31) :
    Reads (parseField unknown ⟨fields, es⟩) (entryField e) ⟨fields, es ++ [e]⟩ := by
  have htag : Reads (readVarint 5) (writeVarint 5 42) 42 :=
    reads_varint le_rfl (by decide) (by decide)
  refine htag.andThen ?_
  rw [Nat.mod_eq_of_lt (by decide), parseTagged, if_pos rfl]
  have hread : Reads readString (writeString e.serialize) e.serialize :=
    reads_string (hlen.trans (by decide))
  have hthree : e.length = 3 := by simpa [LogEntry.kinds] using congrArg List.length hkinds
  have hparse : Message.parseFromArray unknown LogEntry.kinds e.serialize = some e :=
    Message.parse_serialize hlen (by omega) hkinds
  exact (hread.filterMap hparse).map fun e => AppendEntriesMessage.mk fields (es ++ [e])

theorem scans_entries
    (h : ∀ e ∈ es', e.map FieldValue.kind = LogEntry.kinds ∧ e.serialize.length < 2 ^ 31) :
    Scans (parseField unknown) ⟨fields, es⟩ (es'.flatMap entryField) ⟨fields, es ++ es'⟩ := by
  induction es' generalizing es with
  | nil =>
    rw [List.append_nil]
    exact .nil _
  | cons e es' ih =>
    have hne : entryField e ≠ [] := fun hnil =>
      FieldValue.writeVarint_ne_nil 4 42 (List.append_eq_nil_iff.mp hnil).1
    obtain ⟨hkinds, hlen⟩ := h e List.mem_cons_self
    have hrest : Scans (parseField unknown) ⟨fields, es ++ [e]⟩ (es'.flatMap entryField)
        ⟨fields, es ++ [e] ++ es'⟩ := ih fun x hx => h x (List.mem_cons_of_mem e hx)
    rw [List.append_assoc] at hrest
    exact .cons (reads_entry hkinds hlen) hne hrest

theorem length_entry_le {e : Message} (he : e ∈ es) :
    e.serialize.length ≤ (es.flatMap entryField).length := by
  obtain ⟨before, after, rfl⟩ := List.append_of_mem he
  simp only [List.flatMap_append, List.flatMap_cons, entryField, writeString, List.length_append]
  omega

theorem parse_serialize {term leaderId prevLogIndex prevLogTerm leaderCommit : BitVec 32}
    (hkinds : ∀ e ∈ es, e.map FieldValue.kind = LogEntry.kinds)
    (hlen : (serialize ⟨[.int32 term, .int32 leaderId, .int32 prevLogIndex, .int32 prevLogTerm,
      .bytes [], .int32 leaderCommit], es⟩).length < 2 ^ 31) :
    parseFromString unknown (serialize ⟨[.int32 term, .int32 leaderId, .int32 prevLogIndex,
        .int32 prevLogTerm, .bytes [], .int32 leaderCommit], es⟩) =
      some ⟨[.int32 term, .int32 leaderId, .int32 prevLogIndex, .int32 prevLogTerm, .bytes [],
        .int32 leaderCommit], es⟩ := by
  refine Scans.readAll ?_ le_rfl
  have hes : ∀ e ∈ es, e.map FieldValue.kind = LogEntry.kinds ∧ e.serialize.length < 2 ^ 31 := by
    intro e he
    refine ⟨hkinds e he, ?_⟩
    have hle := length_entry_le he
    simp only [serialize, List.length_append] at hlen
    omega
  have hfield : ∀ (done rest es : List _) (v : BitVec 32), done.length ≠ 4 →
      done.length < 2 ^ 28 → Scans (parseField unknown) ⟨done ++ .int32 0 :: rest, es⟩
        (FieldValue.field (done.length + 1) (.int32 v)) ⟨done ++ .int32 v :: rest, es⟩ :=
    fun _ _ _ v => scans_field (v := .int32 v) trivial
  have hterm := hfield [] [.int32 0, .int32 0, .int32 0, .bytes [], .int32 0] [] term
    (by decide) (by decide)
  have hleader := hfield [.int32 term] [.int32 0, .int32 0, .bytes [], .int32 0] [] leaderId
    (by simp) (by simp)
  have hindex := hfield [.int32 term, .int32 leaderId] [.int32 0, .bytes [], .int32 0] []
    prevLogIndex (by simp) (by simp)
  have hprev := hfield [.int32 term, .int32 leaderId, .int32 prevLogIndex] [.bytes [], .int32 0] []
    prevLogTerm (by simp) (by simp)
  have hcommit := hfield [.int32 term, .int32 leaderId, .int32 prevLogIndex, .int32 prevLogTerm,
    .bytes []] [] es leaderCommit (by simp) (by simp)
  have hentries : Scans (parseField unknown) ⟨[.int32 term, .int32 leaderId, .int32 prevLogIndex,
      .int32 prevLogTerm, .bytes [], .int32 0], []⟩ (es.flatMap entryField) ⟨[.int32 term,
      .int32 leaderId, .int32 prevLogIndex, .int32 prevLogTerm, .bytes [], .int32 0], [] ++ es⟩ :=
    scans_entries hes
  have hall := ((hterm.trans hleader).trans (hindex.trans hprev)).trans (hentries.trans hcommit)
  simpa [serialize, Message.serializeFrom, blank] using hall

end AppendEntriesMessage

/-! ## Requests -/

structure GetArgs where
  key : String
  clientId : String
  requestId : ℤ
  deriving DecidableEq, Repr

structure PutAppendArgs where
  key : String
  value : String
  op : String
  clientId : String
  requestId : ℤ
  deriving DecidableEq, Repr

/-- The methods of `raftRpc` and `kvServerRpc`. -/
inductive RpcMethod where
  | appendEntries | installSnapshot | requestVote | putAppend | get
  deriving DecidableEq, Repr

inductive Request (n : ℕ) where
  | appendEntries (args : AppendEntriesArgs n)
  | installSnapshot (args : InstallSnapshotRequest n)
  | requestVote (args : RequestVoteArgs n)
  | putAppend (args : PutAppendArgs)
  | get (args : GetArgs)

namespace RpcMethod

def ascii (s : String) : Bytes := s.toList.map fun c => UInt8.ofNat c.toNat

def all : List RpcMethod := [.appendEntries, .installSnapshot, .requestVote, .putAppend, .get]

def service : RpcMethod → Bytes
  | .appendEntries | .installSnapshot | .requestVote => ascii "raftRpc"
  | .putAppend | .get => ascii "kvServerRpc"

def name : RpcMethod → Bytes
  | .appendEntries => ascii "AppendEntries"
  | .installSnapshot => ascii "InstallSnapshot"
  | .requestVote => ascii "RequestVote"
  | .putAppend => ascii "PutAppend"
  | .get => ascii "Get"

def response : RpcMethod → ResponseType
  | .appendEntries => .appendEntriesReply
  | .installSnapshot => .installSnapshotResponse
  | .requestVote => .requestVoteReply
  | .putAppend => .putAppendReply
  | .get => .getReply

def find (serviceName methodName : Bytes) : Option RpcMethod :=
  all.find? fun m => m.service = serviceName ∧ m.name = methodName

def fields : RpcMethod → List FieldKind
  | .appendEntries => []
  | .installSnapshot => [.int32, .int32, .int32, .int32, .bytes]
  | .requestVote => [.int32, .int32, .int32, .int32]
  | .putAppend => [.bytes, .bytes, .bytes, .bytes, .int32]
  | .get => [.bytes, .bytes, .int32]

end RpcMethod

inductive WireRequest where
  | flat (m : Message)
  | append (m : AppendEntriesMessage)

namespace WireRequest

def serialize : WireRequest → Bytes
  | .flat m => m.serialize
  | .append m => m.serialize

/-- `ParseFromString` on the prototype of the method's request. -/
def parseFromString (unknown : RpcHeader.UnknownFieldParse) : RpcMethod → Bytes → Option WireRequest
  | .appendEntries, bytes => (AppendEntriesMessage.parseFromString unknown bytes).map .append
  | method, bytes => (Message.parseFromArray unknown method.fields bytes).map .flat

end WireRequest

namespace Request

variable {n : ℕ} {unknown : RpcHeader.UnknownFieldParse}

def method : Request n → RpcMethod
  | .appendEntries _ => .appendEntries
  | .installSnapshot _ => .installSnapshot
  | .requestVote _ => .requestVote
  | .putAppend _ => .putAppend
  | .get _ => .get

def toWire : Request n → WireRequest
  | .appendEntries args => .append
      { fields := [.ofInt args.term, .ofInt (args.leaderId : ℕ), .ofInt args.prevLogIndex,
          .ofInt args.prevLogTerm, .bytes [], .ofInt args.leaderCommit]
        entries := args.entries.map LogEntry.toMessage }
  | .installSnapshot args => .flat [.ofInt (args.leaderId : ℕ), .ofInt args.term,
      .ofInt args.lastSnapshotIncludeIndex, .ofInt args.lastSnapshotIncludeTerm,
      .ofString args.data]
  | .requestVote args => .flat [.ofInt args.term, .ofInt (args.candidateId : ℕ),
      .ofInt args.lastLogIndex, .ofInt args.lastLogTerm]
  | .putAppend args => .flat [.ofString args.key, .ofString args.value, .ofString args.op,
      .ofString args.clientId, .ofInt args.requestId]
  | .get args => .flat [.ofString args.key, .ofString args.clientId, .ofInt args.requestId]

def ofWire : RpcMethod → WireRequest → Option (Request n)
  | .appendEntries, .append ⟨[.int32 term, .int32 leaderId, .int32 prevLogIndex, .int32 prevLogTerm,
      _, .int32 leaderCommit], entries⟩ => do
    let leaderId ← nodeOf n leaderId
    let entries ← entries.mapM LogEntry.ofMessage
    return .appendEntries ⟨term.toInt, leaderId, prevLogIndex.toInt, prevLogTerm.toInt, entries,
      leaderCommit.toInt⟩
  | .installSnapshot, .flat [.int32 leaderId, .int32 term, .int32 index, .int32 snapTerm,
      .bytes data] => do
    let leaderId ← nodeOf n leaderId
    let data ← bytesString data
    return .installSnapshot ⟨leaderId, term.toInt, index.toInt, snapTerm.toInt, data⟩
  | .requestVote, .flat [.int32 term, .int32 candidateId, .int32 index, .int32 logTerm] => do
    let candidateId ← nodeOf n candidateId
    return .requestVote ⟨term.toInt, candidateId, index.toInt, logTerm.toInt⟩
  | .putAppend, .flat [.bytes key, .bytes value, .bytes op, .bytes clientId, .int32 requestId] => do
    return .putAppend ⟨← bytesString key, ← bytesString value, ← bytesString op,
      ← bytesString clientId, requestId.toInt⟩
  | .get, .flat [.bytes key, .bytes clientId, .int32 requestId] => do
    return .get ⟨← bytesString key, ← bytesString clientId, requestId.toInt⟩
  | _, _ => none

/-- The numbers are values of an `int`. -/
def InRange : Request n → Prop
  | .appendEntries args => IsInt32 args.term ∧ IsInt32 (args.leaderId : ℕ) ∧
      IsInt32 args.prevLogIndex ∧ IsInt32 args.prevLogTerm ∧ IsInt32 args.leaderCommit ∧
      ∀ e ∈ args.entries, e.InRange
  | .installSnapshot args => IsInt32 (args.leaderId : ℕ) ∧ IsInt32 args.term ∧
      IsInt32 args.lastSnapshotIncludeIndex ∧ IsInt32 args.lastSnapshotIncludeTerm
  | .requestVote args => IsInt32 args.term ∧ IsInt32 (args.candidateId : ℕ) ∧
      IsInt32 args.lastLogIndex ∧ IsInt32 args.lastLogTerm
  | .putAppend args => IsInt32 args.requestId
  | .get args => IsInt32 args.requestId

theorem parse_serialize (r : Request n) (hlen : r.toWire.serialize.length < 2 ^ 31) :
    WireRequest.parseFromString unknown r.method r.toWire.serialize = some r.toWire := by
  have hflat : ∀ {m : Message}, m.serialize.length < 2 ^ 31 → m.length ≤ 5 →
      (Message.parseFromArray unknown (m.map FieldValue.kind) m.serialize).map WireRequest.flat =
        some (.flat m) := by
    intro m hm hfew
    rw [Message.parse_serialize hm (by omega) rfl, Option.map_some]
  cases r with
  | appendEntries args =>
    have hkinds : ∀ e ∈ args.entries.map LogEntry.toMessage,
        e.map FieldValue.kind = LogEntry.kinds := by
      intro e he
      obtain ⟨entry, -, rfl⟩ := List.mem_map.mp he
      rfl
    exact congrArg (Option.map WireRequest.append)
      (AppendEntriesMessage.parse_serialize hkinds hlen)
  | installSnapshot args => exact hflat hlen (by simp)
  | requestVote args => exact hflat hlen (by simp)
  | putAppend args => exact hflat hlen (by simp)
  | get args => exact hflat hlen (by simp)

end Request

/-! ## Replies -/

/-- `Disconnected` and `AppNormal` -/
def AppState.code : AppState → ℤ
  | .disconnected => 0
  | .appNormal => 1

def AppState.ofCode (v : ℤ) : Option AppState := [disconnected, appNormal].find? (·.code = v)

/-- `Killed`, `Voted`, `Expire` and `Normal` -/
def VoteState.code : VoteState → ℤ
  | .killed => 0
  | .voted => 1
  | .expire => 2
  | .normal => 3

def VoteState.ofCode (v : ℤ) : Option VoteState :=
  [killed, voted, expire, normal].find? (·.code = v)

inductive Reply where
  | appendEntries (reply : AppendEntriesReply)
  | installSnapshot (reply : InstallSnapshotResponse)
  | requestVote (reply : RequestVoteReply)
  | putAppend (err : String)
  | get (err value : String)
  deriving DecidableEq, Repr

namespace Reply

variable {unknown : RpcHeader.UnknownFieldParse}

def method : Reply → RpcMethod
  | .appendEntries _ => .appendEntries
  | .installSnapshot _ => .installSnapshot
  | .requestVote _ => .requestVote
  | .putAppend _ => .putAppend
  | .get _ _ => .get

def toMessage : Reply → Message
  | .appendEntries reply => [.ofInt reply.term, .bool reply.success, .ofInt reply.updateNextIndex,
      .ofInt reply.appState.code]
  | .installSnapshot reply => [.ofInt reply.term]
  | .requestVote reply => [.ofInt reply.term, .bool reply.voteGranted, .ofInt reply.voteState.code]
  | .putAppend err => [.ofString err]
  | .get err value => [.ofString err, .ofString value]

def response (reply : Reply) : Response where
  type := reply.method.response
  values := reply.toMessage
  typed := by cases reply <;> rfl

def ofMessage : RpcMethod → Message → Option Reply
  | .appendEntries, [.int32 term, .bool success, .int32 updateNextIndex, .int32 appState] =>
    (AppState.ofCode appState.toInt).map fun appState =>
      .appendEntries ⟨term.toInt, success, updateNextIndex.toInt, appState⟩
  | .installSnapshot, [.int32 term] => some (.installSnapshot ⟨term.toInt⟩)
  | .requestVote, [.int32 term, .bool voteGranted, .int32 voteState] =>
    (VoteState.ofCode voteState.toInt).map fun voteState =>
      .requestVote ⟨term.toInt, voteGranted, voteState⟩
  | .putAppend, [.bytes err] => (bytesString err).map .putAppend
  | .get, [.bytes err, .bytes value] => do return .get (← bytesString err) (← bytesString value)
  | _, _ => none

def InRange : Reply → Prop
  | .appendEntries reply => IsInt32 reply.term ∧ IsInt32 reply.updateNextIndex
  | .installSnapshot reply => IsInt32 reply.term
  | .requestVote reply => IsInt32 reply.term
  | _ => True

end Reply

end RaftStorage
