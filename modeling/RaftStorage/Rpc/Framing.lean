import RaftStorage.Library.Pieces
import RaftStorage.Rpc.Provider

/-! Frames on a connection: what the provider makes of a whole frame, of a frame that is cut and of a
series of frames that arrives in pieces. -/

namespace RaftStorage
open Library

/-- `CallMethod` up to its `send`; a message of 2 GiB or more is not serialized. -/
def callMethodFrame (serviceName methodName argsStr : Bytes) : Option Bytes :=
  if 2 ^ 31 ≤ argsStr.length then none
  else
    let rpcHeaderStr := RpcHeader.serialize ⟨serviceName, methodName, argsStr.length⟩
    if 2 ^ 31 ≤ rpcHeaderStr.length then none
    else some (writeVarint 5 rpcHeaderStr.length ++ (rpcHeaderStr ++ argsStr))

/-- A request with the frame that `CallMethod` sends for it. -/
structure SentRequest extends Dispatch where
  service_ne : service ≠ []
  method_ne : method ≠ []
  frame : Bytes
  built : callMethodFrame service method args = some frame

namespace SentRequest

variable {unknown : RpcHeader.UnknownFieldParse} {p : RpcProvider} {r : SentRequest}

def header (r : SentRequest) : RpcHeader := ⟨r.service, r.method, r.args.length⟩

def sizeBytes (r : SentRequest) : Bytes := writeVarint 5 r.header.serialize.length

def namesEnd (r : SentRequest) : ℕ := r.sizeBytes.length + r.header.namesLength

theorem frame_spec (r : SentRequest) : r.args.length < 2 ^ 31 ∧ r.header.serialize.length < 2 ^ 31 ∧
    r.frame = r.sizeBytes ++ (r.header.serialize ++ r.args) := by
  have hbuilt := r.built
  unfold callMethodFrame at hbuilt
  split_ifs at hbuilt with hargs
  dsimp only at hbuilt
  split_ifs at hbuilt with hheader
  exact ⟨not_le.mp hargs, not_le.mp hheader, (Option.some.inj hbuilt).symm⟩

theorem frame_length_pos (r : SentRequest) : 0 < r.frame.length := by
  obtain ⟨-, -, hframe⟩ := r.frame_spec
  have hle : r.service.length ≤ r.header.serialize.length := r.header.length_le_serialize.1
  have hpos := List.length_pos_of_ne_nil r.service_ne
  rw [hframe, List.length_append, List.length_append]
  omega

theorem header_valid (r : SentRequest) : r.header.Valid := by
  obtain ⟨hargs, hheader, -⟩ := r.frame_spec
  obtain ⟨hservice, hmethod⟩ := r.header.length_le_serialize
  refine ⟨r.service_ne, r.method_ne, by omega, by omega, ?_⟩
  change r.args.length < 2 ^ 32
  omega

theorem reads_sizeBytes (r : SentRequest) :
    Reads (readVarint 10) r.sizeBytes r.header.serialize.length :=
  reads_varint (by decide) (r.frame_spec.2.1.trans (by decide)) (by decide)

theorem readArgs_whole {input : Bytes} {h : RpcHeader} (hlt : h.argsSize < 2 ^ 31)
    (hle : h.argsSize ≤ input.length) :
    p.readArgs input h = p.dispatch h.serviceName h.methodName (input.take h.argsSize) := by
  unfold RpcProvider.readArgs
  rw [codedReadString, if_neg (not_le.mpr hlt), if_pos hle]
  rfl

theorem readArgs_short {input : Bytes} {h : RpcHeader} (hlt : input.length < h.argsSize) :
    p.readArgs input h = none := by
  cases hd : p.readArgs input h with
  | none => rfl
  | some d => exact absurd (RpcProvider.readArgs_some hd).2.1 (not_le.mpr hlt)

theorem onInput_frame (r : SentRequest) (rest : Bytes) :
    p.onInput unknown (r.frame ++ rest) = p.dispatch r.service r.method r.args := by
  obtain ⟨hargs, hheader, hframe⟩ := r.frame_spec
  have hread : readVarint 10 (r.frame ++ rest) =
      some (r.header.serialize.length, r.header.serialize ++ (r.args ++ rest)) := by
    rw [hframe, List.append_assoc, List.append_assoc, r.reads_sizeBytes.whole]
  have hmod : r.header.serialize.length % 2 ^ 32 = r.header.serialize.length :=
    Nat.mod_eq_of_lt (by omega)
  rw [RpcProvider.onInput_whole hread (by rw [hmod]; exact hheader)
    (by rw [hmod, List.length_append]; omega), hmod, List.take_left, List.drop_left,
    r.header_valid.parse_serialize, Option.bind_some, readArgs_whole hargs]
  · simp [header]
  · simp [header]

theorem size_mod (r : SentRequest) :
    r.header.serialize.length % 2 ^ 32 = r.header.serialize.length :=
  Nat.mod_eq_of_lt (by have := r.frame_spec.2.1; omega)

theorem namesLength_lt (r : SentRequest) :
    r.header.namesLength < r.header.serialize.length ↔ r.args ≠ [] := by
  rw [RpcHeader.namesLength_lt, header, Ne, List.length_eq_zero_iff]

theorem readArgs_unnamed {input : Bytes} {h : RpcHeader}
    (hne : h.serviceName = [] ∨ h.methodName = []) : p.readArgs input h = none := by
  cases hd : p.readArgs input h with
  | none => rfl
  | some d =>
    obtain ⟨-, hservice, hmethod⟩ := RpcProvider.dispatch_some (RpcProvider.readArgs_some hd).2.2
    exact (hne.elim hservice hmethod).elim

theorem readArgs_header_take (r : SentRequest) {j : ℕ} (hj : j < r.header.serialize.length) :
    (RpcHeader.parseFromString unknown (r.header.serialize.take j)).bind (p.readArgs []) =
      if j = r.header.namesLength then p.dispatch r.service r.method [] else none := by
  split_ifs with heq
  · rw [heq, r.header_valid.parse_namesLength, Option.bind_some, readArgs_whole]
    · rfl
    · exact Nat.two_pow_pos 31
    · exact le_rfl
  · cases hparse : RpcHeader.parseFromString unknown (r.header.serialize.take j) with
    | none => rfl
    | some h =>
      rw [Option.bind_some]
      rcases r.header_valid.parse_take hj hparse with hs | hm | ⟨hnames, -⟩
      · exact readArgs_unnamed (Or.inl hs)
      · exact readArgs_unnamed (Or.inr hm)
      · exact absurd hnames heq

theorem onInput_take (r : SentRequest) {k : ℕ} (hk : k < r.frame.length) :
    p.onInput unknown (r.frame.take k) =
      if k = r.namesEnd ∧ r.args ≠ [] then p.dispatch r.service r.method [] else none := by
  obtain ⟨hargs, hheader, hframe⟩ := r.frame_spec
  rw [hframe, List.length_append, List.length_append] at hk
  rw [hframe, List.take_append]
  have hnames := r.namesLength_lt
  by_cases h1 : k < r.sizeBytes.length
  · -- the cut is in the header size
    rw [Nat.sub_eq_zero_of_le h1.le, List.take_zero, List.append_nil, if_neg]
    · exact RpcProvider.onInput_unsized (r.reads_sizeBytes.cut k h1)
    · rw [namesEnd]
      omega
  rw [List.take_of_length_le (not_lt.mp h1)]
  have hread := r.reads_sizeBytes.whole
    ((r.header.serialize ++ r.args).take (k - r.sizeBytes.length))
  rw [List.take_append] at hread ⊢
  by_cases h2 : k - r.sizeBytes.length < r.header.serialize.length
  · -- the cut is in the header
    rw [Nat.sub_eq_zero_of_le h2.le, List.take_zero, List.append_nil] at hread ⊢
    rw [RpcProvider.onInput_short hread (by rw [r.size_mod]; exact hheader)
      (by rw [r.size_mod, List.length_take]; omega), r.readArgs_header_take h2]
    refine if_congr ?_ rfl rfl
    rw [← hnames, namesEnd]
    omega
  · -- the cut is in the arguments
    rw [List.take_of_length_le (not_lt.mp h2)] at hread ⊢
    rw [RpcProvider.onInput_whole hread (by rw [r.size_mod]; exact hheader)
      (by rw [r.size_mod, List.length_append]; omega), r.size_mod, List.take_left, List.drop_left,
      r.header_valid.parse_serialize, Option.bind_some, readArgs_short, if_neg]
    · rw [← hnames, namesEnd]
      omega
    · rw [List.length_take]
      change _ < r.args.length
      omega

theorem arrayInput_take (r : SentRequest) (k : ℕ) :
    arrayInput (r.frame.take k) = r.frame.take (arrayInput (r.frame.take k)).length := by
  have hframe : arrayInput (r.frame.take k) <+: r.frame :=
    (RpcProvider.arrayInput_isPrefix _).trans (List.take_prefix k r.frame)
  exact List.prefix_iff_eq_take.mp hframe

theorem onMessage_take (r : SentRequest) {k : ℕ} (hk : k < r.frame.length) :
    p.onMessage unknown (r.frame.take k) =
      if (arrayInput (r.frame.take k)).length = r.namesEnd ∧ r.args ≠ [] then
        p.dispatch r.service r.method [] else none := by
  have hlt : (arrayInput (r.frame.take k)).length < r.frame.length := by
    have hle := (RpcProvider.arrayInput_isPrefix (r.frame.take k)).length_le
    rw [List.length_take] at hle
    omega
  rw [RpcProvider.onMessage, r.arrayInput_take k, r.onInput_take hlt, ← r.arrayInput_take k]

end SentRequest

/-! ## Spurious dispatch -/

namespace RpcProvider

/-- Every call is the one of a frame at the start of the buffer exactly when the buffer is not a cut
frame. A proper part of a request's frame leads to no call unless its stream ends behind the field
`method_name`, before the size of arguments that are there, and the method can do without. -/
theorem no_spurious_dispatch_iff (unknown : RpcHeader.UnknownFieldParse) (p : RpcProvider) :
    (∀ recvBuf, (∀ d, p.onMessage unknown recvBuf = some d → StartsWith unknown recvBuf d) ↔
      ¬CutFrame unknown p recvBuf) ∧
    ∀ (r : SentRequest) (k : ℕ), k < r.frame.length →
      (p.onMessage unknown (r.frame.take k) = none ↔
        ¬((arrayInput (r.frame.take k)).length = r.namesEnd ∧ r.args ≠ [] ∧
          p.Accepts r.service r.method [])) := by
  refine ⟨onMessage_startsWith_iff, fun r k hk => ?_⟩
  rw [r.onMessage_take hk]
  split_ifs with hcut
  · obtain ⟨hend, hargs⟩ := hcut
    rw [← dispatch_ne_none_iff]
    simp [hend, hargs]
  · refine iff_of_true rfl fun h => hcut ⟨h.1, h.2.1⟩

def raftRpc : Service where
  name := [114, 97, 102, 116, 82, 112, 99]
  methods := [[82, 101, 113, 117, 101, 115, 116, 86, 111, 116, 101]]
  parses _ args := args = [] ∨ args = [8, 1]
  name_ne := by decide
  method_ne := by decide

def requestVote : SentRequest where
  service := raftRpc.name
  method := [82, 101, 113, 117, 101, 115, 116, 86, 111, 116, 101]
  args := [8, 1]
  service_ne := by decide
  method_ne := by decide
  frame := [24, 10, 7, 114, 97, 102, 116, 82, 112, 99, 18, 11, 82, 101, 113, 117, 101, 115, 116, 86,
    111, 116, 101, 24, 2, 8, 1]
  built := by decide

def noUnknown : RpcHeader.UnknownFieldParse := fun _ _ => none

def raftProvider : RpcProvider := notifyService ⟨[]⟩ raftRpc

theorem no_spurious_dispatch_of_vote :
    20 < requestVote.frame.length ∧ raftProvider.onMessage noUnknown (requestVote.frame.take 20) = none :=
  ⟨by decide, ((no_spurious_dispatch_iff noUnknown raftProvider).2 requestVote 20 (by decide)).mpr
    fun h => absurd h.1 (by decide)⟩

theorem cut_vote_dispatched :
    23 < requestVote.frame.length ∧
      raftProvider.onMessage noUnknown (requestVote.frame.take 23) =
        some ⟨requestVote.service, requestVote.method, []⟩ ∧
      ¬StartsWith noUnknown (requestVote.frame.take 23)
        ⟨requestVote.service, requestVote.method, []⟩ := by
  have hcut : CutHeader noUnknown raftProvider (requestVote.frame.take 23)
      ⟨requestVote.service, requestVote.method, []⟩ :=
    ⟨24, (requestVote.frame.take 23).drop 1, by decide, by decide, by decide, by decide, rfl,
      raftRpc, rfl, by decide⟩
  exact ⟨by decide, by decide, hcut.not_startsWith⟩

/-! ## Segmentation -/

def sent (p : RpcProvider) (requests : List SentRequest) : List (ℕ × Dispatch) :=
  ((positions (·.frame.length) 0 requests).filter fun (_, r) => p.Registered r.service r.method).map
    fun (i, r) => (i, r.toDispatch)

def received (unknown : RpcHeader.UnknownFieldParse) (p : RpcProvider) (bufs : List Bytes) :
    List (ℕ × Dispatch) :=
  (positions List.length 0 bufs).filterMap fun (i, buf) =>
    (p.onMessage unknown buf).map fun d => (i, d)

variable {unknown : RpcHeader.UnknownFieldParse} {p : RpcProvider} {requests : List SentRequest}
  {bufs : List Bytes} {i : ℕ} {d : Dispatch}

theorem mem_sent : (i, d) ∈ p.sent requests ↔ ∃ r : SentRequest, r.toDispatch = d ∧
    (i, r) ∈ positions (·.frame.length) 0 requests ∧ p.Registered r.service r.method := by
  simp only [sent, List.mem_map, List.mem_filter, Prod.exists, Prod.mk.injEq, decide_eq_true_eq]
  constructor
  · rintro ⟨j, r, ⟨hmem, hreg⟩, rfl, hd⟩
    exact ⟨r, hd, hmem, hreg⟩
  · rintro ⟨r, hd, hmem, hreg⟩
    exact ⟨i, r, ⟨hmem, hreg⟩, rfl, hd⟩

theorem mem_received : (i, d) ∈ p.received unknown bufs ↔
    ∃ buf, (i, buf) ∈ positions List.length 0 bufs ∧ p.onMessage unknown buf = some d := by
  simp only [received, List.mem_filterMap, Prod.exists, Option.map_eq_some_iff, Prod.mk.injEq]
  constructor
  · rintro ⟨j, buf, hmem, d', hcall, rfl, rfl⟩
    exact ⟨buf, hmem, hcall⟩
  · rintro ⟨buf, hmem, hcall⟩
    exact ⟨i, buf, hmem, d, hcall, rfl, rfl⟩

theorem map_received :
    (p.received unknown bufs).map Prod.snd = bufs.filterMap (p.onMessage unknown) :=
  map_filterMap_positions _ _ _ _

theorem onMessage_nil : p.onMessage unknown [] = none := by
  exact onInput_unsized rfl

theorem sent_increasing : (p.sent requests).Pairwise fun a b => a.1 < b.1 := by
  have hlt : (positions (fun r : SentRequest => r.frame.length) 0 requests).Pairwise
      fun a b => a.1 < b.1 :=
    (positions_pairwise 0 requests).imp fun {a b} hle =>
      (Nat.lt_add_of_pos_right a.2.frame_length_pos).trans_le hle
  exact List.Pairwise.map _ (fun a b h => h) (hlt.filter _)

theorem received_increasing : (p.received unknown bufs).Pairwise fun a b => a.1 < b.1 := by
  refine List.Pairwise.filterMap _ ?_ (positions_pairwise 0 bufs)
  rintro ⟨i, buf⟩ ⟨j, buf'⟩ hle a ha b hb
  obtain ⟨d, hd, rfl⟩ := Option.map_eq_some_iff.mp ha
  obtain ⟨d', -, rfl⟩ := Option.map_eq_some_iff.mp hb
  -- no call is made for an empty buffer
  have hpos : 0 < buf.length := by
    refine List.length_pos_of_ne_nil ?_
    rintro rfl
    rw [onMessage_nil] at hd
    cases hd
  change i + buf.length ≤ j at hle
  change i < j
  omega

theorem input_or_frame {r : SentRequest} {buf : Bytes}
    (hstream : bufs.flatten = requests.flatMap (·.frame))
    (hbuf : (i, buf) ∈ positions List.length 0 bufs)
    (hr : (i, r) ∈ positions (·.frame.length) 0 requests) :
    arrayInput buf <+: r.frame ∨ r.frame <+: arrayInput buf := by
  have hchunk : buf <+: bufs.flatten.drop i := by
    simpa using isPrefix_drop_of_mem_positions (x := buf) hbuf
  have hframe := isPrefix_drop_of_mem_positions hr
  rw [← hstream] at hframe
  exact List.prefix_or_prefix_of_prefix ((arrayInput_isPrefix buf).trans hchunk) hframe

theorem onMessage_eq_request_iff {r : SentRequest} {buf : Bytes}
    (haccepts : p.Accepts r.service r.method r.args)
    (hor : arrayInput buf <+: r.frame ∨ r.frame <+: arrayInput buf) :
    p.onMessage unknown buf = some r.toDispatch ↔ r.frame.length ≤ (arrayInput buf).length := by
  constructor
  · intro hcall
    by_contra hlt
    rw [not_le] at hlt
    -- a part of the frame dispatches nothing or the method without its arguments
    have hpart : arrayInput buf <+: r.frame :=
      hor.resolve_right fun h => absurd h.length_le (not_le.mpr hlt)
    rw [onMessage, List.prefix_iff_eq_take.mp hpart, r.onInput_take hlt] at hcall
    split_ifs at hcall with hcut
    obtain ⟨heq, -⟩ := dispatch_eq_some_iff.mp hcall
    exact hcut.2 (congrArg Dispatch.args heq)
  · intro hle
    have hwhole : r.frame <+: arrayInput buf := by
      rcases hor with hpart | hwhole
      · have heq : arrayInput buf = r.frame := hpart.eq_of_length_le hle
        exact heq ▸ List.prefix_rfl
      · exact hwhole
    obtain ⟨rest, hrest⟩ := hwhole
    rw [onMessage, ← hrest, r.onInput_frame]
    exact dispatch_eq_some_iff.mpr ⟨rfl, haccepts⟩

/-- The requests are dispatched, each where its frame stands and in order, exactly when each of
them comes at the start of a buffer with all of its frame in it. -/
theorem requests_dispatched_iff (unknown : RpcHeader.UnknownFieldParse) (p : RpcProvider)
    (requests : List SentRequest) (bufs : List Bytes)
    (hparse : ∀ r ∈ requests, p.Registered r.service r.method →
      p.Accepts r.service r.method r.args)
    (hstream : bufs.flatten = requests.flatMap (·.frame)) :
    (p.sent requests).Sublist (p.received unknown bufs) ↔
      ∀ i r, (i, r) ∈ positions (fun r : SentRequest => r.frame.length) 0 requests →
        p.Registered r.service r.method → ∃ buf, (i, buf) ∈ positions List.length 0 bufs ∧
          r.frame.length ≤ (arrayInput buf).length := by
  constructor
  · intro hsub i r hr hreg
    obtain ⟨buf, hbuf, hcall⟩ := mem_received.mp (hsub.subset (mem_sent.mpr ⟨r, rfl, hr, hreg⟩))
    have haccepts := hparse r (mem_of_mem_positions hr) hreg
    exact ⟨buf, hbuf,
      (onMessage_eq_request_iff haccepts (input_or_frame hstream hbuf hr)).mp hcall⟩
  · intro hall
    refine sublist_of_subset_of_increasing sent_increasing received_increasing ?_
    rintro ⟨i, d⟩ hd
    obtain ⟨r, rfl, hr, hreg⟩ := mem_sent.mp hd
    obtain ⟨buf, hbuf, hle⟩ := hall i r hr hreg
    have haccepts := hparse r (mem_of_mem_positions hr) hreg
    exact mem_received.mpr ⟨buf, hbuf,
      (onMessage_eq_request_iff haccepts (input_or_frame hstream hbuf hr)).mpr hle⟩

theorem accepts_requestVote :
    raftProvider.Accepts requestVote.service requestVote.method requestVote.args :=
  ⟨raftRpc, rfl, by decide⟩

theorem requests_dispatched_one_by_one :
    (raftProvider.sent [requestVote, requestVote]).Sublist
      (raftProvider.received noUnknown [requestVote.frame, requestVote.frame]) := by
  refine (requests_dispatched_iff noUnknown raftProvider [requestVote, requestVote]
    [requestVote.frame, requestVote.frame] ?_ rfl).mpr ?_
  · intro r hr hreg
    obtain rfl : r = requestVote := by simpa using hr
    exact accepts_requestVote
  · intro i r hr hreg
    have hr : i = 0 ∧ r = requestVote ∨ i = requestVote.frame.length ∧ r = requestVote := by
      simpa [positions] using hr
    rcases hr with ⟨rfl, rfl⟩ | ⟨rfl, rfl⟩
    · exact ⟨requestVote.frame, by simp [positions], by decide⟩
    · exact ⟨requestVote.frame, by simp [positions], by decide⟩

theorem coalesced_request_lost :
    ¬∀ (unknown : RpcHeader.UnknownFieldParse) (p : RpcProvider) (requests : List SentRequest)
      (bufs : List Bytes), (∀ r ∈ requests, p.Accepts r.service r.method r.args) →
      bufs.flatten = requests.flatMap (·.frame) →
      (requests.map (·.toDispatch)).Sublist (bufs.filterMap (p.onMessage unknown)) := by
  intro h
  have hsub := h noUnknown raftProvider [requestVote, requestVote]
    [requestVote.frame ++ requestVote.frame] ?_ rfl
  · exact absurd hsub.length_le (by decide)
  · intro r hr
    obtain rfl : r = requestVote := by simpa using hr
    exact accepts_requestVote

end RpcProvider
end RaftStorage
