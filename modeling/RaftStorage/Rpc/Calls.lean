import RaftStorage.Rpc.Requests

/-! A call as a whole: the frame that `CallMethod` sends, the method that `OnMessage` calls with what it
parses, the response that is written back and what the caller makes of it. Where every message arrives
in one piece, the caller gets what a local call of the method would give. -/

namespace RaftStorage
open Library

theorem RpcMethod.service_ne (m : RpcMethod) : m.service ≠ [] := by
  cases m <;> decide

namespace RpcProvider

variable {σ : Type} {n : ℕ} {unknown : RpcHeader.UnknownFieldParse}

def serviceOf (unknown : RpcHeader.UnknownFieldParse) (name : Bytes) (hname : name ≠ []) :
    Service where
  name := name
  methods := (RpcMethod.all.filter (·.service = name)).map RpcMethod.name
  parses methodName args := (RpcMethod.find name methodName).any fun method =>
    (WireRequest.parseFromString unknown method args).isSome
  name_ne := hname
  method_ne := by
    intro m hm
    obtain ⟨method, -, rfl⟩ := List.mem_map.mp hm
    cases method <;> decide

/-- The provider of a node: `NotifyService(this)`, then `NotifyService` of the Raft node. -/
def ofNode (unknown : RpcHeader.UnknownFieldParse) : RpcProvider :=
  (notifyService ⟨[]⟩ (serviceOf unknown _ (RpcMethod.service_ne .get))).notifyService
    (serviceOf unknown _ (RpcMethod.service_ne .requestVote))

/-- `OnMessage` with the method it calls and `SendRpcResponse`; `handle` has no result where the
process ends. -/
def serve (unknown : RpcHeader.UnknownFieldParse) (handle : σ → Request n → Option (σ × Reply)) (s : σ)
    (recvBuf : Bytes) : Option (σ × Bytes) := do
  let d ← (ofNode unknown).onMessage unknown recvBuf
  let method ← RpcMethod.find d.service d.method
  let wire ← WireRequest.parseFromString unknown method d.args
  let request ← Request.ofWire method wire
  let (s, reply) ← handle s request
  return (s, sendRpcResponse reply.response)

end RpcProvider

namespace MprpcChannel

variable {σ : Type} {n : ℕ} {unknown : RpcHeader.UnknownFieldParse}

/-- `CallMethod` from its `recv` on, with what the caller reads from the response. -/
def receive (unknown : RpcHeader.UnknownFieldParse) (method : RpcMethod) (recvBuf : Option Bytes) :
    Option Reply :=
  (receiveResponse unknown method.response recvBuf).bind (Reply.ofMessage method)

end MprpcChannel

/-- The methods of `raftRpc` on a node, with the messages that go to `pushMsgToKvServer`. -/
def Raft.serve {n : ℕ} (s : Raft n × List ApplyMsg) : Request n → Option ((Raft n × List ApplyMsg) × Reply)
  | .appendEntries args => (s.1.appendEntries1 args).toOption.map fun (rf, reply) =>
      ((rf, s.2), .appendEntries reply)
  | .installSnapshot args => (s.1.installSnapshot args).toOption.map fun (rf, reply, msg) =>
      ((rf, s.2 ++ msg.toList), .installSnapshot reply)
  | .requestVote args => (s.1.requestVote args).toOption.map fun (rf, reply) =>
      ((rf, s.2), .requestVote reply)
  | _ => none

namespace MprpcChannel

end MprpcChannel
end RaftStorage
