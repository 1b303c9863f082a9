import Mathlib
import FuncWarble.Model.FuncService

/-! # The func client

`FuncClientImpl` as programs over the RPCs of its stub. `Event` asks the func server which function
is hooked, packs the request of that function from its parameters, and sends it in a second RPC.
The five helpers differ in the request they pack and in what they take over from the reply.
-/

namespace FuncWarble.Model

open Text Machine

/-- An RPC of the stub. -/
inductive RpcOp where
  | hook (request : HookRequest)
  | unhook (request : UnhookRequest)
  | event (request : EventRequest)
  | query (request : QueryRequest)
deriving DecidableEq, Repr

/-- The status of the RPC, with the reply if one was delivered. The replies of `hook` and `unhook`
have no fields. -/
@[reducible] def RpcOp.Answer : RpcOp → Type
  | hook _ => Status
  | unhook _ => Status
  | event _ => Status × Option EventReply
  | query _ => Status × Option QueryReply

abbrev FuncClientProgram := Program RpcOp.Answer

/-- The call that the server handles; `tv` is what its clock reads during an event. -/
def RpcOp.call (tv : Timestamp) : RpcOp → FuncCall
  | hook request => .hook request
  | unhook request => .unhook request
  | event request => .event request tv
  | query request => .query request

/-- The status that the client receives. An exception that escapes a handler becomes a status. -/
def FuncResult.status : FuncResult → Status
  | replied status _ => status
  | badFunctionCall => ⟨.unknown, "Unexpected error in RPC handling"⟩

/-- What the client receives: the reply on OK, and only the status otherwise. -/
def RpcOp.deliver : (op : RpcOp) → FuncResult → op.Answer
  | hook _, result => result.status
  | unhook _, result => result.status
  | event _, .replied status (.event reply) => (status, if status.isOk then some reply else none)
  | event _, result => (result.status, none)
  | query _, .replied status (.query reply) => (status, if status.isOk then some reply else none)
  | query _, result => (result.status, none)

structure ClientEventParams where
  username : Bytes
  toFollow : Bytes
  warbleText : Bytes
  warbleId : Bytes
  parentWarbleId : Bytes
deriving DecidableEq, Repr

structure ClientEventReply where
  warble : Warble
  warbleThreads : List Warble
  following : List Bytes
  followers : List Bytes
deriving DecidableEq, Repr

namespace FuncClientImpl

/-- `FuncClientImpl::Hook`. -/
def hook (eventType : Int32) (functionName : Bytes) : FuncClientProgram Bool := do
  let status ← Program.perform (RpcOp.hook ⟨eventType, functionName⟩)
  return status.isOk

/-- `FuncClientImpl::Unhook`. -/
def unhook (eventType : Int32) : FuncClientProgram Bool := do
  let status ← Program.perform (RpcOp.unhook ⟨eventType⟩)
  return status.isOk

/-- What the helpers share: the request is packed and sent, and the reply is unpacked whatever the
status is. Without a reply from the server, the payload is still the empty one it was set to. -/
def helper {Request Reply : Type} (requests : AnyFormat Request) (replies : AnyFormat Reply)
    (eventType : Int32) (request : Request) (write : Reply → ClientEventReply) :
    FuncClientProgram (Bool × ClientEventReply) := do
  let eventRequest : EventRequest := ⟨eventType, some (requests.packFrom request)⟩
  let eventReply : EventReply := ⟨some Any.empty⟩
  let (status, delivered) ← Program.perform (RpcOp.event eventRequest)
  let payload := (delivered.getD eventReply).payload.getD Any.empty
  return (status.isOk, write (replies.unpackTo payload).2)

variable (packing : Packing) (eventType : Int32) (clientEventParams : ClientEventParams)
  (clientEventReply : ClientEventReply)

/-- `FuncClientImpl::RegisterHelper`. -/
def registerHelper : FuncClientProgram (Bool × ClientEventReply) :=
  helper packing.registeruserRequest packing.registeruserReply eventType
    ⟨clientEventParams.username⟩ fun _ => clientEventReply

/-- `FuncClientImpl::WarbleHelper`; the accessor of a field that is not set returns an empty
message. -/
def warbleHelper : FuncClientProgram (Bool × ClientEventReply) :=
  helper packing.warbleRequest packing.warbleReply eventType
    { username := clientEventParams.username
      text := clientEventParams.warbleText
      parentId := clientEventParams.parentWarbleId }
    fun warbleReply => { clientEventReply with warble := warbleReply.warble.getD Warble.empty }

/-- `FuncClientImpl::FollowHelper`. -/
def followHelper : FuncClientProgram (Bool × ClientEventReply) :=
  helper packing.followRequest packing.followReply eventType
    { username := clientEventParams.username
      toFollow := clientEventParams.toFollow }
    fun _ => clientEventReply

/-- `FuncClientImpl::ReadHelper`. -/
def readHelper : FuncClientProgram (Bool × ClientEventReply) :=
  helper packing.readRequest packing.readReply eventType
    { warbleId := clientEventParams.warbleId
      username := clientEventParams.username }
    fun readReply => readReply.warbles.foldl (fun reply warble =>
      { reply with warbleThreads := reply.warbleThreads ++ [warble] }) clientEventReply

/-- `FuncClientImpl::ProfileHelper`. -/
def profileHelper : FuncClientProgram (Bool × ClientEventReply) :=
  helper packing.profileRequest packing.profileReply eventType ⟨clientEventParams.username⟩
    fun profileReply =>
      let withFollowers := profileReply.followers.foldl (fun reply follower =>
        { reply with followers := reply.followers ++ [follower] }) clientEventReply
      profileReply.following.foldl (fun reply following =>
        { reply with following := reply.following ++ [following] }) withFollowers

/-- `FuncClientImpl::Event`. -/
def event : FuncClientProgram (Bool × ClientEventReply) := do
  let (queryStatus, queryReply) ← Program.perform (RpcOp.query ⟨eventType⟩)
  if ¬ queryStatus.isOk then
    return (false, clientEventReply)
  else
    let functionName := (queryReply.getD ⟨[]⟩).eventFunction
    if functionName = str "registeruser" then
      registerHelper packing eventType clientEventParams clientEventReply
    else if functionName = str "warble" then
      warbleHelper packing eventType clientEventParams clientEventReply
    else if functionName = str "follow" then
      followHelper packing eventType clientEventParams clientEventReply
    else if functionName = str "read" then
      readHelper packing eventType clientEventParams clientEventReply
    else if functionName = str "profile" then
      profileHelper packing eventType clientEventParams clientEventReply
    else return (false, clientEventReply)

end FuncClientImpl

/-- A call of the client's methods. -/
inductive FuncClientCall where
  | hook (eventType : Int32) (functionName : Bytes)
  | unhook (eventType : Int32)
  | event (eventType : Int32) (clientEventParams : ClientEventParams)
    (clientEventReply : ClientEventReply)
deriving DecidableEq, Repr

/-- What a call returns, with the reply structure that `Event` leaves behind. -/
abbrev FuncClientResult := Bool × Option ClientEventReply

def FuncClientCall.program (packing : Packing) : FuncClientCall → FuncClientProgram FuncClientResult
  | hook eventType functionName => do
    let ok ← FuncClientImpl.hook eventType functionName
    return (ok, none)
  | unhook eventType => do
    let ok ← FuncClientImpl.unhook eventType
    return (ok, none)
  | event eventType clientEventParams clientEventReply => do
    let (ok, reply) ← FuncClientImpl.event packing eventType clientEventParams clientEventReply
    return (ok, some reply)

end FuncWarble.Model
