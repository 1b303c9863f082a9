import Mathlib
import FuncWarble.Text.Decimal

/-! # RPC statuses and messages

The gRPC status of a handler and the messages of `key_value_store.proto`, `warble_service.proto` and
`func_service.proto`. A protobuf `string` and a protobuf `bytes` field are both byte strings; a
singular message field is an `Option`, since its presence can be observed; a repeated field is a
list. Messages without fields keep their own types. A message that has just been constructed is the
`default` of its type.
-/

namespace FuncWarble.Model

open Text

/-- The status codes that the handlers return. -/
inductive StatusCode where
  | ok
  | unknown
  | notFound
  | alreadyExists
deriving DecidableEq, Repr

/-- `grpc::Status`: a code and the text sent with it. -/
structure Status where
  code : StatusCode
  message : String
deriving DecidableEq, Repr

/-- `Status::OK`. -/
def Status.OK : Status := ⟨.ok, ""⟩

def Status.isOk (status : Status) : Bool := status.code == .ok

@[simp] theorem Status.isOk_OK : Status.OK.isOk = true := rfl

structure PutRequest where
  key : Bytes
  value : Bytes
deriving DecidableEq, Repr

structure GetRequest where
  key : Bytes
deriving DecidableEq, Repr

structure GetReply where
  value : Bytes
deriving DecidableEq, Repr

structure RemoveRequest where
  key : Bytes
deriving DecidableEq, Repr

/-- Time as given by `gettimeofday`. -/
structure Timestamp where
  seconds : Int64
  useconds : Int64
deriving DecidableEq, Repr

structure Warble where
  username : Bytes
  text : Bytes
  id : Bytes
  parentId : Bytes
  timestamp : Option Timestamp
deriving DecidableEq, Repr

/-- A message that has just been constructed. -/
def Warble.empty : Warble := ⟨[], [], [], [], none⟩

structure RegisteruserRequest where
  username : Bytes
deriving DecidableEq, Repr, Inhabited

structure RegisteruserReply where
deriving DecidableEq, Repr, Inhabited

structure WarbleRequest where
  username : Bytes
  text : Bytes
  parentId : Bytes
deriving DecidableEq, Repr, Inhabited

structure WarbleReply where
  warble : Option Warble
deriving DecidableEq, Repr, Inhabited

structure FollowRequest where
  username : Bytes
  toFollow : Bytes
deriving DecidableEq, Repr, Inhabited

structure FollowReply where
deriving DecidableEq, Repr, Inhabited

structure ReadRequest where
  warbleId : Bytes
  username : Bytes
deriving DecidableEq, Repr, Inhabited

structure ReadReply where
  warbles : List Warble
deriving DecidableEq, Repr, Inhabited

structure ProfileRequest where
  username : Bytes
deriving DecidableEq, Repr, Inhabited

structure ProfileReply where
  followers : List Bytes
  following : List Bytes
deriving DecidableEq, Repr, Inhabited

/-- `google::protobuf::Any`: a message in its wire form, with the name of its type. -/
structure Any where
  typeUrl : Bytes
  value : Bytes
deriving DecidableEq, Repr

/-- An `Any` that holds no message. -/
def Any.empty : Any := ⟨[], []⟩

structure HookRequest where
  eventType : Int32
  eventFunction : Bytes
deriving DecidableEq, Repr

structure HookReply where
deriving DecidableEq, Repr

structure UnhookRequest where
  eventType : Int32
deriving DecidableEq, Repr

structure UnhookReply where
deriving DecidableEq, Repr

structure EventRequest where
  eventType : Int32
  payload : Option Any
deriving DecidableEq, Repr

structure EventReply where
  payload : Option Any
deriving DecidableEq, Repr

structure QueryRequest where
  eventType : Int32
deriving DecidableEq, Repr

structure QueryReply where
  eventFunction : Bytes
deriving DecidableEq, Repr

end FuncWarble.Model
