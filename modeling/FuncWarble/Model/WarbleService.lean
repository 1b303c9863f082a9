import Mathlib
import FuncWarble.Model.KeyValueClient
import FuncWarble.Model.Messages

/-! # The warble service

The five methods of `WarbleService` as programs over the key value client. They share nothing but
the store behind the client, so run alone they are the sequential service, and interleaved at
their `Get`s and `Put`s they are the concurrent one. `Read` is a program that ends at the head of
its loop; the body of the loop is a program of its own.
-/

namespace FuncWarble.Model

open Text Machine

/-- What the service takes from its platform: `std::hash<std::string>` on a 64-bit machine, and
the generated `SerializeToString` and `ParseFromString` of the message `Warble`. Parsing returns
its success flag and the message it leaves behind. -/
structure Platform where
  hash : Bytes → UInt64
  serializeToString : Warble → Bytes
  parseFromString : Bytes → Bool × Warble

/-- `ParseFromString` undoes `SerializeToString`. -/
def Platform.Undoes (platform : Platform) : Prop :=
  ∀ warble, platform.parseFromString (platform.serializeToString warble) = (true, warble)

namespace WarbleService

/-- `WarbleService::RegisterUser`. -/
def registerUser (request : RegisteruserRequest) :
    ClientProgram (Status × RegisteruserReply) := do
  let username := request.username
  let usernameKey := str "user_" ++ username
  let kvclientGetResult ← kvGet [usernameKey]
  match kvclientGetResult with
  | some _ => return (⟨.alreadyExists, "Username already exists."⟩, {})
  | none => do
    let _ ← kvPut usernameKey username
    return (Status.OK, {})

/-- The warble that a request posts, before it has an id. -/
def warbleToReply (request : WarbleRequest) (tv : Timestamp) : Warble where
  username := request.username
  text := request.text
  id := []
  parentId := request.parentId
  timestamp := some tv

/-- The id of a warble: the printed hash of its serialization without an id. -/
def warbleId (platform : Platform) (warble : Warble) : Bytes :=
  decimal (platform.hash (platform.serializeToString { warble with id := [] })).toNat

/-- The warble that is returned and stored. -/
def newWarble (platform : Platform) (request : WarbleRequest) (tv : Timestamp) : Warble :=
  { warbleToReply request tv with id := warbleId platform (warbleToReply request tv) }

/-- The end of `WarbleMethod`, once its checks have passed. -/
def storeWarble (platform : Platform) (request : WarbleRequest) (tv : Timestamp) :
    ClientProgram (Status × WarbleReply) := do
  let warble := newWarble platform request tv
  let _ ← kvPut warble.id (platform.serializeToString warble)
  return (Status.OK, ⟨some warble⟩)

/-- `WarbleService::WarbleMethod`; `tv` is what `gettimeofday` reads during the call. -/
def warbleMethod (platform : Platform) (request : WarbleRequest) (tv : Timestamp) :
    ClientProgram (Status × WarbleReply) := do
  let userExistenceValue ← kvGet [str "user_" ++ request.username]
  match userExistenceValue with
  | none => return (⟨.notFound, "User does not exist in database"⟩, ⟨none⟩)
  | some _ =>
    let parentId := request.parentId
    if parentId.length ≠ 0 then do
      let idValidValue ← kvGet [parentId]
      match idValidValue with
      | none => return (⟨.notFound, "Parent id does not exist in database."⟩, ⟨none⟩)
      | some _ => storeWarble platform request tv
    else storeWarble platform request tv

/-- `WarbleService::Follow`. -/
def follow (request : FollowRequest) : ClientProgram (Status × FollowReply) := do
  let username := request.username
  let usernameKey := str "following_" ++ username
  let usernameToFollow := request.toFollow
  let usernameToFollowKey := str "followed_by_" ++ usernameToFollow
  let userExistenceValue ← kvGet [str "user_" ++ username]
  let usernameToFollowExistenceValue ← kvGet [str "user_" ++ usernameToFollow]
  if userExistenceValue = none ∨ usernameToFollowExistenceValue = none then
    return (⟨.notFound, "User or User_to_follow does not exist in database"⟩, {})
  else if username = usernameToFollow then
    return (⟨.notFound, "Users cannot follow themselves."⟩, {})
  else do
    let _ ← kvPut usernameKey usernameToFollow
    let _ ← kvPut usernameToFollowKey username
    return (Status.OK, {})

/-- The variables of `Read` at the head of its loop: the reply so far, the id that was looked up
last and what was found under it. -/
structure ReadLoop where
  reply : ReadReply
  warbleId : Bytes
  serializedWarbles : Option (List Bytes)
deriving DecidableEq, Repr

/-- `WarbleService::Read` up to the head of its loop. -/
def read (request : ReadRequest) : ClientProgram (ReadLoop ⊕ (Status × ReadReply)) := do
  let warbleId := request.warbleId
  let userExistenceValue ← kvGet [str "user_" ++ request.username]
  match userExistenceValue with
  | none => return .inr (⟨.notFound, "User does not exist in database"⟩, ⟨[]⟩)
  | some _ => do
    let serializedWarbles ← kvGet [warbleId]
    match serializedWarbles with
    | none => return .inr (⟨.notFound, "Warble_id is not found."⟩, ⟨[]⟩)
    | some _ => return .inl ⟨⟨[]⟩, warbleId, serializedWarbles⟩

/-- One turn of the loop of `Read`; the result of `ParseFromString` is not looked at. -/
def readBody (platform : Platform) (head : ReadLoop) :
    ClientProgram (ReadLoop ⊕ (Status × ReadReply)) :=
  match head.serializedWarbles with
  | some [serialized] => do
    let newWarble := (platform.parseFromString serialized).2
    let warbleId := newWarble.parentId
    let serializedWarbles ← kvGet [warbleId]
    return .inl ⟨⟨head.reply.warbles ++ [newWarble]⟩, warbleId, serializedWarbles⟩
  | _ => return .inr (Status.OK, head.reply)

/-- `WarbleService::Profile`. -/
def profile (request : ProfileRequest) : ClientProgram (Status × ProfileReply) := do
  let username := request.username
  let userExistenceValue ← kvGet [str "user_" ++ username]
  match userExistenceValue with
  | none => return (⟨.notFound, "User does not exist in database"⟩, ⟨[], []⟩)
  | some _ => do
    let followingUsernames ← kvGet [str "following_" ++ username]
    let followedByUsernames ← kvGet [str "followed_by_" ++ username]
    return (Status.OK,
      { following := followingUsernames.getD [], followers := followedByUsernames.getD [] })

end WarbleService

/-- A call of the service; a post carries what the clock reads during it. -/
inductive WarbleCall where
  | registerUser (request : RegisteruserRequest)
  | warble (request : WarbleRequest) (tv : Timestamp)
  | follow (request : FollowRequest)
  | read (request : ReadRequest)
  | profile (request : ProfileRequest)
deriving DecidableEq, Repr

/-- What the call's own reply message holds. -/
inductive WarbleAnswer where
  | registerUser (reply : RegisteruserReply)
  | warble (reply : WarbleReply)
  | follow (reply : FollowReply)
  | read (reply : ReadReply)
  | profile (reply : ProfileReply)
deriving DecidableEq, Repr

abbrev WarbleResult := Status × WarbleAnswer

namespace WarbleCall

/-- The program of a call, up to the head of the loop for `Read`. -/
def program (platform : Platform) :
    WarbleCall → ClientProgram (WarbleService.ReadLoop ⊕ WarbleResult)
  | registerUser request => do
    let (status, reply) ← WarbleService.registerUser request
    return .inr (status, .registerUser reply)
  | warble request tv => do
    let (status, reply) ← WarbleService.warbleMethod platform request tv
    return .inr (status, .warble reply)
  | follow request => do
    let (status, reply) ← WarbleService.follow request
    return .inr (status, .follow reply)
  | read request => do
    let result ← WarbleService.read request
    return result.map id fun (status, reply) => (status, .read reply)
  | profile request => do
    let (status, reply) ← WarbleService.profile request
    return .inr (status, .profile reply)

/-- The body of the only loop. -/
def body (platform : Platform) (head : WarbleService.ReadLoop) :
    ClientProgram (WarbleService.ReadLoop ⊕ WarbleResult) := do
  let result ← WarbleService.readBody platform head
  return result.map id fun (status, reply) => (status, .read reply)

end WarbleCall

/-- The service whose calls run side by side against one key value server. -/
def warbleService (platform : Platform) : System ClientOp.Answer WarbleCall
    (WarbleService.ReadLoop ⊕ WarbleResult) KeyValueStoreImpl where
  handler := KeyValueClient.handler
  start call := call.program platform
  resume
    | .inl head => some (WarbleCall.body platform head)
    | .inr _ => none

end FuncWarble.Model
