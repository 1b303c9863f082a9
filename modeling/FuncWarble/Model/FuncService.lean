import Mathlib
import FuncWarble.Machine.Embedding
import FuncWarble.Model.WarbleService

/-! # The func service

`FuncServiceImpl` maps event types to function names and function names to wrappers around the
methods of the warble service. `hook` and `unhook` hold a mutex and are single steps; `event` and
`query` take no lock, and each of their accesses to a table is a step of its own. Reading a table
with `operator[]` inserts what is not there.
-/

namespace FuncWarble.Model

open Text Machine

/-- The generated code that packs the messages of a type into an `Any`, tells whether an `Any`
holds one, and unpacks it into a message that has just been constructed. Unpacking returns its
success flag and the message it leaves behind. -/
structure AnyFormat (M : Type) where
  packFrom : M → Any
  is : Any → Bool
  unpackTo : Any → Bool × M

/-- What is documented of packing: unpacking undoes it, and unpacking a message of another type
fails and leaves the target as it was. -/
structure AnyFormat.Lawful {M : Type} [Inhabited M] (format : AnyFormat M) : Prop where
  undoes : ∀ message, format.unpackTo (format.packFrom message) = (true, message)
  mismatch : ∀ any, format.is any = false → format.unpackTo any = (false, default)
  empty : format.is Any.empty = false

/-- The formats of the messages that the func service and its clients pack. -/
structure Packing where
  registeruserRequest : AnyFormat RegisteruserRequest
  registeruserReply : AnyFormat RegisteruserReply
  warbleRequest : AnyFormat WarbleRequest
  warbleReply : AnyFormat WarbleReply
  followRequest : AnyFormat FollowRequest
  followReply : AnyFormat FollowReply
  readRequest : AnyFormat ReadRequest
  readReply : AnyFormat ReadReply
  profileRequest : AnyFormat ProfileRequest
  profileReply : AnyFormat ProfileReply

structure Packing.Lawful (packing : Packing) : Prop where
  registeruserRequest : packing.registeruserRequest.Lawful
  registeruserReply : packing.registeruserReply.Lawful
  warbleRequest : packing.warbleRequest.Lawful
  warbleReply : packing.warbleReply.Lawful
  followRequest : packing.followRequest.Lawful
  followReply : packing.followReply.Lawful
  readRequest : packing.readRequest.Lawful
  readReply : packing.readReply.Lawful
  profileRequest : packing.profileRequest.Lawful
  profileReply : packing.profileReply.Lawful

/-- Pack the reply of a method. -/
def Packing.packReply (packing : Packing) : WarbleAnswer → Any
  | .registerUser reply => packing.registeruserReply.packFrom reply
  | .warble reply => packing.warbleReply.packFrom reply
  | .follow reply => packing.followReply.packFrom reply
  | .read reply => packing.readReply.packFrom reply
  | .profile reply => packing.profileReply.packFrom reply

/-- The wrappers that a `std::function` of the service can hold. -/
inductive Method where
  | registerUser
  | warbleMethod
  | follow
  | read
  | profile
deriving DecidableEq, Repr

/-- The two tables; an empty `std::function` is `none`. -/
structure FuncServiceImpl where
  hookMap : Finmap fun _ : Int32 => Bytes
  nameMethodMap : Finmap fun _ : Bytes => Option Method
deriving DecidableEq

namespace FuncServiceImpl

/-- `FuncServiceImpl::FuncServiceImpl`. -/
def new : FuncServiceImpl where
  hookMap := ∅
  nameMethodMap := ((((Finmap.singleton (str "registeruser") (some .registerUser)).insert
    (str "warble") (some .warbleMethod)).insert (str "follow") (some .follow)).insert
    (str "read") (some .read)).insert (str "profile") (some .profile)

/-- `FuncServiceImpl::hook`. -/
def hook (self : FuncServiceImpl) (request : HookRequest) : Status × FuncServiceImpl :=
  let eventType := request.eventType
  let eventFunction := request.eventFunction
  if self.nameMethodMap.lookup eventFunction = none then
    (⟨.notFound, "event_function doesn't match any existing function."⟩, self)
  else (Status.OK, { self with hookMap := self.hookMap.insert eventType eventFunction })

/-- `FuncServiceImpl::unhook`. -/
def unhook (self : FuncServiceImpl) (request : UnhookRequest) : Status × FuncServiceImpl :=
  (Status.OK, { self with hookMap := self.hookMap.erase request.eventType })

/-- Whether `hook_map_.find` finds the event type. -/
def findHook (self : FuncServiceImpl) (eventType : Int32) : Bool :=
  (self.hookMap.lookup eventType).isSome

/-- `hook_map_[event_type]`. -/
def hookAt (self : FuncServiceImpl) (eventType : Int32) : Bytes × FuncServiceImpl :=
  match self.hookMap.lookup eventType with
  | some eventFunction => (eventFunction, self)
  | none => ([], { self with hookMap := self.hookMap.insert eventType [] })

/-- `name_method_map_[event_function]`. -/
def methodAt (self : FuncServiceImpl) (eventFunction : Bytes) : Option Method × FuncServiceImpl :=
  match self.nameMethodMap.lookup eventFunction with
  | some method => (method, self)
  | none => (none, { self with nameMethodMap := self.nameMethodMap.insert eventFunction none })

end FuncServiceImpl

/-- The steps of the RPC handlers. The step `invoke` does nothing: it records that a method of the
warble service is called with a request. -/
inductive FuncOp where
  | hook (request : HookRequest)
  | unhook (request : UnhookRequest)
  | findHook (eventType : Int32)
  | hookAt (eventType : Int32)
  | methodAt (eventFunction : Bytes)
  | invoke (call : WarbleCall)
  | client (op : ClientOp)
deriving DecidableEq

@[reducible] def FuncOp.Answer : FuncOp → Type
  | hook _ => Status
  | unhook _ => Status
  | findHook _ => Bool
  | hookAt _ => Bytes
  | methodAt _ => Option Method
  | invoke _ => Unit
  | client op => op.Answer

abbrev FuncProgram := Program FuncOp.Answer

/-- The func server, the key value server behind it and the recorded calls, oldest first. -/
structure FuncState where
  func : FuncServiceImpl
  store : KeyValueStoreImpl
  invoked : List WarbleCall

def funcHandler : Handler FuncOp.Answer FuncState
  | .hook request, s => ((s.func.hook request).1, { s with func := (s.func.hook request).2 })
  | .unhook request, s =>
    ((s.func.unhook request).1, { s with func := (s.func.unhook request).2 })
  | .findHook eventType, s => (s.func.findHook eventType, s)
  | .hookAt eventType, s =>
    ((s.func.hookAt eventType).1, { s with func := (s.func.hookAt eventType).2 })
  | .methodAt eventFunction, s =>
    ((s.func.methodAt eventFunction).1, { s with func := (s.func.methodAt eventFunction).2 })
  | .invoke call, s => ((), { s with invoked := s.invoked ++ [call] })
  | .client op, s => ((KeyValueClient.handler op s.store).1,
      { s with store := (KeyValueClient.handler op s.store).2 })

namespace Func

section Wrappers

variable (platform : Platform) (packing : Packing)

/-- What the wrappers share: the method is called, and whatever its status its reply is packed. -/
def wrapper (call : WarbleCall) : FuncProgram (WarbleService.ReadLoop ⊕ (Status × Any)) := do
  let _ ← Program.perform (FuncOp.invoke call)
  (call.program platform).embedWith FuncOp.client (fun _ answer => answer)
    fun (status, answer) => (status, packing.packReply answer)

/-- `func::RegisterUser`; as in all wrappers, the result of `UnpackTo` is not looked at. -/
def registerUser (request : Any) : FuncProgram (WarbleService.ReadLoop ⊕ (Status × Any)) :=
  wrapper platform packing (.registerUser (packing.registeruserRequest.unpackTo request).2)

/-- `func::WarbleMethod`. -/
def warbleMethod (request : Any) (tv : Timestamp) :
    FuncProgram (WarbleService.ReadLoop ⊕ (Status × Any)) :=
  wrapper platform packing (.warble (packing.warbleRequest.unpackTo request).2 tv)

/-- `func::Follow`. -/
def follow (request : Any) : FuncProgram (WarbleService.ReadLoop ⊕ (Status × Any)) :=
  wrapper platform packing (.follow (packing.followRequest.unpackTo request).2)

/-- `func::Read`. -/
def read (request : Any) : FuncProgram (WarbleService.ReadLoop ⊕ (Status × Any)) :=
  wrapper platform packing (.read (packing.readRequest.unpackTo request).2)

/-- `func::Profile`. -/
def profile (request : Any) : FuncProgram (WarbleService.ReadLoop ⊕ (Status × Any)) :=
  wrapper platform packing (.profile (packing.profileRequest.unpackTo request).2)

end Wrappers

end Func

/-- Call the wrapper; `tv` is what `gettimeofday` reads during the call. -/
def Method.apply (platform : Platform) (packing : Packing) (request : Any) (tv : Timestamp) :
    Method → FuncProgram (WarbleService.ReadLoop ⊕ (Status × Any))
  | registerUser => Func.registerUser platform packing request
  | warbleMethod => Func.warbleMethod platform packing request tv
  | follow => Func.follow platform packing request
  | read => Func.read platform packing request
  | profile => Func.profile platform packing request

inductive FuncAnswer where
  | hook (reply : HookReply)
  | unhook (reply : UnhookReply)
  | event (reply : EventReply)
  | query (reply : QueryReply)
deriving DecidableEq, Repr

/-- How a handler ends. Calling an empty `std::function` throws `std::bad_function_call`. -/
inductive FuncResult where
  | replied (status : Status) (answer : FuncAnswer)
  | badFunctionCall
deriving DecidableEq, Repr

namespace FuncServiceImpl

/-- `FuncServiceImpl::event`. -/
def event (platform : Platform) (packing : Packing) (request : EventRequest) (tv : Timestamp) :
    FuncProgram (WarbleService.ReadLoop ⊕ FuncResult) := do
  let eventType := request.eventType
  let hooked ← Program.perform (FuncOp.findHook eventType)
  if hooked then do
    let eventFunction ← Program.perform (FuncOp.hookAt eventType)
    let functionRequest := request.payload.getD Any.empty
    let method ← Program.perform (FuncOp.methodAt eventFunction)
    match method with
    | none => return .inr .badFunctionCall
    | some method => do
      let result ← method.apply platform packing functionRequest tv
      return result.map id fun (status, functionReply) =>
        .replied status (.event ⟨some functionReply⟩)
  else
    return .inr (.replied ⟨.notFound, "event_type is not hooked with any method."⟩ (.event ⟨none⟩))

/-- `FuncServiceImpl::query`. -/
def query (request : QueryRequest) : FuncProgram (WarbleService.ReadLoop ⊕ FuncResult) := do
  let eventType := request.eventType
  let hooked ← Program.perform (FuncOp.findHook eventType)
  if hooked then do
    let eventFunction ← Program.perform (FuncOp.hookAt eventType)
    return .inr (.replied Status.OK (.query ⟨eventFunction⟩))
  else
    return .inr (.replied ⟨.notFound, "event_type is not hooked with any method."⟩ (.query ⟨[]⟩))

end FuncServiceImpl

/-- An RPC of the func service; an event carries what the clock reads during it. -/
inductive FuncCall where
  | hook (request : HookRequest)
  | unhook (request : UnhookRequest)
  | event (request : EventRequest) (tv : Timestamp)
  | query (request : QueryRequest)
deriving DecidableEq, Repr

namespace FuncCall

/-- The program of an RPC, up to the head of the loop of `Read`. -/
def program (platform : Platform) (packing : Packing) :
    FuncCall → FuncProgram (WarbleService.ReadLoop ⊕ FuncResult)
  | hook request => do
    let status ← Program.perform (FuncOp.hook request)
    return .inr (.replied status (.hook {}))
  | unhook request => do
    let status ← Program.perform (FuncOp.unhook request)
    return .inr (.replied status (.unhook {}))
  | event request tv => FuncServiceImpl.event platform packing request tv
  | query request => FuncServiceImpl.query request

/-- The body of the loop of `Read`, run by an event. -/
def body (platform : Platform) (packing : Packing) (head : WarbleService.ReadLoop) :
    FuncProgram (WarbleService.ReadLoop ⊕ FuncResult) :=
  (WarbleCall.body platform head).embedWith FuncOp.client (fun _ answer => answer)
    fun (status, answer) => .replied status (.event ⟨some (packing.packReply answer)⟩)

end FuncCall

/-- The service whose RPCs run side by side on one pair of tables and one key value server. -/
def funcService (platform : Platform) (packing : Packing) : System FuncOp.Answer FuncCall
    (WarbleService.ReadLoop ⊕ FuncResult) FuncState where
  handler := funcHandler
  start call := call.program platform packing
  resume
    | .inl head => some (FuncCall.body platform packing head)
    | .inr _ => none

end FuncWarble.Model
