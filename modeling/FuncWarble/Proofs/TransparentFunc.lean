import Mathlib
import FuncWarble.Machine.Relational
import FuncWarble.Model.FuncClient
import FuncWarble.Proofs.HookTable
import FuncWarble.Proofs.Refusals

/-! # The func layer is transparent

An event of the client runs the method that is hooked on the request built from the parameters, as
a direct call would: the client and the server agree on the names and on the packed messages, and
a failed call has an empty reply, which is what the client unpacks when it receives no reply.
-/

namespace FuncWarble.Proofs

open Text Model Machine

variable {platform : Platform} {packing : Packing} {tv : Timestamp} {s s' : FuncState}
  {eventType : Int32} {payload : Any} {method : Method}

/-- The server handles the RPC, and the client receives its answer. -/
def Answers (platform : Platform) (packing : Packing) (tv : Timestamp) :
    Effect RpcOp.Answer FuncState := fun op s answer s' =>
  ∃ result, Handles platform packing (op.call tv) s result s' ∧ op.deliver result = answer

/-- An RPC that ends in one way only, and changes nothing. -/
private theorem answers_of_handles {op : RpcOp} {answer : op.Answer} (value : FuncResult)
    (handled : ∀ {result : FuncResult}, Handles platform packing (op.call tv) s result s' ↔
      value = result ∧ s = s') :
    Answers platform packing tv op s answer s' ↔ op.deliver value = answer ∧ s = s' := by
  constructor
  · rintro ⟨result, ended, delivered⟩
    obtain ⟨rfl, same⟩ := handled.mp ended
    exact ⟨delivered, same⟩
  · rintro ⟨delivered, same⟩
    exact ⟨value, handled.mpr ⟨rfl, same⟩, delivered⟩

theorem answers_query_hooked {functionName : Bytes} {answer : Status × Option QueryReply}
    (hooked : s.func.hookMap.lookup eventType = some functionName) :
    Answers platform packing tv (.query ⟨eventType⟩) s answer s' ↔
      (Status.OK, some ⟨functionName⟩) = answer ∧ s = s' :=
  answers_of_handles (.replied Status.OK (.query ⟨functionName⟩)) (handles_query_hooked hooked)

theorem answers_query_missing {answer : Status × Option QueryReply}
    (missing : s.func.hookMap.lookup eventType = none) :
    Answers platform packing tv (.query ⟨eventType⟩) s answer s' ↔
      (⟨.notFound, "event_type is not hooked with any method."⟩, none) = answer ∧ s = s' :=
  answers_of_handles (.replied _ (.query ⟨[]⟩)) (handles_query_missing missing)

theorem answers_event_missing {answer : Status × Option EventReply}
    (missing : s.func.hookMap.lookup eventType = none) :
    Answers platform packing tv (.event ⟨eventType, some payload⟩) s answer s' ↔
      (⟨.notFound, "event_type is not hooked with any method."⟩, none) = answer ∧ s = s' :=
  answers_of_handles (.replied _ (.event ⟨none⟩)) (handles_event_missing missing)

theorem answers_hook {request : HookRequest} :
    Answers platform packing tv (.hook request) s (s.func.hook request).1
      { s with func := (s.func.hook request).2 } :=
  ⟨_, handles_hook.mpr ⟨rfl, rfl⟩, rfl⟩

/-- What the client receives from a method. -/
def delivery (packing : Packing) (result : WarbleResult) : Status × Option EventReply :=
  (result.1, if result.1.isOk then some ⟨some (packing.packReply result.2)⟩ else none)

theorem answers_event_hooked (sound : Sound s.func) {answer : Status × Option EventReply}
    (hooked : s.func.hookMap.lookup eventType = some (methodName method)) :
    Answers platform packing tv (.event ⟨eventType, some payload⟩) s answer s' ↔
      let call := methodCall packing payload tv method
      ∃ result store, Serves platform call s.store result store ∧
        delivery packing result = answer ∧ ⟨s.func, store, s.invoked ++ [call]⟩ = s' := by
  constructor
  · rintro ⟨result, handled, rfl⟩
    obtain ⟨status, reply, store, served, rfl, rfl⟩ :=
      (handles_event_hooked sound hooked).mp handled
    exact ⟨(status, reply), store, served, rfl, rfl⟩
  · rintro ⟨⟨status, reply⟩, store, served, rfl, rfl⟩
    exact ⟨_, (handles_event_hooked sound hooked).mpr ⟨status, reply, store, served, rfl, rfl⟩, rfl⟩

/-- The call that the parameters describe for a method. -/
def directCall (clientEventParams : ClientEventParams) (tv : Timestamp) : Method → WarbleCall
  | .registerUser => .registerUser ⟨clientEventParams.username⟩
  | .warbleMethod => .warble
      { username := clientEventParams.username
        text := clientEventParams.warbleText
        parentId := clientEventParams.parentWarbleId } tv
  | .follow => .follow
      { username := clientEventParams.username
        toFollow := clientEventParams.toFollow }
  | .read => .read
      { warbleId := clientEventParams.warbleId
        username := clientEventParams.username }
  | .profile => .profile ⟨clientEventParams.username⟩

/-- Pack the request of a call. -/
def packRequest (packing : Packing) : WarbleCall → Any
  | .registerUser request => packing.registeruserRequest.packFrom request
  | .warble request _ => packing.warbleRequest.packFrom request
  | .follow request => packing.followRequest.packFrom request
  | .read request => packing.readRequest.packFrom request
  | .profile request => packing.profileRequest.packFrom request

/-- Unpack the reply of a method. -/
def unpackReply (packing : Packing) (payload : Any) : Method → WarbleAnswer
  | .registerUser => .registerUser (packing.registeruserReply.unpackTo payload).2
  | .warbleMethod => .warble (packing.warbleReply.unpackTo payload).2
  | .follow => .follow (packing.followReply.unpackTo payload).2
  | .read => .read (packing.readReply.unpackTo payload).2
  | .profile => .profile (packing.profileReply.unpackTo payload).2

/-- What a reply changes: the warble is replaced, the lists are appended to, and the replies of
`RegisterUser` and `Follow` say nothing. -/
def written (clientEventReply : ClientEventReply) : WarbleAnswer → ClientEventReply
  | .registerUser _ => clientEventReply
  | .warble reply => { clientEventReply with warble := reply.warble.getD Warble.empty }
  | .follow _ => clientEventReply
  | .read reply => { clientEventReply with
      warbleThreads := clientEventReply.warbleThreads ++ reply.warbles }
  | .profile reply => { clientEventReply with
      followers := clientEventReply.followers ++ reply.followers
      following := clientEventReply.following ++ reply.following }

theorem methodCall_packRequest (lawful : packing.Lawful) (params : ClientEventParams)
    (tv tv' : Timestamp) (method : Method) :
    methodCall packing (packRequest packing (directCall params tv' method)) tv method =
      directCall params tv method := by
  cases method with
  | registerUser =>
    simp only [methodCall, packRequest, directCall, lawful.registeruserRequest.undoes]
  | warbleMethod => simp only [methodCall, packRequest, directCall, lawful.warbleRequest.undoes]
  | follow => simp only [methodCall, packRequest, directCall, lawful.followRequest.undoes]
  | read => simp only [methodCall, packRequest, directCall, lawful.readRequest.undoes]
  | profile => simp only [methodCall, packRequest, directCall, lawful.profileRequest.undoes]

/-- The method that a reply is from. -/
def replyMethod : WarbleAnswer → Method
  | .registerUser _ => .registerUser
  | .warble _ => .warbleMethod
  | .follow _ => .follow
  | .read _ => .read
  | .profile _ => .profile

theorem unpackReply_packReply (lawful : packing.Lawful) (answer : WarbleAnswer) :
    unpackReply packing (packing.packReply answer) (replyMethod answer) = answer := by
  cases answer with
  | registerUser reply =>
    simp only [replyMethod, unpackReply, Packing.packReply, lawful.registeruserReply.undoes]
  | warble reply =>
    simp only [replyMethod, unpackReply, Packing.packReply, lawful.warbleReply.undoes]
  | follow reply =>
    simp only [replyMethod, unpackReply, Packing.packReply, lawful.followReply.undoes]
  | read reply =>
    simp only [replyMethod, unpackReply, Packing.packReply, lawful.readReply.undoes]
  | profile reply =>
    simp only [replyMethod, unpackReply, Packing.packReply, lawful.profileReply.undoes]

/-- The payload that is left when no reply arrives unpacks as an empty reply. -/
theorem unpackReply_empty (lawful : packing.Lawful) (params : ClientEventParams)
    (tv : Timestamp) (method : Method) :
    unpackReply packing Any.empty method = emptyAnswer (directCall params tv method) := by
  have unpacked {M : Type} [Inhabited M] {format : AnyFormat M} (own : format.Lawful) :
      (format.unpackTo Any.empty).2 = default :=
    congrArg Prod.snd (own.mismatch Any.empty own.empty)
  cases method with
  | registerUser => exact congrArg _ (unpacked lawful.registeruserReply)
  | warbleMethod => exact congrArg _ (unpacked lawful.warbleReply)
  | follow => exact congrArg _ (unpacked lawful.followReply)
  | read => exact congrArg _ (unpacked lawful.readReply)
  | profile => exact congrArg _ (unpacked lawful.profileReply)

/-- A direct call returns a reply of its own method. -/
theorem replyMethod_of_serves {params : ClientEventParams} {server server' : KeyValueStoreImpl}
    {result : WarbleResult}
    (served : Serves platform (directCall params tv method) server result server') :
    replyMethod result.2 = method := by
  cases method with
  | registerUser =>
    obtain ⟨rfl, _⟩ := serves_registerUser.mp served
    rfl
  | warbleMethod =>
    obtain ⟨rfl, _⟩ := serves_warble.mp served
    rfl
  | follow =>
    obtain ⟨rfl, _⟩ := serves_follow.mp served
    rfl
  | read =>
    rw [directCall, serves_read] at served
    split_ifs at served
    · obtain ⟨reply, rfl⟩ := readLoop_ok served
      rfl
    · obtain ⟨rfl, _⟩ := served
      rfl
    · obtain ⟨rfl, _⟩ := served
      rfl
  | profile =>
    obtain ⟨rfl, _⟩ := serves_profile.mp served
    rfl

/-- The client unpacks the reply of the method, whether or not it has received one. -/
theorem unpackReply_delivery (lawful : packing.Lawful) {params : ClientEventParams}
    {server server' : KeyValueStoreImpl} {result : WarbleResult}
    (served : Serves platform (directCall params tv method) server result server') :
    unpackReply packing
      (((delivery packing result).2.getD ⟨some Any.empty⟩).payload.getD Any.empty) method =
        result.2 := by
  obtain ⟨status, answer⟩ := result
  cases ok : status.isOk with
  | true =>
    have own := unpackReply_packReply lawful answer
    rw [replyMethod_of_serves served] at own
    simp only [delivery, ok, ↓reduceIte, Option.getD_some, own]
  | false =>
    obtain ⟨rfl, _⟩ := unchanged_of_not_ok served ok
    simp only [delivery, ok, Bool.false_eq_true, ↓reduceIte, Option.getD_none, Option.getD_some,
      unpackReply_empty lawful params tv]

/-- The helper of a method. -/
def helperOf (packing : Packing) (eventType : Int32) (params : ClientEventParams)
    (reply : ClientEventReply) : Method → FuncClientProgram (Bool × ClientEventReply)
  | .registerUser => FuncClientImpl.registerHelper packing eventType params reply
  | .warbleMethod => FuncClientImpl.warbleHelper packing eventType params reply
  | .follow => FuncClientImpl.followHelper packing eventType params reply
  | .read => FuncClientImpl.readHelper packing eventType params reply
  | .profile => FuncClientImpl.profileHelper packing eventType params reply

/-- Every helper sends its request and writes what it unpacks. -/
theorem helperOf_eq (packing : Packing) (eventType : Int32) (params : ClientEventParams)
    (reply : ClientEventReply) (tv : Timestamp) (method : Method) :
    helperOf packing eventType params reply method =
      .call (.event ⟨eventType, some (packRequest packing (directCall params tv method))⟩)
        fun (status, delivered) => .ret (status.isOk, written reply (unpackReply packing
          ((delivered.getD ⟨some Any.empty⟩).payload.getD Any.empty) method)) := by
  cases method with
  | registerUser => rfl
  | warbleMethod => rfl
  | follow => rfl
  | read =>
    have warbles := Loop.foldl_push (fun (reply : ClientEventReply) warbles =>
      { reply with warbleThreads := reply.warbleThreads ++ warbles })
      (fun _ => by simp) fun _ _ _ => by simp
    simp only [helperOf, FuncClientImpl.readHelper, warbles]
    rfl
  | profile =>
    have followers := Loop.foldl_push (fun (reply : ClientEventReply) names =>
      { reply with followers := reply.followers ++ names })
      (fun _ => by simp) fun _ _ _ => by simp
    have following := Loop.foldl_push (fun (reply : ClientEventReply) names =>
      { reply with following := reply.following ++ names })
      (fun _ => by simp) fun _ _ _ => by simp
    simp only [helperOf, FuncClientImpl.profileHelper, followers, following]
    rfl

/-- The method that the constructor registers under a name. -/
def methodNamed (functionName : Bytes) : Option Method :=
  [.registerUser, .warbleMethod, .follow, .read, .profile].find? fun method =>
    methodName method = functionName

theorem methodNamed_methodName (method : Method) :
    methodNamed (methodName method) = some method := by
  cases method <;> decide

theorem eq_methodName_of_methodNamed {functionName : Bytes}
    (named : methodNamed functionName = some method) : methodName method = functionName := by
  rw [methodNamed] at named
  have found := List.find?_some named
  exact of_decide_eq_true found

/-- What is left of an event after its query. -/
def afterQuery (packing : Packing) (eventType : Int32) (params : ClientEventParams)
    (reply : ClientEventReply) (answer : Status × Option QueryReply) :
    FuncClientProgram (Bool × ClientEventReply) :=
  if answer.1.isOk then
    match methodNamed (answer.2.getD ⟨[]⟩).eventFunction with
    | some method => helperOf packing eventType params reply method
    | none => .ret (false, reply)
  else .ret (false, reply)

theorem afterQuery_hooked (packing : Packing) (eventType : Int32) (params : ClientEventParams)
    (reply : ClientEventReply) (method : Method) :
    afterQuery packing eventType params reply (Status.OK, some ⟨methodName method⟩) =
      helperOf packing eventType params reply method := by
  simp only [afterQuery, Status.isOk_OK, ↓reduceIte, Option.getD_some, methodNamed_methodName]

/-- An event goes on with the helper of the method whose name it has received. -/
theorem event_eq (packing : Packing) (eventType : Int32) (params : ClientEventParams)
    (reply : ClientEventReply) : FuncClientImpl.event packing eventType params reply =
      .call (.query ⟨eventType⟩) (afterQuery packing eventType params reply) := by
  refine congrArg _ (funext fun (status, queryReply) => ?_)
  change (if ¬ status.isOk then Program.ret (false, reply) else _) =
    if status.isOk then _ else Program.ret (false, reply)
  rw [ite_not]
  split_ifs with ok
  · cases named : methodNamed (queryReply.getD ⟨[]⟩).eventFunction with
    | some method =>
      rw [← eq_methodName_of_methodNamed named]
      cases method <;> rfl
    | none =>
      have other : ∀ method, (queryReply.getD ⟨[]⟩).eventFunction ≠ methodName method := by
        intro method same
        rw [same, methodNamed_methodName] at named
        contradiction
      exact (if_neg (other .registerUser)).trans <| (if_neg (other .warbleMethod)).trans <|
        (if_neg (other .follow)).trans <| (if_neg (other .read)).trans <|
        if_neg (other .profile)
  · rfl

/-- A direct call, seen by the client: whether it has succeeded, and its reply in the reply
structure. -/
def CalledDirectly (platform : Platform) (params : ClientEventParams) (tv : Timestamp)
    (method : Method) (reply : ClientEventReply) (s : FuncState) (returned : Bool)
    (reply' : ClientEventReply) (s' : FuncState) : Prop :=
  ∃ status answer store,
    Serves platform (directCall params tv method) s.store (status, answer) store ∧
      returned = status.isOk ∧ reply' = written reply answer ∧
      s' = ⟨s.func, store, s.invoked ++ [directCall params tv method]⟩

/-- The helper of the method that is hooked runs the method on the request from the parameters. -/
theorem helperOf_executes (lawful : packing.Lawful) (sound : Sound s.func)
    (hooked : s.func.hookMap.lookup eventType = some (methodName method))
    {params : ClientEventParams} {reply reply' : ClientEventReply} {returned : Bool} :
    (helperOf packing eventType params reply method).Executes (Answers platform packing tv) s
        (returned, reply') s' ↔
      CalledDirectly platform params tv method reply s returned reply' s' := by
  rw [helperOf_eq packing eventType params reply tv, Program.Executes]
  simp only [answers_event_hooked sound hooked, methodCall_packRequest lawful, Program.Executes]
  constructor
  · rintro ⟨_, _, ⟨result, store, served, rfl, rfl⟩, same, rfl⟩
    obtain ⟨rfl, rfl⟩ := Prod.mk.inj same
    rw [unpackReply_delivery lawful served]
    exact ⟨result.1, result.2, store, served, rfl, rfl, rfl⟩
  · rintro ⟨status, answer, store, served, rfl, rfl, rfl⟩
    refine ⟨_, _, ⟨(status, answer), store, served, rfl, rfl⟩, ?_, rfl⟩
    rw [unpackReply_delivery lawful served]
    rfl

/-- The func layer is transparent: with no other RPC in between, an event of the client does
nothing for a type that is not hooked, and otherwise what a direct call would do. -/
theorem func_layer_transparent {past : List FuncExchange} (lawful : packing.Lawful)
    (run : FuncRun platform packing past s) (eventType : Int32) (params : ClientEventParams)
    (reply : ClientEventReply) (tv : Timestamp) (returned : Bool) (reply' : ClientEventReply)
    (s' : FuncState) :
    (FuncClientImpl.event packing eventType params reply).Executes (Answers platform packing tv) s
        (returned, reply') s' ↔
      match s.func.hookMap.lookup eventType with
      | none => returned = false ∧ reply' = reply ∧ s' = s
      | some functionName => ∃ method, methodName method = functionName ∧
          CalledDirectly platform params tv method reply s returned reply' s' := by
  rw [event_eq, Program.Executes]
  cases hooked : s.func.hookMap.lookup eventType with
  | none =>
    simp only [answers_query_missing hooked]
    constructor
    · rintro ⟨_, _, ⟨rfl, rfl⟩, same, rfl⟩
      obtain ⟨rfl, rfl⟩ := Prod.mk.inj same
      exact ⟨rfl, rfl, rfl⟩
    · rintro ⟨rfl, rfl, rfl⟩
      exact ⟨_, _, ⟨rfl, rfl⟩, rfl, rfl⟩
  | some functionName =>
    obtain ⟨method, rfl⟩ := run.sound.names _ _ hooked
    have executes := @helperOf_executes platform packing tv s s' eventType method lawful run.sound
      hooked params reply reply' returned
    simp only [answers_query_hooked hooked]
    constructor
    · rintro ⟨_, _, ⟨rfl, rfl⟩, ended⟩
      rw [afterQuery_hooked] at ended
      exact ⟨method, rfl, executes.mp ended⟩
    · rintro ⟨other, same, called⟩
      obtain rfl := methodName_inj.mp same
      refine ⟨_, _, ⟨rfl, rfl⟩, ?_⟩
      rw [afterQuery_hooked]
      exact executes.mpr called

/-- An event registers a user through the func server. -/
theorem func_layer_transparent_example : ∃ s s',
    FuncRun protobufPlatform protobufPacking
      [⟨.hook ⟨1, methodName .registerUser⟩, .replied Status.OK (.hook {})⟩] s ∧
    (FuncClientImpl.event protobufPacking 1 ⟨str "ada", [], [], [], []⟩
        ⟨Warble.empty, [], [], []⟩).Executes (Answers protobufPlatform protobufPacking ⟨0, 0⟩) s
      (true, ⟨Warble.empty, [], [], []⟩) s' ∧
    ¬ Found s.store (nameKey .user (str "ada")) ∧ Found s'.store (nameKey .user (str "ada")) := by
  refine ⟨_, _, FuncRun.hook_first ⟨∅, [], false, none⟩ 1 .registerUser,
    (func_layer_transparent protobufPacking_lawful
      (FuncRun.hook_first ⟨∅, [], false, none⟩ 1 .registerUser) 1 _ _ ⟨0, 0⟩ _ _ _).mpr
      ⟨.registerUser, rfl, Status.OK, _, _, serves_registerUser.mpr ⟨rfl, rfl⟩, rfl, rfl, rfl⟩,
    ?_, ?_⟩
  · decide
  · decide

end FuncWarble.Proofs
