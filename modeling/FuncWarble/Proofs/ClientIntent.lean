import Mathlib
import FuncWarble.Proofs.TransparentFunc

/-! # What clients intend

`Event` is two RPCs, a query and an event, and another client may hook the event type to another
function between them. The event then runs that function, on a payload that was packed for the
one the query had returned.
-/

namespace FuncWarble.Proofs

open Text Model Machine

variable {platform : Platform} {packing : Packing}

/-- One RPC of a client, with the func server around it. -/
abbrev ClientStep := Transition RpcOp.Answer FuncClientCall FuncClientResult FuncState

/-- Any number of clients: their RPCs reach the func server in any order, each as one step. -/
abbrev Clients (platform : Platform) (packing : Packing) (store : KeyValueStoreImpl) :
    List ClientStep → FuncState → List (Session RpcOp.Answer FuncClientCall FuncClientResult) →
      Prop :=
  Sessions (FuncClientCall.program packing)
    (fun op s answer s' => ∃ tv, Answers platform packing tv op s answer s')
    ⟨FuncServiceImpl.new, store, []⟩

/-- The step is the second RPC of `Event`, whose query has returned a function name. -/
structure Fires (step : ClientStep) (eventType : Int32) (params : ClientEventParams)
    (functionName : Bytes) : Prop where
  call : ∃ reply, step.call = .event eventType params reply
  queried : ∃ status, step.performed = [⟨.query ⟨eventType⟩, (status, some ⟨functionName⟩)⟩]
  fires : ∃ request, step.answered.op = .event request

/-- The event has run the function that the query has returned, on the request that the client has
built from its parameters, and nothing else. -/
def RunsIntended (platform : Platform) (step : ClientStep) (params : ClientEventParams)
    (functionName : Bytes) : Prop :=
  ∃ method tv result store, methodName method = functionName ∧
    Serves platform (directCall params tv method) step.before.store result store ∧
    step.after = ⟨step.before.func, store, step.before.invoked ++ [directCall params tv method]⟩

/-- `Event` returns false; the event has run nothing, and has changed neither the key value store
nor the hook table. -/
structure RunsNothing (step : ClientStep) : Prop where
  returned : ∃ reply, step.rest = .ret (false, reply)
  invoked : step.after.invoked = step.before.invoked
  store : step.after.store = step.before.store
  hookMap : step.after.func.hookMap = step.before.func.hookMap

/-- An event runs what its client intends, or nothing at all. -/
def RespectsIntent (platform : Platform) (step : ClientStep) : Prop :=
  ∀ eventType params functionName, Fires step eventType params functionName →
    RunsIntended platform step params functionName ∨ RunsNothing step

/-- When an event is handled, its type is still hooked to the function that the query has returned,
or is not hooked any more. -/
def StillBound (step : ClientStep) : Prop :=
  ∀ eventType params functionName, Fires step eventType params functionName →
    step.before.func.hookMap.lookup eventType = some functionName ∨
      step.before.func.hookMap.lookup eventType = none

/-- The method that a call is of. -/
def callMethod : WarbleCall → Method
  | .registerUser _ => .registerUser
  | .warble _ _ => .warbleMethod
  | .follow _ => .follow
  | .read _ => .read
  | .profile _ => .profile

theorem callMethod_methodCall (payload : Any) (tv : Timestamp) (method : Method) :
    callMethod (methodCall packing payload tv method) = method := by
  cases method <;> rfl

theorem callMethod_directCall (params : ClientEventParams) (tv : Timestamp) (method : Method) :
    callMethod (directCall params tv method) = method := by
  cases method <;> rfl

/-- The event that a client sends carries the request of the function that its query returned, and
`Event` returns whether it succeeds. -/
theorem event_of_leaves {eventType : Int32} {params : ClientEventParams}
    {reply : ClientEventReply} {status : Status} {functionName : Bytes} (tv : Timestamp)
    {answered : Answered RpcOp.Answer}
    {next : answered.op.Answer → FuncClientProgram FuncClientResult}
    (left : ((FuncClientCall.event eventType params reply).program packing).Leaves
      [⟨.query ⟨eventType⟩, (status, some ⟨functionName⟩)⟩] (.call answered.op next)) :
    ∃ method, methodName method = functionName ∧
      ∃ (answer : Status × Option EventReply) (reply' : ClientEventReply), answered =
        ⟨.event ⟨eventType, some (packRequest packing (directCall params tv method))⟩, answer⟩ ∧
      next answered.answer = .ret (answer.1.isOk, some reply') := by
  rw [FuncClientCall.program, event_eq, Program.call_bind, Program.leaves_call,
    Program.leaves_nil] at left
  simp only [afterQuery, Option.getD_some] at left
  split_ifs at left with ok
  · cases named : methodNamed functionName with
    | some method =>
      simp only [named, helperOf_eq packing eventType params reply tv] at left
      obtain ⟨op, answer⟩ := answered
      cases left
      exact ⟨method, eq_methodName_of_methodNamed named, answer, _, rfl, rfl⟩
    | none =>
      rw [named] at left
      contradiction
  · contradiction

/-- What is known of every step of a run. -/
structure Taken (platform : Platform) (packing : Packing) (step : ClientStep) : Prop where
  sound : Sound step.before.func
  answers : ∃ tv, Answers platform packing tv step.answered.op step.before step.answered.answer
    step.after
  leaves : ∃ next, next step.answered.answer = step.rest ∧
    (step.call.program packing).Leaves step.performed (.call step.answered.op next)

theorem answers_sound {op : RpcOp} {tv : Timestamp} {s s' : FuncState} {answer : op.Answer}
    (sound : Sound s.func) (answers : Answers platform packing tv op s answer s') :
    Sound s'.func := by
  obtain ⟨result, handled, _⟩ := answers
  exact (sound.handle handled).1

theorem Clients.taken {store : KeyValueStoreImpl} {past : List ClientStep} {s : FuncState}
    {sessions : List (Session RpcOp.Answer FuncClientCall FuncClientResult)}
    (run : Clients platform packing store past s sessions) :
    ∀ step ∈ past, Taken platform packing step := by
  have kept : ∀ (op : RpcOp) s answer s', (∃ tv, Answers platform packing tv op s answer s') →
      Sound s.func → Sound s'.func := by
    rintro op s answer s' ⟨tv, answers⟩ sound
    exact answers_sound sound answers
  have sound := Sessions.invariant kept Sound.new run
  exact fun step member =>
    ⟨sound.2 step member, (run.transition step member).1, (run.transition step member).2⟩

/-- An event of a client respects its intent exactly when its type is still bound. -/
theorem Taken.respectsIntent_iff (lawful : packing.Lawful) {step : ClientStep}
    (taken : Taken platform packing step) :
    RespectsIntent platform step ↔ StillBound step := by
  refine forall_congr' fun eventType => forall_congr' fun params =>
    forall_congr' fun functionName => forall_congr' fun fires => ?_
  obtain ⟨call, performed, answered, before, after, rest⟩ := step
  obtain ⟨⟨reply, rfl⟩, ⟨status, rfl⟩, -⟩ := fires
  obtain ⟨sound, ⟨tv, answers⟩, next, continues, left⟩ := taken
  obtain ⟨method, rfl, answer, reply', rfl, returned⟩ := event_of_leaves tv left
  obtain rfl := continues.symm.trans returned
  simp only at sound answers
  cases hooked : before.func.hookMap.lookup eventType with
  | none =>
    obtain ⟨rfl, rfl⟩ := (answers_event_missing hooked).mp answers
    exact iff_of_true (.inr ⟨⟨_, rfl⟩, rfl, rfl, rfl⟩) (.inr rfl)
  | some bound =>
    obtain ⟨other, rfl⟩ := sound.names _ _ hooked
    obtain ⟨result, store, served, rfl, rfl⟩ := (answers_event_hooked sound hooked).mp answers
    rcases eq_or_ne other method with rfl | different
    · rw [methodCall_packRequest lawful] at served ⊢
      exact iff_of_true (.inl ⟨other, tv, result, store, rfl, served, rfl⟩) (.inl rfl)
    · refine iff_of_false ?_ ?_
      · rintro (⟨intended, _, _, _, named, _, ran⟩ | nothing)
        · obtain rfl := methodName_inj.mp named
          have invoked := List.append_cancel_left (congrArg FuncState.invoked ran)
          have called := congrArg callMethod (List.singleton_inj.mp invoked)
          rw [callMethod_methodCall, callMethod_directCall] at called
          exact different called
        · have grown := congrArg List.length nothing.invoked
          simp at grown
      · rintro (bound | missing)
        · exact different (methodName_inj.mp (Option.some.inj bound))
        · contradiction

/-- What runs is what the client intends, or nothing, in exactly those runs in which no event type
is hooked to another function between the query and the event of a client. -/
theorem client_intent_iff (lawful : packing.Lawful) {store : KeyValueStoreImpl}
    {past : List ClientStep} {s : FuncState}
    {sessions : List (Session RpcOp.Answer FuncClientCall FuncClientResult)}
    (run : Clients platform packing store past s sessions) :
    (∀ step ∈ past, RespectsIntent platform step) ↔ ∀ step ∈ past, StillBound step :=
  forall₂_congr fun step member => (run.taken step member).respectsIntent_iff lawful

private def adaFollowsBob : ClientEventParams := ⟨str "ada", str "bob", [], [], []⟩

private def emptyReply : ClientEventReply := ⟨Warble.empty, [], [], []⟩

/-- A client has hooked a method, a second one has queried its name, and a third one is about to
hook registration in its place. -/
private theorem clients_queried (method : Method) : ∃ past sessions,
    Clients protobufPlatform protobufPacking ⟨∅, [], false, none⟩ past
      ⟨(FuncServiceImpl.new.hook ⟨1, methodName method⟩).2, ⟨∅, [], false, none⟩, []⟩ sessions ∧
    (∀ step ∈ past, StillBound step) ∧
    (∃ replied : Status × Option EventReply → ClientEventReply,
      sessions[1]? = some ⟨.event 1 adaFollowsBob emptyReply,
        [⟨.query ⟨1⟩, (Status.OK, some ⟨methodName method⟩)⟩],
        .call (.event ⟨1, some (packRequest protobufPacking
          (directCall adaFollowsBob ⟨0, 0⟩ method))⟩)
          fun answer => .ret (answer.1.isOk, some (replied answer))⟩) ∧
    sessions[2]? = some ⟨.hook 1 (methodName .registerUser), [],
      .call (.hook ⟨1, methodName .registerUser⟩) fun status => .ret (status.isOk, none)⟩ := by
  have event : (FuncClientCall.event 1 adaFollowsBob emptyReply).program protobufPacking =
      .call (.query ⟨1⟩) fun answer =>
        afterQuery protobufPacking 1 adaFollowsBob emptyReply answer >>= fun returned =>
          .ret (returned.1, some returned.2) := by
    rw [FuncClientCall.program, event_eq]
    rfl
  have begins : Clients protobufPlatform protobufPacking ⟨∅, [], false, none⟩ [] _ [] := .initial
  have joined := ((begins.join (.hook 1 (methodName method))).join
    (.event 1 adaFollowsBob emptyReply)).join (.hook 1 (methodName .registerUser))
  rw [event] at joined
  have bound : (FuncServiceImpl.new.hook ⟨1, methodName method⟩).2.hookMap.lookup 1 =
      some (methodName method) := by
    rw [Sound.new.hook_eq, if_pos (mem_functionNames.mpr ⟨method, rfl⟩)]
    exact Finmap.lookup_insert _
  have hooked := @Sessions.perform _ _ _ _ _ _ _ _ _ _ _ _ 0 _ _ _ _ _ joined rfl
    ⟨⟨0, 0⟩, @answers_hook protobufPlatform protobufPacking _ _ _⟩
  have queried := @Sessions.perform _ _ _ _ _ _ _ _ _ _ _ _ 1 _ _ _ _ _ hooked rfl
    ⟨⟨0, 0⟩, (answers_query_hooked bound).mpr ⟨rfl, rfl⟩⟩
  refine ⟨_, _, queried, ?_, ?_, rfl⟩
  · intro step member eventType params functionName fires
    obtain ⟨request, fired⟩ := fires.fires
    simp only [List.nil_append, List.singleton_append, List.mem_cons, List.not_mem_nil,
      or_false] at member
    rcases member with rfl | rfl <;> contradiction
  · rw [afterQuery_hooked, helperOf_eq protobufPacking 1 adaFollowsBob emptyReply ⟨0, 0⟩]
    exact ⟨_, rfl⟩

private theorem fires_event (before after : FuncState) (answered : Answered RpcOp.Answer)
    (rest : FuncClientProgram FuncClientResult) (method : Method) (request : EventRequest)
    (fired : answered.op = .event request) :
    Fires ⟨.event 1 adaFollowsBob emptyReply, [⟨.query ⟨1⟩, (Status.OK, some ⟨methodName method⟩)⟩],
      answered, before, after, rest⟩ 1 adaFollowsBob (methodName method) :=
  ⟨⟨emptyReply, rfl⟩, ⟨Status.OK, rfl⟩, request, fired⟩

/-- Without the third client, the event runs the method that was queried. -/
theorem client_intent_example : ∃ past s sessions,
    Clients protobufPlatform protobufPacking ⟨∅, [], false, none⟩ past s sessions ∧
    (∃ step ∈ past, Fires step 1 adaFollowsBob (methodName .follow)) ∧
    ∀ step ∈ past, RespectsIntent protobufPlatform step := by
  obtain ⟨past, sessions, run, bound, ⟨replied, current⟩, _⟩ := clients_queried .follow
  have sound := Sound.new.hook ⟨1, methodName .follow⟩
  have hooked : (FuncServiceImpl.new.hook ⟨1, methodName .follow⟩).2.hookMap.lookup 1 =
    some (methodName .follow) := by decide
  have fired := run.perform current ⟨⟨0, 0⟩, (answers_event_hooked sound hooked).mpr
    ⟨_, _, serves_follow.mpr ⟨rfl, rfl⟩, rfl, rfl⟩⟩
  refine ⟨_, _, _, fired, ⟨_, List.mem_append_right _ (List.mem_singleton_self _),
    fires_event _ _ _ _ _ _ rfl⟩, ?_⟩
  refine (client_intent_iff protobufPacking_lawful fired).mpr (System.forall_mem_concat bound ?_)
  rintro eventType _ functionName ⟨⟨reply, ⟨⟩⟩, ⟨status, ⟨⟩⟩, _⟩
  exact .inl hooked

/-- The third client hooks registration after the query. The event then registers a user without a
name, and `Event` returns true. -/
theorem client_intent_fails : ∃ past s sessions,
    Clients protobufPlatform protobufPacking ⟨∅, [], false, none⟩ past s sessions ∧
    ∃ step ∈ past, Fires step 1 adaFollowsBob (methodName .follow) ∧
      ¬ RespectsIntent protobufPlatform step ∧ (∃ reply, step.rest = .ret (true, reply)) ∧
      ¬ Found step.before.store (nameKey .user []) ∧
      Found step.after.store (nameKey .user []) := by
  obtain ⟨past, sessions, run, bound, ⟨replied, current⟩, third⟩ := clients_queried .follow
  have rehooked := run.perform third ⟨⟨0, 0⟩, answers_hook⟩
  have sound := (Sound.new.hook ⟨1, methodName .follow⟩).hook ⟨1, methodName .registerUser⟩
  have hooked : ((FuncServiceImpl.new.hook ⟨1, methodName .follow⟩).2.hook
    ⟨1, methodName .registerUser⟩).2.hookMap.lookup 1 = some (methodName .registerUser) := by decide
  have absent : ¬ Found ⟨∅, [], false, none⟩ (nameKey .user []) := by decide
  have present : Found ((WarbleService.registerUser default).run KeyValueClient.handler
    ⟨∅, [], false, none⟩).2 (nameKey .user []) := by decide
  have fired := rehooked.perform ((List.getElem?_set_ne (by decide)).trans current) ⟨⟨0, 0⟩,
    (answers_event_hooked sound hooked).mpr
      ⟨(Status.OK, .registerUser {}), _, serves_registerUser.mpr ⟨rfl, rfl⟩, rfl, rfl⟩⟩
  refine ⟨_, _, _, fired, _, List.mem_append_right _ (List.mem_singleton_self _),
    fires_event _ _ _ _ _ _ rfl, ?_, ⟨_, rfl⟩, absent, present⟩
  have taken := Clients.taken fired _ (List.mem_append_right _ (List.mem_singleton_self _))
  rw [taken.respectsIntent_iff protobufPacking_lawful]
  intro still
  rcases still 1 adaFollowsBob _ (fires_event _ _ _ _ _ _ rfl) with same | missing
  · exact absurd (hooked.symm.trans same) (by decide)
  · exact absurd (hooked.symm.trans missing) (by decide)

end FuncWarble.Proofs
