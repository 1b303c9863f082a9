import Mathlib
import FuncWarble.Model.PackedMessages
import FuncWarble.Proofs.SequentialCalls

/-! # The hook table

Handled one at a time, the RPCs never read a table where it has no entry: `event` and `query` look
an event type up only after they have found it, and every name in the hook table is one of the
five that the constructor registers. The tables are then a function of the history, and an event
runs the method whose name a query would return.
-/

namespace FuncWarble.Proofs

open Text Model Machine

variable {platform : Platform} {packing : Packing} {s s' : FuncState} {result : FuncResult}

/-- The name under which the constructor registers a wrapper. -/
def methodName : Method → Bytes
  | .registerUser => str "registeruser"
  | .warbleMethod => str "warble"
  | .follow => str "follow"
  | .read => str "read"
  | .profile => str "profile"

/-- The call that a wrapper makes for a payload. -/
def methodCall (packing : Packing) (payload : Any) (tv : Timestamp) : Method → WarbleCall
  | .registerUser => .registerUser (packing.registeruserRequest.unpackTo payload).2
  | .warbleMethod => .warble (packing.warbleRequest.unpackTo payload).2 tv
  | .follow => .follow (packing.followRequest.unpackTo payload).2
  | .read => .read (packing.readRequest.unpackTo payload).2
  | .profile => .profile (packing.profileRequest.unpackTo payload).2

theorem apply_eq_wrapper (payload : Any) (tv : Timestamp) (method : Method) :
    method.apply platform packing payload tv =
      Func.wrapper platform packing (methodCall packing payload tv method) := by
  cases method <;> rfl

/-- The names that the constructor registers. -/
def functionNames : List Bytes :=
  [str "registeruser", str "warble", str "follow", str "read", str "profile"]

theorem mem_functionNames {eventFunction : Bytes} :
    eventFunction ∈ functionNames ↔ ∃ method, eventFunction = methodName method := by
  constructor
  · intro member
    simp only [functionNames, List.mem_cons, List.not_mem_nil, or_false] at member
    rcases member with rfl | rfl | rfl | rfl | rfl
    · exact ⟨.registerUser, rfl⟩
    · exact ⟨.warbleMethod, rfl⟩
    · exact ⟨.follow, rfl⟩
    · exact ⟨.read, rfl⟩
    · exact ⟨.profile, rfl⟩
  · rintro ⟨method, rfl⟩
    cases method <;> decide

theorem methodName_inj {method other : Method} :
    methodName method = methodName other ↔ method = other := by
  cases method <;> cases other <;> decide

theorem lookup_new (method : Method) :
    FuncServiceImpl.new.nameMethodMap.lookup (methodName method) = some (some method) := by
  cases method <;> rfl

/-- The constructor registers five names and no others. -/
theorem lookup_new_ne_none_iff (eventFunction : Bytes) :
    FuncServiceImpl.new.nameMethodMap.lookup eventFunction ≠ none ↔
      ∃ method, eventFunction = methodName method := by
  constructor
  · intro found
    by_contra other
    have different : ∀ method, eventFunction ≠ methodName method := fun method same =>
      other ⟨method, same⟩
    apply found
    simp only [FuncServiceImpl.new]
    rw [Finmap.lookup_insert_of_ne _ (show eventFunction ≠ str "profile" from different .profile),
      Finmap.lookup_insert_of_ne _ (show eventFunction ≠ str "read" from different .read),
      Finmap.lookup_insert_of_ne _ (show eventFunction ≠ str "follow" from different .follow),
      Finmap.lookup_insert_of_ne _ (show eventFunction ≠ str "warble" from
        different .warbleMethod), Finmap.lookup_eq_none, Finmap.mem_singleton]
    exact different .registerUser
  · rintro ⟨method, rfl⟩
    rw [lookup_new]
    exact Option.some_ne_none _

/-- The functions are those of the constructor, and only their names are hooked. -/
structure Sound (func : FuncServiceImpl) : Prop where
  methods : func.nameMethodMap = FuncServiceImpl.new.nameMethodMap
  names : ∀ eventType eventFunction, func.hookMap.lookup eventType = some eventFunction →
    ∃ method, eventFunction = methodName method

theorem Sound.new : Sound FuncServiceImpl.new where
  methods := rfl
  names eventType eventFunction hooked := by
    rw [FuncServiceImpl.new, Finmap.lookup_empty] at hooked
    contradiction

theorem Sound.methodAt {func : FuncServiceImpl} (sound : Sound func) (method : Method) :
    func.methodAt (methodName method) = (some method, func) := by
  rw [FuncServiceImpl.methodAt, sound.methods, lookup_new]

theorem hookAt_of_hooked {func : FuncServiceImpl} {eventType : Int32} {eventFunction : Bytes}
    (hooked : func.hookMap.lookup eventType = some eventFunction) :
    func.hookAt eventType = (eventFunction, func) := by
  rw [FuncServiceImpl.hookAt, hooked]

theorem findHook_of_hooked {func : FuncServiceImpl} {eventType : Int32} {eventFunction : Bytes}
    (hooked : func.hookMap.lookup eventType = some eventFunction) :
    func.findHook eventType = true := by
  rw [FuncServiceImpl.findHook, hooked, Option.isSome_some]

theorem findHook_of_missing {func : FuncServiceImpl} {eventType : Int32}
    (missing : func.hookMap.lookup eventType = none) : func.findHook eventType = false := by
  rw [FuncServiceImpl.findHook, missing, Option.isSome_none]

/-- What `hook` does to sound tables. -/
theorem Sound.hook_eq {func : FuncServiceImpl} (sound : Sound func) (request : HookRequest) :
    func.hook request =
      if request.eventFunction ∈ functionNames then
        (Status.OK,
          { func with hookMap := func.hookMap.insert request.eventType request.eventFunction })
      else (⟨.notFound, "event_function doesn't match any existing function."⟩, func) := by
  rw [FuncServiceImpl.hook, sound.methods]
  have known := lookup_new_ne_none_iff request.eventFunction
  rw [← mem_functionNames] at known
  split_ifs with absent named named
  · exact absurd absent (known.mpr named)
  · rfl
  · rfl
  · exact absurd (known.mp absent) named

theorem Sound.hook {func : FuncServiceImpl} (sound : Sound func) (request : HookRequest) :
    Sound (func.hook request).2 := by
  rw [sound.hook_eq]
  split_ifs with named
  · refine ⟨sound.methods, fun eventType eventFunction hooked => ?_⟩
    rcases eq_or_ne eventType request.eventType with rfl | other
    · rw [Finmap.lookup_insert] at hooked
      obtain rfl := Option.some.inj hooked
      exact mem_functionNames.mp named
    · rw [Finmap.lookup_insert_of_ne _ other] at hooked
      exact sound.names _ _ hooked
  · exact sound

theorem Sound.unhook {func : FuncServiceImpl} (sound : Sound func) (request : UnhookRequest) :
    Sound (func.unhook request).2 := by
  refine ⟨sound.methods, fun eventType eventFunction hooked => ?_⟩
  rcases eq_or_ne eventType request.eventType with rfl | other
  · simp [FuncServiceImpl.unhook] at hooked
  · rw [FuncServiceImpl.unhook, Finmap.lookup_erase_ne other] at hooked
    exact sound.names _ _ hooked

/-- An RPC that runs alone ends with a result and a state. -/
def Handles (platform : Platform) (packing : Packing) (call : FuncCall) (s : FuncState)
    (result : FuncResult) (s' : FuncState) : Prop :=
  Program.Outcome funcHandler (FuncCall.body platform packing) (call.program platform packing) s
    result s'

/-- The key value server behind the func server. -/
def storePart : Part FuncState KeyValueStoreImpl where
  get s := s.store
  set s store := { s with store := store }
  get_set _ _ := rfl
  set_get _ := rfl
  set_set _ _ _ := rfl

theorem client_extends : Program.Extends FuncOp.client (fun _ answer => answer)
    KeyValueClient.handler funcHandler storePart := fun _ _ => ⟨rfl, rfl⟩

theorem handles_hook {request : HookRequest} :
    Handles platform packing (.hook request) s result s' ↔
      .replied (s.func.hook request).1 (.hook {}) = result ∧
        { s with func := (s.func.hook request).2 } = s' := Iff.rfl

theorem handles_unhook {request : UnhookRequest} :
    Handles platform packing (.unhook request) s result s' ↔
      .replied Status.OK (.unhook {}) = result ∧
        { s with func := (s.func.unhook request).2 } = s' := Iff.rfl

/-- A query returns the name that is hooked. -/
theorem handles_query_hooked {eventType : Int32} {eventFunction : Bytes}
    (hooked : s.func.hookMap.lookup eventType = some eventFunction) :
    Handles platform packing (.query ⟨eventType⟩) s result s' ↔
      .replied Status.OK (.query ⟨eventFunction⟩) = result ∧ s = s' := by
  simp only [Handles, FuncCall.program, FuncServiceImpl.query, Program.perform_bind]
  rw [Program.outcome_call]
  simp only [funcHandler, findHook_of_hooked hooked, ↓reduceIte]
  rw [Program.outcome_call]
  simp only [funcHandler, hookAt_of_hooked hooked]
  exact Iff.rfl

theorem handles_query_missing {eventType : Int32}
    (missing : s.func.hookMap.lookup eventType = none) :
    Handles platform packing (.query ⟨eventType⟩) s result s' ↔
      .replied ⟨.notFound, "event_type is not hooked with any method."⟩ (.query ⟨[]⟩) = result ∧
        s = s' := by
  simp only [Handles, FuncCall.program, FuncServiceImpl.query, Program.perform_bind]
  rw [Program.outcome_call]
  simp only [funcHandler, findHook_of_missing missing, Bool.false_eq_true, ↓reduceIte]
  exact Iff.rfl

theorem handles_event_missing {request : EventRequest} {tv : Timestamp}
    (missing : s.func.hookMap.lookup request.eventType = none) :
    Handles platform packing (.event request tv) s result s' ↔
      .replied ⟨.notFound, "event_type is not hooked with any method."⟩ (.event ⟨none⟩) = result ∧
        s = s' := by
  simp only [Handles, FuncCall.program, FuncServiceImpl.event, Program.perform_bind]
  rw [Program.outcome_call]
  simp only [funcHandler, findHook_of_missing missing, Bool.false_eq_true, ↓reduceIte]
  exact Iff.rfl

/-- An event ends as the method that is hooked ends on the request that its wrapper unpacks. -/
theorem handles_event_hooked (sound : Sound s.func) {request : EventRequest} {tv : Timestamp}
    {method : Method}
    (hooked : s.func.hookMap.lookup request.eventType = some (methodName method)) :
    Handles platform packing (.event request tv) s result s' ↔
      let call := methodCall packing (request.payload.getD Any.empty) tv method
      ∃ status answer store, Serves platform call s.store (status, answer) store ∧
        .replied status (.event ⟨some (packing.packReply answer)⟩) = result ∧
        ⟨s.func, store, s.invoked ++ [call]⟩ = s' := by
  simp only [Handles, FuncCall.program, FuncServiceImpl.event, Program.perform_bind]
  rw [Program.outcome_call]
  simp only [funcHandler, findHook_of_hooked hooked, ↓reduceIte]
  rw [Program.outcome_call, Program.outcome_call]
  simp only [funcHandler]
  rw [hookAt_of_hooked hooked]
  simp only [sound.methodAt, apply_eq_wrapper, Func.wrapper, Program.perform_bind,
    Program.call_bind, Program.pure_eq, Program.embedWith_map]
  rw [Program.outcome_call]
  refine (Program.outcome_embedWith client_extends).trans ?_
  constructor
  · rintro ⟨⟨status, answer⟩, store, served, rfl, rfl⟩
    exact ⟨status, answer, store, served, rfl, rfl⟩
  · rintro ⟨status, answer, store, served, rfl, rfl⟩
    exact ⟨(status, answer), store, served, rfl, rfl⟩

/-- An RPC that was handled, with how it ended. -/
structure FuncExchange where
  call : FuncCall
  result : FuncResult
deriving DecidableEq

/-- What a successful `hook` or `unhook` of the event type sets: a name, or none. -/
def FuncExchange.sets (eventType : Int32) (exchange : FuncExchange) : Option (Option Bytes) :=
  match exchange.call, exchange.result with
  | .hook request, .replied status _ =>
    if status = Status.OK ∧ request.eventType = eventType then some (some request.eventFunction)
    else none
  | .unhook request, .replied status _ =>
    if status = Status.OK ∧ request.eventType = eventType then some none else none
  | _, _ => none

/-- The name that the most recent successful `hook` or `unhook` of the event type set, if any. -/
def bindingOf (past : List FuncExchange) (eventType : Int32) : Option Bytes :=
  (past.reverse.findSome? (FuncExchange.sets eventType)).join

/-- The RPCs of a history have been handled one at a time, from a fresh `FuncServiceImpl`. -/
inductive FuncRun (platform : Platform) (packing : Packing) : List FuncExchange → FuncState → Prop
  | start (store : KeyValueStoreImpl) : FuncRun platform packing [] ⟨FuncServiceImpl.new, store, []⟩
  | handle {past : List FuncExchange} {s s' : FuncState} {call : FuncCall} {result : FuncResult}
    (run : FuncRun platform packing past s) (handled : Handles platform packing call s result s') :
    FuncRun platform packing (past ++ [⟨call, result⟩]) s'

variable {past : List FuncExchange}

theorem bindingOf_concat (past : List FuncExchange) (exchange : FuncExchange) (eventType : Int32) :
    bindingOf (past ++ [exchange]) eventType =
      (exchange.sets eventType).getD (bindingOf past eventType) := by
  rw [bindingOf, List.reverse_append, List.reverse_singleton, List.singleton_append,
    List.findSome?_cons]
  cases exchange.sets eventType <;> rfl

/-- Every RPC keeps the tables sound and sets what its exchange says. -/
theorem Sound.handle (sound : Sound s.func) {call : FuncCall}
    (handled : Handles platform packing call s result s') :
    Sound s'.func ∧ ∀ eventType, s'.func.hookMap.lookup eventType =
      ((FuncExchange.mk call result).sets eventType).getD (s.func.hookMap.lookup eventType) := by
  cases call with
  | hook request =>
    obtain ⟨rfl, rfl⟩ := handles_hook.mp handled
    refine ⟨sound.hook request, fun eventType => ?_⟩
    simp only [FuncExchange.sets, sound.hook_eq]
    split_ifs with named same same
    · rw [← same.2, Finmap.lookup_insert, Option.getD_some]
    · rw [Finmap.lookup_insert_of_ne _ fun own => same ⟨rfl, own.symm⟩, Option.getD_none]
    · exact absurd same.1 (by simp [Status.OK])
    · rfl
  | unhook request =>
    obtain ⟨rfl, rfl⟩ := handles_unhook.mp handled
    refine ⟨sound.unhook request, fun eventType => ?_⟩
    simp only [FuncExchange.sets, FuncServiceImpl.unhook, true_and]
    split_ifs with same
    · rw [← same, Finmap.lookup_erase, Option.getD_some]
    · rw [Finmap.lookup_erase_ne fun own => same own.symm, Option.getD_none]
  | query request =>
    obtain ⟨eventType⟩ := request
    cases hooked : s.func.hookMap.lookup eventType with
    | none =>
      obtain ⟨_, rfl⟩ := (handles_query_missing hooked).mp handled
      exact ⟨sound, fun _ => rfl⟩
    | some eventFunction =>
      obtain ⟨_, rfl⟩ := (handles_query_hooked hooked).mp handled
      exact ⟨sound, fun _ => rfl⟩
  | event request tv =>
    cases hooked : s.func.hookMap.lookup request.eventType with
    | none =>
      obtain ⟨_, rfl⟩ := (handles_event_missing hooked).mp handled
      exact ⟨sound, fun _ => rfl⟩
    | some eventFunction =>
      obtain ⟨method, rfl⟩ := sound.names _ _ hooked
      obtain ⟨_, _, _, _, _, rfl⟩ := (handles_event_hooked sound hooked).mp handled
      exact ⟨sound, fun _ => rfl⟩

theorem FuncRun.sound (run : FuncRun platform packing past s) : Sound s.func := by
  induction run with
  | start store => exact Sound.new
  | handle _ handled ih => exact (ih.handle handled).1

/-- The hook table holds what the history has set. -/
theorem FuncRun.lookup_eq (run : FuncRun platform packing past s) (eventType : Int32) :
    s.func.hookMap.lookup eventType = bindingOf past eventType := by
  induction run with
  | start store => exact Finmap.lookup_empty eventType
  | handle run handled ih =>
    rw [(run.sound.handle handled).2, bindingOf_concat, ih]

/-- A fresh service whose first RPC hooks a method. -/
theorem FuncRun.hook_first (store : KeyValueStoreImpl) (eventType : Int32) (method : Method) :
    FuncRun platform packing
      [⟨.hook ⟨eventType, methodName method⟩, .replied Status.OK (.hook {})⟩]
      ⟨(FuncServiceImpl.new.hook ⟨eventType, methodName method⟩).2, store, []⟩ := by
  have accepted : (FuncServiceImpl.new.hook ⟨eventType, methodName method⟩).1 = Status.OK := by
    rw [Sound.new.hook_eq, if_pos (mem_functionNames.mpr ⟨method, rfl⟩)]
  refine (FuncRun.start store).handle (handles_hook.mpr ⟨?_, rfl⟩)
  rw [accepted]

/-- How one more RPC ends after a history. -/
def Conforming (platform : Platform) (packing : Packing) (past : List FuncExchange)
    (s : FuncState) (result : FuncResult) (s' : FuncState) : FuncCall → Prop
  | .hook request =>
    if request.eventFunction ∈ functionNames then
      result = .replied Status.OK (.hook {}) ∧ s' = { s with func := { s.func with
        hookMap := s.func.hookMap.insert request.eventType request.eventFunction } }
    else result = .replied ⟨.notFound, "event_function doesn't match any existing function."⟩
      (.hook {}) ∧ s' = s
  | .unhook request => result = .replied Status.OK (.unhook {}) ∧
      s' = { s with func := { s.func with hookMap := s.func.hookMap.erase request.eventType } }
  | .query request =>
    match bindingOf past request.eventType with
    | some eventFunction => result = .replied Status.OK (.query ⟨eventFunction⟩) ∧ s' = s
    | none => result = .replied ⟨.notFound, "event_type is not hooked with any method."⟩
        (.query ⟨[]⟩) ∧ s' = s
  | .event request tv =>
    match bindingOf past request.eventType with
    | some eventFunction => ∃ method, methodName method = eventFunction ∧
        let call := methodCall packing (request.payload.getD Any.empty) tv method
        ∃ status answer store, Serves platform call s.store (status, answer) store ∧
          result = .replied status (.event ⟨some (packing.packReply answer)⟩) ∧
          s' = ⟨s.func, store, s.invoked ++ [call]⟩
    | none => result = .replied ⟨.notFound, "event_type is not hooked with any method."⟩
        (.event ⟨none⟩) ∧ s' = s

/-- Hook table semantics. After every history of RPCs handled one at a time, one more RPC ends as
the most recent successful `hook` or `unhook` of its event type says. -/
theorem hook_table_semantics (run : FuncRun platform packing past s) (call : FuncCall) :
    Handles platform packing call s result s' ↔
      Conforming platform packing past s result s' call := by
  have sound := run.sound
  cases call with
  | hook request =>
    rw [handles_hook, Conforming, sound.hook_eq]
    split_ifs <;> exact and_congr eq_comm eq_comm
  | unhook request =>
    rw [handles_unhook, Conforming]
    exact and_congr eq_comm eq_comm
  | query request =>
    obtain ⟨eventType⟩ := request
    have hooked := run.lookup_eq eventType
    cases binding : bindingOf past eventType with
    | none =>
      rw [binding] at hooked
      simp only [Conforming, binding]
      rw [handles_query_missing hooked]
      exact and_congr eq_comm eq_comm
    | some eventFunction =>
      rw [binding] at hooked
      simp only [Conforming, binding]
      rw [handles_query_hooked hooked]
      exact and_congr eq_comm eq_comm
  | event request tv =>
    have hooked := run.lookup_eq request.eventType
    cases binding : bindingOf past request.eventType with
    | none =>
      rw [binding] at hooked
      simp only [Conforming, binding]
      rw [handles_event_missing hooked]
      exact and_congr eq_comm eq_comm
    | some eventFunction =>
      rw [binding] at hooked
      obtain ⟨method, rfl⟩ := sound.names _ _ hooked
      simp only [Conforming, binding]
      rw [handles_event_hooked sound hooked]
      constructor
      · rintro ⟨status, answer, store, served, rfl, rfl⟩
        exact ⟨method, rfl, status, answer, store, served, rfl, rfl⟩
      · rintro ⟨other, same, status, answer, store, served, rfl, rfl⟩
        obtain rfl := methodName_inj.mp same
        exact ⟨status, answer, store, served, rfl, rfl⟩

/-- Handle some RPCs one after the other, giving every `Read` at most `fuel` turns. -/
def handleAll (platform : Platform) (packing : Packing) (fuel : ℕ) (calls : List FuncCall)
    (past : List FuncExchange) (s : FuncState) : Option (List FuncExchange × FuncState) :=
  calls.foldlM (fun (past, s) call =>
    (Program.execute funcHandler (FuncCall.body platform packing) fuel
      (call.program platform packing) s).map fun (result, s') => (past ++ [⟨call, result⟩], s'))
    (past, s)

/-- RPCs that were handled one after the other make a run. -/
theorem FuncRun.of_handleAll {fuel : ℕ} {calls : List FuncCall} {handled : List FuncExchange}
    (run : FuncRun platform packing past s)
    (executed : handleAll platform packing fuel calls past s = some (handled, s')) :
    FuncRun platform packing handled s' := by
  induction calls generalizing past s with
  | nil =>
    obtain ⟨rfl, rfl⟩ := Prod.mk.inj (Option.some.inj executed)
    exact run
  | cons call calls ih =>
    rw [handleAll, List.foldlM_cons] at executed
    obtain ⟨⟨next, middle⟩, first, rest⟩ := Option.bind_eq_some_iff.mp executed
    obtain ⟨⟨result, reached⟩, ended, same⟩ := Option.map_eq_some_iff.mp first
    obtain ⟨rfl, rfl⟩ := Prod.mk.inj same
    exact ih (run.handle (Program.outcome_of_execute ended)) rest

/-- An event type is hooked and hooked again, once to a name that is not registered, and between
two of its events; another is unhooked. -/
def hookHistory : List FuncExchange :=
  [⟨.hook ⟨1, str "registeruser"⟩, .replied Status.OK (.hook {})⟩,
    ⟨.event ⟨1, some (protobufPacking.registeruserRequest.packFrom ⟨str "ada"⟩)⟩ ⟨0, 0⟩,
      .replied Status.OK (.event ⟨some (protobufPacking.packReply (.registerUser {}))⟩)⟩,
    ⟨.hook ⟨1, str "none"⟩,
      .replied ⟨.notFound, "event_function doesn't match any existing function."⟩ (.hook {})⟩,
    ⟨.hook ⟨1, str "profile"⟩, .replied Status.OK (.hook {})⟩,
    ⟨.event ⟨1, some (protobufPacking.profileRequest.packFrom ⟨str "ada"⟩)⟩ ⟨0, 0⟩,
      .replied Status.OK (.event ⟨some (protobufPacking.packReply (.profile ⟨[], []⟩))⟩)⟩,
    ⟨.hook ⟨2, str "read"⟩, .replied Status.OK (.hook {})⟩,
    ⟨.unhook ⟨2⟩, .replied Status.OK (.unhook {})⟩]

theorem hook_table_semantics_example : ∃ s,
    FuncRun protobufPlatform protobufPacking hookHistory s ∧
    bindingOf hookHistory 1 = some (str "profile") ∧ bindingOf hookHistory 2 = none ∧
    ∀ call result s', Handles protobufPlatform protobufPacking call s result s' ↔
      Conforming protobufPlatform protobufPacking hookHistory s result s' call := by
  have handled : (handleAll protobufPlatform protobufPacking 0
      (hookHistory.map FuncExchange.call) []
      ⟨FuncServiceImpl.new, ⟨∅, [], false, none⟩, []⟩).map Prod.fst = some hookHistory := by
    decide +kernel
  obtain ⟨⟨_, s⟩, executed, rfl⟩ := Option.map_eq_some_iff.mp handled
  have run := (FuncRun.start _).of_handleAll executed
  exact ⟨s, run, by decide, by decide, fun call result s' => hook_table_semantics run call⟩

end FuncWarble.Proofs
