import Mathlib
import FuncWarble.Machine.Histories
import FuncWarble.Proofs.HookTable

/-! # The stages of an RPC

While an `event` or `query` runs, other RPCs may change the tables between any two of its accesses.
What is left of it is determined by what it has done so far and by the tables that it found there:
it looks its event type up, reads the name with `operator[]`, an event then looks the function up
by that name and calls it. Each of these happens once.
-/

namespace FuncWarble.Proofs

open Text Model Machine

variable {platform : Platform} {packing : Packing}

abbrev FuncTask := Task FuncOp.Answer FuncCall (WarbleService.ReadLoop ⊕ FuncResult)

abbrev FuncConfig := Config FuncOp.Answer FuncCall (WarbleService.ReadLoop ⊕ FuncResult) FuncState

abbrev FuncWorld := World FuncOp FuncCall FuncState

/-- What an RPC has done, oldest first, each step with the world in which it was taken. -/
abbrev FuncHistory := List (FuncOp × FuncWorld)

/-- The name to which the event type is hooked. -/
def hookIn (w : FuncWorld) (eventType : Int32) : Option Bytes :=
  w.state.func.hookMap.lookup eventType

/-- The reply of an `event` or `query` that finds no hook. -/
def notHooked (answer : FuncAnswer) : FuncResult :=
  .replied ⟨.notFound, "event_type is not hooked with any method."⟩ answer

/-- The call that an event makes with the wrapper. -/
def madeCall (packing : Packing) (request : EventRequest) (tv : Timestamp) (method : Method) :
    WarbleCall :=
  methodCall packing (request.payload.getD Any.empty) tv method

/-- What an event replies to the result of the method. -/
def repliedTo (packing : Packing) (result : WarbleResult) : FuncResult :=
  .replied result.1 (.event ⟨some (packing.packReply result.2)⟩)

/-- The method, run by an event. -/
def serving (packing : Packing) (p : ClientProgram (WarbleService.ReadLoop ⊕ WarbleResult)) :
    FuncProgram (WarbleService.ReadLoop ⊕ FuncResult) :=
  p.embedWith FuncOp.client (fun _ answer => answer) (repliedTo packing)

section Event

variable (platform : Platform) (packing : Packing) (request : EventRequest) (tv : Timestamp)

/-- An event that has the function: an empty one throws. -/
def eventWith : Option Method → FuncProgram (WarbleService.ReadLoop ⊕ FuncResult)
  | none => .ret (.inr .badFunctionCall)
  | some method => .call (.invoke (madeCall packing request tv method)) fun _ =>
      serving packing ((madeCall packing request tv method).program platform)

/-- An event that has read the name. -/
def eventNamed (eventFunction : Bytes) : FuncProgram (WarbleService.ReadLoop ⊕ FuncResult) :=
  .call (.methodAt eventFunction) (eventWith platform packing request tv)

/-- An event that has found its type. -/
def eventHooked : FuncProgram (WarbleService.ReadLoop ⊕ FuncResult) :=
  .call (.hookAt request.eventType) (eventNamed platform packing request tv)

theorem program_event : FuncServiceImpl.event platform packing request tv =
    .call (.findHook request.eventType) fun hooked =>
      if hooked then eventHooked platform packing request tv
      else .ret (.inr (notHooked (.event ⟨none⟩))) := by
  refine congrArg (Program.call _) (funext fun hooked => ?_)
  cases hooked with
  | false => rfl
  | true =>
    refine congrArg (Program.call _) (funext fun eventFunction => ?_)
    refine congrArg (Program.call _) (funext fun method => ?_)
    cases method with
    | none => rfl
    | some method =>
      simp only [apply_eq_wrapper, Func.wrapper, Program.perform_bind, Program.call_bind,
        Program.pure_eq, Program.embedWith_map]
      rfl

end Event

/-- A query that has found its type. -/
def queryHooked (request : QueryRequest) : FuncProgram (WarbleService.ReadLoop ⊕ FuncResult) :=
  .call (.hookAt request.eventType) fun eventFunction =>
    .ret (.inr (.replied Status.OK (.query ⟨eventFunction⟩)))

theorem program_query (request : QueryRequest) : FuncServiceImpl.query request =
    .call (.findHook request.eventType) fun hooked =>
      if hooked then queryHooked request else .ret (.inr (notHooked (.query ⟨[]⟩))) := by
  refine congrArg (Program.call _) (funext fun hooked => ?_)
  cases hooked <;> rfl

/-- What is left of an RPC with this history. -/
inductive FuncStage (platform : Platform) (packing : Packing) : FuncCall → FuncHistory →
    FuncProgram (WarbleService.ReadLoop ⊕ FuncResult) → Prop
  | arrived (call : FuncCall) : FuncStage platform packing call [] (call.program platform packing)
  | hookDone (request : HookRequest) (w : FuncWorld) (result : FuncResult) :
    FuncStage platform packing (.hook request) [(.hook request, w)] (.ret (.inr result))
  | unhookDone (request : UnhookRequest) (w : FuncWorld) (result : FuncResult) :
    FuncStage platform packing (.unhook request) [(.unhook request, w)] (.ret (.inr result))
  | queryMissed (request : QueryRequest) (found : FuncWorld)
    (missing : hookIn found request.eventType = none) :
    FuncStage platform packing (.query request) [(.findHook request.eventType, found)]
      (.ret (.inr (notHooked (.query ⟨[]⟩))))
  | queryHooked (request : QueryRequest) (found : FuncWorld) :
    FuncStage platform packing (.query request) [(.findHook request.eventType, found)]
      (queryHooked request)
  | queryDone (request : QueryRequest) (found read : FuncWorld) :
    FuncStage platform packing (.query request)
      [(.findHook request.eventType, found), (.hookAt request.eventType, read)]
      (.ret (.inr (.replied Status.OK
        (.query ⟨(read.state.func.hookAt request.eventType).1⟩))))
  | eventMissed (request : EventRequest) (tv : Timestamp) (found : FuncWorld)
    (missing : hookIn found request.eventType = none) :
    FuncStage platform packing (.event request tv) [(.findHook request.eventType, found)]
      (.ret (.inr (notHooked (.event ⟨none⟩))))
  | eventHooked (request : EventRequest) (tv : Timestamp) (found : FuncWorld) :
    FuncStage platform packing (.event request tv) [(.findHook request.eventType, found)]
      (eventHooked platform packing request tv)
  | eventNamed (request : EventRequest) (tv : Timestamp) (found read : FuncWorld) :
    FuncStage platform packing (.event request tv)
      [(.findHook request.eventType, found), (.hookAt request.eventType, read)]
      (eventNamed platform packing request tv (read.state.func.hookAt request.eventType).1)
  | eventWith (request : EventRequest) (tv : Timestamp) (found read looked : FuncWorld) :
    FuncStage platform packing (.event request tv)
      [(.findHook request.eventType, found), (.hookAt request.eventType, read),
        (.methodAt (read.state.func.hookAt request.eventType).1, looked)]
      (eventWith platform packing request tv
        (looked.state.func.methodAt (read.state.func.hookAt request.eventType).1).1)
  | eventServing (request : EventRequest) (tv : Timestamp) (found read looked made : FuncWorld)
    (method : Method)
    (holds : (looked.state.func.methodAt (read.state.func.hookAt request.eventType).1).1 =
      some method)
    (served : FuncHistory) (client : ∀ entry ∈ served, ∃ op, entry.1 = .client op)
    (p : ClientProgram (WarbleService.ReadLoop ⊕ WarbleResult)) :
    FuncStage platform packing (.event request tv)
      ([(.findHook request.eventType, found), (.hookAt request.eventType, read),
        (.methodAt (read.state.func.hookAt request.eventType).1, looked),
        (.invoke (madeCall packing request tv method), made)] ++ served)
      (serving packing p)

variable {call : FuncCall} {past : FuncHistory} {op : FuncOp}
  {next : op.Answer → FuncProgram (WarbleService.ReadLoop ⊕ FuncResult)}

private theorem findHook_cases (func : FuncServiceImpl) (eventType : Int32) :
    func.findHook eventType = true ∨
      func.findHook eventType = false ∧ func.hookMap.lookup eventType = none := by
  cases missing : func.hookMap.lookup eventType with
  | none => exact .inr ⟨findHook_of_missing missing, rfl⟩
  | some eventFunction => exact .inl (findHook_of_hooked missing)

/-- One step of an RPC leads to its next stage, whatever the tables hold at that moment. -/
theorem FuncStage.perform (stage : FuncStage platform packing call past (.call op next))
    (w : FuncWorld) : FuncStage platform packing call (past ++ [(op, w)])
      (next ((funcService platform packing).answer op w)) := by
  generalize same : Program.call op next = prog at stage
  cases stage with
  | arrived call =>
    cases call with
    | hook request =>
      cases same
      exact .hookDone request w _
    | unhook request =>
      cases same
      exact .unhookDone request w _
    | event request tv =>
      rw [FuncCall.program, program_event] at same
      cases same
      rcases findHook_cases w.state.func request.eventType with hooked | ⟨absent, missing⟩
      · simp only [System.answer, funcService, funcHandler, hooked, ↓reduceIte]
        exact .eventHooked request tv w
      · simp only [System.answer, funcService, funcHandler, absent, Bool.false_eq_true, ↓reduceIte]
        exact .eventMissed request tv w missing
    | query request =>
      rw [FuncCall.program, program_query] at same
      cases same
      rcases findHook_cases w.state.func request.eventType with hooked | ⟨absent, missing⟩
      · simp only [System.answer, funcService, funcHandler, hooked, ↓reduceIte]
        exact .queryHooked request w
      · simp only [System.answer, funcService, funcHandler, absent, Bool.false_eq_true, ↓reduceIte]
        exact .queryMissed request w missing
  | hookDone request w result => contradiction
  | unhookDone request w result => contradiction
  | queryMissed request found missing => contradiction
  | queryHooked request found =>
    cases same
    exact .queryDone request found w
  | queryDone request found read => contradiction
  | eventMissed request tv found missing => contradiction
  | eventHooked request tv found =>
    cases same
    exact .eventNamed request tv found w
  | eventNamed request tv found read =>
    cases same
    exact .eventWith request tv found read w
  | eventWith request tv found read looked =>
    cases holds : (looked.state.func.methodAt (read.state.func.hookAt request.eventType).1).1 with
    | none =>
      rw [holds] at same
      contradiction
    | some method =>
      rw [holds] at same
      cases same
      exact .eventServing request tv found read looked w method holds [] (by simp) _
  | eventServing request tv found read looked made method holds served client p =>
    cases p with
    | ret result => contradiction
    | call own onward =>
      cases same
      rw [List.append_assoc]
      refine .eventServing request tv found read looked made method holds _ ?_ (onward _)
      intro entry member
      rcases List.mem_append.mp member with old | new
      · exact client entry old
      · exact ⟨own, congrArg Prod.fst (List.mem_singleton.mp new)⟩

/-- An RPC at the head of the loop of `Read` goes on in the same stage. -/
theorem FuncStage.resume {result : WarbleService.ReadLoop ⊕ FuncResult}
    {prog : FuncProgram (WarbleService.ReadLoop ⊕ FuncResult)}
    (stage : FuncStage platform packing call past (.ret result))
    (resumed : (funcService platform packing).resume result = some prog) :
    FuncStage platform packing call past prog := by
  rcases result with head | result
  · obtain rfl := Option.some.inj resumed
    generalize same : Program.ret (Sum.inl head) = left at stage
    cases stage with
    | arrived call => cases call <;> contradiction
    | eventWith request tv found read looked =>
      cases holds : (looked.state.func.methodAt (read.state.func.hookAt request.eventType).1).1 with
      | none =>
        rw [holds] at same
        cases same
      | some method =>
        rw [holds] at same
        cases same
    | eventServing request tv found read looked made method holds served client p =>
      exact .eventServing request tv found read looked made method holds served client _
    | _ => cases same
  · contradiction

theorem stage_run (s : FuncState) (events : List (Event FuncCall)) {index : ℕ} {task : FuncTask}
    (found : ((funcService platform packing).run (System.initial s) events).tasks[index]? =
      some task) :
    FuncStage platform packing task.call
      ((funcService platform packing).history (System.initial s) events index) task.prog :=
  System.shape_run (fun call => .arrived call) (fun _ _ _ _ w stage => stage.perform w)
    (fun _ _ _ _ stage resumed => stage.resume resumed) s events found

/-- Only an event looks a function up, by the name that it has read. -/
theorem FuncStage.looksUp {prog : FuncProgram (WarbleService.ReadLoop ⊕ FuncResult)}
    {eventFunction : Bytes} (stage : FuncStage platform packing call past prog)
    (looksUp : prog.nextOp = some (.methodAt eventFunction)) : ∃ request tv read,
      call = .event request tv ∧ (.hookAt request.eventType, read) ∈ past ∧
      eventFunction = (read.state.func.hookAt request.eventType).1 := by
  cases stage with
  | arrived call => cases call <;> cases looksUp
  | eventNamed request tv found read =>
    cases looksUp
    exact ⟨request, tv, read, rfl, by simp, rfl⟩
  | eventWith request tv found read looked =>
    cases holds : (looked.state.func.methodAt (read.state.func.hookAt request.eventType).1).1 <;>
      rw [holds] at looksUp <;> cases looksUp
  | eventServing request tv found read looked made method holds served client p =>
    cases p <;> cases looksUp
  | _ => cases looksUp

/-- An RPC that reads the hook table has found its event type, and will use what it reads. -/
theorem FuncStage.reads {prog : FuncProgram (WarbleService.ReadLoop ⊕ FuncResult)}
    {eventType : Int32} (stage : FuncStage platform packing call past prog)
    (reads : prog.nextOp = some (.hookAt eventType)) :
    ∃ found, past = [(.findHook eventType, found)] ∧
      ((∃ request tv, call = .event request tv ∧ request.eventType = eventType ∧
        prog = Proofs.eventHooked platform packing request tv) ∨
      ∃ request, call = .query request ∧ request.eventType = eventType ∧
        prog = Proofs.queryHooked request) := by
  cases stage with
  | arrived call => cases call <;> cases reads
  | queryHooked request found =>
    cases reads
    exact ⟨found, rfl, .inr ⟨request, rfl, rfl, rfl⟩⟩
  | eventHooked request tv found =>
    cases reads
    exact ⟨found, rfl, .inl ⟨request, tv, rfl, rfl, rfl⟩⟩
  | eventWith request tv found read looked =>
    cases holds : (looked.state.func.methodAt (read.state.func.hookAt request.eventType).1).1 <;>
      rw [holds] at reads <;> cases reads
  | eventServing request tv found read looked made method holds served client p =>
    cases p <;> cases reads
  | _ => cases reads

/-- The event has looked the function of the name up that it has read. -/
def FunctionLookedUp (past : FuncHistory) (eventType : Int32) (method : Option Method) : Prop :=
  ∃ read looked, (.hookAt eventType, read) ∈ past ∧
    (.methodAt (read.state.func.hookAt eventType).1, looked) ∈ past ∧
    (looked.state.func.methodAt (read.state.func.hookAt eventType).1).1 = method

variable {request : EventRequest} {tv : Timestamp}

/-- An event calls the function that it has looked up. -/
theorem FuncStage.calls {prog : FuncProgram (WarbleService.ReadLoop ⊕ FuncResult)}
    (stage : FuncStage platform packing (.event request tv) past prog) {made : WarbleCall}
    {w : FuncWorld} (member : (.invoke made, w) ∈ past) : ∃ method,
      made = madeCall packing request tv method ∧
        FunctionLookedUp past request.eventType (some method) := by
  cases stage with
  | eventServing request tv found read looked w' method holds served client p =>
    rcases List.mem_append.mp member with own | inside
    · simp only [List.mem_cons, Prod.mk.injEq, reduceCtorEq, false_and, FuncOp.invoke.injEq,
        List.not_mem_nil, or_false, false_or] at own
      exact ⟨method, own.1, read, looked, by simp, by simp, holds⟩
    · obtain ⟨op, isClient⟩ := client _ inside
      cases isClient
  | _ => simp at member

/-- An event that has returned has found no hook, or an empty function, or its function has
replied. -/
theorem FuncStage.returns {result : FuncResult}
    (stage : FuncStage platform packing (.event request tv) past (.ret (.inr result))) :
    (result = notHooked (.event ⟨none⟩) ∧
      ∃ found, (.findHook request.eventType, found) ∈ past ∧
        hookIn found request.eventType = none) ∨
    FunctionLookedUp past request.eventType none ∨
    ∃ made w served, (.invoke made, w) ∈ past ∧ result = repliedTo packing served := by
  generalize same : Program.ret (Sum.inr result) = prog at stage
  cases stage with
  | arrived => cases same
  | eventMissed request tv found missing =>
    cases same
    exact .inl ⟨rfl, found, by simp, missing⟩
  | eventHooked => cases same
  | eventNamed => cases same
  | eventWith request tv found read looked =>
    cases holds : (looked.state.func.methodAt (read.state.func.hookAt request.eventType).1).1 with
    | none => exact .inr (.inl ⟨read, looked, by simp, by simp, holds⟩)
    | some method =>
      rw [holds] at same
      cases same
  | eventServing request tv found read looked w method holds served client p =>
    cases p with
    | call op next => cases same
    | ret leaf =>
      cases leaf with
      | inl head => cases same
      | inr replied =>
        cases same
        exact .inr (.inr ⟨madeCall packing request tv method, w, replied,
          List.mem_append_left _ (by simp), rfl⟩)

end FuncWarble.Proofs
