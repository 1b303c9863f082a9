import Mathlib
import FuncWarble.Proofs.FuncStages

/-! # Races on the tables

`event` and `query` look an event type up, and read the table with `operator[]` in a later step. An
`unhook` in between makes that step insert an empty name, and an event then an empty function; a
`hook` after the `unhook` makes it read a function that the lookup has never seen. As long as every
`operator[]` reads a function that its RPC may see, only `hook` and `unhook` change the tables, and
each RPC runs or returns what it has read, or reports that its type is not hooked.
-/

namespace FuncWarble.Proofs

open Text Model Machine

variable {platform : Platform} {packing : Packing} {store : KeyValueStoreImpl}

/-- Which functions of the event type an RPC may see, by the worlds that its `find` and its
`operator[]` found. -/
abbrev Visible := FuncWorld → FuncWorld → Int32 → Bytes → Prop

/-- The function that `find` saw. -/
def Unchanged (found _read : FuncWorld) (eventType : Int32) (eventFunction : Bytes) : Prop :=
  hookIn found eventType = some eventFunction

/-- A function that was hooked before any `unhook` that came after `find`: the one that `find` saw,
or one that a `hook` has put in its place. -/
def Old (found read : FuncWorld) (eventType : Int32) (eventFunction : Bytes) : Prop :=
  hookIn found eventType = some eventFunction ∨
    eventFunction ∈ functionNames ∧ FuncOp.hook ⟨eventType, eventFunction⟩ ∈
      ((read.trace.drop found.trace.length).map Prod.snd).takeWhile (· ≠ .unhook ⟨eventType⟩)

instance (found read : FuncWorld) (eventType : Int32) (eventFunction : Bytes) :
    Decidable (Old found read eventType eventFunction) := inferInstanceAs (Decidable (_ ∨ _))

/-- The RPC has read the function of its event type, and it may see this one. -/
def SeesFunction (visible : Visible) (past : FuncHistory) (eventType : Int32)
    (eventFunction : Bytes) : Prop :=
  ∃ found read, (.findHook eventType, found) ∈ past ∧ (.hookAt eventType, read) ∈ past ∧
    visible found read eventType eventFunction

/-- The RPC has found no function of its event type. -/
def Missed (past : FuncHistory) (eventType : Int32) : Prop :=
  ∃ found, (.findHook eventType, found) ∈ past ∧ hookIn found eventType = none

/-- How an event is dispatched: it looks up and calls no other function than one that it may see,
and it ends with the reply of its function, or reports that it has found none. In particular it
calls no empty function. -/
structure EventDispatched (packing : Packing) (visible : Visible) (past : FuncHistory)
    (request : EventRequest) (tv : Timestamp)
    (prog : FuncProgram (WarbleService.ReadLoop ⊕ FuncResult)) : Prop where
  looksUp : ∀ eventFunction, prog.nextOp = some (.methodAt eventFunction) →
    SeesFunction visible past request.eventType eventFunction
  calls : ∀ call w, (.invoke call, w) ∈ past → ∃ method,
    call = madeCall packing request tv method ∧
      SeesFunction visible past request.eventType (methodName method)
  returns : ∀ result, prog = .ret (.inr result) →
    result = notHooked (.event ⟨none⟩) ∧ Missed past request.eventType ∨
      ∃ call w served, (.invoke call, w) ∈ past ∧ result = repliedTo packing served

/-- How a query ends: with the name of a function that it may see, or by reporting that it has
found none. -/
def QueryDispatched (visible : Visible) (past : FuncHistory) (request : QueryRequest)
    (prog : FuncProgram (WarbleService.ReadLoop ⊕ FuncResult)) : Prop :=
  ∀ result, prog = .ret (.inr result) →
    result = notHooked (.query ⟨[]⟩) ∧ Missed past request.eventType ∨
      ∃ eventFunction, result = .replied Status.OK (.query ⟨eventFunction⟩) ∧
        SeesFunction visible past request.eventType eventFunction

def Dispatched (packing : Packing) (visible : Visible) (past : FuncHistory) :
    FuncCall → FuncProgram (WarbleService.ReadLoop ⊕ FuncResult) → Prop
  | .event request tv, prog => EventDispatched packing visible past request tv prog
  | .query request, prog => QueryDispatched visible past request prog
  | _, _ => True

section Runs

variable (platform : Platform) (packing : Packing) (store : KeyValueStoreImpl)

/-- What RPCs lead to, from a fresh service. -/
def reached (events : List (Event FuncCall)) : FuncConfig :=
  (funcService platform packing).run (System.initial ⟨FuncServiceImpl.new, store, []⟩) events

/-- What the RPC of the index has done. -/
def pastOf (events : List (Event FuncCall)) (index : ℕ) : FuncHistory :=
  (funcService platform packing).history (System.initial ⟨FuncServiceImpl.new, store, []⟩) events
    index

/-- What an event of the run leaves behind: registered names in the hook table, the functions of
the constructor, RPCs that have been dispatched to functions they may see, and tables that only
`hook` and `unhook` have changed. -/
structure TablesIntact (visible : Visible) (before : List (Event FuncCall))
    (event : Event FuncCall) : Prop where
  names : ∀ eventType eventFunction,
    hookIn (reached platform packing store (before ++ [event])).world eventType =
      some eventFunction → eventFunction ∈ functionNames
  methods : (reached platform packing store (before ++ [event])).world.state.func.nameMethodMap =
    FuncServiceImpl.new.nameMethodMap
  dispatched : ∀ (index : ℕ), ∀ task ∈
    (reached platform packing store (before ++ [event])).tasks[index]?, Dispatched packing visible
      (pastOf platform packing store (before ++ [event]) index) task.call task.prog
  unchanged : ∀ index, event = .advance index →
    ∀ task ∈ (reached platform packing store before).tasks[index]?,
      (∀ request, task.prog.nextOp ≠ some (.hook request)) →
        (∀ request, task.prog.nextOp ≠ some (.unhook request)) →
          (reached platform packing store (before ++ [event])).world.state.func =
            (reached platform packing store before).world.state.func

/-- An RPC that reads the hook table with `operator[]` finds its event type hooked there, to a
function that it may see since its `find`. -/
def ReadsVisible (visible : Visible) (before : List (Event FuncCall)) (event : Event FuncCall) :
    Prop :=
  ∀ index, event = .advance index →
    ∀ task ∈ (reached platform packing store before).tasks[index]?, ∀ eventType,
      task.prog.nextOp = some (.hookAt eventType) →
        ∃ found eventFunction,
          (.findHook eventType, found) ∈ pastOf platform packing store before index ∧
          hookIn (reached platform packing store before).world eventType = some eventFunction ∧
          visible found (reached platform packing store before).world eventType eventFunction

end Runs

theorem Sound.mem_functionNames {func : FuncServiceImpl} (sound : Sound func) {eventType : Int32}
    {eventFunction : Bytes} (hooked : func.hookMap.lookup eventType = some eventFunction) :
    eventFunction ∈ functionNames :=
  Proofs.mem_functionNames.mpr (sound.names _ _ hooked)

/-- A step on sound tables that reads only where there is an entry: the tables stay sound, and only
`hook` and `unhook` change them. -/
theorem Sound.perform {s : FuncState} (sound : Sound s.func) {op : FuncOp}
    (hooked : ∀ eventType, op = .hookAt eventType → ∃ eventFunction,
      s.func.hookMap.lookup eventType = some eventFunction)
    (named : ∀ eventFunction, op = .methodAt eventFunction → eventFunction ∈ functionNames) :
    Sound (funcHandler op s).2.func ∧ ((∀ request, op ≠ .hook request) →
      (∀ request, op ≠ .unhook request) → (funcHandler op s).2.func = s.func) := by
  cases op with
  | hook request => exact ⟨sound.hook request, fun other => absurd rfl (other request)⟩
  | unhook request => exact ⟨sound.unhook request, fun _ other => absurd rfl (other request)⟩
  | findHook eventType => exact ⟨sound, fun _ _ => rfl⟩
  | hookAt eventType =>
    obtain ⟨eventFunction, found⟩ := hooked eventType rfl
    simp only [funcHandler, hookAt_of_hooked found]
    exact ⟨sound, fun _ _ => trivial⟩
  | methodAt eventFunction =>
    obtain ⟨method, rfl⟩ := Proofs.mem_functionNames.mp (named eventFunction rfl)
    simp only [funcHandler, sound.methodAt]
    exact ⟨sound, fun _ _ => trivial⟩
  | invoke call => exact ⟨sound, fun _ _ => rfl⟩
  | client op => exact ⟨sound, fun _ _ => rfl⟩

/-- What an RPC has done went well: it found the tables sound, and it read functions that it may
see. -/
structure Guided (visible : Visible) (past : FuncHistory) : Prop where
  sound : ∀ op w, (op, w) ∈ past → Sound w.state.func
  reads : ∀ eventType read, (.hookAt eventType, read) ∈ past → ∃ found eventFunction,
    (.findHook eventType, found) ∈ past ∧ hookIn read eventType = some eventFunction ∧
      visible found read eventType eventFunction

variable {visible : Visible} {past : FuncHistory} {call : FuncCall}

theorem Guided.nil : Guided visible [] where
  sound _ _ member := by simp at member
  reads _ _ member := by simp at member

theorem Guided.concat (guided : Guided visible past) {op : FuncOp} {w : FuncWorld}
    (sound : Sound w.state.func) (reads : ∀ eventType, op = .hookAt eventType →
      ∃ found eventFunction, (.findHook eventType, found) ∈ past ∧
        hookIn w eventType = some eventFunction ∧ visible found w eventType eventFunction) :
    Guided visible (past ++ [(op, w)]) where
  sound other w' member := by
    rcases List.mem_append.mp member with old | new
    · exact guided.sound other w' old
    · cases List.mem_singleton.mp new
      exact sound
  reads eventType read member := by
    have lifted : ∀ {found}, (FuncOp.findHook eventType, found) ∈ past →
        (FuncOp.findHook eventType, found) ∈ past ++ [(op, w)] := List.mem_append_left _
    rcases List.mem_append.mp member with old | new
    · obtain ⟨found, eventFunction, first, rest⟩ := guided.reads eventType read old
      exact ⟨found, eventFunction, lifted first, rest⟩
    · cases List.mem_singleton.mp new
      obtain ⟨found, eventFunction, first, rest⟩ := reads eventType rfl
      exact ⟨found, eventFunction, lifted first, rest⟩

/-- What `operator[]` has answered is a registered name, and the RPC may see it. -/
theorem Guided.read (guided : Guided visible past) {eventType : Int32} {read : FuncWorld}
    (member : (.hookAt eventType, read) ∈ past) : ∃ method,
      (read.state.func.hookAt eventType).1 = methodName method ∧
        SeesFunction visible past eventType (methodName method) := by
  obtain ⟨found, eventFunction, first, hooked, seen⟩ := guided.reads eventType read member
  obtain ⟨method, rfl⟩ := (guided.sound _ _ member).names _ _ hooked
  exact ⟨method, by rw [hookAt_of_hooked hooked], found, read, first, member, seen⟩

/-- A function that has been looked up by the name that was read is the one of this name. -/
theorem Guided.lookedUp (guided : Guided visible past) {eventType : Int32}
    {method : Option Method} (lookedUp : FunctionLookedUp past eventType method) : ∃ own,
      method = some own ∧ SeesFunction visible past eventType (methodName own) := by
  obtain ⟨read, looked, hasRead, hasLooked, holds⟩ := lookedUp
  obtain ⟨own, named, seen⟩ := guided.read hasRead
  rw [named, (guided.sound _ _ hasLooked).methodAt] at holds
  exact ⟨own, holds.symm, seen⟩

theorem Guided.named (guided : Guided visible past)
    {prog : FuncProgram (WarbleService.ReadLoop ⊕ FuncResult)} {eventFunction : Bytes}
    (stage : FuncStage platform packing call past prog)
    (looksUp : prog.nextOp = some (.methodAt eventFunction)) : ∃ request tv method,
      call = .event request tv ∧ eventFunction = methodName method ∧
        SeesFunction visible past request.eventType eventFunction := by
  obtain ⟨request, tv, read, isEvent, hasRead, rfl⟩ := stage.looksUp looksUp
  obtain ⟨method, named, seen⟩ := guided.read hasRead
  exact ⟨request, tv, method, isEvent, named, named ▸ seen⟩

theorem Guided.eventDispatched (guided : Guided visible past) {request : EventRequest}
    {tv : Timestamp} {prog : FuncProgram (WarbleService.ReadLoop ⊕ FuncResult)}
    (stage : FuncStage platform packing (.event request tv) past prog) :
    EventDispatched packing visible past request tv prog where
  looksUp eventFunction looksUp := by
    obtain ⟨request', tv', method, same, _, seen⟩ := guided.named stage looksUp
    cases same
    exact seen
  calls made w member := by
    obtain ⟨method, isMade, lookedUp⟩ := stage.calls member
    obtain ⟨own, same, seen⟩ := guided.lookedUp lookedUp
    cases same
    exact ⟨method, isMade, seen⟩
  returns result returned := by
    subst returned
    rcases stage.returns with missed | empty | served
    · exact .inl missed
    · obtain ⟨own, same, _⟩ := guided.lookedUp empty
      cases same
    · exact .inr served

theorem Guided.queryDispatched (guided : Guided visible past) {request : QueryRequest}
    {prog : FuncProgram (WarbleService.ReadLoop ⊕ FuncResult)}
    (stage : FuncStage platform packing (.query request) past prog) :
    QueryDispatched visible past request prog := by
  rintro result rfl
  generalize same : Program.ret (Sum.inr result) = prog at stage
  cases stage with
  | arrived => cases same
  | queryMissed request found missing =>
    cases same
    exact .inl ⟨rfl, found, by simp, missing⟩
  | queryHooked => cases same
  | queryDone request found read =>
    cases same
    have hasRead : (FuncOp.hookAt request.eventType, read) ∈
        [(FuncOp.findHook request.eventType, found), (FuncOp.hookAt request.eventType, read)] := by
      simp
    obtain ⟨method, named, seen⟩ := guided.read hasRead
    exact .inr ⟨_, rfl, named ▸ seen⟩

/-- RPCs that have been guided well are dispatched to functions that they may see. -/
theorem Guided.dispatched (guided : Guided visible past)
    {prog : FuncProgram (WarbleService.ReadLoop ⊕ FuncResult)}
    (stage : FuncStage platform packing call past prog) :
    Dispatched packing visible past call prog := by
  cases call with
  | hook request => trivial
  | unhook request => trivial
  | event request tv => exact guided.eventDispatched stage
  | query request => exact guided.queryDispatched stage

/-- What the runs keep in which every RPC reads what it may see. -/
structure Guarded (platform : Platform) (packing : Packing) (store : KeyValueStoreImpl)
    (visible : Visible) (events : List (Event FuncCall)) : Prop where
  sound : Sound (reached platform packing store events).world.state.func
  guided : ∀ index, Guided visible (pastOf platform packing store events index)

theorem reached_concat (before : List (Event FuncCall)) (event : Event FuncCall) :
    reached platform packing store (before ++ [event]) =
      (funcService platform packing).step (reached platform packing store before) event :=
  System.run_concat ..

theorem pastOf_concat (before : List (Event FuncCall)) (event : Event FuncCall) (index : ℕ) :
    pastOf platform packing store (before ++ [event]) index =
      pastOf platform packing store before index ++
        (System.performs (reached platform packing store before) event index).toList :=
  System.history_concat ..

theorem reached_stage {events : List (Event FuncCall)} {index : ℕ} {task : FuncTask}
    (found : task ∈ (reached platform packing store events).tasks[index]?) :
    FuncStage platform packing task.call (pastOf platform packing store events index)
      task.prog :=
  stage_run _ events found

theorem Guarded.nil : Guarded platform packing store visible [] where
  sound := Sound.new
  guided _ := Guided.nil

theorem Guarded.intact {before : List (Event FuncCall)} {event : Event FuncCall}
    (guarded : Guarded platform packing store visible (before ++ [event]))
    (unchanged : ∀ index, event = .advance index →
      ∀ task ∈ (reached platform packing store before).tasks[index]?,
        (∀ request, task.prog.nextOp ≠ some (.hook request)) →
          (∀ request, task.prog.nextOp ≠ some (.unhook request)) →
            (reached platform packing store (before ++ [event])).world.state.func =
              (reached platform packing store before).world.state.func) :
    TablesIntact platform packing store visible before event where
  names _ _ hooked := guarded.sound.mem_functionNames hooked
  methods := guarded.sound.methods
  dispatched index _ found := (guarded.guided index).dispatched (reached_stage found)
  unchanged := unchanged

/-- An event that performs no operation changes neither the tables nor what the RPCs have done. -/
theorem Guarded.idle {before : List (Event FuncCall)} {event : Event FuncCall}
    (guarded : Guarded platform packing store visible before)
    (none : ∀ index, System.performs (reached platform packing store before) event index = none)
    (same : (reached platform packing store (before ++ [event])).world =
      (reached platform packing store before).world) :
    Guarded platform packing store visible (before ++ [event]) ∧
      TablesIntact platform packing store visible before event := by
  have next : Guarded platform packing store visible (before ++ [event]) := by
    refine ⟨same ▸ guarded.sound, fun index => ?_⟩
    rw [pastOf_concat, none, Option.toList_none, List.append_nil]
    exact guarded.guided index
  exact ⟨next, next.intact fun _ _ _ _ _ _ => by rw [same]⟩

/-- One event of such a run. -/
theorem Guarded.step {before : List (Event FuncCall)} {event : Event FuncCall}
    (reads : ReadsVisible platform packing store visible before event)
    (guarded : Guarded platform packing store visible before) :
    Guarded platform packing store visible (before ++ [event]) ∧
      TablesIntact platform packing store visible before event := by
  rcases System.performs_cases (funcService platform packing)
    (reached platform packing store before) event with
    ⟨none, same⟩ | ⟨index, call, op, next, rfl, current, stepped, performs⟩
  · exact guarded.idle none (by rw [reached_concat, same])
  · have stage := reached_stage (Option.mem_def.mpr current)
    have hooked (eventType : Int32) (isRead : op = .hookAt eventType) :=
      reads index rfl _ (Option.mem_def.mpr current) eventType (congrArg some isRead)
    obtain ⟨sound, unchanged⟩ := guarded.sound.perform
      (fun eventType isRead => by
        obtain ⟨found, eventFunction, _, present, _⟩ := hooked eventType isRead
        exact ⟨eventFunction, present⟩)
      (fun eventFunction isLookUp => by
        obtain ⟨request, tv, method, _, rfl, _⟩ :=
          (guarded.guided index).named stage (congrArg some isLookUp)
        exact Proofs.mem_functionNames.mpr ⟨method, rfl⟩)
    have world : (reached platform packing store (before ++ [.advance index])).world.state.func =
        (funcHandler op (reached platform packing store before).world.state).2.func := by
      rw [reached_concat, stepped]
      rfl
    have kept : Guarded platform packing store visible (before ++ [.advance index]) := by
      refine ⟨world ▸ sound, fun other => ?_⟩
      rw [pastOf_concat, performs]
      split_ifs with same
      · subst same
        exact (guarded.guided index).concat guarded.sound hooked
      · rw [Option.toList_none, List.append_nil]
        exact guarded.guided other
    refine ⟨kept, kept.intact ?_⟩
    rintro _ ⟨⟩ task member notHook notUnhook
    obtain rfl := Option.mem_unique member (Option.mem_def.mpr current)
    rw [world]
    exact unchanged (fun request same => notHook request (congrArg some same))
      fun request same => notUnhook request (congrArg some same)

/-- An `operator[]` that finds nothing changes the hook table. -/
private theorem TablesIntact.hooked {before : List (Event FuncCall)} {index : ℕ}
    (intact : TablesIntact platform packing store visible before (.advance index))
    {task : FuncTask} (member : task ∈ (reached platform packing store before).tasks[index]?)
    {eventType : Int32} (isRead : task.prog.nextOp = some (.hookAt eventType)) :
    ∃ eventFunction,
      hookIn (reached platform packing store before).world eventType = some eventFunction := by
  cases hooked : hookIn (reached platform packing store before).world eventType with
  | some eventFunction => exact ⟨eventFunction, rfl⟩
  | none =>
    have missing : (reached platform packing store before).world.state.func.hookMap.lookup
      eventType = none := hooked
    have unchanged := intact.unchanged index rfl _ member
      (fun request same => by cases isRead.symm.trans same)
      fun request same => by cases isRead.symm.trans same
    obtain ⟨call, prog⟩ := task
    cases prog with
    | ret result => contradiction
    | call op next =>
      cases isRead
      rw [reached_concat, System.step, Option.mem_def.mp member] at unchanged
      change ((reached platform packing store before).world.state.func.hookAt eventType).2 = _
        at unchanged
      rw [FuncServiceImpl.hookAt, missing] at unchanged
      have inserted := congrArg (fun func => func.hookMap.lookup eventType) unchanged
      simp only [Finmap.lookup_insert, missing] at inserted
      contradiction

/-- An RPC that reads the hook table is dispatched to what it reads. -/
private theorem TablesIntact.sees {before : List (Event FuncCall)} {index : ℕ}
    (intact : TablesIntact platform packing store visible before (.advance index))
    {task : FuncTask} (member : task ∈ (reached platform packing store before).tasks[index]?)
    {eventType : Int32} (isRead : task.prog.nextOp = some (.hookAt eventType))
    {eventFunction : Bytes} (hooked :
      hookIn (reached platform packing store before).world eventType = some eventFunction) :
    SeesFunction visible (pastOf platform packing store (before ++ [.advance index]) index)
      eventType eventFunction := by
  have answered : (funcService platform packing).answer (.hookAt eventType)
      (reached platform packing store before).world = eventFunction :=
    congrArg Prod.fst (hookAt_of_hooked hooked)
  obtain ⟨found, past, ⟨request, tv, isEvent, rfl, left⟩ | ⟨request, isQuery, rfl, left⟩⟩ :=
    (reached_stage member).reads isRead
  · obtain ⟨call, prog⟩ := task
    obtain rfl : call = .event request tv := isEvent
    obtain rfl : prog = eventHooked platform packing request tv := left
    have moved := System.tasks_advance (funcService platform packing) (Option.mem_def.mp member)
    rw [answered, ← reached_concat] at moved
    have dispatched := intact.dispatched index _ (Option.mem_def.mpr moved)
    exact EventDispatched.looksUp dispatched eventFunction rfl
  · obtain ⟨call, prog⟩ := task
    obtain rfl : call = .query request := isQuery
    obtain rfl : prog = queryHooked request := left
    have moved := System.tasks_advance (funcService platform packing) (Option.mem_def.mp member)
    rw [answered, ← reached_concat] at moved
    have dispatched := intact.dispatched index _ (Option.mem_def.mpr moved)
    rcases dispatched _ rfl with ⟨missed, _⟩ | ⟨other, same, seen⟩
    · cases missed
    · cases same
      exact seen

theorem TablesIntact.readsVisible {before : List (Event FuncCall)} {event : Event FuncCall}
    (intact : TablesIntact platform packing store visible before event) :
    ReadsVisible platform packing store visible before event := by
  rintro index rfl task member eventType isRead
  obtain ⟨eventFunction, hooked⟩ := intact.hooked member isRead
  obtain ⟨found, past, _⟩ := (reached_stage member).reads isRead
  have performed : System.performs (reached platform packing store before) (.advance index) index =
      some (.hookAt eventType, (reached platform packing store before).world) := by
    rw [System.performs, if_pos rfl, Option.mem_def.mp member, Option.bind_some, isRead,
      Option.map_some]
  obtain ⟨first, second, isFirst, isSecond, seen⟩ := intact.sees member isRead hooked
  rw [pastOf_concat, performed, past] at isFirst isSecond
  simp only [Option.toList_some, List.singleton_append, List.mem_cons, Prod.mk.injEq, true_and,
    reduceCtorEq, false_and, List.not_mem_nil, or_false, false_or] at isFirst isSecond
  rw [isFirst, isSecond] at seen
  exact ⟨found, eventFunction, past ▸ List.mem_singleton_self _, hooked, seen⟩

theorem throughout_tablesIntact (visible : Visible) (events : List (Event FuncCall)) :
    Throughout (TablesIntact platform packing store visible) events ↔
      Throughout (ReadsVisible platform packing store visible) events := by
  constructor
  · exact Throughout.imp fun before event intact => intact.readsVisible
  · exact Throughout.of_preserves (fun before event reads guarded => guarded.step reads)
      Guarded.nil

/-- Concurrent RPCs keep dispatch intact, and an event or query that races with an `unhook` sees
the old function or reports that nothing is hooked, exactly when every `operator[]` finds its event
type hooked to an old function. They see the very function that their `find` saw exactly when every
`operator[]` finds it unchanged. -/
theorem tables_intact_iff (store : KeyValueStoreImpl) (events : List (Event FuncCall)) :
    (Throughout (TablesIntact platform packing store Old) events ↔
      Throughout (ReadsVisible platform packing store Old) events) ∧
    (Throughout (TablesIntact platform packing store Unchanged) events ↔
      Throughout (ReadsVisible platform packing store Unchanged) events) :=
  ⟨throughout_tablesIntact Old events, throughout_tablesIntact Unchanged events⟩

/-- An event finds the hook of its type, and the hook is removed before the event reads it. -/
def unhookedBetween : List (Event FuncCall) :=
  [.invoke (.hook ⟨1, str "registeruser"⟩), .advance 0, .invoke (.event ⟨1, none⟩ ⟨0, 0⟩),
    .advance 1, .invoke (.unhook ⟨1⟩), .advance 2, .advance 1, .advance 1]

/-- The hook is removed, and another function is hooked before the event reads the table. -/
def rehookedBetween : List (Event FuncCall) :=
  [.invoke (.hook ⟨1, str "registeruser"⟩), .advance 0, .invoke (.event ⟨1, none⟩ ⟨0, 0⟩),
    .advance 1, .invoke (.unhook ⟨1⟩), .advance 2, .invoke (.hook ⟨1, str "profile"⟩), .advance 3,
    .advance 1, .advance 1, .advance 1]

/-- The task has called an empty `std::function`. -/
def hasThrown (task : FuncTask) : Bool :=
  match task.prog with
  | .ret (.inr .badFunctionCall) => true
  | _ => false

/-- What RPCs lead to on an empty store, with the protobuf formats. -/
abbrev reachedEmpty (events : List (Event FuncCall)) : FuncConfig :=
  reached protobufPlatform protobufPacking ⟨∅, [], false, none⟩ events

private theorem rehooked_not_old : ¬ Throughout
    (ReadsVisible protobufPlatform protobufPacking ⟨∅, [], false, none⟩ Old) rehookedBetween := by
  intro reads
  obtain ⟨found, eventFunction, first, hooked, old⟩ := reads (rehookedBetween.take 8) (.advance 1)
    [.advance 1, .advance 1] rfl 1 rfl _ rfl 1 rfl
  have past : pastOf protobufPlatform protobufPacking ⟨∅, [], false, none⟩
      (rehookedBetween.take 8) 1 =
        [(.findHook 1, (reachedEmpty (rehookedBetween.take 3)).world)] := rfl
  rw [past, List.mem_singleton] at first
  obtain rfl : found = _ := congrArg Prod.snd first
  obtain rfl : str "profile" = eventFunction := Option.some.inj hooked
  exact absurd old (by decide)

/-- The event brings the hook back, with an empty name, and calls an empty function. When another
function has been hooked in between, it calls that one. -/
theorem tables_intact_fails :
    ((reachedEmpty unhookedBetween).world.state.func.hookMap.lookup 1 = some [] ∧
      (reachedEmpty unhookedBetween).world.state.func.nameMethodMap.lookup [] = some none ∧
      (reachedEmpty unhookedBetween).tasks.countP hasThrown = 1) ∧
    (reachedEmpty rehookedBetween).world.state.invoked = [.profile ⟨[]⟩] ∧
    ∀ events ∈ [unhookedBetween, rehookedBetween], ¬ Throughout
      (TablesIntact protobufPlatform protobufPacking ⟨∅, [], false, none⟩ Old) events := by
  refine ⟨by decide, by decide, fun events member intact => ?_⟩
  simp only [List.mem_cons, List.not_mem_nil, or_false] at member
  rcases member with rfl | rfl
  · have named := (intact unhookedBetween.dropLast (.advance 1) [] rfl).names 1 [] (by decide)
    exact absurd named (by decide)
  · exact rehooked_not_old ((throughout_tablesIntact Old rehookedBetween).mp intact)

end FuncWarble.Proofs
