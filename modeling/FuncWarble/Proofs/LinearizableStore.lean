import Mathlib
import FuncWarble.Machine.Linearization
import FuncWarble.Proofs.DurableStore

/-! # The store in memory is linearizable

Of the operations of an RPC exactly one, under the mutex of the storage, touches the map; what
follows it is at most the append of a record. The RPCs of any run therefore have a sequential
history, in the order in which they have got hold of the mutex, although their records may reach
the log in another order. A `get` of several keys takes the mutex once for each, and is no single
step of such a history.
-/

namespace FuncWarble.Proofs

open Text Model Machine

/-- The operations under the mutex of the storage. -/
def underMutex : ServerOp → Bool
  | .persistentStore _ _ _ => false
  | _ => true

/-- What an RPC returns and does to the map when nothing runs beside it. -/
def handledAlone (call : ServerCall) (storage : Storage) : (Status × List GetReply) × Storage :=
  let ran := (call.program false).run KeyValueStoreImpl.handler ⟨storage, [], false, none⟩
  (ran.1, ran.2.storage)

/-- A `get` names a single key. -/
def SingleKey : ServerCall → Prop
  | .get stream => stream.length = 1
  | _ => True

instance (call : ServerCall) : Decidable (SingleKey call) := by
  cases call <;> simp only [SingleKey] <;> infer_instance

theorem handledAlone_get (key : Bytes) (storage : Storage) :
    handledAlone (.get [⟨key⟩]) storage = (getAnswer (storage.get key), storage) := by
  have answered := get_single ⟨storage, [], false, none⟩ key
  have unchanged := KeyValueStoreImpl.get_snd ⟨storage, [], false, none⟩ [⟨key⟩]
  exact Prod.ext answered (congrArg KeyValueStoreImpl.storage unchanged)

theorem handledAlone_remove (request : RemoveRequest) (storage : Storage) :
    handledAlone (.remove request) storage = ((Status.OK, []), storage.erase request.key) := by
  have alone := KeyValueStoreImpl.remove_eq ⟨storage, [], false, none⟩ request
  rw [KeyValueStoreImpl.remove] at alone
  simp only [handledAlone, ServerCall.program, Program.run_bind, alone]
  rfl

/-- Every RPC on a single key has one operation that does what the whole RPC means. -/
theorem program_pending (persistentMode : Bool) {call : ServerCall} (single : SingleKey call) :
    (server persistentMode).Pending KeyValueStoreImpl.storage underMutex (handledAlone call)
      ((server persistentMode).start call) := by
  cases call with
  | put request =>
    intro s
    refine ⟨rfl, ?_⟩
    cases persistentMode with
    | true => exact ⟨rfl, fun _ => ⟨rfl, rfl⟩⟩
    | false => rfl
  | get stream =>
    obtain ⟨⟨key⟩, rfl⟩ := List.length_eq_one_iff.mp single
    intro s
    rw [handledAlone_get]
    refine ⟨rfl, ?_⟩
    change System.Settled _ _ _ _ (if (s.storage.get key).length = 0 then _ else _)
    rcases eq_or_ne (s.storage.get key) [] with absent | present
    · rw [getAnswer, if_pos absent, if_pos (List.length_eq_zero_iff.mpr absent)]
      rfl
    · rw [getAnswer, if_neg present, if_neg (mt List.length_eq_zero_iff.mp present)]
      exact congrArg _ (List.append_nil _)
  | remove request =>
    intro s
    rw [handledAlone_remove]
    refine ⟨Storage.deleteKey_snd _ _, ?_⟩
    rw [show ((server persistentMode).handler (.storageDeleteKey request.key) s).1 = true from
      Storage.deleteKey_fst _ _]
    cases persistentMode with
    | true => exact ⟨rfl, fun _ => ⟨rfl, rfl⟩⟩
    | false => rfl

/-- The request of an RPC that changes the map. -/
def ServerCall.record? : ServerCall → Option LogRecord
  | .put request => some (.put request.key request.value)
  | .get _ => none
  | .remove request => some (.remove request.key)

/-- Calls in sequence do to the map what their requests say. -/
theorem serial_handledAlone (past : List LogRecord) {calls : List ServerCall}
    (single : ∀ call ∈ calls, SingleKey call) :
    System.serial handledAlone (applyAll ∅ past) calls =
      applyAll ∅ (past ++ calls.filterMap ServerCall.record?) := by
  induction calls using List.reverseRecOn with
  | nil => rw [List.filterMap_nil, List.append_nil]; rfl
  | append_singleton calls call ih =>
    have earlier := ih fun call member => single call (List.mem_append_left _ member)
    rw [System.serial_concat, earlier, List.filterMap_append, ← List.append_assoc]
    cases call with
    | put request => exact (applyAll_concat _ _ (.put request.key request.value)).symm
    | get stream =>
      obtain ⟨⟨key⟩, rfl⟩ := List.length_eq_one_iff.mp
        (single (.get stream) (List.mem_append_right _ (List.mem_singleton_self _)))
      rw [handledAlone_get]
      exact congrArg _ (List.append_nil _).symm
    | remove request =>
      rw [handledAlone_remove]
      exact (applyAll_concat _ _ (.remove request.key)).symm

/-- Every run of RPCs on single keys, in any interleaving of their steps, has a sequential history
that gives the map in memory and every answer, and keeps the order of RPCs that do not overlap. In
it a `get` returns the values put under its key since the last remove. -/
theorem store_linearizable (persistentMode : Bool) {past : List LogRecord}
    {first : KeyValueStoreImpl} (memory : first.storage = applyAll ∅ past)
    {events : List (Event ServerCall)}
    (single : ∀ call, .invoke call ∈ events → SingleKey call) :
    ∃ order, (server persistentMode).Linearization KeyValueStoreImpl.storage handledAlone first
        events order ∧
      ∀ index key result,
        ((server persistentMode).run (System.initial first) events).tasks[index]? =
          some ⟨.get [⟨key⟩], .ret result⟩ →
        ∃ before, before ++ [(index, .get [⟨key⟩])] <+: order ∧ result = getAnswer
          (valuesSince key (past ++ (before.map Prod.snd).filterMap ServerCall.record?)) := by
  have pending : ∀ call, .invoke call ∈ events → (server persistentMode).Pending
      KeyValueStoreImpl.storage underMutex (handledAlone call)
      ((server persistentMode).start call) :=
    fun call member => program_pending persistentMode (single call member)
  obtain ⟨order, linear⟩ := System.linearizable pending fun _ => rfl
  refine ⟨order, linear, fun index key result returned => ?_⟩
  obtain ⟨before, isPrefix, same⟩ := linear.results index _ result returned
  have singles : ∀ call ∈ before.map Prod.snd, SingleKey call := by
    intro call member
    obtain ⟨entry, inBefore, rfl⟩ := List.mem_map.mp member
    have inOrder := isPrefix.subset (List.mem_append_left _ inBefore)
    obtain ⟨prog, found⟩ := linear.calls entry inOrder
    exact single _ (System.invoke_mem_of_run _ (List.mem_of_getElem? found))
  refine ⟨before, isPrefix, ?_⟩
  rw [same, memory, serial_handledAlone past singles, handledAlone_get, applyAll_get]

/-- Two puts overlap a get, and their records reach the log in the other order. -/
theorem store_linearizable_example :
    let events : List (Event ServerCall) := [.invoke (.put ⟨str "k", str "a"⟩),
      .invoke (.get [⟨str "k"⟩]), .invoke (.put ⟨str "k", str "b"⟩), .advance 0, .advance 2,
      .advance 1, .advance 2, .advance 0]
    ∃ order, (server true).Linearization KeyValueStoreImpl.storage handledAlone
        ⟨∅, str "log", true, some []⟩ events order ∧
      ∀ index key result, ((server true).run (System.initial ⟨∅, str "log", true, some []⟩)
          events).tasks[index]? = some ⟨.get [⟨key⟩], .ret result⟩ →
        ∃ before, before ++ [(index, .get [⟨key⟩])] <+: order ∧ result = getAnswer
          (valuesSince key ([] ++ (before.map Prod.snd).filterMap ServerCall.record?)) :=
  store_linearizable true rfl (by simp [SingleKey])

end FuncWarble.Proofs
