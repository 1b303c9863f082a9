import Mathlib
import FuncWarble.Proofs.HookTable
import FuncWarble.Proofs.Refusals

/-! # Ill-typed events

The wrappers do not look at the result of `UnpackTo`. A payload that does not unpack reaches the
method as whatever message the unpacking leaves behind, which is the default message for a payload
of another type, and only the checks of the method can refuse it.
-/

namespace FuncWarble.Proofs

open Text Model Machine

variable {platform : Platform} {packing : Packing} {s : FuncState} {payload : Any}
  {tv : Timestamp} {method : Method}

/-- The payload holds a message of the method's request type. -/
def holdsRequest (packing : Packing) (payload : Any) : Method → Bool
  | .registerUser => packing.registeruserRequest.is payload
  | .warbleMethod => packing.warbleRequest.is payload
  | .follow => packing.followRequest.is payload
  | .read => packing.readRequest.is payload
  | .profile => packing.profileRequest.is payload

/-- The payload unpacks as the method's request type. -/
def unpacks (packing : Packing) (payload : Any) : Method → Bool
  | .registerUser => (packing.registeruserRequest.unpackTo payload).1
  | .warbleMethod => (packing.warbleRequest.unpackTo payload).1
  | .follow => (packing.followRequest.unpackTo payload).1
  | .read => (packing.readRequest.unpackTo payload).1
  | .profile => (packing.profileRequest.unpackTo payload).1

/-- The event is answered with a status other than OK, and it changes neither the key value store
nor the tables. -/
def RefusedWithoutEffect (platform : Platform) (packing : Packing) (request : EventRequest)
    (tv : Timestamp) (s : FuncState) : Prop :=
  ∃ status answer s', Handles platform packing (.event request tv) s (.replied status answer) s' ∧
    status.isOk = false ∧ s'.store = s.store ∧ s'.func = s.func

/-- The method refuses a request without any fields. Nobody can follow itself, so `Follow` always
does. -/
def RefusesDefault (server : KeyValueStoreImpl) : Method → Prop
  | .registerUser => Found server (nameKey .user [])
  | .warbleMethod => ¬ Found server (nameKey .user [])
  | .follow => True
  | .read => ¬ Found server (nameKey .user []) ∨ ¬ Found server []
  | .profile => ¬ Found server (nameKey .user [])

/-- A payload of another type reaches the method as a request without fields. -/
theorem refuses_of_other_type (lawful : packing.Lawful)
    (other : holdsRequest packing payload method = false) (server : KeyValueStoreImpl) :
    Refuses server (methodCall packing payload tv method) ↔ RefusesDefault server method := by
  cases method with
  | registerUser =>
    rw [methodCall, lawful.registeruserRequest.mismatch payload other]
    exact Iff.rfl
  | warbleMethod =>
    rw [methodCall, lawful.warbleRequest.mismatch payload other]
    exact or_iff_left fun reply => reply.1 rfl
  | follow =>
    rw [methodCall, lawful.followRequest.mismatch payload other]
    exact iff_of_true (.inr rfl) trivial
  | read =>
    rw [methodCall, lawful.readRequest.mismatch payload other]
    exact Iff.rfl
  | profile =>
    rw [methodCall, lawful.profileRequest.mismatch payload other]
    exact Iff.rfl

/-- An event is refused without effect when the method refuses the message that is left by
unpacking the payload, and only then. -/
theorem refusedWithoutEffect_iff (sound : Sound s.func) {request : EventRequest}
    (hooked : s.func.hookMap.lookup request.eventType = some (methodName method)) :
    RefusedWithoutEffect platform packing request tv s ↔
      Refuses s.store (methodCall packing (request.payload.getD Any.empty) tv method) := by
  constructor
  · rintro ⟨status, answer, s', handled, failed, _⟩
    obtain ⟨served, answered, store, serves, result, rfl⟩ :=
      (handles_event_hooked sound hooked).mp handled
    obtain ⟨rfl, _⟩ := FuncResult.replied.inj result
    by_contra accepted
    rw [(isOk_iff_not_refuses serves).mpr accepted] at failed
    contradiction
  · intro refused
    obtain ⟨status, failed, serves⟩ := @Refuses.serves platform _ _ refused
    exact ⟨status, _, _, (handles_event_hooked sound hooked).mpr
      ⟨status, _, s.store, serves, rfl, rfl⟩, failed, rfl, rfl⟩

/-- When an event whose payload does not unpack is refused without effect: exactly when the method
refuses what the unpacking leaves, which for a payload of another type is a request without
fields. -/
theorem ill_typed_event_refused_iff {past : List FuncExchange} (lawful : packing.Lawful)
    (run : FuncRun platform packing past s) (request : EventRequest) (tv : Timestamp)
    (method : Method) (hooked : bindingOf past request.eventType = some (methodName method)) :
    (holdsRequest packing (request.payload.getD Any.empty) method = false →
      (RefusedWithoutEffect platform packing request tv s ↔ RefusesDefault s.store method)) ∧
    (unpacks packing (request.payload.getD Any.empty) method = false →
      (RefusedWithoutEffect platform packing request tv s ↔
        Refuses s.store (methodCall packing (request.payload.getD Any.empty) tv method))) := by
  rw [← run.lookup_eq] at hooked
  have refused : RefusedWithoutEffect platform packing request tv s ↔
      Refuses s.store (methodCall packing (request.payload.getD Any.empty) tv method) :=
    refusedWithoutEffect_iff run.sound hooked
  exact ⟨fun other => refused.trans (refuses_of_other_type lawful other _), fun _ => refused⟩

/-- A history that hooks registration. -/
private def registration : List FuncExchange :=
  [⟨.hook ⟨1, methodName .registerUser⟩, .replied Status.OK (.hook {})⟩]

private theorem registration_run : FuncRun protobufPlatform protobufPacking registration
    ⟨(FuncServiceImpl.new.hook ⟨1, methodName .registerUser⟩).2, ⟨∅, [], false, none⟩, []⟩ :=
  FuncRun.hook_first _ 1 .registerUser

/-- A registration of the user "ada" with two more bytes, which announce a field that is missing. -/
private def garbled : Any :=
  ⟨(protobufPacking.registeruserRequest.packFrom ⟨str "ada"⟩).typeUrl,
    (protobufPacking.registeruserRequest.packFrom ⟨str "ada"⟩).value ++ [10, 5]⟩

/-- An empty payload, and one of the right type that does not parse: it reaches the method as the
registration of "ada". -/
theorem ill_typed_event_refused_example :
    holdsRequest protobufPacking Any.empty .registerUser = false ∧
    holdsRequest protobufPacking garbled .registerUser = true ∧
    unpacks protobufPacking garbled .registerUser = false ∧
    ∃ s, FuncRun protobufPlatform protobufPacking registration s ∧
      (RefusedWithoutEffect protobufPlatform protobufPacking ⟨1, some Any.empty⟩ ⟨0, 0⟩ s ↔
        Found s.store (nameKey .user [])) ∧
      (RefusedWithoutEffect protobufPlatform protobufPacking ⟨1, some garbled⟩ ⟨0, 0⟩ s ↔
        Found s.store (nameKey .user (str "ada"))) :=
  ⟨by decide, by decide, by decide, _, registration_run,
    (ill_typed_event_refused_iff protobufPacking_lawful registration_run ⟨1, some Any.empty⟩
      ⟨0, 0⟩ .registerUser (by decide)).1 (by decide),
    (ill_typed_event_refused_iff protobufPacking_lawful registration_run ⟨1, some garbled⟩
      ⟨0, 0⟩ .registerUser (by decide)).2 (by decide)⟩

/-- An event without a message registers a user without a name. -/
theorem ill_typed_event_fails :
    holdsRequest protobufPacking Any.empty .registerUser = false ∧
    ∃ s, FuncRun protobufPlatform protobufPacking registration s ∧
      bindingOf registration 1 = some (methodName .registerUser) ∧
      ¬ RefusedWithoutEffect protobufPlatform protobufPacking ⟨1, some Any.empty⟩ ⟨0, 0⟩ s ∧
      ∃ answer s', Handles protobufPlatform protobufPacking (.event ⟨1, some Any.empty⟩ ⟨0, 0⟩) s
          (.replied Status.OK answer) s' ∧
        ¬ Found s.store (nameKey .user []) ∧ Found s'.store (nameKey .user []) := by
  have sound := registration_run.sound
  refine ⟨by decide, _, registration_run, by decide, ?_, ?_⟩
  · rw [@refusedWithoutEffect_iff _ _ _ _ .registerUser sound _ (by decide)]
    decide
  · refine ⟨_, _, (@handles_event_hooked _ _ _ _ _ sound _ _ .registerUser (by decide)).mpr
      ⟨Status.OK, _, _, serves_registerUser.mpr ⟨rfl, rfl⟩, rfl, rfl⟩, ?_, ?_⟩
    · decide
    · decide

end FuncWarble.Proofs
