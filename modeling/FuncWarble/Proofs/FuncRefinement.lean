import Mathlib
import FuncWarble.Machine.Hosting
import FuncWarble.Proofs.StoreTyping
import FuncWarble.Proofs.TableRaces

/-! # The func service refines the warble service

An event leaves the key value server alone until its wrapper calls a method, and from then on it
is that method. Every interleaving of the RPCs of the func service, races on the tables included,
is therefore an interleaving of calls of the warble service as far as the store and the payloads
of the replies go, and each of these calls is made by one event.
-/

namespace FuncWarble.Proofs

open Text Model Machine

variable {platform : Platform} {packing : Packing}

/-- The call is the one that some wrapper makes for the event. -/
def MadeBy (packing : Packing) : FuncCall → WarbleCall → Prop
  | .event request tv, call =>
    ∃ method, call = methodCall packing (request.payload.getD Any.empty) tv method
  | _, _ => False

/-- The RPC has returned, and without the payload of a method. -/
def WithoutPayload : WarbleService.ReadLoop ⊕ FuncResult → Prop
  | .inl _ => False
  | .inr (.replied _ (.event reply)) => reply.payload = none
  | .inr _ => True

/-- The reply of an event to which a method has replied. -/
def eventResult (packing : Packing) (result : WarbleResult) : FuncResult :=
  .replied result.1 (.event ⟨some (packing.packReply result.2)⟩)

/-- The func service runs the methods of the warble service on the store. -/
def warbleHosting (platform : Platform) (packing : Packing) :
    System.Hosting (funcService platform packing) (warbleService platform) where
  view s := s.store
  inject := FuncOp.client
  back _ answer := answer
  leaf result := result.map id (eventResult packing)
  quiet op := ∀ own, op ≠ .client own
  enter
    | .invoke call => some call
    | _ => none
  serves := MadeBy packing
  own := WithoutPayload
  view_inject _ _ := ⟨rfl, rfl⟩
  view_quiet op s quiet := by
    cases op with
    | client own => exact absurd rfl (quiet own)
    | _ => rfl
  enter_inject _ := rfl
  resume_leaf result := by
    cases result with
    | inl head => rfl
    | inr result => rfl

/-- What an event returns without a payload is its own. -/
private theorem outside_ret {call : FuncCall} {result : FuncResult}
    (without : WithoutPayload (.inr result)) :
    (warbleHosting platform packing).Outside call (.ret (.inr result)) := ⟨rfl, without⟩

/-- An access to a table leaves the key value server alone. -/
private theorem quiet_of_ne {op : FuncOp} (ne : ∀ own, op ≠ .client own) :
    (warbleHosting platform packing).quiet op := ne

private theorem event_outside (request : EventRequest) (tv : Timestamp) :
    (warbleHosting platform packing).Outside (.event request tv)
      (FuncServiceImpl.event platform packing request tv) := by
  refine ⟨quiet_of_ne (by simp), fun hooked => ?_⟩
  cases hooked with
  | false => exact outside_ret rfl
  | true =>
    refine ⟨quiet_of_ne (by simp), fun eventFunction => ⟨quiet_of_ne (by simp), fun method => ?_⟩⟩
    cases method with
    | none => exact outside_ret trivial
    | some method =>
      simp only [apply_eq_wrapper, Func.wrapper, Program.perform_bind, Program.call_bind,
        Program.pure_eq, Program.embedWith_map]
      exact ⟨quiet_of_ne (by simp), fun _ => ⟨⟨method, rfl⟩, rfl⟩⟩

private theorem query_outside (request : QueryRequest) :
    (warbleHosting platform packing).Outside (.query request) (FuncServiceImpl.query request) := by
  refine ⟨quiet_of_ne (by simp), fun hooked => ?_⟩
  cases hooked with
  | false => exact outside_ret trivial
  | true => exact ⟨quiet_of_ne (by simp), fun _ => outside_ret trivial⟩

theorem program_outside (call : FuncCall) : (warbleHosting platform packing).Outside call
    ((funcService platform packing).start call) := by
  cases call with
  | hook request => exact ⟨quiet_of_ne (by simp), fun _ => outside_ret trivial⟩
  | unhook request => exact ⟨quiet_of_ne (by simp), fun _ => outside_ret trivial⟩
  | event request tv => exact event_outside request tv
  | query request => exact query_outside request

/-- The recorded calls are those that entered the warble service. -/
private theorem entered_run (s : FuncState) (events : List (Event FuncCall)) :
    let last := (funcService platform packing).run (System.initial s) events
    last.world.state.invoked =
      s.invoked ++ (warbleHosting platform packing).entered last.world := by
  refine @System.run_invariant _ _ _ _ _ (funcService platform packing) (fun c =>
    c.world.state.invoked = s.invoked ++ (warbleHosting platform packing).entered c.world)
    ?_ _ (List.append_nil _).symm events
  intro c event recorded
  have stepped := (funcService platform packing).step_cases c event
  generalize (funcService platform packing).step c event = c' at stepped ⊢
  cases stepped with
  | stay => exact recorded
  | invoke call => exact recorded
  | resume index call result prog current resumed => exact recorded
  | perform index call op next current =>
    rw [System.Hosting.entered_perform, ← List.append_assoc, ← recorded]
    cases op with
    | invoke made => rfl
    | _ => exact (List.append_nil _).symm

private theorem exists_contained (func : FuncServiceImpl) (store : KeyValueStoreImpl)
    (events : List (Event FuncCall)) : ∃ events' owners, (warbleHosting platform packing).Contains
      ((funcService platform packing).run (System.initial ⟨func, store, []⟩) events)
      ((warbleService platform).run (System.initial store) events') owners :=
  (warbleHosting platform packing).exists_run program_outside ⟨func, store, []⟩ events

/-- The run of the func service is one of the warble service: on the same store, of the calls that
its events made, each made by the event that `owners` names and answered by its reply. -/
structure Refines (packing : Packing) (last : FuncConfig) (served : ServiceConfig)
    (owners : List ℕ) : Prop where
  store : served.world.state = last.world.state.store
  calls : served.tasks.map Task.call = last.world.state.invoked
  once : owners.Nodup
  owned : owners.length = served.tasks.length
  made : ∀ (n owner : ℕ), owners[n]? = some owner → ∃ task' ∈ served.tasks[n]?,
    ∃ task ∈ last.tasks[owner]?, MadeBy packing task.call task'.call
  replied : ∀ (index : ℕ), ∀ task ∈ last.tasks[index]?, ∀ status payload,
    task.prog = .ret (.inr (.replied status (.event ⟨some payload⟩))) →
      ∃ (n : ℕ) (answer : WarbleAnswer), owners[n]? = some index ∧
        payload = packing.packReply answer ∧
        ∃ task' ∈ served.tasks[n]?, MadeBy packing task.call task'.call ∧
          task'.prog = .ret (.inr (status, answer))

private theorem inside_eq_ret {prog : ServiceProgram} {status : Status} {payload : Any}
    (same : (warbleHosting platform packing).inside prog =
      .ret (.inr (.replied status (.event ⟨some payload⟩)))) :
    ∃ answer, prog = .ret (.inr (status, answer)) ∧ payload = packing.packReply answer := by
  cases prog with
  | call op next => exact nomatch same
  | ret result =>
    rcases result with head | ⟨status', answer⟩
    · exact nomatch same
    · obtain ⟨rfl, packed⟩ := FuncResult.replied.inj (Sum.inr.inj (Program.ret.inj same))
      simp only [FuncAnswer.event.injEq, EventReply.mk.injEq, Option.some.injEq] at packed
      exact ⟨answer, rfl, packed.symm⟩

theorem exists_refines (func : FuncServiceImpl) (store : KeyValueStoreImpl)
    (events : List (Event FuncCall)) : ∃ events' owners, Refines packing
      ((funcService platform packing).run (System.initial ⟨func, store, []⟩) events)
      ((warbleService platform).run (System.initial store) events') owners := by
  obtain ⟨events', owners, contains⟩ := @exists_contained platform packing func store events
  have recorded := @entered_run platform packing ⟨func, store, []⟩ events
  refine ⟨events', owners, contains.viewed.symm, ?_, contains.nodup, contains.length, ?_, ?_⟩
  · rw [contains.calls, recorded]
    rfl
  · intro n owner owned
    obtain ⟨call, call', prog, serves, small, large⟩ := contains.runs n owner owned
    exact ⟨_, small, _, large, serves⟩
  · intro index task found status payload returned
    by_cases own : index ∈ owners
    · obtain ⟨n, owned⟩ := List.getElem?_of_mem own
      obtain ⟨call, call', prog, serves, small, large⟩ := contains.runs n index owned
      obtain rfl := Option.mem_unique found large
      obtain ⟨answer, rfl, packed⟩ := inside_eq_ret returned
      exact ⟨n, answer, owned, packed, _, small, serves, rfl⟩
    · have outside := contains.outside index task found own
      rw [returned] at outside
      exact nomatch outside.2

/-- Every run of the func service, whatever its tables hold at the start and however its RPCs
interleave, refines a run of the warble service. -/
theorem func_refines_warble (func : FuncServiceImpl) (store : KeyValueStoreImpl)
    (events : List (Event FuncCall)) : ∃ events' owners, Refines packing
      ((funcService platform packing).run (System.initial ⟨func, store, []⟩) events)
      ((warbleService platform).run (System.initial store) events') owners :=
  exists_refines func store events

/-- Whatever requests arrive at the func service, well formed or not, and however they interleave,
the store stays typed. -/
theorem func_store_typed (func : FuncServiceImpl) {store : KeyValueStoreImpl}
    (empty : store.storage = ∅) (events : List (Event FuncCall)) :
    let last := (funcService platform packing).run (System.initial ⟨func, store, []⟩) events
    ∀ key, Found last.world.state.store key → (∃! kind : KeyKind, kind.Has key) ∧
      ∀ kind : KeyKind, kind.Has key → WellFormed platform last.world.state.store key kind := by
  intro last key found
  obtain ⟨events', owners, contains⟩ := @exists_contained platform packing func store events
  have held := (@warbleService_guaranteed platform store empty events').1.held
  have same : last.world.state.store = _ := contains.viewed
  rw [← same] at held
  obtain ⟨entry, member, rfl⟩ := (held.found_iff key).mp found
  obtain ⟨kind, has⟩ := held.typed.exists_kind member
  exact ⟨⟨kind, has, fun other second => second.unique has⟩, fun kind has =>
    held.wellFormed found has⟩

/-- A payload that holds no message still registers a user, of the empty name. -/
theorem func_store_typed_example :
    let last := (funcService protobufPlatform protobufPacking).run
      (System.initial ⟨FuncServiceImpl.new, ⟨∅, [], false, none⟩, []⟩)
      [.invoke (.hook ⟨7, str "registeruser"⟩), .advance 0,
        .invoke (.event ⟨7, some Any.empty⟩ ⟨0, 0⟩), .advance 1, .advance 1, .advance 1, .advance 1,
        .advance 1, .advance 1]
    ∀ key, Found last.world.state.store key → (∃! kind : KeyKind, kind.Has key) ∧
      ∀ kind : KeyKind, kind.Has key →
        WellFormed protobufPlatform last.world.state.store key kind :=
  func_store_typed _ rfl _

end FuncWarble.Proofs
