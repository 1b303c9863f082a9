import Mathlib
import FuncWarble.Model.WarbleMessage
import FuncWarble.Proofs.SequentialCalls

/-! # Calls with failing RPCs

A failed `Get` looks like an absent key, and the result of a `Put` is never looked at. A call whose
RPCs fail is therefore refused without effect, or ends as it would have, except where a lookup that
fails leads to a `Put` and where a `Put` fails.
-/

namespace FuncWarble.Proofs

open Text Model Machine

variable {platform : Platform} {fails : ℕ → Bool} {server : KeyValueStoreImpl}

/-- The call, of whose RPCs some fail, ends with a result and a server. -/
def ServesFailing (platform : Platform) (fails : ℕ → Bool) (call : WarbleCall)
    (server : KeyValueStoreImpl) (result : WarbleResult) (server' : KeyValueStoreImpl) : Prop :=
  ∃ count, Program.Outcome (KeyValueClient.faultyHandler fails) (WarbleCall.body platform)
    (call.program platform) (0, server) result (count, server')

/-- The call ends, either with the status and the store of the call without failures or with a
status other than OK and the store as it was. -/
def AllOrNothing (platform : Platform) (fails : ℕ → Bool) (call : WarbleCall)
    (server : KeyValueStoreImpl) : Prop :=
  ∃ result server', ServesFailing platform fails call server result server' ∧
    ((∃ clean cleanServer, Serves platform call server clean cleanServer ∧
        result.1 = clean.1 ∧ server'.storage = cleanServer.storage) ∨
      result.1.isOk = false ∧ server'.storage = server.storage)

/-- The key is there, and the RPC that looks it up does not fail. -/
def Sees (fails : ℕ → Bool) (count : ℕ) (server : KeyValueStoreImpl) (key : Bytes) : Prop :=
  fails count = false ∧ Found server key

instance (count : ℕ) (key : Bytes) : Decidable (Sees fails count server key) :=
  inferInstanceAs (Decidable (_ ∧ _))

/-- The server after a `Put` that may have failed. -/
def afterTry (fails : ℕ → Bool) (count : ℕ) (server : KeyValueStoreImpl) (key val : Bytes) :
    KeyValueStoreImpl :=
  if fails count then server else afterPut server key val

theorem faultyHandler_get (count : ℕ) (key : Bytes) :
    KeyValueClient.faultyHandler fails (.get [key]) (count, server) =
      (if Sees fails count server key then some (server.storage.get key) else none,
        count + 1, server) := by
  simp only [KeyValueClient.faultyHandler]
  split_ifs with failed sees sees
  · exact absurd sees.1 (by simp [failed])
  · rfl
  · rw [handler_get_found sees.2]
  · have missing : ¬ Found server key := fun found => sees ⟨by simpa using failed, found⟩
    rw [handler_get_missing missing]

theorem faultyHandler_put_snd (count : ℕ) (key val : Bytes) :
    (KeyValueClient.faultyHandler fails (.put key val) (count, server)).2 =
      (count + 1, afterTry fails count server key val) := by
  simp only [KeyValueClient.faultyHandler, afterTry]
  split_ifs <;> rfl

theorem registerUser_failing_run (request : RegisteruserRequest) :
    (WarbleService.registerUser request).run (KeyValueClient.faultyHandler fails) (0, server) =
      if Sees fails 0 server (nameKey .user request.username) then
        ((⟨.alreadyExists, "Username already exists."⟩, {}), 1, server)
      else ((Status.OK, {}), 2,
        afterTry fails 1 server (nameKey .user request.username) request.username) := by
  simp only [WarbleService.registerUser, Program.perform_bind, Program.run_call,
    faultyHandler_get]
  rw [show str "user_" ++ request.username = nameKey .user request.username from rfl]
  split_ifs with user
  · rfl
  · simp only [Program.pure_eq, Program.run_call, Program.run_ret, faultyHandler_put_snd]

theorem storeWarble_failing_run (request : WarbleRequest) (tv : Timestamp) (count : ℕ) :
    (WarbleService.storeWarble platform request tv).run (KeyValueClient.faultyHandler fails)
        (count, server) =
      ((Status.OK, ⟨some (WarbleService.newWarble platform request tv)⟩), count + 1,
        afterTry fails count server (WarbleService.newWarble platform request tv).id
          (platform.serializeToString (WarbleService.newWarble platform request tv))) := by
  simp only [WarbleService.storeWarble, Program.perform_bind, Program.pure_eq, Program.run_call,
    Program.run_ret, faultyHandler_put_snd]

theorem warbleMethod_failing_run (request : WarbleRequest) (tv : Timestamp) :
    (WarbleService.warbleMethod platform request tv).run (KeyValueClient.faultyHandler fails)
        (0, server) =
      if Sees fails 0 server (nameKey .user request.username) then
        if request.parentId = [] then
          (WarbleService.storeWarble platform request tv).run (KeyValueClient.faultyHandler fails)
            (1, server)
        else if Sees fails 1 server request.parentId then
          (WarbleService.storeWarble platform request tv).run (KeyValueClient.faultyHandler fails)
            (2, server)
        else ((⟨.notFound, "Parent id does not exist in database."⟩, ⟨none⟩), 2, server)
      else ((⟨.notFound, "User does not exist in database"⟩, ⟨none⟩), 1, server) := by
  simp only [WarbleService.warbleMethod, Program.perform_bind, Program.run_call, ne_eq,
    List.length_eq_zero_iff, faultyHandler_get]
  rw [show str "user_" ++ request.username = nameKey .user request.username from rfl]
  by_cases user : Sees fails 0 server (nameKey .user request.username)
  · simp only [if_pos user]
    by_cases root : request.parentId = []
    · simp only [if_pos root, if_neg (not_not.mpr root)]
    · simp only [if_neg root, if_pos root, Program.run_call, faultyHandler_get]
      split_ifs with parent
      · rfl
      · rfl
  · simp only [if_neg user]
    rfl

theorem follow_failing_run (request : FollowRequest) :
    (WarbleService.follow request).run (KeyValueClient.faultyHandler fails) (0, server) =
      if Sees fails 0 server (nameKey .user request.username) ∧
          Sees fails 1 server (nameKey .user request.toFollow) then
        if request.username = request.toFollow then
          ((⟨.notFound, "Users cannot follow themselves."⟩, {}), 2, server)
        else ((Status.OK, {}), 4,
          afterTry fails 3 (afterTry fails 2 server (nameKey .following request.username)
            request.toFollow) (nameKey .followedBy request.toFollow) request.username)
      else ((⟨.notFound, "User or User_to_follow does not exist in database"⟩, {}), 2, server) := by
  have absent : ∀ {P : Prop} [Decidable P] {values : List Bytes},
      (if P then some values else none) = none ↔ ¬ P := by
    intro P _ values
    split_ifs with held <;> simp [held]
  simp only [WarbleService.follow, Program.perform_bind, Program.run_call, faultyHandler_get,
    absent]
  rw [show str "user_" ++ request.username = nameKey .user request.username from rfl,
    show str "user_" ++ request.toFollow = nameKey .user request.toFollow from rfl]
  by_cases users : Sees fails 0 server (nameKey .user request.username) ∧
      Sees fails 1 server (nameKey .user request.toFollow)
  · rw [if_pos users, if_neg (by simpa [not_or] using users)]
    split_ifs with own
    · rfl
    · simp only [Program.pure_eq, Program.run_call, Program.run_ret, faultyHandler_put_snd]
      rfl
  · rw [if_neg users, if_pos (by rwa [← not_and_or])]
    rfl

private theorem allOrNothing_iff {τ : Type} {q : ClientProgram τ} {f : τ → WarbleResult}
    {call : WarbleCall}
    (program : call.program platform = q >>= fun value => .ret (.inr (f value))) :
    AllOrNothing platform fails call server ↔
      let ran := q.run (KeyValueClient.faultyHandler fails) (0, server)
      let clean := q.run KeyValueClient.handler server
      ((f ran.1).1 = (f clean.1).1 ∧ ran.2.2.storage = clean.2.storage) ∨
        ((f ran.1).1.isOk = false ∧ ran.2.2.storage = server.storage) := by
  simp only [AllOrNothing, ServesFailing, Serves, program, Program.outcome_bind_inr]
  constructor
  · rintro ⟨_, server', ⟨count, rfl, ended⟩, met⟩
    rw [ended]
    rcases met with ⟨_, cleanServer, ⟨rfl, rfl⟩, status, storage⟩ | refused
    · exact .inl ⟨status, storage⟩
    · exact .inr refused
  · intro met
    refine ⟨_, _, ⟨_, rfl, rfl⟩, met.imp_left fun same => ?_⟩
    exact ⟨_, _, ⟨rfl, rfl⟩, same⟩

theorem afterTry_storage (count : ℕ) (key val : Bytes) :
    (afterTry fails count server key val).storage =
      if fails count then server.storage else server.storage.pushBack key val := by
  rw [afterTry]
  split_ifs
  · rfl
  · exact KeyValueClient.handler_put_storage key val server

/-- A single `Put` went through exactly when its RPC did not fail. -/
theorem afterTry_storage_eq_iff (count : ℕ) (key val : Bytes) :
    (afterTry fails count server key val).storage = server.storage.pushBack key val ↔
      fails count = false := by
  rw [afterTry_storage]
  split_ifs with failed
  · simp [failed, (Storage.pushBack_ne_self server.storage key val).symm]
  · simp [failed]

private theorem registerUser_iff (request : RegisteruserRequest) :
    AllOrNothing platform fails (.registerUser request) server ↔
      if Found server (nameKey .user request.username) then fails 0 = false
      else fails 1 = false := by
  rw [allOrNothing_iff rfl, registerUser_failing_run, registerUser_run]
  split_ifs with sees found found
  · simp [sees.1]
  · exact absurd sees.2 found
  · have failed : fails 0 = true := by simpa [Sees, found] using sees
    simp [failed, Status.OK, Status.isOk]
  · simp only [KeyValueClient.handler_put_storage, afterTry_storage_eq_iff, true_and,
      Status.isOk_OK, Bool.true_eq_false, false_and, or_false]

private theorem warble_iff (request : WarbleRequest) (tv : Timestamp) :
    AllOrNothing platform fails (.warble request tv) server ↔
      (Found server (nameKey .user request.username) → fails 0 = false →
        if request.parentId = [] then fails 1 = false
        else Found server request.parentId → fails 1 = false → fails 2 = false) := by
  have clean : (WarbleService.storeWarble platform request tv).run KeyValueClient.handler server =
      ((Status.OK, ⟨some (WarbleService.newWarble platform request tv)⟩),
        afterPut server (WarbleService.newWarble platform request tv).id
          (platform.serializeToString (WarbleService.newWarble platform request tv))) := rfl
  rw [allOrNothing_iff rfl, warbleMethod_failing_run, warbleMethod_run]
  by_cases user : Sees fails 0 server (nameKey .user request.username)
  · rw [if_pos user, if_neg (not_not.mpr user.2)]
    simp only [user.1, user.2, forall_const]
    split_ifs with root missing parent missing missing
    · exact absurd root missing.1
    · rw [storeWarble_failing_run, clean]
      simp [afterTry_storage_eq_iff]
    · exact absurd parent.2 missing.2
    · rw [storeWarble_failing_run, clean]
      simp [afterTry_storage_eq_iff, parent.1, parent.2]
    · exact iff_of_true (.inr ⟨rfl, rfl⟩) fun found => absurd found missing.2
    · exact iff_of_true (.inr ⟨rfl, rfl⟩) fun found passed => absurd ⟨passed, found⟩ parent
  · rw [if_neg user]
    exact iff_of_true (.inr ⟨rfl, rfl⟩) fun found passed => absurd ⟨passed, found⟩ user

private theorem afterTry_both_iff {first second : Bytes} (other : first ≠ second)
    (val val' : Bytes) :
    (afterTry fails 3 (afterTry fails 2 server first val) second val').storage =
      (server.storage.pushBack first val).pushBack second val' ↔
        fails 2 = false ∧ fails 3 = false := by
  rw [afterTry_storage, afterTry_storage]
  constructor
  · intro same
    have atFirst := congrArg (fun storage => (storage.get first).length) same
    have atSecond := congrArg (fun storage => (storage.get second).length) same
    cases failed : fails 2 <;> cases failed' : fails 3 <;>
      simp [failed, failed', Storage.get_pushBack_of_ne _ _ other,
        Storage.get_pushBack_of_ne _ _ other.symm] at atFirst atSecond ⊢
  · rintro ⟨passed, passed'⟩
    simp [passed, passed']

private theorem follow_iff (request : FollowRequest) :
    AllOrNothing platform fails (.follow request) server ↔
      (Found server (nameKey .user request.username) →
        Found server (nameKey .user request.toFollow) → request.username ≠ request.toFollow →
          fails 0 = false → fails 1 = false → fails 2 = false ∧ fails 3 = false) := by
  have other : nameKey .following request.username ≠ nameKey .followedBy request.toFollow :=
    nameKey_ne (by decide)
  rw [allOrNothing_iff rfl, follow_failing_run, follow_run]
  by_cases users : Sees fails 0 server (nameKey .user request.username) ∧
      Sees fails 1 server (nameKey .user request.toFollow)
  · obtain ⟨⟨passed, user⟩, passed', toFollow⟩ := users
    have found : ¬ (¬ Found server (nameKey .user request.username) ∨
        ¬ Found server (nameKey .user request.toFollow)) := by
      rintro (missing | missing)
      · exact missing user
      · exact missing toFollow
    rw [if_pos ⟨⟨passed, user⟩, passed', toFollow⟩, if_neg found]
    rcases eq_or_ne request.username request.toFollow with own | own
    · rw [if_pos own, if_pos own]
      exact iff_of_true (.inr ⟨rfl, rfl⟩) fun _ _ different => absurd own different
    · rw [if_neg own, if_neg own]
      simp [passed, passed', user, toFollow, own, afterTry_both_iff other]
  · rw [if_neg users]
    exact iff_of_true (.inr ⟨rfl, rfl⟩) fun user toFollow _ passed passed' =>
      absurd ⟨⟨passed, user⟩, passed', toFollow⟩ users

/-- All or nothing, for every pattern of failing RPCs and every store: a registration exactly when
the lookup of a registered user, or the `Put` of a new one, does not fail; a post and a `Follow`
exactly when no `Put` fails that the lookups before it lead to. -/
theorem all_or_nothing_iff (platform : Platform) (fails : ℕ → Bool) (server : KeyValueStoreImpl) :
    (∀ request, AllOrNothing platform fails (.registerUser request) server ↔
      if Found server (nameKey .user request.username) then fails 0 = false
      else fails 1 = false) ∧
    (∀ request tv, AllOrNothing platform fails (.warble request tv) server ↔
      (Found server (nameKey .user request.username) → fails 0 = false →
        if request.parentId = [] then fails 1 = false
        else Found server request.parentId → fails 1 = false → fails 2 = false)) ∧
    ∀ request, AllOrNothing platform fails (.follow request) server ↔
      (Found server (nameKey .user request.username) →
        Found server (nameKey .user request.toFollow) → request.username ≠ request.toFollow →
          fails 0 = false → fails 1 = false → fails 2 = false ∧ fails 3 = false) :=
  ⟨registerUser_iff, warble_iff, follow_iff⟩

/-- A registration whose `Put` fails returns OK, and a user whose lookup fails is registered
again. -/
theorem all_or_nothing_fails :
    ¬ AllOrNothing protobufPlatform (fun count => count = 1) (.registerUser ⟨str "a"⟩)
        ⟨∅, [], false, none⟩ ∧
      ¬ AllOrNothing protobufPlatform (fun count => count = 0) (.registerUser ⟨str "a"⟩)
        (afterPut ⟨∅, [], false, none⟩ (nameKey .user (str "a")) (str "a")) := by
  rw [registerUser_iff, registerUser_iff]
  decide

end FuncWarble.Proofs
