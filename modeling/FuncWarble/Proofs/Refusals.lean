import Mathlib
import FuncWarble.Proofs.SequentialCalls

/-! # Refused calls

Every method checks first what its request names, and puts or reads nothing else before all its
checks have passed. A call that fails a check ends at once, with a status other than OK, an empty
reply and the store as it was; every other call that ends, ends with OK.
-/

namespace FuncWarble.Proofs

open Text Model Machine

variable {platform : Platform} {call : WarbleCall} {server server' : KeyValueStoreImpl}

/-- The call fails a check: it registers a user that is there, or it names a user or a warble that
is not there, or it lets a user follow itself. -/
def Refuses (server : KeyValueStoreImpl) : WarbleCall → Prop
  | .registerUser request => Found server (nameKey .user request.username)
  | .warble request _ => ¬ Found server (nameKey .user request.username) ∨
      request.parentId ≠ [] ∧ ¬ Found server request.parentId
  | .follow request => (¬ Found server (nameKey .user request.username) ∨
      ¬ Found server (nameKey .user request.toFollow)) ∨ request.username = request.toFollow
  | .read request => ¬ Found server (nameKey .user request.username) ∨
      ¬ Found server request.warbleId
  | .profile request => ¬ Found server (nameKey .user request.username)

instance : DecidablePred (Refuses server) := fun
  | .registerUser _ => inferInstanceAs (Decidable (Found _ _))
  | .warble _ _ => inferInstanceAs (Decidable (_ ∨ _))
  | .follow _ => inferInstanceAs (Decidable (_ ∨ _))
  | .read _ => inferInstanceAs (Decidable (_ ∨ _))
  | .profile _ => inferInstanceAs (Decidable (¬ _))

/-- A reply whose fields have not been set. -/
def emptyAnswer : WarbleCall → WarbleAnswer
  | .registerUser _ => .registerUser default
  | .warble _ _ => .warble default
  | .follow _ => .follow default
  | .read _ => .read default
  | .profile _ => .profile default

/-- A call that fails a check ends, and it has no effect. -/
theorem Refuses.serves (refused : Refuses server call) : ∃ status : Status,
    status.isOk = false ∧ Serves platform call server (status, emptyAnswer call) server := by
  cases call with
  | registerUser request =>
    refine ⟨⟨.alreadyExists, "Username already exists."⟩, rfl, ?_⟩
    have user : Found server (nameKey .user request.username) := refused
    rw [serves_registerUser, registerUser_run, if_pos user]
    exact ⟨rfl, rfl⟩
  | warble request tv =>
    by_cases user : Found server (nameKey .user request.username)
    · refine ⟨⟨.notFound, "Parent id does not exist in database."⟩, rfl, ?_⟩
      rw [serves_warble, warbleMethod_run, if_neg (not_not.mpr user),
        if_pos (refused.resolve_left (not_not.mpr user))]
      exact ⟨rfl, rfl⟩
    · refine ⟨⟨.notFound, "User does not exist in database"⟩, rfl, ?_⟩
      rw [serves_warble, warbleMethod_run, if_pos user]
      exact ⟨rfl, rfl⟩
  | follow request =>
    by_cases users : ¬ Found server (nameKey .user request.username) ∨
        ¬ Found server (nameKey .user request.toFollow)
    · refine ⟨⟨.notFound, "User or User_to_follow does not exist in database"⟩, rfl, ?_⟩
      rw [serves_follow, follow_run, if_pos users]
      exact ⟨rfl, rfl⟩
    · refine ⟨⟨.notFound, "Users cannot follow themselves."⟩, rfl, ?_⟩
      rw [serves_follow, follow_run, if_neg users, if_pos (refused.resolve_left users)]
      exact ⟨rfl, rfl⟩
  | read request =>
    by_cases user : Found server (nameKey .user request.username)
    · refine ⟨⟨.notFound, "Warble_id is not found."⟩, rfl, ?_⟩
      rw [serves_read, if_neg (not_not.mpr user),
        if_pos (refused.resolve_left (not_not.mpr user))]
      exact ⟨rfl, rfl⟩
    · refine ⟨⟨.notFound, "User does not exist in database"⟩, rfl, ?_⟩
      rw [serves_read, if_pos user]
      exact ⟨rfl, rfl⟩
  | profile request =>
    refine ⟨⟨.notFound, "User does not exist in database"⟩, rfl, ?_⟩
    rw [serves_profile, profile_run, if_neg refused]
    exact ⟨rfl, rfl⟩

/-- The loop of `Read` leaves with OK and the reply that it has collected. -/
theorem readLoop_ok {head : WarbleService.ReadLoop} {result : WarbleResult}
    (left : Loop.Yields (Program.turn KeyValueClient.handler (WarbleCall.body platform))
      (head, server) (result, server')) : ∃ reply, result = (Status.OK, .read reply) := by
  refine left.induct (fun _ => True) (fun ended => ∃ reply, ended.1 = (Status.OK, .read reply))
    trivial (fun _ _ _ _ => trivial) ?_
  rintro ⟨head, s⟩ ended - stepped
  rw [readBody_turn] at stepped
  split at stepped
  · contradiction
  · obtain rfl := Sum.inr.inj stepped
    exact ⟨head.reply, rfl⟩

/-- A call that passes its checks ends with OK, if it ends. -/
theorem ok_of_not_refuses {status : Status} {answer : WarbleAnswer}
    (accepted : ¬ Refuses server call)
    (served : Serves platform call server (status, answer) server') : status = Status.OK := by
  cases call with
  | registerUser request =>
    have user : ¬ Found server (nameKey .user request.username) := accepted
    rw [serves_registerUser, registerUser_run, if_neg user] at served
    exact (congrArg Prod.fst served.1).symm
  | warble request tv =>
    obtain ⟨user, parent⟩ := not_or.mp accepted
    rw [serves_warble, warbleMethod_run, if_neg user, if_neg parent] at served
    exact (congrArg Prod.fst served.1).symm
  | follow request =>
    obtain ⟨users, own⟩ := not_or.mp accepted
    rw [serves_follow, follow_run, if_neg users, if_neg own] at served
    exact (congrArg Prod.fst served.1).symm
  | read request =>
    obtain ⟨user, warble⟩ := not_or.mp accepted
    rw [serves_read, if_neg user, if_neg warble] at served
    obtain ⟨reply, same⟩ := readLoop_ok served
    exact congrArg Prod.fst same
  | profile request =>
    rw [serves_profile, profile_run, if_pos (not_not.mp accepted)] at served
    exact (congrArg Prod.fst served.1).symm

/-- The status of a call tells whether it has passed its checks. -/
theorem isOk_iff_not_refuses {status : Status} {answer : WarbleAnswer}
    (served : Serves platform call server (status, answer) server') :
    status.isOk = true ↔ ¬ Refuses server call := by
  constructor
  · intro ok refused
    obtain ⟨other, failed, same⟩ := @Refuses.serves platform _ _ refused
    obtain rfl := congrArg Prod.fst (Program.Outcome.unique served same).1
    rw [failed] at ok
    contradiction
  · intro accepted
    rw [ok_of_not_refuses accepted served]
    rfl

/-- A call that does not end with OK has an empty reply and no effect. -/
theorem unchanged_of_not_ok {status : Status} {answer : WarbleAnswer}
    (served : Serves platform call server (status, answer) server')
    (failed : status.isOk = false) : answer = emptyAnswer call ∧ server' = server := by
  have refused : Refuses server call := by
    by_contra accepted
    rw [(isOk_iff_not_refuses served).mpr accepted] at failed
    contradiction
  obtain ⟨other, _, same⟩ := @Refuses.serves platform _ _ refused
  obtain ⟨result, rfl⟩ := Program.Outcome.unique served same
  exact ⟨congrArg Prod.snd result, rfl⟩

end FuncWarble.Proofs
