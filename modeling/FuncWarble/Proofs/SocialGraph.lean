import Mathlib
import FuncWarble.Model.WarbleMessage
import FuncWarble.Proofs.SequentialCalls

/-! # The social graph

The purpose of registrations and follows, stated over the history of calls alone: who has joined,
whom a user follows and who follows a user. Every answer of the service is the one that the
history determines, although the data shares its store with warbles under arbitrary names.
-/

namespace FuncWarble.Proofs

open Text Model

/-- An earlier `RegisterUser` of the username returned OK. -/
def Joined (past : List Exchange) (username : Bytes) : Prop :=
  ∃ exchange ∈ past, exchange.call = .registerUser ⟨username⟩ ∧ exchange.status = Status.OK

namespace Exchange

/-- The user whom `username` starts to follow, if the exchange is such a successful `Follow`. -/
def followedBy (username : Bytes) (exchange : Exchange) : Option Bytes :=
  match exchange.call with
  | .follow request =>
    if exchange.status = Status.OK ∧ request.username = username then some request.toFollow
    else none
  | _ => none

/-- The user who starts to follow `username`. -/
def followerOf (username : Bytes) (exchange : Exchange) : Option Bytes :=
  match exchange.call with
  | .follow request =>
    if exchange.status = Status.OK ∧ request.toFollow = username then some request.username
    else none
  | _ => none

end Exchange

def followingOf (past : List Exchange) (username : Bytes) : List Bytes :=
  past.filterMap (Exchange.followedBy username)

def followersOf (past : List Exchange) (username : Bytes) : List Bytes :=
  past.filterMap (Exchange.followerOf username)

/-- What the graph says about one more call: its status, its answer and, for a refused `Follow`,
that nothing changes. -/
def Conforms (past : List Exchange) (server : KeyValueStoreImpl) (call : WarbleCall)
    (result : WarbleResult) (server' : KeyValueStoreImpl) : Prop :=
  match call with
  | .registerUser request =>
    (result.1.code = .alreadyExists ↔ Joined past request.username) ∧
      (¬ Joined past request.username → result.1 = Status.OK)
  | .follow request =>
    (result.1 = Status.OK ↔ Joined past request.username ∧ Joined past request.toFollow ∧
      request.username ≠ request.toFollow) ∧ (result.1 ≠ Status.OK → server' = server)
  | .profile request =>
    (result.1 = Status.OK ↔ Joined past request.username) ∧
      (result.1 = Status.OK → result.2 = .profile
        { following := followingOf past request.username
          followers := followersOf past request.username })
  | .warble _ _ => True
  | .read _ => True

private theorem nameIn_entries (exchange : Exchange) (username : Bytes) :
    exchange.entries.filterMap (Entry.nameIn .following username) =
        (exchange.followedBy username).toList ∧
      exchange.entries.filterMap (Entry.nameIn .followedBy username) =
        (exchange.followerOf username).toList := by
  obtain ⟨call, status, answer⟩ := exchange
  by_cases ok : status = Status.OK
  · cases call with
    | follow request =>
      constructor
      · by_cases same : request.username = username <;>
          simp [Exchange.entries, Exchange.followedBy, Entry.nameIn, ok, same]
      · by_cases same : request.toFollow = username <;>
          simp [Exchange.entries, Exchange.followerOf, Entry.nameIn, ok, same]
    | warble request tv =>
      simp only [Exchange.entries, ok, ↓reduceIte]
      split <;> simp_all [Exchange.followedBy, Exchange.followerOf, Entry.nameIn]
    | registerUser request | read request | profile request =>
      simp [Exchange.entries, Exchange.followedBy, Exchange.followerOf, Entry.nameIn, ok]
  · cases call <;> simp [Exchange.entries, Exchange.followedBy, Exchange.followerOf, ok]

theorem filterMap_entriesOf {α : Type} {g : Entry → Option α} {f : Exchange → Option α}
    (each : ∀ exchange : Exchange, exchange.entries.filterMap g = (f exchange).toList)
    (past : List Exchange) : (entriesOf past).filterMap g = past.filterMap f := by
  induction past with
  | nil => rfl
  | cons exchange past ih =>
    rw [entriesOf, List.flatMap_cons, List.filterMap_append, each, ← entriesOf, ih]
    cases same : f exchange <;> simp [same]

variable {platform : Platform} {past : List Exchange} {server server' : KeyValueStoreImpl}

theorem Run.found_user_iff (run : Run platform past server) (username : Bytes) :
    Found server (nameKey .user username) ↔ Joined past username := by
  have held := run.holdsEntries
  rw [held.found_iff, ← Registered, held.typed.registered_iff, entriesOf, List.mem_flatMap]
  refine exists_congr fun exchange => and_congr_right fun _ => ?_
  obtain ⟨call, status, answer⟩ := exchange
  by_cases ok : status = Status.OK
  · cases call with
    | registerUser request =>
      obtain ⟨name⟩ := request
      simp [Exchange.entries, ok, eq_comm]
    | warble request tv =>
      simp only [Exchange.entries, ok, ↓reduceIte]
      split <;> simp_all
    | follow request | read request | profile request => simp [Exchange.entries, ok]
  · simp [Exchange.entries, ok]

theorem Run.get_following (run : Run platform past server) (username : Bytes) :
    server.storage.get (nameKey .following username) = followingOf past username := by
  have held := run.holdsEntries
  rw [held.store, held.typed.get_nameKey]
  exact filterMap_entriesOf (fun exchange => (nameIn_entries exchange username).1) past

theorem Run.get_followedBy (run : Run platform past server) (username : Bytes) :
    server.storage.get (nameKey .followedBy username) = followersOf past username := by
  have held := run.holdsEntries
  rw [held.store, held.typed.get_nameKey]
  exact filterMap_entriesOf (fun exchange => (nameIn_entries exchange username).2) past

/-- Whatever a call returns conforms to the graph of the history. -/
theorem Run.conforms (run : Run platform past server) {call : WarbleCall} {result : WarbleResult}
    (served : Serves platform call server result server') :
    Conforms past server call result server' := by
  cases call with
  | registerUser request =>
    obtain ⟨rfl, rfl⟩ := serves_registerUser.mp served
    rw [Conforms, ← run.found_user_iff, registerUser_run]
    split_ifs with user <;> simp [user, Status.OK]
  | follow request =>
    obtain ⟨rfl, rfl⟩ := serves_follow.mp served
    rw [Conforms, ← run.found_user_iff, ← run.found_user_iff, follow_run]
    split_ifs with users own
    · simp only [Status.OK, Status.mk.injEq, reduceCtorEq, false_and, false_iff, ne_eq,
        not_false_eq_true, implies_true, and_true]
      rintro ⟨user, toFollow, _⟩
      exact users.elim (· user) (· toFollow)
    · simp [Status.OK, own]
    · obtain ⟨user, toFollow⟩ := not_or.mp users
      simp [not_not.mp user, not_not.mp toFollow, own]
  | profile request =>
    obtain ⟨rfl, rfl⟩ := serves_profile.mp served
    rw [Conforms, ← run.found_user_iff, profile_run, ← run.get_following, ← run.get_followedBy]
    split_ifs with user <;> simp [user, Status.OK]
  | warble request tv => trivial
  | read request => trivial

/-- Every call but `Read` ends. -/
theorem serves_of_not_read {call : WarbleCall} (notRead : ∀ request, call ≠ .read request) :
    ∃ result server', Serves platform call server result server' := by
  cases call with
  | registerUser request => exact ⟨_, _, serves_registerUser.mpr ⟨rfl, rfl⟩⟩
  | warble request tv => exact ⟨_, _, serves_warble.mpr ⟨rfl, rfl⟩⟩
  | follow request => exact ⟨_, _, serves_follow.mpr ⟨rfl, rfl⟩⟩
  | profile request => exact ⟨_, _, serves_profile.mpr ⟨rfl, rfl⟩⟩
  | read request => exact absurd rfl (notRead request)

/-- Social-graph refinement. After every history, every call other than `Read` returns, and
whatever a call returns is what the history of registrations and follows determines. -/
theorem social_graph (run : Run platform past server) (call : WarbleCall) :
    ((∀ request, call ≠ .read request) →
      ∃ result server', Serves platform call server result server') ∧
    ∀ result server', Serves platform call server result server' →
      Conforms past server call result server' :=
  ⟨serves_of_not_read, fun _ _ => run.conforms⟩

/-- The user "user_a" does not get in the way of the user "a". -/
theorem social_graph_example : ∃ server,
    Run protobufPlatform
      [⟨.registerUser ⟨str "a"⟩, Status.OK, .registerUser {}⟩,
        ⟨.registerUser ⟨str "user_a"⟩, Status.OK, .registerUser {}⟩,
        ⟨.follow ⟨str "a", str "user_a"⟩, Status.OK, .follow {}⟩] server ∧
      ((∀ request, WarbleCall.profile ⟨str "a"⟩ ≠ .read request) → ∃ result server',
        Serves protobufPlatform (.profile ⟨str "a"⟩) server result server') ∧
      ∀ result server', Serves protobufPlatform (.profile ⟨str "a"⟩) server result server' →
        Conforms
          [⟨.registerUser ⟨str "a"⟩, Status.OK, .registerUser {}⟩,
            ⟨.registerUser ⟨str "user_a"⟩, Status.OK, .registerUser {}⟩,
            ⟨.follow ⟨str "a", str "user_a"⟩, Status.OK, .follow {}⟩]
          server (.profile ⟨str "a"⟩) result server' := by
  let calls : List WarbleCall := [.registerUser ⟨str "a"⟩, .registerUser ⟨str "user_a"⟩,
    .follow ⟨str "a", str "user_a"⟩]
  have served : (serveAll protobufPlatform 0 calls [] ⟨∅, [], false, none⟩).map Prod.fst =
      some [⟨.registerUser ⟨str "a"⟩, Status.OK, .registerUser {}⟩,
        ⟨.registerUser ⟨str "user_a"⟩, Status.OK, .registerUser {}⟩,
        ⟨.follow ⟨str "a", str "user_a"⟩, Status.OK, .follow {}⟩] := by decide
  obtain ⟨server, run⟩ := exists_run_of_serveAll served
  exact ⟨server, run, social_graph run _⟩

end FuncWarble.Proofs
