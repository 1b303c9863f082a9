import Mathlib
import FuncWarble.Proofs.SocialGraph

/-! # Repeated follows

`Follow` appends to two lists and never looks whether the name is there, and `Profile` returns the
lists as they are. A name is therefore listed as often as its `Follow` has succeeded, and one more
`Follow` shows in exactly two places of the profiles.
-/

namespace FuncWarble.Proofs

open Text Model

variable {platform : Platform} {past : List Exchange} {server server' : KeyValueStoreImpl}

/-- A successful `Follow` of one user by another. -/
def Exchange.follows (username toFollow : Bytes) (exchange : Exchange) : Bool :=
  exchange.call = .follow ⟨username, toFollow⟩ ∧ exchange.status = Status.OK

/-- How often `Follow` of the second user by the first has succeeded. -/
def followCount (past : List Exchange) (username toFollow : Bytes) : ℕ :=
  past.countP (Exchange.follows username toFollow)

private theorem followedBy_eq_some_iff (exchange : Exchange) (username other : Bytes) :
    exchange.followedBy username = some other ↔ exchange.follows username other := by
  obtain ⟨call, status, answer⟩ := exchange
  cases call with
  | follow request =>
    obtain ⟨name, toFollow⟩ := request
    simp only [Exchange.followedBy, Exchange.follows, Option.ite_none_right_eq_some,
      Option.some.injEq, decide_eq_true_eq, WarbleCall.follow.injEq, FollowRequest.mk.injEq]
    constructor
    · rintro ⟨⟨ok, own⟩, same⟩
      exact ⟨⟨own, same⟩, ok⟩
    · rintro ⟨⟨own, same⟩, ok⟩
      exact ⟨⟨ok, own⟩, same⟩
  | registerUser request | warble request tv | read request | profile request =>
    simp [Exchange.followedBy, Exchange.follows]

private theorem followerOf_eq_some_iff (exchange : Exchange) (username other : Bytes) :
    exchange.followerOf username = some other ↔ exchange.follows other username := by
  obtain ⟨call, status, answer⟩ := exchange
  cases call with
  | follow request =>
    obtain ⟨name, toFollow⟩ := request
    simp only [Exchange.followerOf, Exchange.follows, Option.ite_none_right_eq_some,
      Option.some.injEq, decide_eq_true_eq, WarbleCall.follow.injEq, FollowRequest.mk.injEq]
    constructor
    · rintro ⟨⟨ok, own⟩, same⟩
      exact ⟨⟨same, own⟩, ok⟩
    · rintro ⟨⟨same, own⟩, ok⟩
      exact ⟨⟨ok, own⟩, same⟩
  | registerUser request | warble request tv | read request | profile request =>
    simp [Exchange.followerOf, Exchange.follows]

/-- A user is followed as often as this has succeeded. -/
theorem count_followingOf (past : List Exchange) (username other : Bytes) :
    (followingOf past username).count other = followCount past username other := by
  rw [followingOf, List.count_filterMap, followCount]
  refine List.countP_congr fun exchange _ => ?_
  rw [beq_iff_eq, followedBy_eq_some_iff]

theorem count_followersOf (past : List Exchange) (username other : Bytes) :
    (followersOf past username).count other = followCount past other username := by
  rw [followersOf, List.count_filterMap, followCount]
  refine List.countP_congr fun exchange _ => ?_
  rw [beq_iff_eq, followerOf_eq_some_iff]

/-- `Profile` of a user who has joined returns the lists of the history. -/
theorem Run.serves_profile_joined (run : Run platform past server) {username : Bytes}
    (joined : Joined past username) : Serves platform (.profile ⟨username⟩) server
      (Status.OK, .profile
        { following := followingOf past username
          followers := followersOf past username }) server := by
  have user := (run.found_user_iff username).mpr joined
  rw [serves_profile, profile_run, if_pos user, run.get_following, run.get_followedBy]
  exact ⟨rfl, rfl⟩

theorem Joined.concat {username : Bytes} (joined : Joined past username) (exchange : Exchange) :
    Joined (past ++ [exchange]) username := by
  obtain ⟨earlier, member, registered⟩ := joined
  exact ⟨earlier, List.mem_append_left _ member, registered⟩

theorem followingOf_follow (past : List Exchange) (follow : FollowRequest) (answer : WarbleAnswer)
    (username : Bytes) : followingOf (past ++ [⟨.follow follow, Status.OK, answer⟩]) username =
      followingOf past username ++
        if follow.username = username then [follow.toFollow] else [] := by
  by_cases own : follow.username = username <;>
    simp [followingOf, Exchange.followedBy, own]

theorem followersOf_follow (past : List Exchange) (follow : FollowRequest) (answer : WarbleAnswer)
    (username : Bytes) : followersOf (past ++ [⟨.follow follow, Status.OK, answer⟩]) username =
      followersOf past username ++
        if follow.toFollow = username then [follow.username] else [] := by
  by_cases own : follow.toFollow = username <;>
    simp [followersOf, Exchange.followerOf, own]

/-- A profile lists every name as often as its `Follow` has succeeded, so it lists none twice
exactly when no `Follow` was repeated; and one more successful `Follow` adds one name to the
following of one user and one to the followers of the other, and changes nothing else. -/
theorem repeated_follows (run : Run platform past server) {username : Bytes}
    (joined : Joined past username) : ∃ reply,
      Serves platform (.profile ⟨username⟩) server (Status.OK, .profile reply) server ∧
      (∀ other, reply.following.count other = followCount past username other ∧
        reply.followers.count other = followCount past other username) ∧
      (reply.following.Nodup ↔ ∀ other, followCount past username other ≤ 1) ∧
      (reply.followers.Nodup ↔ ∀ other, followCount past other username ≤ 1) ∧
      ∀ follow answer server',
        Serves platform (.follow follow) server (Status.OK, answer) server' →
        Serves platform (.profile ⟨username⟩) server' (Status.OK, .profile
          { following := reply.following ++
              if follow.username = username then [follow.toFollow] else []
            followers := reply.followers ++
              if follow.toFollow = username then [follow.username] else [] }) server' := by
  refine ⟨_, run.serves_profile_joined joined, fun other => ⟨?_, ?_⟩, ?_, ?_, ?_⟩
  · exact count_followingOf past username other
  · exact count_followersOf past username other
  · simp only [List.nodup_iff_count_le_one, count_followingOf]
  · simp only [List.nodup_iff_count_le_one, count_followersOf]
  · intro follow answer server' served
    have shown := (run.serve served).serves_profile_joined (joined.concat _)
    rwa [followingOf_follow, followersOf_follow] at shown

/-- The history of two users, one of whom follows the other twice. -/
def followedTwice : List Exchange :=
  [⟨.registerUser ⟨str "a"⟩, Status.OK, .registerUser {}⟩,
    ⟨.registerUser ⟨str "b"⟩, Status.OK, .registerUser {}⟩,
    ⟨.follow ⟨str "a", str "b"⟩, Status.OK, .follow {}⟩,
    ⟨.follow ⟨str "a", str "b"⟩, Status.OK, .follow {}⟩]

private theorem run_followedTwice : ∃ server, Run protobufPlatform followedTwice server := by
  let calls : List WarbleCall := [.registerUser ⟨str "a"⟩, .registerUser ⟨str "b"⟩,
    .follow ⟨str "a", str "b"⟩, .follow ⟨str "a", str "b"⟩]
  have served : (serveAll protobufPlatform 0 calls [] ⟨∅, [], false, none⟩).map Prod.fst =
      some followedTwice := by decide
  exact exists_run_of_serveAll served

private theorem joined_followedTwice : Joined followedTwice (str "a") :=
  ⟨_, List.mem_cons_self, rfl, rfl⟩

theorem repeated_follows_example : ∃ server, Run protobufPlatform followedTwice server ∧ ∃ reply,
    Serves protobufPlatform (.profile ⟨str "a"⟩) server (Status.OK, .profile reply) server ∧
      (∀ other, reply.following.count other = followCount followedTwice (str "a") other ∧
        reply.followers.count other = followCount followedTwice other (str "a")) ∧
      (reply.following.Nodup ↔ ∀ other, followCount followedTwice (str "a") other ≤ 1) ∧
      (reply.followers.Nodup ↔ ∀ other, followCount followedTwice other (str "a") ≤ 1) ∧
      ∀ follow answer server',
        Serves protobufPlatform (.follow follow) server (Status.OK, answer) server' →
        Serves protobufPlatform (.profile ⟨str "a"⟩) server' (Status.OK, .profile
          { following := reply.following ++
              if follow.username = str "a" then [follow.toFollow] else []
            followers := reply.followers ++
              if follow.toFollow = str "a" then [follow.username] else [] }) server' := by
  obtain ⟨server, run⟩ := run_followedTwice
  exact ⟨server, run, repeated_follows run joined_followedTwice⟩

/-- After two successful follows the profile lists the user twice. -/
theorem repeated_follows_fails : ¬ ∀ (platform : Platform) (past : List Exchange)
    (server : KeyValueStoreImpl), Run platform past server → ∀ username reply,
    Serves platform (.profile ⟨username⟩) server (Status.OK, .profile reply) server →
    reply.following.Nodup ∧ reply.followers.Nodup := by
  intro claim
  obtain ⟨server, run⟩ := run_followedTwice
  have nodup := (claim _ _ server run _ _ (run.serves_profile_joined joined_followedTwice)).1
  revert nodup
  decide

end FuncWarble.Proofs
