import Mathlib
import FuncWarble.Proofs.SocialGraph
import FuncWarble.Proofs.ThreadOrder

/-! # The parents of warbles

`WarbleMethod` accepts a parent that exists as a key, and not only keys of warbles exist. The
parents of the posted warbles are posted warbles exactly as long as no registered user replies to
a key that holds usernames.
-/

namespace FuncWarble.Proofs

open Text Model Machine

variable {platform : Platform} {past : List Exchange} {server server' : KeyValueStoreImpl}

def PostedId (past : List Exchange) (id : Bytes) : Prop :=
  ∃ warble, Posted past warble ∧ warble.id = id

/-- The key holds usernames: registrations or follows have been stored under it. -/
def HoldsNames (past : List Exchange) (key : Bytes) : Prop :=
  IsNameKey key ∧ Present (entriesOf past) key

/-- Every posted warble replies to nothing or to a warble posted before it. -/
def ParentsPosted (past : List Exchange) : Prop :=
  ∀ before exchange after, past = before ++ exchange :: after →
    ∀ warble, Posted [exchange] warble → warble.parentId = [] ∨ PostedId before warble.parentId

/-- The call is not a reply of a registered user to a key that holds usernames. -/
def ProperReply (before : List Exchange) : WarbleCall → Prop
  | .warble request _ => Joined before request.username → ¬ HoldsNames before request.parentId
  | _ => True

/-- The post is refused and leaves the server as it was. -/
def Refused (platform : Platform) (server : KeyValueStoreImpl) (request : WarbleRequest)
    (tv : Timestamp) : Prop :=
  ∃ reason, Serves platform (.warble request tv) server (⟨.notFound, reason⟩, .warble ⟨none⟩) server

theorem PostedId.not_isNameKey (run : Run platform past server) {id : Bytes}
    (posted : PostedId past id) : ¬ IsNameKey id := by
  obtain ⟨warble, posted, rfl⟩ := posted
  exact run.holdsEntries.typed.warble_id_not_isNameKey (posted_iff.mp posted)

/-- A key is found when it holds usernames or when a warble was posted under it. -/
theorem Run.found_iff (run : Run platform past server) (key : Bytes) :
    Found server key ↔ HoldsNames past key ∨ PostedId past key := by
  rw [run.holdsEntries.found_iff]
  constructor
  · rintro ⟨entry, member, rfl⟩
    cases entry with
    | name kind owner value => exact .inl ⟨⟨kind, owner, rfl⟩, _, member, rfl⟩
    | warble warble => exact .inr ⟨warble, posted_iff.mpr member, rfl⟩
  · rintro (⟨_, present⟩ | ⟨warble, posted, rfl⟩)
    · exact present
    · exact ⟨.warble warble, posted_iff.mp posted, rfl⟩

/-- A post whose user and parent are found is accepted. -/
theorem serves_accepted {request : WarbleRequest} {tv : Timestamp}
    (user : Found server (nameKey .user request.username))
    (parent : request.parentId ≠ [] → Found server request.parentId) {result : WarbleResult} :
    Serves platform (.warble request tv) server result server' →
      result = (Status.OK, .warble ⟨some (WarbleService.newWarble platform request tv)⟩) := by
  intro served
  obtain ⟨rfl, _⟩ := serves_warble.mp served
  rw [warbleMethod_run, if_neg (not_not.mpr user), if_neg (fun held => held.2 (parent held.1))]
  rfl

theorem refused_iff {request : WarbleRequest} {tv : Timestamp} :
    Refused platform server request tv ↔ ¬ Found server (nameKey .user request.username) ∨
      request.parentId ≠ [] ∧ ¬ Found server request.parentId := by
  constructor
  · rintro ⟨reason, served⟩
    by_contra found
    obtain ⟨user, parent⟩ := not_or.mp found
    have accepted := serves_accepted (not_not.mp user)
      (fun nonempty => by_contra fun missing => parent ⟨nonempty, missing⟩) served
    exact nomatch congrArg (fun result : WarbleResult => result.1.code) accepted
  · intro missing
    simp only [Refused, serves_warble, warbleMethod_run]
    split_ifs with user parent
    · exact ⟨_, rfl, rfl⟩
    · exact absurd missing (not_or.mpr ⟨not_not.mpr user, parent⟩)
    · exact ⟨_, rfl, rfl⟩

/-- What a post returns when it is accepted. -/
theorem posted_of_serves {exchange : Exchange} {warble : Warble}
    (served : Serves platform exchange.call server (exchange.status, exchange.answer) server')
    (posted : Posted [exchange] warble) : ∃ request tv, exchange.call = .warble request tv ∧
      warble = WarbleService.newWarble platform request tv ∧
      Found server (nameKey .user request.username) ∧
      (request.parentId ≠ [] → Found server request.parentId) := by
  obtain ⟨_, member, ⟨request, tv, isWarble⟩, ok, answered⟩ := posted
  obtain rfl := List.mem_singleton.mp member
  rw [isWarble, ok, answered] at served
  have notRefused : ¬ Refused platform server request tv := by
    rintro ⟨reason, refused⟩
    have same := Program.Outcome.unique served refused
    exact nomatch congrArg (fun result : WarbleResult => result.1.code) same.1
  rw [refused_iff, not_or, not_not] at notRefused
  obtain ⟨user, parent⟩ := notRefused
  have parent : request.parentId ≠ [] → Found server request.parentId :=
    fun nonempty => by_contra fun missing => parent ⟨nonempty, missing⟩
  have same := congrArg Prod.snd (serves_accepted user parent served)
  exact ⟨request, tv, isWarble, by simpa using same, user, parent⟩

/-- The parents of a history are posted warbles exactly when no registered user has replied to a
key that holds usernames. -/
theorem Run.parentsPosted_iff (run : Run platform past server) :
    ParentsPosted past ↔ ∀ before exchange after, past = before ++ exchange :: after →
      ProperReply before exchange.call := by
  constructor
  · intro integrity before exchange after split
    obtain ⟨server₁, server₂, earlier, served⟩ := run.split split
    cases isCall : exchange.call with
    | warble request tv =>
      intro joined names
      rw [isCall] at served
      have user := (earlier.found_user_iff request.username).mpr joined
      have parent := (earlier.found_iff request.parentId).mpr (.inl names)
      obtain ⟨status, answer⟩ := Prod.mk.inj (serves_accepted user (fun _ => parent) served)
      have posted : Posted [exchange] (WarbleService.newWarble platform request tv) :=
        ⟨exchange, List.mem_singleton_self _, ⟨request, tv, isCall⟩, status, answer⟩
      obtain ⟨kind, owner, isName⟩ := names.1
      rcases integrity before exchange after split _ posted with empty | known
      · exact nameKey_ne_nil kind owner (isName.symm.trans empty)
      · exact known.not_isNameKey earlier names.1
    | _ => trivial
  · intro clean before exchange after split warble posted
    obtain ⟨server₁, server₂, earlier, served⟩ := run.split split
    obtain ⟨request, tv, isCall, rfl, user, parent⟩ := posted_of_serves served posted
    have proper := clean before exchange after split
    rw [isCall] at proper
    refine or_iff_not_imp_left.mpr fun nonempty => ?_
    have names := proper ((earlier.found_user_iff request.username).mp user)
    exact ((earlier.found_iff request.parentId).mp (parent nonempty)).resolve_left names

/-- A reply to what was not posted is refused exactly when it is no reply of a registered user to
a key that holds usernames. -/
theorem Run.refused_iff_properReply (run : Run platform past server) (request : WarbleRequest)
    (tv : Timestamp) :
    (request.parentId ≠ [] → ¬ PostedId past request.parentId →
        Refused platform server request tv) ↔ ProperReply past (.warble request tv) := by
  rw [refused_iff, run.found_iff request.parentId, run.found_user_iff, ProperReply]
  constructor
  · intro refuses joined names
    obtain ⟨kind, owner, isName⟩ := names.1
    have nonempty : request.parentId ≠ [] := fun empty =>
      nameKey_ne_nil kind owner (isName.symm.trans empty)
    rcases refuses nonempty (fun known => known.not_isNameKey run names.1) with user | parent
    · exact user joined
    · exact parent.2 (.inl names)
  · intro proper nonempty unknown
    by_cases joined : Joined past request.username
    · exact .inr ⟨nonempty, not_or.mpr ⟨proper joined, unknown⟩⟩
    · exact .inl joined

/-- Reply referential integrity. In every reachable state the parents of the posted warbles are
posted warbles, and replies to anything else are refused without effect, exactly as far as no
registered user has replied, or replies next, to a key that holds usernames. -/
theorem reply_integrity (run : Run platform past server) :
    (ParentsPosted past ↔ ∀ before exchange after, past = before ++ exchange :: after →
      ProperReply before exchange.call) ∧
    ∀ request tv, (request.parentId ≠ [] → ¬ PostedId past request.parentId →
        Refused platform server request tv) ↔ ProperReply past (.warble request tv) :=
  ⟨run.parentsPosted_iff, run.refused_iff_properReply⟩

def joinedRoot : Warble :=
  WarbleService.newWarble protobufPlatform ⟨str "a", str "hi", []⟩ ⟨0, 0⟩

def joinedReply : Warble :=
  WarbleService.newWarble protobufPlatform ⟨str "a", str "ho", joinedRoot.id⟩ ⟨0, 1⟩

/-- "a" posts a warble and replies to it, a reply to an id that nobody has got is refused, and so is
the reply of a stranger. -/
def repliesHistory : List Exchange :=
  [⟨.registerUser ⟨str "a"⟩, Status.OK, .registerUser {}⟩,
    ⟨.warble ⟨str "a", str "hi", []⟩ ⟨0, 0⟩, Status.OK, .warble ⟨some joinedRoot⟩⟩,
    ⟨.warble ⟨str "a", str "ho", joinedRoot.id⟩ ⟨0, 1⟩, Status.OK, .warble ⟨some joinedReply⟩⟩,
    ⟨.warble ⟨str "a", str "no", str "1"⟩ ⟨0, 2⟩,
      ⟨.notFound, "Parent id does not exist in database."⟩, .warble ⟨none⟩⟩,
    ⟨.warble ⟨str "b", str "no", joinedRoot.id⟩ ⟨0, 3⟩,
      ⟨.notFound, "User does not exist in database"⟩, .warble ⟨none⟩⟩]

theorem reply_integrity_example : ∃ server, Run protobufPlatform repliesHistory server ∧
    (ParentsPosted repliesHistory ↔ ∀ before exchange after,
      repliesHistory = before ++ exchange :: after → ProperReply before exchange.call) ∧
    ∀ request tv, (request.parentId ≠ [] → ¬ PostedId repliesHistory request.parentId →
        Refused protobufPlatform server request tv) ↔
      ProperReply repliesHistory (.warble request tv) := by
  have served : (serveAll protobufPlatform 0 (repliesHistory.map Exchange.call) []
      ⟨∅, [], false, none⟩).map Prod.fst = some repliesHistory := by decide +kernel
  obtain ⟨server, run⟩ := exists_run_of_serveAll served
  exact ⟨server, run, reply_integrity run⟩

def joinedHistory : List Exchange := [⟨.registerUser ⟨str "a"⟩, Status.OK, .registerUser {}⟩]

private theorem joinedHistory_run : ∃ server, Run protobufPlatform joinedHistory server := by
  have served : (serveAll protobufPlatform 0 (joinedHistory.map Exchange.call) []
      ⟨∅, [], false, none⟩).map Prod.fst = some joinedHistory := by decide
  exact exists_run_of_serveAll served

/-- The user "a" can reply to the key of its own name. -/
theorem reply_integrity_fails : ∃ past server, Run protobufPlatform past server ∧
    ¬ ParentsPosted past := by
  obtain ⟨server, run⟩ := joinedHistory_run
  let request : WarbleRequest := ⟨str "a", str "hi", str "user_a"⟩
  have joined : Joined joinedHistory (str "a") := ⟨_, List.mem_singleton_self _, rfl, rfl⟩
  have user : Found server (nameKey .user (str "a")) := (run.found_user_iff _).mpr joined
  obtain ⟨⟨status, answer⟩, server', served⟩ :=
    @serves_of_not_read protobufPlatform server (.warble request ⟨0, 0⟩) fun _ => nofun
  obtain ⟨rfl, rfl⟩ := Prod.mk.inj (serves_accepted user (fun _ => user) served)
  refine ⟨_, server', run.serve served, fun integrity => ?_⟩
  rcases integrity joinedHistory _ [] rfl _
    ⟨_, List.mem_singleton_self _, ⟨request, ⟨0, 0⟩, rfl⟩, rfl, rfl⟩ with empty | ⟨_, earlier, _⟩
  · exact absurd empty (by decide)
  · rw [posted_iff] at earlier
    simp [joinedHistory, entriesOf, Exchange.entries, Status.OK] at earlier

end FuncWarble.Proofs
