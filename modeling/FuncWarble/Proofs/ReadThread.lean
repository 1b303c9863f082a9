import Mathlib
import FuncWarble.Proofs.SocialGraph
import FuncWarble.Proofs.ThreadOrder

/-! # Reading a thread

The loop of `Read` walks along the parent links of the store. It therefore ends unless its walk
reaches a cycle, and it returns the values found along the walk. Among the keys of warbles a walk
always ends and returns what was posted; both properties fail exactly for walks that come to a key
of usernames whose single name has been taken for a warble.
-/

namespace FuncWarble.Proofs

open Text Model Machine

variable {platform : Platform} {past : List Exchange} {server server' : KeyValueStoreImpl}

theorem parentLink_of_lookup {key : Bytes} :
    parentLink platform server.storage key =
      match lookup server key with
      | some [serialized] => some (platform.parseFromString serialized).2.parentId
      | _ => none := by
  rw [parentLink, lookup, KeyValueClient.handler_get]
  split_ifs with absent
  · rw [absent]
  · rcases server.storage.get key with _ | ⟨first, _ | ⟨second, rest⟩⟩ <;> rfl

/-- At the head of the loop, what was found is what the store holds under the id looked up. -/
def AtHead (server : KeyValueStoreImpl) (s : WarbleService.ReadLoop × KeyValueStoreImpl) : Prop :=
  s.2 = server ∧ s.1.serializedWarbles = lookup server s.1.warbleId

/-- One turn of the loop is one step of the walk. -/
theorem readBody_lockstep (s : WarbleService.ReadLoop × KeyValueStoreImpl)
    (atHead : AtHead server s) :
    (∃ s', Program.turn KeyValueClient.handler (WarbleCall.body platform) s = .inl s' ∧
      parentLink platform server.storage s.1.warbleId = some s'.1.warbleId ∧ AtHead server s') ∨
    ∃ result, Program.turn KeyValueClient.handler (WarbleCall.body platform) s = .inr result ∧
      parentLink platform server.storage s.1.warbleId = none := by
  obtain ⟨⟨reply, id, found⟩, s₁⟩ := s
  obtain ⟨rfl, looked⟩ := atHead
  simp only at looked
  rw [readBody_turn, parentLink_of_lookup, ← looked]
  rcases found with _ | _ | ⟨serialized, _ | ⟨second, more⟩⟩
  · exact .inr ⟨_, rfl, rfl⟩
  · exact .inr ⟨_, rfl, rfl⟩
  · exact .inl ⟨_, rfl, rfl, rfl, rfl⟩
  · exact .inr ⟨_, rfl, rfl⟩

theorem lookup_of_found {key : Bytes} (found : Found server key) :
    lookup server key = some (server.storage.get key) := by
  rw [lookup, handler_get_found found]

/-- `Read` ends exactly when the user is unknown or the walk from the id ends. -/
theorem read_ends_iff (request : ReadRequest) :
    (∃ result server', Serves platform (.read request) server result server') ↔
      ¬ Found server (nameKey .user request.username) ∨
        Walk.Ends (parentLink platform server.storage) request.warbleId := by
  simp only [serves_read]
  by_cases user : Found server (nameKey .user request.username)
  · by_cases warble : Found server request.warbleId
    · simp only [user, warble, not_true_eq_false, ↓reduceIte, false_or]
      have walk := @Walk.terminates_iff _ _ _ (parentLink platform server.storage)
        (Program.turn KeyValueClient.handler (WarbleCall.body platform)) (fun s => s.1.warbleId)
        (AtHead server) readBody_lockstep
        (⟨⟨[]⟩, request.warbleId, some (server.storage.get request.warbleId)⟩, server)
        ⟨rfl, (lookup_of_found warble).symm⟩
      rw [← walk]
      constructor
      · rintro ⟨result, server', yielded⟩
        exact ⟨(result, server'), yielded⟩
      · rintro ⟨⟨result, server'⟩, yielded⟩
        exact ⟨result, server', yielded⟩
    · have stop : parentLink platform server.storage request.warbleId = none := by
        rw [parentLink, not_not.mp warble]
      simp only [user, warble, not_true_eq_false, not_false_eq_true, ↓reduceIte, false_or]
      exact iff_of_true ⟨_, _, rfl, rfl⟩ (Walk.Ends.of_none stop)
  · simp only [user, not_false_eq_true, ↓reduceIte, true_or, iff_true]
    exact ⟨_, _, rfl, rfl⟩

/-- `Read` terminates exactly when the user has not joined or the walk along the parent links
reaches no cycle through a key of usernames. -/
theorem read_terminates_iff (undoes : platform.Undoes) (run : Run platform past server)
    (request : ReadRequest) :
    (∃ result server', Serves platform (.read request) server result server') ↔
      ¬ Joined past request.username ∨ ∀ key, IsNameKey key →
        Walk.Reaches (parentLink platform server.storage) request.warbleId key →
          ¬ Walk.OnCycle (parentLink platform server.storage) key := by
  rw [read_ends_iff, run.found_user_iff, Walk.ends_iff (finite_links platform server.storage)]
  apply or_congr_right
  constructor
  · exact fun acyclic key _ reaches => acyclic key reaches
  · intro acyclic key reaches cycle
    have held := run.holdsEntries
    rw [held.store] at acyclic reaches cycle
    obtain ⟨other, onward, isName⟩ := held.typed.exists_nameKey_of_cycle undoes cycle
    exact acyclic other isName (reaches.trans onward) (cycle.of_reaches onward)

/-- A username that reads as a warble whose parent is the list of the follows of "a". -/
def loopingName : Bytes := 0x22 :: 0x0b :: str "following_a"

def loopingHistory : List Exchange :=
  [⟨.registerUser ⟨str "a"⟩, Status.OK, .registerUser {}⟩,
    ⟨.registerUser ⟨loopingName⟩, Status.OK, .registerUser {}⟩,
    ⟨.follow ⟨str "a", loopingName⟩, Status.OK, .follow {}⟩]

private theorem loopingHistory_run : ∃ server, Run protobufPlatform loopingHistory server ∧
    Found server (nameKey .user (str "a")) ∧
    parentLink protobufPlatform server.storage (str "following_a") = some (str "following_a") := by
  have served : (serveAll protobufPlatform 0 (loopingHistory.map Exchange.call) []
      ⟨∅, [], false, none⟩).map (fun ran => (ran.1,
        decide (Found ran.2 (nameKey .user (str "a"))),
        parentLink protobufPlatform ran.2.storage (str "following_a"))) =
      some (loopingHistory, true, some (str "following_a")) := by decide
  obtain ⟨⟨history, server⟩, ran, same⟩ := Option.map_eq_some_iff.mp served
  obtain ⟨rfl, found, link⟩ := (Prod.mk.inj same).imp_right Prod.mk.inj
  exact ⟨server, (Run.start rfl).of_serveAll ran, of_decide_eq_true found, link⟩

theorem read_terminates_example : ∃ server, Run protobufPlatform loopingHistory server ∧
    ((∃ result server',
        Serves protobufPlatform (.read ⟨str "following_a", str "a"⟩) server result server') ↔
      ¬ Joined loopingHistory (str "a") ∨ ∀ key, IsNameKey key →
        Walk.Reaches (parentLink protobufPlatform server.storage) (str "following_a") key →
          ¬ Walk.OnCycle (parentLink protobufPlatform server.storage) key) := by
  obtain ⟨server, run, _⟩ := loopingHistory_run
  exact ⟨server, run, read_terminates_iff protobufPlatform_undoes run _⟩

/-- A `Read` of the list of the follows of "a" never returns once "a" follows such a name. -/
theorem read_terminates_fails : ∃ past server, Run protobufPlatform past server ∧
    ¬ ∃ result server',
      Serves protobufPlatform (.read ⟨str "following_a", str "a"⟩) server result server' := by
  obtain ⟨server, run, found, link⟩ := loopingHistory_run
  refine ⟨loopingHistory, server, run, ?_⟩
  rw [read_ends_iff, not_or, not_not]
  exact ⟨found, fun ends => ends.not_onCycle (.single link)⟩

/-- The key that was looked up after `before` had been read. -/
def fetchedFrom (start : Bytes) (before : List Warble) : Bytes :=
  (before.getLast?.map Warble.parentId).getD start

/-- Every warble of the reply was posted, and it was read from the key it was posted under, not
from one that holds usernames. -/
def Genuine (past : List Exchange) (start : Bytes) (warbles : List Warble) : Prop :=
  ∀ before warble after, warbles = before ++ warble :: after →
    Posted past warble ∧ warble.id = fetchedFrom start before

/-- Every warble of the reply is the parse of the single value found where the walk stood. -/
def Fetched (platform : Platform) (storage : Storage) (start : Bytes) (warbles : List Warble) :
    Prop :=
  ∀ before warble after, warbles = before ++ warble :: after →
    ∃ serialized, storage.get (fetchedFrom start before) = [serialized] ∧
      (platform.parseFromString serialized).2 = warble

theorem fetchedFrom_concat (start : Bytes) (before : List Warble) (warble : Warble) :
    fetchedFrom start (before ++ [warble]) = warble.parentId := by
  simp [fetchedFrom]

theorem Fetched.concat {storage : Storage} {start : Bytes} {warbles : List Warble}
    (fetched : Fetched platform storage start warbles) {serialized : Bytes}
    (single : storage.get (fetchedFrom start warbles) = [serialized]) :
    Fetched platform storage start (warbles ++ [(platform.parseFromString serialized).2]) := by
  intro before warble after split
  rcases split_concat split with ⟨rfl, rfl⟩ | ⟨rest, earlier⟩
  · exact ⟨serialized, single, rfl⟩
  · exact fetched before warble rest earlier

/-- What a successful `Read` returns: the values found along its walk, which has ended. -/
theorem read_reply {request : ReadRequest} {status : Status} {answer : WarbleAnswer}
    (served : Serves platform (.read request) server (status, answer) server')
    (ok : status = Status.OK) : ∃ warbles, answer = .read ⟨warbles⟩ ∧
      Fetched platform server.storage request.warbleId warbles ∧
      parentLink platform server.storage (fetchedFrom request.warbleId warbles) = none := by
  subst ok
  rw [serves_read] at served
  split_ifs at served with user warble
  · refine served.induct
      (fun s => AtHead server s ∧
        Fetched platform server.storage request.warbleId s.1.reply.warbles ∧
        s.1.warbleId = fetchedFrom request.warbleId s.1.reply.warbles)
      (fun r => ∃ warbles, r.1.2 = .read ⟨warbles⟩ ∧
        Fetched platform server.storage request.warbleId warbles ∧
        parentLink platform server.storage (fetchedFrom request.warbleId warbles) = none) ?_ ?_ ?_
    · refine ⟨⟨rfl, (lookup_of_found warble).symm⟩, ?_, rfl⟩
      intro before other after split
      simp at split
    · rintro ⟨⟨⟨warbles⟩, id, found⟩, s₁⟩ next ⟨⟨rfl, looked⟩, fetched, atId⟩ stepped
      rw [readBody_turn] at stepped
      simp only at stepped looked fetched atId
      subst atId
      split at stepped
      · next serialized =>
        obtain rfl := Sum.inl.inj stepped
        have single := (lookup_eq_some_iff.mp looked.symm).1
        exact ⟨⟨rfl, rfl⟩, fetched.concat single, (fetchedFrom_concat ..).symm⟩
      · contradiction
    · rintro ⟨⟨⟨warbles⟩, id, found⟩, s₁⟩ result ⟨⟨rfl, looked⟩, fetched, atId⟩ stepped
      rw [readBody_turn] at stepped
      simp only at stepped looked fetched atId
      subst atId
      split at stepped
      · contradiction
      · next several =>
        obtain rfl := Sum.inr.inj stepped
        refine ⟨warbles, rfl, fetched, ?_⟩
        rw [parentLink_of_lookup, ← looked]
        split
        · exact absurd rfl (several _)
        · rfl
  · have refused := congrArg (fun r : WarbleResult => r.1.code) served.1
    contradiction
  · have refused := congrArg (fun r : WarbleResult => r.1.code) served.1
    contradiction

/-- The walk of a `Read` that has ended reaches the keys its reply was read from, and no others. -/
theorem Fetched.reaches_iff {storage : Storage} {start : Bytes} {warbles : List Warble}
    (fetched : Fetched platform storage start warbles)
    (ended : parentLink platform storage (fetchedFrom start warbles) = none) (key : Bytes) :
    Walk.Reaches (parentLink platform storage) start key ↔
      ∃ before after, warbles = before ++ after ∧ key = fetchedFrom start before := by
  have link : ∀ before warble after, warbles = before ++ warble :: after →
      parentLink platform storage (fetchedFrom start before) = some warble.parentId := by
    intro before warble after split
    obtain ⟨serialized, single, rfl⟩ := fetched before warble after split
    exact parentLink_eq_some_iff.mpr ⟨serialized, single, rfl⟩
  constructor
  · intro reaches
    induction reaches with
    | refl => exact ⟨[], warbles, rfl, rfl⟩
    | @tail middle last _ linked ih =>
      obtain ⟨before, after, split, rfl⟩ := ih
      cases after with
      | nil =>
        rw [List.append_nil] at split
        rw [Walk.Link, ← split, ended] at linked
        contradiction
      | cons warble after =>
        refine ⟨before ++ [warble], after, by simp [split], ?_⟩
        rw [fetchedFrom_concat]
        exact Walk.Link.unique linked (link before warble after split)
  · rintro ⟨before, after, split, rfl⟩
    induction before using List.reverseRecOn generalizing after with
    | nil => exact .refl
    | append_singleton before warble ih =>
      rw [List.append_assoc, List.singleton_append] at split
      rw [fetchedFrom_concat]
      exact (ih (warble :: after) split).tail (link before warble after split)

/-- No forged warbles. A successful `Read` returns only warbles that were posted, each read from
its own id, exactly when its walk comes to no key of usernames that holds a single name. -/
theorem no_forged_warbles_iff (undoes : platform.Undoes) (run : Run platform past server)
    {request : ReadRequest} {reply : ReadReply}
    (served : Serves platform (.read request) server (Status.OK, .read reply) server') :
    Genuine past request.warbleId reply.warbles ↔ ∀ key, IsNameKey key →
      Walk.Reaches (parentLink platform server.storage) request.warbleId key →
        (server.storage.get key).length ≠ 1 := by
  obtain ⟨warbles, same, fetched, ended⟩ := read_reply served rfl
  obtain rfl := WarbleAnswer.read.inj same
  have held := run.holdsEntries
  constructor
  · rintro genuine key ⟨kind, owner, rfl⟩ reaches single
    obtain ⟨serialized, single⟩ := List.length_eq_one_iff.mp single
    obtain ⟨before, after, split, isKey⟩ := (fetched.reaches_iff ended _).mp reaches
    cases after with
    | nil =>
      rw [List.append_nil] at split
      subst split
      rw [← isKey, parentLink, single] at ended
      contradiction
    | cons warble after =>
      obtain ⟨posted, own⟩ := genuine before warble after split
      exact held.typed.warble_id_not_isNameKey (posted_iff.mp posted)
        ⟨kind, owner, own.trans isKey.symm⟩
  · intro clean before warble after split
    obtain ⟨serialized, single, rfl⟩ := fetched before warble after split
    have reaches := (fetched.reaches_iff ended _).mpr ⟨before, _, split, rfl⟩
    have notName : ¬ IsNameKey (fetchedFrom request.warbleId before) := fun isName =>
      clean _ isName reaches (by rw [single]; rfl)
    rw [held.store] at single
    obtain ⟨posted, ⟨front, back, place, own, _⟩, rfl⟩ := exists_warble_of_single notName single
    rw [undoes posted]
    exact ⟨posted_iff.mpr (by simp [place]), own⟩

private theorem read_name_run : ∃ server server',
    Run protobufPlatform [⟨.registerUser ⟨str "a"⟩, Status.OK, .registerUser {}⟩] server ∧
      Serves protobufPlatform (.read ⟨str "user_a", str "a"⟩) server
        (Status.OK, .read ⟨[Warble.empty]⟩) server' := by
  have served : (serveAll protobufPlatform 0 [.registerUser ⟨str "a"⟩] []
      ⟨∅, [], false, none⟩).bind (fun ran => (Program.execute KeyValueClient.handler
        (WarbleCall.body protobufPlatform) 2
        ((WarbleCall.read ⟨str "user_a", str "a"⟩).program protobufPlatform) ran.2).map
          fun read => (ran.1, read.1)) =
      some ([⟨.registerUser ⟨str "a"⟩, Status.OK, .registerUser {}⟩],
        (Status.OK, .read ⟨[Warble.empty]⟩)) := by decide
  obtain ⟨⟨history, server⟩, ran, read⟩ := Option.bind_eq_some_iff.mp served
  obtain ⟨⟨result, server'⟩, executed, same⟩ := Option.map_eq_some_iff.mp read
  obtain ⟨rfl, rfl⟩ := Prod.mk.inj same
  exact ⟨server, server', (Run.start rfl).of_serveAll ran, Program.outcome_of_execute executed⟩

theorem no_forged_warbles_example : ∃ past server, Run protobufPlatform past server ∧
    (Genuine past (str "user_a") [Warble.empty] ↔ ∀ key, IsNameKey key →
      Walk.Reaches (parentLink protobufPlatform server.storage) (str "user_a") key →
        (server.storage.get key).length ≠ 1) := by
  obtain ⟨server, server', run, served⟩ := read_name_run
  exact ⟨_, server, run, no_forged_warbles_iff protobufPlatform_undoes run served⟩

/-- After "a" has joined, a `Read` of the key of its name returns an empty warble. -/
theorem no_forged_warbles_fails : ∃ past server server', Run protobufPlatform past server ∧
    Serves protobufPlatform (.read ⟨str "user_a", str "a"⟩) server
      (Status.OK, .read ⟨[Warble.empty]⟩) server' ∧
    ¬ Posted past Warble.empty := by
  obtain ⟨server, server', run, served⟩ := read_name_run
  refine ⟨_, server, server', run, served, ?_⟩
  rw [posted_iff]
  decide

end FuncWarble.Proofs
