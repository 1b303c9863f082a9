import Mathlib
import FuncWarble.Proofs.KeySpace

/-! # Calls one after another

One equation for each method run alone, in terms of what the store holds under the keys it looks
up. A run is a history of exchanges; every call puts the entries of its exchange, and they are
justified by those put before, so the store is always the store of the entries of the history.
-/

namespace FuncWarble.Proofs

open Text Model Machine

/-- A call that runs alone ends with a result and a server. -/
def Serves (platform : Platform) (call : WarbleCall) (server : KeyValueStoreImpl)
    (result : WarbleResult) (server' : KeyValueStoreImpl) : Prop :=
  Program.Outcome KeyValueClient.handler (WarbleCall.body platform) (call.program platform) server
    result server'

/-- The server after a `Put` of the client. -/
abbrev afterPut (server : KeyValueStoreImpl) (key val : Bytes) : KeyValueStoreImpl :=
  (KeyValueClient.handler (.put key val) server).2

def Found (server : KeyValueStoreImpl) (key : Bytes) : Prop := server.storage.get key ≠ []

instance (server : KeyValueStoreImpl) (key : Bytes) : Decidable (Found server key) :=
  inferInstanceAs (Decidable (server.storage.get key ≠ []))

theorem handler_get_found {key : Bytes} {server : KeyValueStoreImpl} (found : Found server key) :
    KeyValueClient.handler (.get [key]) server = (some (server.storage.get key), server) := by
  rw [KeyValueClient.handler_get, if_neg found]

theorem handler_get_missing {key : Bytes} {server : KeyValueStoreImpl}
    (missing : ¬ Found server key) :
    KeyValueClient.handler (.get [key]) server = (none, server) := by
  rw [KeyValueClient.handler_get, if_pos (not_not.mp missing)]

/-- A key that is read whether or not it is there. -/
theorem handler_get_getD (key : Bytes) (server : KeyValueStoreImpl) :
    (KeyValueClient.handler (.get [key]) server).1.getD [] = server.storage.get key ∧
      (KeyValueClient.handler (.get [key]) server).2 = server := by
  rw [KeyValueClient.handler_get]
  split
  · next absent => exact ⟨absent.symm, rfl⟩
  · exact ⟨rfl, rfl⟩

theorem registerUser_run (request : RegisteruserRequest) (server : KeyValueStoreImpl) :
    (WarbleService.registerUser request).run KeyValueClient.handler server =
      if Found server (nameKey .user request.username) then
        ((⟨.alreadyExists, "Username already exists."⟩, {}), server)
      else ((Status.OK, {}),
        afterPut server (nameKey .user request.username) request.username) := by
  simp only [WarbleService.registerUser, Program.perform_bind, Program.run_call]
  rw [show str "user_" ++ request.username = nameKey .user request.username from rfl]
  split_ifs with user
  · simp only [handler_get_found user, Program.pure_eq, Program.run_ret]
  · simp only [handler_get_missing user, Program.pure_eq, Program.run_call, Program.run_ret]

theorem warbleMethod_run (platform : Platform) (request : WarbleRequest) (tv : Timestamp)
    (server : KeyValueStoreImpl) :
    (WarbleService.warbleMethod platform request tv).run KeyValueClient.handler server =
      if ¬ Found server (nameKey .user request.username) then
        ((⟨.notFound, "User does not exist in database"⟩, ⟨none⟩), server)
      else if request.parentId ≠ [] ∧ ¬ Found server request.parentId then
        ((⟨.notFound, "Parent id does not exist in database."⟩, ⟨none⟩), server)
      else (WarbleService.storeWarble platform request tv).run KeyValueClient.handler server := by
  simp only [WarbleService.warbleMethod, Program.perform_bind, Program.run_call, ne_eq,
    List.length_eq_zero_iff]
  rw [show str "user_" ++ request.username = nameKey .user request.username from rfl]
  by_cases user : Found server (nameKey .user request.username)
  · simp only [handler_get_found user, user, not_true_eq_false, ↓reduceIte]
    by_cases root : request.parentId = []
    · simp only [root, not_true_eq_false, ↓reduceIte, false_and]
    · simp only [root, not_false_eq_true, ↓reduceIte, true_and, Program.run_call]
      by_cases parent : Found server request.parentId
      · simp only [handler_get_found parent, parent, not_true_eq_false, ↓reduceIte]
      · simp only [handler_get_missing parent, parent, not_false_eq_true, ↓reduceIte,
          Program.pure_eq, Program.run_ret]
  · simp only [handler_get_missing user, user, not_false_eq_true, ↓reduceIte, Program.pure_eq,
      Program.run_ret]

theorem follow_run (request : FollowRequest) (server : KeyValueStoreImpl) :
    (WarbleService.follow request).run KeyValueClient.handler server =
      if ¬ Found server (nameKey .user request.username) ∨
          ¬ Found server (nameKey .user request.toFollow) then
        ((⟨.notFound, "User or User_to_follow does not exist in database"⟩, {}), server)
      else if request.username = request.toFollow then
        ((⟨.notFound, "Users cannot follow themselves."⟩, {}), server)
      else ((Status.OK, {}),
        afterPut (afterPut server (nameKey .following request.username) request.toFollow)
          (nameKey .followedBy request.toFollow) request.username) := by
  simp only [WarbleService.follow, Program.perform_bind, Program.run_call]
  rw [show str "user_" ++ request.username = nameKey .user request.username from rfl,
    show str "user_" ++ request.toFollow = nameKey .user request.toFollow from rfl]
  by_cases user : Found server (nameKey .user request.username) <;>
    by_cases toFollow : Found server (nameKey .user request.toFollow)
  · simp only [handler_get_found user, handler_get_found toFollow, user, toFollow,
      not_true_eq_false, reduceCtorEq, or_self, ↓reduceIte]
    by_cases own : request.username = request.toFollow
    · simp only [own, ↓reduceIte, Program.pure_eq, Program.run_ret]
    · simp only [own, ↓reduceIte, Program.pure_eq, Program.run_call, Program.run_ret]
      rfl
  · simp only [handler_get_found user, handler_get_missing toFollow, toFollow,
      not_false_eq_true, or_true, ↓reduceIte, Program.pure_eq, Program.run_ret]
  · simp only [handler_get_missing user, handler_get_found toFollow, user, not_false_eq_true,
      true_or, ↓reduceIte, Program.pure_eq, Program.run_ret]
  · simp only [handler_get_missing user, handler_get_missing toFollow, user, not_false_eq_true,
      true_or, ↓reduceIte, Program.pure_eq, Program.run_ret]

theorem profile_run (request : ProfileRequest) (server : KeyValueStoreImpl) :
    (WarbleService.profile request).run KeyValueClient.handler server =
      if Found server (nameKey .user request.username) then
        ((Status.OK,
          { following := server.storage.get (nameKey .following request.username)
            followers := server.storage.get (nameKey .followedBy request.username) }), server)
      else ((⟨.notFound, "User does not exist in database"⟩, ⟨[], []⟩), server) := by
  simp only [WarbleService.profile, Program.perform_bind, Program.run_call]
  rw [show str "user_" ++ request.username = nameKey .user request.username from rfl,
    show str "following_" ++ request.username = nameKey .following request.username from rfl,
    show str "followed_by_" ++ request.username = nameKey .followedBy request.username from rfl]
  split_ifs with user
  · simp only [handler_get_found user, Program.run_call, Program.pure_eq, Program.run_ret,
      handler_get_getD]
  · simp only [handler_get_missing user, Program.pure_eq, Program.run_ret]

theorem read_run (request : ReadRequest) (server : KeyValueStoreImpl) :
    (WarbleService.read request).run KeyValueClient.handler server =
      if ¬ Found server (nameKey .user request.username) then
        (.inr (⟨.notFound, "User does not exist in database"⟩, ⟨[]⟩), server)
      else if ¬ Found server request.warbleId then
        (.inr (⟨.notFound, "Warble_id is not found."⟩, ⟨[]⟩), server)
      else (.inl ⟨⟨[]⟩, request.warbleId, some (server.storage.get request.warbleId)⟩, server) := by
  simp only [WarbleService.read, Program.perform_bind, Program.run_call]
  rw [show str "user_" ++ request.username = nameKey .user request.username from rfl]
  split_ifs with user warble
  · simp only [handler_get_found user, Program.run_call, handler_get_found warble,
      Program.pure_eq, Program.run_ret]
  · simp only [handler_get_found user, Program.run_call, handler_get_missing warble,
      Program.pure_eq, Program.run_ret]
  · simp only [handler_get_missing user, Program.pure_eq, Program.run_ret]

theorem serves_registerUser {platform : Platform} {request : RegisteruserRequest}
    {server server' : KeyValueStoreImpl} {result : WarbleResult} :
    Serves platform (.registerUser request) server result server' ↔
      let ran := (WarbleService.registerUser request).run KeyValueClient.handler server
      (ran.1.1, .registerUser ran.1.2) = result ∧ ran.2 = server' :=
  Program.outcome_bind_inr

theorem serves_warble {platform : Platform} {request : WarbleRequest} {tv : Timestamp}
    {server server' : KeyValueStoreImpl} {result : WarbleResult} :
    Serves platform (.warble request tv) server result server' ↔
      let ran := (WarbleService.warbleMethod platform request tv).run KeyValueClient.handler server
      (ran.1.1, .warble ran.1.2) = result ∧ ran.2 = server' :=
  Program.outcome_bind_inr

theorem serves_follow {platform : Platform} {request : FollowRequest}
    {server server' : KeyValueStoreImpl} {result : WarbleResult} :
    Serves platform (.follow request) server result server' ↔
      let ran := (WarbleService.follow request).run KeyValueClient.handler server
      (ran.1.1, .follow ran.1.2) = result ∧ ran.2 = server' :=
  Program.outcome_bind_inr

theorem serves_profile {platform : Platform} {request : ProfileRequest}
    {server server' : KeyValueStoreImpl} {result : WarbleResult} :
    Serves platform (.profile request) server result server' ↔
      let ran := (WarbleService.profile request).run KeyValueClient.handler server
      (ran.1.1, .profile ran.1.2) = result ∧ ran.2 = server' :=
  Program.outcome_bind_inr

private theorem read_program_run (platform : Platform) (request : ReadRequest)
    (server : KeyValueStoreImpl) :
    ((WarbleCall.read request).program platform).run KeyValueClient.handler server =
      ((((WarbleService.read request).run KeyValueClient.handler server).1.map id
        fun reply => (reply.1, .read reply.2)),
      ((WarbleService.read request).run KeyValueClient.handler server).2) :=
  Program.run_bind KeyValueClient.handler (WarbleService.read request) _ server

/-- `Read` ends before its loop for an unknown user or id, and otherwise as its loop ends. -/
theorem serves_read {platform : Platform} {request : ReadRequest}
    {server server' : KeyValueStoreImpl} {result : WarbleResult} :
    Serves platform (.read request) server result server' ↔
      if ¬ Found server (nameKey .user request.username) then
        (⟨.notFound, "User does not exist in database"⟩, .read ⟨[]⟩) = result ∧ server = server'
      else if ¬ Found server request.warbleId then
        (⟨.notFound, "Warble_id is not found."⟩, .read ⟨[]⟩) = result ∧ server = server'
      else Loop.Yields (Program.turn KeyValueClient.handler (WarbleCall.body platform))
        (⟨⟨[]⟩, request.warbleId, some (server.storage.get request.warbleId)⟩, server)
        (result, server') := by
  have ran := read_program_run platform request server
  rw [read_run] at ran
  split_ifs at ran ⊢
  · exact Program.outcome_of_inl ran
  · exact Program.outcome_of_inr ran
  · exact Program.outcome_of_inr ran

/-- What the client reports about a key. -/
def lookup (server : KeyValueStoreImpl) (key : Bytes) : Option (List Bytes) :=
  (KeyValueClient.handler (.get [key]) server).1

theorem lookup_eq_some_iff {key : Bytes} {values : List Bytes} {server : KeyValueStoreImpl} :
    lookup server key = some values ↔ server.storage.get key = values ∧ values ≠ [] := by
  rw [lookup, KeyValueClient.handler_get]
  split
  · next absent =>
    constructor
    · intro none
      contradiction
    · rintro ⟨same, nonempty⟩
      exact absurd (same.symm.trans absent) nonempty
  · next present =>
    constructor
    · rintro ⟨⟩
      exact ⟨rfl, present⟩
    · rintro ⟨same, _⟩
      exact congrArg some same

/-- One turn of the loop of `Read` parses a single value and looks up the parent it names. -/
theorem readBody_turn (platform : Platform) (head : WarbleService.ReadLoop)
    (server : KeyValueStoreImpl) :
    Program.turn KeyValueClient.handler (WarbleCall.body platform) (head, server) =
      match head.serializedWarbles with
      | some [serialized] =>
        let newWarble := (platform.parseFromString serialized).2
        .inl (⟨⟨head.reply.warbles ++ [newWarble]⟩, newWarble.parentId,
          lookup server newWarble.parentId⟩, server)
      | _ => .inr ((Status.OK, .read head.reply), server) := by
  obtain ⟨reply, id, found⟩ := head
  rcases found with _ | _ | ⟨serialized, _ | ⟨second, more⟩⟩
  · rfl
  · rfl
  · change Sum.inl (_, (KeyValueClient.handler (.get [_]) server).2) = _
    rw [KeyValueClient.handler_get_snd]
    rfl
  · rfl

/-- A call that was served, with what it returned. -/
structure Exchange where
  call : WarbleCall
  status : Status
  answer : WarbleAnswer
deriving DecidableEq

/-- The entries that a successful call puts. -/
def Exchange.entries (exchange : Exchange) : List Entry :=
  if exchange.status = Status.OK then
    match exchange.call, exchange.answer with
    | .registerUser request, _ => [.name .user request.username request.username]
    | .warble _ _, .warble ⟨some posted⟩ => [.warble posted]
    | .follow request, _ => [.name .following request.username request.toFollow,
        .name .followedBy request.toFollow request.username]
    | _, _ => []
  else []

def entriesOf (past : List Exchange) : List Entry := past.flatMap Exchange.entries

/-- An earlier successful post returned the warble. -/
def Posted (past : List Exchange) (warble : Warble) : Prop :=
  ∃ exchange ∈ past, (∃ request tv, exchange.call = .warble request tv) ∧
    exchange.status = Status.OK ∧ exchange.answer = .warble ⟨some warble⟩

theorem posted_iff {past : List Exchange} {warble : Warble} :
    Posted past warble ↔ .warble warble ∈ entriesOf past := by
  rw [entriesOf, List.mem_flatMap]
  refine exists_congr fun exchange => and_congr_right fun _ => ?_
  obtain ⟨call, status, answer⟩ := exchange
  constructor
  · rintro ⟨⟨request, tv, rfl⟩, rfl, rfl⟩
    simp [Exchange.entries]
  · intro member
    simp only [Exchange.entries] at member
    split_ifs at member with ok
    · cases call with
      | warble request tv =>
        cases answer with
        | warble reply =>
          obtain ⟨_ | posted⟩ := reply
          · simp at member
          · obtain rfl := Entry.warble.inj (List.mem_singleton.mp member)
            exact ⟨⟨request, tv, rfl⟩, ok, rfl⟩
        | _ => simp at member
      | _ => simp at member
    · simp at member

/-- The service runs from an empty store and has served the exchanges of a history. -/
inductive Run (platform : Platform) : List Exchange → KeyValueStoreImpl → Prop
  | start {server : KeyValueStoreImpl} (empty : server.storage = ∅) : Run platform [] server
  | serve {past : List Exchange} {server server' : KeyValueStoreImpl} {call : WarbleCall}
    {status : Status} {answer : WarbleAnswer} (run : Run platform past server)
    (served : Serves platform call server (status, answer) server') :
    Run platform (past ++ [⟨call, status, answer⟩]) server'

/-- Every exchange of a history was served after the exchanges before it. -/
theorem Run.split {platform : Platform} {past before after : List Exchange}
    {exchange : Exchange} {server : KeyValueStoreImpl} (run : Run platform past server)
    (split : past = before ++ exchange :: after) : ∃ server₁ server₂, Run platform before server₁ ∧
      Serves platform exchange.call server₁ (exchange.status, exchange.answer) server₂ := by
  induction run generalizing after with
  | start empty => simp at split
  | @serve past server₁ server₂ call status answer run served ih =>
    rcases split_concat split with ⟨rfl, rfl⟩ | ⟨rest, earlier⟩
    · exact ⟨server₁, server₂, run, served⟩
    · exact ih earlier

/-- Serve some calls one after the other, giving every `Read` at most `fuel` turns. -/
def serveAll (platform : Platform) (fuel : ℕ) (calls : List WarbleCall)
    (past : List Exchange) (server : KeyValueStoreImpl) :
    Option (List Exchange × KeyValueStoreImpl) :=
  calls.foldlM (fun (past, server) call =>
    (Program.execute KeyValueClient.handler (WarbleCall.body platform) fuel (call.program platform)
      server).map fun ((status, answer), server) => (past ++ [⟨call, status, answer⟩], server))
    (past, server)

/-- Calls that were served one after the other make a run. -/
theorem Run.of_serveAll {platform : Platform} {fuel : ℕ} {calls : List WarbleCall}
    {past history : List Exchange} {server server' : KeyValueStoreImpl}
    (run : Run platform past server)
    (served : serveAll platform fuel calls past server = some (history, server')) :
    Run platform history server' := by
  induction calls generalizing past server with
  | nil =>
    obtain ⟨rfl, rfl⟩ := Prod.mk.inj (Option.some.inj served)
    exact run
  | cons call calls ih =>
    rw [serveAll, List.foldlM_cons] at served
    obtain ⟨⟨next, middle⟩, first, rest⟩ := Option.bind_eq_some_iff.mp served
    obtain ⟨⟨⟨status, answer⟩, reached⟩, executed, same⟩ := Option.map_eq_some_iff.mp first
    obtain ⟨rfl, rfl⟩ := Prod.mk.inj same
    exact ih (run.serve (Program.outcome_of_execute executed)) rest

/-- A history is a run when the calls, served from an empty store, return what it says. -/
theorem exists_run_of_serveAll {platform : Platform} {fuel : ℕ} {calls : List WarbleCall}
    {history : List Exchange}
    (served : (serveAll platform fuel calls [] ⟨∅, [], false, none⟩).map Prod.fst = some history) :
    ∃ server, Run platform history server := by
  obtain ⟨⟨history, server⟩, ran, rfl⟩ := Option.map_eq_some_iff.mp served
  exact ⟨server, (Run.start rfl).of_serveAll ran⟩

/-- The store holds the entries, each of which is justified. -/
structure HoldsEntries (platform : Platform) (entries : List Entry) (server : KeyValueStoreImpl) :
    Prop where
  typed : Typed platform entries
  store : server.storage = stored platform entries

variable {platform : Platform} {entries : List Entry} {server server' : KeyValueStoreImpl}

theorem HoldsEntries.found_iff (held : HoldsEntries platform entries server) (key : Bytes) :
    Found server key ↔ Present entries key := by
  rw [Found, held.store, Ne, stored_get_eq_nil_iff, not_not]

/-- A `Put` of a justified entry. -/
theorem HoldsEntries.put (held : HoldsEntries platform entries server) {entry : Entry}
    (justified : Justified platform entries entry) :
    HoldsEntries platform (entries ++ [entry])
      (afterPut server entry.key (entry.value platform)) where
  typed := held.typed.concat justified
  store := by rw [KeyValueClient.handler_put_storage, held.store, stored_concat]

theorem newWarble_id (request : WarbleRequest) (tv : Timestamp) :
    (WarbleService.newWarble platform request tv).id =
      WarbleService.warbleId platform (WarbleService.newWarble platform request tv) := rfl

/-- `Read` changes nothing, however long its loop runs. -/
theorem read_unchanged {request : ReadRequest} {result : WarbleResult}
    (served : Serves platform (.read request) server result server') : server' = server := by
  rw [serves_read] at served
  split_ifs at served
  · refine served.induct (fun s => s.2 = server) (fun r => r.2 = server) rfl ?_ ?_
    · rintro ⟨head, s⟩ ⟨next, s'⟩ rfl stepped
      rw [readBody_turn] at stepped
      split at stepped
      · exact (Prod.mk.inj (Sum.inl.inj stepped)).2.symm
      · contradiction
    · rintro ⟨head, s⟩ ⟨value, s'⟩ rfl stepped
      rw [readBody_turn] at stepped
      split at stepped
      · contradiction
      · exact (Prod.mk.inj (Sum.inr.inj stepped)).2.symm
  · exact served.2.symm
  · exact served.2.symm

/-- Every call puts the entries of its exchange, and they are justified. -/
theorem HoldsEntries.serve (held : HoldsEntries platform entries server) {call : WarbleCall}
    {status : Status} {answer : WarbleAnswer}
    (served : Serves platform call server (status, answer) server') :
    HoldsEntries platform (entries ++ (Exchange.mk call status answer).entries) server' := by
  cases call with
  | registerUser request =>
    obtain ⟨same, rfl⟩ := serves_registerUser.mp served
    rw [registerUser_run] at same ⊢
    split_ifs at same ⊢
    · obtain ⟨rfl, rfl⟩ := Prod.mk.inj same
      simpa [Exchange.entries, Status.OK] using held
    · obtain ⟨rfl, rfl⟩ := Prod.mk.inj same
      exact held.put (show Justified platform entries (.name .user _ request.username) from rfl)
  | warble request tv =>
    obtain ⟨same, rfl⟩ := serves_warble.mp served
    rw [warbleMethod_run] at same ⊢
    split_ifs at same ⊢ with user parent
    · obtain ⟨rfl, rfl⟩ := Prod.mk.inj same
      simpa [Exchange.entries, Status.OK] using held
    · obtain ⟨rfl, rfl⟩ := Prod.mk.inj same
      have justified : Justified platform entries
          (.warble (WarbleService.newWarble platform request tv)) := by
        refine ⟨newWarble_id request tv, (held.found_iff _).mp user, ?_⟩
        rw [← held.found_iff]
        exact or_iff_not_imp_left.mpr fun root => by_contra fun missing => parent ⟨root, missing⟩
      exact held.put justified
    · obtain ⟨rfl, rfl⟩ := Prod.mk.inj same
      simpa [Exchange.entries, Status.OK] using held
  | follow request =>
    obtain ⟨same, rfl⟩ := serves_follow.mp served
    rw [follow_run] at same ⊢
    split_ifs at same ⊢ with users own
    · obtain ⟨rfl, rfl⟩ := Prod.mk.inj same
      simpa [Exchange.entries, Status.OK] using held
    · obtain ⟨rfl, rfl⟩ := Prod.mk.inj same
      simpa [Exchange.entries, Status.OK] using held
    · obtain ⟨rfl, rfl⟩ := Prod.mk.inj same
      obtain ⟨user, toFollow⟩ := not_or.mp users
      rw [not_not, held.found_iff] at user toFollow
      have justified : Justified platform entries
          (.name .followedBy request.toFollow request.username) := ⟨toFollow, user, Ne.symm own⟩
      have first := held.put (show Justified platform entries
        (.name .following request.username request.toFollow) from ⟨user, toFollow, own⟩)
      have second := first.put (justified.mono (List.prefix_append _ _))
      rw [List.append_assoc] at second
      exact second
  | read request =>
    obtain rfl := read_unchanged served
    simpa [Exchange.entries] using held
  | profile request =>
    obtain ⟨same, rfl⟩ := serves_profile.mp served
    have unchanged : ((WarbleService.profile request).run KeyValueClient.handler server).2 =
        server := by
      rw [profile_run]
      split <;> rfl
    rw [unchanged]
    simpa [Exchange.entries] using held

/-- The store is always the store of the entries of the history. -/
theorem Run.holdsEntries {past : List Exchange} (run : Run platform past server) :
    HoldsEntries platform (entriesOf past) server := by
  induction run with
  | start empty => exact ⟨.nil, empty⟩
  | serve run served ih =>
    rw [entriesOf, List.flatMap_append, List.flatMap_singleton]
    exact ih.serve served

end FuncWarble.Proofs
