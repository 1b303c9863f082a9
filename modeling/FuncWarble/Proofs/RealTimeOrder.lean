import Mathlib
import FuncWarble.Model.WarbleMessage
import FuncWarble.Proofs.ConcurrentService

/-! # Calls see the calls that have returned before them

Calls that overlap may miss each other's puts. But what a call has done, and what it has seen, is
in the store when it returns, and nothing is ever taken out of the store: a call that arrives later
sees it, whatever other calls run at the same time. A user reads his own writes, a later `Profile`
extends an earlier one, and a warble that was returned can be replied to.
-/

namespace FuncWarble.Proofs

open Text Model Machine

variable {platform : Platform} {call : WarbleCall} {w w' : ServiceWorld} {before : List Entry}

/-- The names that the entries put into a list of `owner`. -/
def namesOf (entries : List Entry) (kind : NameKind) (owner : Bytes) : List Bytes :=
  entries.filterMap (Entry.nameIn kind owner)

theorem namesOf_mono {entries more : List Entry} (extended : entries <+: more) (kind : NameKind)
    (owner : Bytes) : namesOf entries kind owner <+: namesOf more kind owner :=
  extended.filterMap _

/-- The list is at least that of the earlier entries, and at most that of the later ones. -/
def BetweenNames (before after : List Entry) (kind : NameKind) (owner : Bytes)
    (names : List Bytes) : Prop :=
  namesOf before kind owner <+: names ∧ names <+: namesOf after kind owner

/-- What a call promises when the entries `before` were there as it arrived: it succeeds where they
suffice for its checks, and what it has put or seen is there when it returns. -/
def Promise (platform : Platform) (before : List Entry) (call : WarbleCall)
    (result : WarbleService.ReadLoop ⊕ WarbleResult) (w : ServiceWorld) : Prop :=
  match call, result with
  | .registerUser request, .inr (status, _) =>
    (Registered before request.username → status.code = .alreadyExists) ∧
      Registered (entriesIn platform w) request.username
  | .warble request _, .inr (status, answer) =>
    (Registered before request.username →
      (request.parentId = [] ∨ Present before request.parentId) → status = Status.OK) ∧
      (status = Status.OK → ∀ posted, answer = .warble ⟨some posted⟩ →
        Present (entriesIn platform w) posted.id)
  | .follow request, .inr (status, _) =>
    (Registered before request.username → Registered before request.toFollow →
      request.username ≠ request.toFollow → status = Status.OK) ∧
      (status = Status.OK →
        request.toFollow ∈ namesOf (entriesIn platform w) .following request.username ∧
        request.username ∈ namesOf (entriesIn platform w) .followedBy request.toFollow)
  | .read request, .inr (status, _) =>
    Registered before request.username → Present before request.warbleId → status = Status.OK
  | .read _, .inl _ => True
  | .profile request, .inr (status, answer) =>
    (Registered before request.username → status = Status.OK) ∧
      (status = Status.OK → ∃ reply, answer = .profile reply ∧
        BetweenNames before (entriesIn platform w) .following request.username reply.following ∧
        BetweenNames before (entriesIn platform w) .followedBy request.username reply.followers)
  | _, .inl _ => False

theorem BetweenNames.mono {after more : List Entry} {kind : NameKind} {owner : Bytes}
    {names : List Bytes} (between : BetweenNames before after kind owner names)
    (extended : after <+: more) : BetweenNames before more kind owner names :=
  ⟨between.1, between.2.trans (namesOf_mono extended kind owner)⟩

/-- A promise is kept for ever. -/
theorem Promise.later {result : WarbleService.ReadLoop ⊕ WarbleResult}
    (promise : Promise platform before call result w) (later : System.Later w w') :
    Promise platform before call result w' := by
  have extended : entriesIn platform w <+: entriesIn platform w' := entriesIn_later later
  rcases result with head | ⟨status, answer⟩
  · cases call <;> exact promise
  · cases call with
    | registerUser request => exact ⟨promise.1, promise.2.mono extended⟩
    | warble request tv =>
      exact ⟨promise.1, fun ok posted same => (promise.2 ok posted same).mono extended⟩
    | follow request =>
      refine ⟨promise.1, fun ok => ?_⟩
      obtain ⟨following, followedBy⟩ := promise.2 ok
      exact ⟨(namesOf_mono extended _ _).subset following,
        (namesOf_mono extended _ _).subset followedBy⟩
    | read request => exact promise
    | profile request =>
      refine ⟨promise.1, fun ok => ?_⟩
      obtain ⟨reply, same, following, followers⟩ := promise.2 ok
      exact ⟨reply, same, following.mono extended, followers.mono extended⟩

theorem Kept.not_present_of_lookup (kept : Kept platform w) {key : Bytes}
    (missing : lookup w.state key = none) : ¬ Present (entriesIn platform w) key := by
  intro present
  have found := lookup_eq_some_iff.mpr ⟨rfl, (kept.held.found_iff key).mpr present⟩
  exact absurd (missing.symm.trans found) (Option.some_ne_none _).symm

/-- What is read of a list of names, whether or not it is there. -/
theorem Kept.lookup_nameKey (kept : Kept platform w) (kind : NameKind) (owner : Bytes) :
    (lookup w.state (nameKey kind owner)).getD [] =
      namesOf (entriesIn platform w) kind owner := by
  rw [namesOf, ← kept.held.typed.get_nameKey, ← kept.held.store]
  exact (handler_get_getD _ _).1

/-- After a `Put` of an entry, the entry is there. -/
theorem keeps_put_seen {τ : Type} {post : τ → ServiceWorld → Prop} (entry : Entry)
    {next : Bool → ClientProgram τ}
    (isEntry : entryOf platform (call, .put entry.key (entry.value platform)) = some entry)
    (justified : Justified platform (entriesIn platform w) entry)
    (rest : ∀ answer w', System.Later w w' → Kept platform w' → entry ∈ entriesIn platform w' →
      Keeping platform call post (next answer) w') :
    Keeping platform call post (.call (.put entry.key (entry.value platform)) next) w := by
  intro w' later kept
  have performed := kept.put isEntry (justified.mono (entriesIn_later later))
  refine ⟨performed, rest _ _ (later.trans (System.later_perform ..)) performed ?_⟩
  exact List.mem_filterMap.mpr ⟨_, List.mem_append_right _ (List.mem_singleton_self _), isEntry⟩

theorem mem_namesOf {entries : List Entry} {kind : NameKind} {owner value : Bytes}
    (member : .name kind owner value ∈ entries) : value ∈ namesOf entries kind owner :=
  List.mem_filterMap.mpr ⟨_, member, by simp [Entry.nameIn]⟩

/-- The promise of a method that has returned. -/
abbrev Promises {Reply : Type} (platform : Platform) (before : List Entry) (call : WarbleCall)
    (answer : Reply → WarbleAnswer) (returned : Status × Reply) (w : ServiceWorld) : Prop :=
  Promise platform before call (.inr (returned.1, answer returned.2)) w

private theorem registerUser_promises (request : RegisteruserRequest)
    (arrived : before <+: entriesIn platform w) :
    Keeping platform (.registerUser request)
      (Promises platform before (.registerUser request) .registerUser)
      (WarbleService.registerUser request) w := by
  rw [WarbleService.registerUser, Program.perform_bind]
  refine keeps_get fun w₁ later kept => ?_
  cases user : lookup w₁.state (str "user_" ++ request.username) with
  | some values =>
    have registered : Registered (entriesIn platform w₁) request.username :=
      kept.present_of_lookup user
    exact fun w₂ later₂ _ => ⟨fun _ => rfl, registered.mono (entriesIn_later later₂)⟩
  | none =>
    have missing : ¬ Registered (entriesIn platform w₁) request.username :=
      kept.not_present_of_lookup user
    let entry : Entry := .name .user request.username request.username
    have justified : Justified platform (entriesIn platform w₁) entry := rfl
    refine keeps_put_seen entry rfl justified fun _ w₂ _ _ member w₃ later₃ _ => ⟨?_, ?_⟩
    · exact fun was => absurd (was.mono (arrived.trans (entriesIn_later later))) missing
    · exact Present.mono ⟨entry, member, rfl⟩ (entriesIn_later later₃)

private theorem storeWarble_promises {request : WarbleRequest} {tv : Timestamp}
    (user : Registered (entriesIn platform w) request.username)
    (parent : request.parentId = [] ∨ Present (entriesIn platform w) request.parentId) :
    Keeping platform (.warble request tv)
      (Promises platform before (.warble request tv) .warble)
      (WarbleService.storeWarble platform request tv) w := by
  let entry : Entry := .warble (WarbleService.newWarble platform request tv)
  have justified : Justified platform (entriesIn platform w) entry :=
    ⟨newWarble_id request tv, user, parent⟩
  refine keeps_put_seen entry rfl justified fun _ w₂ _ _ member w₃ later₃ _ => ⟨?_, ?_⟩
  · exact fun _ _ => rfl
  · rintro _ posted ⟨⟩
    exact Present.mono ⟨entry, member, rfl⟩ (entriesIn_later later₃)

private theorem warbleMethod_promises (request : WarbleRequest) (tv : Timestamp)
    (arrived : before <+: entriesIn platform w) :
    Keeping platform (.warble request tv)
      (Promises platform before (.warble request tv) .warble)
      (WarbleService.warbleMethod platform request tv) w := by
  rw [WarbleService.warbleMethod, Program.perform_bind]
  refine keeps_get fun w₁ later₁ kept₁ => ?_
  have extended := arrived.trans (entriesIn_later later₁)
  cases user : lookup w₁.state (str "user_" ++ request.username) with
  | none =>
    have missing : ¬ Registered (entriesIn platform w₁) request.username :=
      kept₁.not_present_of_lookup user
    refine fun _ _ _ => ⟨fun was _ => absurd (was.mono extended) missing, ?_⟩
    rintro ⟨⟩
  | some values =>
    have user : Registered (entriesIn platform w₁) request.username := kept₁.present_of_lookup user
    simp only [ne_eq, List.length_eq_zero_iff, Program.perform_bind]
    split_ifs with root
    · exact storeWarble_promises user (.inl root)
    · refine keeps_get fun w₂ later₂ kept₂ => ?_
      cases parent : lookup w₂.state request.parentId with
      | none =>
        have missing := kept₂.not_present_of_lookup parent
        refine fun _ _ _ => ⟨fun _ was => ?_, ?_⟩
        · exact absurd ((was.resolve_left root).mono
            (extended.trans (entriesIn_later later₂))) missing
        · rintro ⟨⟩
      | some others =>
        exact storeWarble_promises (user.mono (entriesIn_later later₂))
          (.inr (kept₂.present_of_lookup parent))

private theorem follow_promises (request : FollowRequest)
    (arrived : before <+: entriesIn platform w) :
    Keeping platform (.follow request)
      (Promises platform before (.follow request) .follow) (WarbleService.follow request) w := by
  simp only [WarbleService.follow, Program.perform_bind]
  refine keeps_get fun w₁ later₁ kept₁ => keeps_get fun w₂ later₂ kept₂ => ?_
  have extended₁ := arrived.trans (entriesIn_later later₁)
  have extended₂ := extended₁.trans (entriesIn_later later₂)
  cases user : lookup w₁.state (str "user_" ++ request.username) with
  | none =>
    have missing : ¬ Registered (entriesIn platform w₁) request.username :=
      kept₁.not_present_of_lookup user
    rw [if_pos (.inl rfl)]
    refine fun _ _ _ => ⟨fun was _ _ => absurd (was.mono extended₁) missing, ?_⟩
    rintro ⟨⟩
  | some values =>
    cases toFollow : lookup w₂.state (str "user_" ++ request.toFollow) with
    | none =>
      have missing : ¬ Registered (entriesIn platform w₂) request.toFollow :=
        kept₂.not_present_of_lookup toFollow
      rw [if_pos (.inr rfl)]
      refine fun _ _ _ => ⟨fun _ was _ => absurd (was.mono extended₂) missing, ?_⟩
      rintro ⟨⟩
    | some others =>
      have user : Registered (entriesIn platform w₂) request.username :=
        (kept₁.present_of_lookup user).mono (entriesIn_later later₂)
      have toFollow : Registered (entriesIn platform w₂) request.toFollow :=
        kept₂.present_of_lookup toFollow
      simp only [reduceCtorEq, or_self, ↓reduceIte]
      split_ifs with own
      · refine fun _ _ _ => ⟨fun _ _ different => absurd own different, ?_⟩
        rintro ⟨⟩
      · let first : Entry := .name .following request.username request.toFollow
        let second : Entry := .name .followedBy request.toFollow request.username
        have following : Justified platform (entriesIn platform w₂) first :=
          ⟨user, toFollow, own⟩
        have followedBy : Justified platform (entriesIn platform w₂) second :=
          ⟨toFollow, user, Ne.symm own⟩
        have isEntry := entryOf_follow platform request
        refine keeps_put_seen first (isEntry _).1 following fun _ w₃ later₃ _ put₃ => ?_
        refine keeps_put_seen second (isEntry _).2 (followedBy.mono (entriesIn_later later₃))
          fun _ w₄ later₄ _ put₄ w₅ later₅ _ => ⟨fun _ _ _ => rfl, fun _ => ⟨?_, ?_⟩⟩
        · exact mem_namesOf ((entriesIn_later (later₄.trans later₅)).subset put₃)
        · exact mem_namesOf ((entriesIn_later later₅).subset put₄)

private theorem profile_promises (request : ProfileRequest)
    (arrived : before <+: entriesIn platform w) :
    Keeping platform (.profile request)
      (Promises platform before (.profile request) .profile) (WarbleService.profile request) w := by
  rw [WarbleService.profile, Program.perform_bind]
  refine keeps_get fun w₁ later₁ kept₁ => ?_
  have extended₁ := arrived.trans (entriesIn_later later₁)
  cases user : lookup w₁.state (str "user_" ++ request.username) with
  | none =>
    have missing : ¬ Registered (entriesIn platform w₁) request.username :=
      kept₁.not_present_of_lookup user
    refine fun _ _ _ => ⟨fun was => absurd (was.mono extended₁) missing, ?_⟩
    rintro ⟨⟩
  | some values =>
    refine keeps_get fun w₂ later₂ kept₂ => keeps_get fun w₃ later₃ kept₃ w₄ later₄ _ =>
      ⟨fun _ => rfl, fun _ => ⟨_, rfl, ?_, ?_⟩⟩
    · have extended₂ := extended₁.trans (entriesIn_later later₂)
      have found := kept₂.lookup_nameKey .following request.username
      rw [show str "following_" ++ request.username = nameKey .following request.username from rfl,
        found]
      exact ⟨namesOf_mono extended₂ _ _,
        namesOf_mono (entriesIn_later (later₃.trans later₄)) _ _⟩
    · have extended₃ := extended₁.trans (entriesIn_later (later₂.trans later₃))
      have found := kept₃.lookup_nameKey .followedBy request.username
      rw [show str "followed_by_" ++ request.username = nameKey .followedBy request.username
        from rfl, found]
      exact ⟨namesOf_mono extended₃ _ _, namesOf_mono (entriesIn_later later₄) _ _⟩

private theorem read_promises (request : ReadRequest)
    (arrived : before <+: entriesIn platform w) :
    Keeping platform (.read request)
      (fun result => Promise platform before (.read request)
        (result.map id fun returned => (returned.1, .read returned.2)))
      (WarbleService.read request) w := by
  rw [WarbleService.read, Program.perform_bind]
  refine keeps_get fun w₁ later₁ kept₁ => ?_
  have extended₁ := arrived.trans (entriesIn_later later₁)
  cases user : lookup w₁.state (str "user_" ++ request.username) with
  | none =>
    have missing : ¬ Registered (entriesIn platform w₁) request.username :=
      kept₁.not_present_of_lookup user
    exact fun _ _ _ was _ => absurd (was.mono extended₁) missing
  | some values =>
    refine keeps_get fun w₂ later₂ kept₂ => ?_
    cases looked : lookup w₂.state request.warbleId with
    | none =>
      have missing := kept₂.not_present_of_lookup looked
      exact fun _ _ _ _ was => absurd (was.mono (extended₁.trans (entriesIn_later later₂))) missing
    | some others => exact fun _ _ _ => trivial

/-- The loop of `Read` ends with OK. -/
private theorem readBody_promises (request : ReadRequest) (head : WarbleService.ReadLoop) :
    Keeping platform (.read request)
      (fun result => Promise platform before (.read request)
        (result.map id fun returned => (returned.1, .read returned.2)))
      (WarbleService.readBody platform head) w := by
  obtain ⟨reply, id, found⟩ := head
  rcases found with _ | _ | ⟨serialized, _ | ⟨second, more⟩⟩
  · exact fun _ _ _ _ _ => rfl
  · exact fun _ _ _ _ _ => rfl
  · exact keeps_get fun _ _ _ _ _ _ => trivial
  · exact fun _ _ _ _ _ => rfl

private theorem program_promises (call : WarbleCall) (kept : Kept platform w)
    (arrived : before <+: entriesIn platform w) :
    Keeping platform call (Promise platform before call) (call.program platform) w := by
  cases call with
  | registerUser request =>
    exact (registerUser_promises request arrived).bind kept
      fun _ _ _ _ promised _ after _ => Promise.later promised after
  | warble request tv =>
    exact (warbleMethod_promises request tv arrived).bind kept
      fun _ _ _ _ promised _ after _ => Promise.later promised after
  | follow request =>
    exact (follow_promises request arrived).bind kept
      fun _ _ _ _ promised _ after _ => Promise.later promised after
  | read request =>
    exact (read_promises request arrived).bind kept
      fun _ _ _ _ promised _ after _ => Promise.later promised after
  | profile request =>
    exact (profile_promises request arrived).bind kept
      fun _ _ _ _ promised _ after _ => Promise.later promised after

private theorem body_promises {head : WarbleService.ReadLoop} (kept : Kept platform w)
    (promised : Promise platform before call (.inl head) w) :
    Keeping platform call (Promise platform before call) (WarbleCall.body platform head) w := by
  cases call with
  | read request =>
    exact (readBody_promises request head).bind kept
      fun _ _ _ _ promised _ after _ => Promise.later promised after
  | _ => exact promised.elim

/-- Every call that arrives after a part of a run promises what the entries of that part imply. -/
theorem promises_since {server : KeyValueStoreImpl} (empty : server.storage = ∅)
    (earlier later : List (Event WarbleCall)) :
    let middle := (warbleService platform).run (System.initial server) earlier
    System.Since (warbleService platform) (Kept platform)
      (Promise platform (entriesIn platform middle.world)) middle
      ((warbleService platform).run (System.initial server) (earlier ++ later)) := by
  refine System.guarantee_since (warbleService_guaranteed empty) earlier ?_ ?_ later
  · exact fun call w after kept => program_promises call kept (entriesIn_later after)
  · intro call result prog w after kept promised resumed
    rcases result with head | result
    · obtain rfl := Option.some.inj resumed
      exact body_promises kept promised
    · contradiction

/-- The calls that have returned, with their results. -/
def doneIn (c : ServiceConfig) : List (WarbleCall × WarbleResult) :=
  c.tasks.filterMap fun task =>
    match task.prog with
    | .ret (.inr result) => some (task.call, result)
    | _ => none

/-- Some `RegisterUser` of the username has returned, whatever its status. -/
def JoinedIn (done : List (WarbleCall × WarbleResult)) (username : Bytes) : Prop :=
  ∃ result, (.registerUser ⟨username⟩, result) ∈ done

/-- A warble with the id has been returned to the caller who posted it. -/
def PostedIn (done : List (WarbleCall × WarbleResult)) (id : Bytes) : Prop :=
  ∃ request tv posted, (.warble request tv, (Status.OK, .warble ⟨some posted⟩)) ∈ done ∧
    posted.id = id

def FollowedIn (done : List (WarbleCall × WarbleResult)) (username toFollow : Bytes) : Prop :=
  ∃ answer, (.follow ⟨username, toFollow⟩, (Status.OK, answer)) ∈ done

/-- The result takes account of everything that has been returned before. -/
def Current (done : List (WarbleCall × WarbleResult)) (call : WarbleCall)
    (result : WarbleResult) : Prop :=
  match call with
  | .registerUser request =>
    JoinedIn done request.username → result.1.code = .alreadyExists
  | .warble request _ => JoinedIn done request.username →
    (request.parentId = [] ∨ PostedIn done request.parentId) → result.1 = Status.OK
  | .follow request => JoinedIn done request.username → JoinedIn done request.toFollow →
    request.username ≠ request.toFollow → result.1 = Status.OK
  | .read request => JoinedIn done request.username → PostedIn done request.warbleId →
    result.1 = Status.OK
  | .profile request => JoinedIn done request.username →
    ∃ reply, result = (Status.OK, .profile reply) ∧
      (∀ other, FollowedIn done request.username other → other ∈ reply.following) ∧
      (∀ other, FollowedIn done other request.username → other ∈ reply.followers) ∧
      ∀ shown, (.profile request, (Status.OK, .profile shown)) ∈ done →
        shown.following <+: reply.following ∧ shown.followers <+: reply.followers

theorem mem_doneIn {c : ServiceConfig} {call : WarbleCall} {result : WarbleResult} :
    (call, result) ∈ doneIn c ↔ (⟨call, .ret (.inr result)⟩ : ServiceTask) ∈ c.tasks := by
  rw [doneIn, List.mem_filterMap]
  constructor
  · rintro ⟨⟨other, prog⟩, member, same⟩
    rcases prog with (head | ended) | ⟨op, next⟩
    · contradiction
    · obtain ⟨rfl, rfl⟩ := Prod.mk.inj (Option.some.inj same)
      exact member
    · contradiction
  · exact fun member => ⟨_, member, rfl⟩

section Observed

variable {server : KeyValueStoreImpl} (empty : server.storage = ∅)
  (events : List (Event WarbleCall))
  {username : Bytes}
include empty

/-- What has been returned was promised, and is in the store. -/
private theorem promised_of_done {call : WarbleCall} {result : WarbleResult}
    (done : (call, result) ∈
      doneIn ((warbleService platform).run (System.initial server) events)) :
    Promise platform [] call (.inr result)
      ((warbleService platform).run (System.initial server) events).world := by
  obtain ⟨index, found⟩ := List.getElem?_of_mem (mem_doneIn.mp done)
  have since := (@promises_since platform server empty [] events).arrived index _
    (Nat.zero_le index) found
  exact since _ (System.Later.refl _) (warbleService_guaranteed empty events).1

private theorem registered_of_joinedIn (joined : JoinedIn
      (doneIn ((warbleService platform).run (System.initial server) events)) username) :
    Registered (entriesIn platform
      ((warbleService platform).run (System.initial server) events).world) username := by
  obtain ⟨result, done⟩ := joined
  exact (promised_of_done empty events done).2

private theorem present_of_postedIn {id : Bytes} (posted : PostedIn
      (doneIn ((warbleService platform).run (System.initial server) events)) id) :
    Present (entriesIn platform
      ((warbleService platform).run (System.initial server) events).world) id := by
  obtain ⟨request, tv, warble, done, rfl⟩ := posted
  exact (promised_of_done empty events done).2 rfl warble rfl

private theorem namesOf_of_followedIn {toFollow : Bytes} (followed : FollowedIn
      (doneIn ((warbleService platform).run (System.initial server) events)) username toFollow) :
    let entries := entriesIn platform
      ((warbleService platform).run (System.initial server) events).world
    toFollow ∈ namesOf entries .following username ∧
      username ∈ namesOf entries .followedBy toFollow := by
  obtain ⟨answer, done⟩ := followed
  exact (promised_of_done empty events done).2 rfl

private theorem prefix_namesOf_of_done {shown : ProfileReply}
    (done : (.profile ⟨username⟩, (Status.OK, .profile shown)) ∈
      doneIn ((warbleService platform).run (System.initial server) events)) :
    let entries := entriesIn platform
      ((warbleService platform).run (System.initial server) events).world
    shown.following <+: namesOf entries .following username ∧
      shown.followers <+: namesOf entries .followedBy username := by
  obtain ⟨reply, ⟨⟩, following, followers⟩ := (promised_of_done empty events done).2 rfl
  exact ⟨following.2, followers.2⟩

end Observed

/-- Real-time order. In every run of concurrent calls, a call that arrives after others have
returned answers in accordance with all that they returned: names that were registered are taken and
may act, a warble that was posted can be replied to and a `Read` of its id succeeds, and a `Profile`
contains every follow and extends every profile that was shown. -/
theorem real_time_order {server : KeyValueStoreImpl} (empty : server.storage = ∅)
    (earlier later : List (Event WarbleCall)) :
    let middle := (warbleService platform).run (System.initial server) earlier
    let last := (warbleService platform).run (System.initial server) (earlier ++ later)
    ∀ index call result, middle.tasks.length ≤ index →
      last.tasks[index]? = some ⟨call, .ret (.inr result)⟩ →
        Current (doneIn middle) call result := by
  intro middle last index call result arrived returned
  have keeps := (@promises_since platform server empty earlier later).arrived index _ arrived
    returned
  have promise := keeps _ (System.Later.refl _) (warbleService_guaranteed empty _).1
  have registered {username : Bytes} (joined : JoinedIn (doneIn middle) username) :=
    registered_of_joinedIn empty earlier joined
  cases call with
  | registerUser request => exact fun joined => promise.1 (registered joined)
  | warble request tv =>
    intro joined parent
    exact promise.1 (registered joined) (parent.imp_right (present_of_postedIn empty earlier))
  | follow request =>
    exact fun joined other => promise.1 (registered joined) (registered other)
  | read request =>
    intro joined posted
    exact promise (registered joined) (present_of_postedIn empty earlier posted)
  | profile request =>
    intro joined
    obtain ⟨status, answer⟩ := result
    obtain rfl : status = Status.OK := promise.1 (registered joined)
    obtain ⟨reply, rfl, following, followers⟩ := promise.2 rfl
    refine ⟨reply, rfl, fun other followed => ?_, fun other followed => ?_, fun shown done => ?_⟩
    · exact following.1.subset (namesOf_of_followedIn empty earlier followed).1
    · exact followers.1.subset (namesOf_of_followedIn empty earlier followed).2
    · have shownNames := prefix_namesOf_of_done empty earlier done
      exact ⟨shownNames.1.trans following.1, shownNames.2.trans followers.1⟩

/-- "ada" and "bob" join at the same time, and "bob" follows "ada" while she posts a warble and
looks at her profile. -/
def bobFollowsAda : List (Event WarbleCall) :=
  [.invoke (.registerUser ⟨str "ada"⟩), .invoke (.registerUser ⟨str "bob"⟩), .advance 0, .advance 1,
    .advance 1, .advance 0, .invoke (.warble ⟨str "ada", str "hi", []⟩ ⟨0, 0⟩),
    .invoke (.follow ⟨str "bob", str "ada"⟩), .advance 2, .advance 3, .advance 3, .advance 2,
    .advance 3, .invoke (.profile ⟨str "ada"⟩), .advance 4, .advance 3, .advance 4, .advance 4]

/-- "ada" tries to join once more, "bob" replies to her warble, she follows him and looks at her
profile, and he reads her warble, all at the same time. -/
def bobReplies : List (Event WarbleCall) :=
  let posted := WarbleService.newWarble protobufPlatform ⟨str "ada", str "hi", []⟩ ⟨0, 0⟩
  [.invoke (.registerUser ⟨str "ada"⟩), .invoke (.warble ⟨str "bob", str "ho", posted.id⟩ ⟨0, 1⟩),
    .invoke (.follow ⟨str "ada", str "bob"⟩), .invoke (.profile ⟨str "ada"⟩),
    .invoke (.read ⟨posted.id, str "bob"⟩), .advance 5, .advance 6, .advance 7, .advance 8,
    .advance 9, .advance 6, .advance 7, .advance 8, .advance 9, .advance 6, .advance 7, .advance 8,
    .advance 9, .advance 7, .advance 9, .advance 9]

/-- Five calls have returned before the five others arrive, and all return. -/
theorem real_time_order_example :
    let middle := (warbleService protobufPlatform).run
      (System.initial ⟨∅, [], false, none⟩) bobFollowsAda
    let last := (warbleService protobufPlatform).run
      (System.initial ⟨∅, [], false, none⟩) (bobFollowsAda ++ bobReplies)
    (doneIn middle).length = 5 ∧ (doneIn last).length = 10 ∧
      ∀ index call result, middle.tasks.length ≤ index →
        last.tasks[index]? = some ⟨call, .ret (.inr result)⟩ →
          Current (doneIn middle) call result :=
  ⟨by decide +kernel, by decide +kernel, real_time_order rfl _ _⟩

end FuncWarble.Proofs
