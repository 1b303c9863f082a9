import Mathlib
import FuncWarble.Proofs.CallsReturn
import FuncWarble.Proofs.RealTimeOrder

/-! # Threads that are read among other calls

A `Read` looks up one warble after the other, and each time the store may have changed. As long as
no call names a key of usernames as an id, the reply is a thread all the same: the warble that was
first put under the id asked for, then its parent, and so on up to a root, or up to an id that more
than one warble has got.
-/

namespace FuncWarble.Proofs

open Text Model Machine

variable {platform : Platform} {call : WarbleCall} {w w' : ServiceWorld} {entries : List Entry}

theorem FirstUnder.mono {more : List Entry} {key : Bytes} {warble : Warble}
    (first : FirstUnder entries key warble) (extended : entries <+: more) :
    FirstUnder more key warble := by
  obtain ⟨before, after, rfl, isKey, fresh⟩ := first
  obtain ⟨rest, rfl⟩ := extended
  exact ⟨before, after ++ rest, by simp, isKey, fresh⟩

/-- The way from the id `start` to the id `stop`: the warbles have the ids `start` and then the
parent of the one before, and each was the first one put under its id. -/
structure Climbed (entries : List Entry) (start stop : Bytes) (warbles : List Warble) : Prop where
  linked : start :: warbles.map Warble.parentId = warbles.map Warble.id ++ [stop]
  first : ∀ warble ∈ warbles, FirstUnder entries warble.id warble

namespace Climbed

variable {start stop : Bytes} {warbles : List Warble}

theorem mono {more : List Entry} (climbed : Climbed entries start stop warbles)
    (extended : entries <+: more) : Climbed more start stop warbles :=
  ⟨climbed.linked, fun warble member => (climbed.first warble member).mono extended⟩

theorem start_here (start : Bytes) : Climbed entries start start [] :=
  ⟨rfl, List.forall_mem_nil _⟩

theorem onward (climbed : Climbed entries start stop warbles) {warble : Warble}
    (first : FirstUnder entries stop warble) :
    Climbed entries start warble.parentId (warbles ++ [warble]) := by
  obtain rfl : warble.id = stop := first.choose_spec.choose_spec.2.1
  refine ⟨?_, System.forall_mem_concat climbed.first first⟩
  rw [List.map_append, List.map_append, ← List.cons_append, climbed.linked]
  rfl

/-- Each id on the way was first put as a reply to the next one. -/
theorem isChain (climbed : Climbed entries start stop warbles) :
    (start :: warbles.map Warble.parentId).IsChain (RepliesTo entries) := by
  obtain ⟨linked, first⟩ := climbed
  induction warbles generalizing start with
  | nil => exact List.isChain_singleton _
  | cons warble warbles ih =>
    obtain ⟨own, others⟩ := List.forall_mem_cons.mp first
    simp only [List.map_cons, List.cons_append, List.cons.injEq] at linked
    obtain ⟨rfl, linked⟩ := linked
    exact .cons_cons ⟨warble, own, rfl⟩ (ih linked others)

/-- No warble comes twice. -/
theorem nodup (typed : Typed platform entries) (climbed : Climbed entries start stop warbles) :
    (warbles.map Warble.id).Nodup := by
  have distinct := Walk.nodup_of_isChain typed.acyclic climbed.isChain
  rw [climbed.linked] at distinct
  exact distinct.of_append_left

end Climbed

/-- More than one value is stored under the key. -/
def Shared (platform : Platform) (entries : List Entry) (key : Bytes) : Prop :=
  1 < ((stored platform entries).get key).length

theorem Shared.mono {more : List Entry} {key : Bytes} (shared : Shared platform entries key)
    (extended : entries <+: more) : Shared platform more key := by
  rw [Shared, stored_get, List.length_map] at shared ⊢
  exact shared.trans_le (extended.filter _).length_le

/-- What a value found under a key tells of the entries, if the key holds no usernames. -/
structure Looked (platform : Platform) (entries : List Entry) (key : Bytes)
    (found : Option (List Bytes)) : Prop where
  single : ∀ serialized, found = some [serialized] →
    FirstUnder entries key (platform.parseFromString serialized).2
  several : ∀ values, found = some values → values.length ≠ 1 → Shared platform entries key

theorem Looked.mono {more : List Entry} {key : Bytes} {found : Option (List Bytes)}
    (looked : Looked platform entries key found) (extended : entries <+: more) :
    Looked platform more key found where
  single serialized same := (looked.single serialized same).mono extended
  several values same other := (looked.several values same other).mono extended

theorem Kept.looked (undoes : platform.Undoes) (kept : Kept platform w) {key : Bytes}
    (notName : ¬ IsNameKey key) :
    Looked platform (entriesIn platform w) key (lookup w.state key) := by
  constructor
  · intro serialized found
    have single := (lookup_eq_some_iff.mp found).1
    rw [kept.held.store] at single
    obtain ⟨warble, first, rfl⟩ := exists_warble_of_single notName single
    rwa [undoes warble]
  · intro values found several
    obtain ⟨same, nonempty⟩ := lookup_eq_some_iff.mp found
    have positive := List.length_pos_iff.mpr nonempty
    rw [Shared, ← kept.held.store, same]
    omega

/-- The parent of a warble that was put is there, unless there is none. -/
theorem Kept.root_of_lookup (kept : Kept platform w) {key : Bytes} {warble : Warble}
    (first : FirstUnder (entriesIn platform w) key warble)
    (missing : lookup w.state warble.parentId = none) : warble.parentId = [] := by
  obtain ⟨before, after, split, _⟩ := first
  have justified := kept.held.typed.justified split
  refine justified.2.2.resolve_right fun present => kept.not_present_of_lookup missing ?_
  exact present.mono ⟨_, split.symm⟩

/-- What `Read` has done at the head of its loop. -/
structure Climbing (platform : Platform) (entries : List Entry) (start : Bytes)
    (head : WarbleService.ReadLoop) : Prop where
  climbed : Climbed entries start head.warbleId head.reply.warbles
  notName : ¬ IsNameKey head.warbleId
  looked : Looked platform entries head.warbleId head.serializedWarbles
  root : head.serializedWarbles = none → head.warbleId = []

theorem Climbing.mono {more : List Entry} {start : Bytes} {head : WarbleService.ReadLoop}
    (climbing : Climbing platform entries start head) (extended : entries <+: more) :
    Climbing platform more start head where
  climbed := climbing.climbed.mono extended
  notName := climbing.notName
  looked := climbing.looked.mono extended
  root := climbing.root

/-- The way that a `Read` went ends at a root, or at an id that more than one warble has. -/
def Ended (platform : Platform) (entries : List Entry) (start : Bytes) (warbles : List Warble) :
    Prop :=
  ∃ stop, Climbed entries start stop warbles ∧ (stop = [] ∨ Shared platform entries stop)

/-- A `Read` that has returned, or is at the head of its loop, was asked for no key of usernames. -/
def Threading (platform : Platform) (call : WarbleCall)
    (result : WarbleService.ReadLoop ⊕ WarbleResult) (w : ServiceWorld) : Prop :=
  match call, result with
  | .read request, .inl head => Tame w → ¬ IsNameKey request.warbleId →
      Climbing platform (entriesIn platform w) request.warbleId head
  | .read request, .inr (status, .read reply) => status = Status.OK → Tame w →
      ¬ IsNameKey request.warbleId →
        Ended platform (entriesIn platform w) request.warbleId reply.warbles
  | _, .inl _ => False
  | _, .inr _ => True

/-- The calls before were no others. -/
theorem Tame.before (tame : Tame w') (later : System.Later w w') : Tame w :=
  fun performed member => tame performed (later.subset member)

theorem Ended.mono {more : List Entry} {start : Bytes} {warbles : List Warble}
    (ended : Ended platform entries start warbles) (extended : entries <+: more) :
    Ended platform more start warbles := by
  obtain ⟨stop, climbed, reason⟩ := ended
  exact ⟨stop, climbed.mono extended, reason.imp_right fun shared => shared.mono extended⟩

theorem Threading.later {result : WarbleService.ReadLoop ⊕ WarbleResult}
    (threading : Threading platform call result w) (later : System.Later w w') :
    Threading platform call result w' := by
  have extended : entriesIn platform w <+: entriesIn platform w' := entriesIn_later later
  cases call with
  | read request =>
    rcases result with head | ⟨status, answer⟩
    · exact fun tame notName => (threading (tame.before later) notName).mono extended
    · cases answer with
      | read reply =>
        exact fun ok tame notName => (threading ok (tame.before later) notName).mono extended
      | _ => trivial
  | _ => cases result <;> exact threading

/-- `Read` returns, or is at the head of its loop, with this result. -/
abbrev ReadThreading (platform : Platform) (request : ReadRequest)
    (result : WarbleService.ReadLoop ⊕ (Status × ReadReply)) (w : ServiceWorld) : Prop :=
  Threading platform (.read request) (result.map id fun (status, reply) => (status, .read reply)) w

private theorem read_climbs (undoes : platform.Undoes) (request : ReadRequest) :
    Keeping platform (.read request) (ReadThreading platform request)
      (WarbleService.read request) w := by
  have refused (message : String) (w : ServiceWorld) : Keeping platform (.read request)
      (ReadThreading platform request)
      (.ret (.inr (⟨.notFound, message⟩, ⟨[]⟩))) w := by
    intro w' _ _ ok
    exact absurd (congrArg Status.code ok) (show StatusCode.notFound ≠ StatusCode.ok by decide)
  rw [WarbleService.read, Program.perform_bind]
  refine keeps_get fun w₁ _ _ => ?_
  cases lookup w₁.state (str "user_" ++ request.username) with
  | none => exact refused _ _
  | some values =>
    refine keeps_get fun w₂ _ kept => ?_
    cases found : lookup w₂.state request.warbleId with
    | none => exact refused _ _
    | some others =>
      intro w₃ later _ _ notName
      have looked := kept.looked undoes notName
      rw [found] at looked
      have climbing : Climbing platform (entriesIn platform w₂) request.warbleId
          ⟨⟨[]⟩, request.warbleId, some others⟩ :=
        ⟨.start_here _, notName, looked, fun none => absurd none (Option.some_ne_none _)⟩
      exact climbing.mono (entriesIn_later later)

private theorem readBody_climbs (undoes : platform.Undoes) {request : ReadRequest}
    {head : WarbleService.ReadLoop} (threading : Threading platform (.read request) (.inl head) w) :
    Keeping platform (.read request) (ReadThreading platform request)
      (WarbleService.readBody platform head) w := by
  obtain ⟨⟨warbles⟩, id, found⟩ := head
  have ended (w' : ServiceWorld) (later : System.Later w w')
      (reason : ∀ {entries}, Climbing platform entries request.warbleId ⟨⟨warbles⟩, id, found⟩ →
        id = [] ∨ Shared platform entries id) :
      ReadThreading platform request (.inr (Status.OK, ⟨warbles⟩)) w' := by
    intro _ tame notName
    have climbing := threading.later later tame notName
    exact ⟨id, climbing.climbed, reason climbing⟩
  rcases found with _ | _ | ⟨serialized, _ | ⟨second, more⟩⟩
  · exact fun w' later _ => ended w' later fun climbing => .inl (climbing.root rfl)
  · exact fun w' later _ => ended w' later fun climbing =>
      .inr (climbing.looked.several [] rfl (by simp))
  · refine keeps_get fun w₁ later kept w₂ later₂ _ tame notName => ?_
    have before := threading.later later (tame.before later₂) notName
    have first := before.looked.single serialized rfl
    have parentNotName : ¬ IsNameKey (platform.parseFromString serialized).2.parentId :=
      (tame.before later₂).not_isNameKey ⟨_, first, rfl⟩
    have onward : Climbing platform (entriesIn platform w₁) request.warbleId
        ⟨⟨warbles ++ [(platform.parseFromString serialized).2]⟩,
          (platform.parseFromString serialized).2.parentId,
          lookup w₁.state (platform.parseFromString serialized).2.parentId⟩ :=
      ⟨before.climbed.onward first, parentNotName, kept.looked undoes parentNotName,
        kept.root_of_lookup first⟩
    exact onward.mono (entriesIn_later later₂)
  · exact fun w' later _ => ended w' later fun climbing =>
      .inr (climbing.looked.several _ rfl (by simp))

private theorem program_climbs (undoes : platform.Undoes) (call : WarbleCall)
    (kept : Kept platform w) :
    Keeping platform call (Threading platform call) (call.program platform) w := by
  cases call with
  | read request =>
    refine (read_climbs undoes request).bind kept fun _ _ _ _ threading => ?_
    exact fun _ after _ => Threading.later threading after
  | _ =>
    refine (program_keeps _ kept).weaken fun result _ _ _ returned => ?_
    rcases result with head | result
    · exact returned
    · trivial

private theorem body_climbs (undoes : platform.Undoes) {head : WarbleService.ReadLoop}
    (kept : Kept platform w) (threading : Threading platform call (.inl head) w) :
    Keeping platform call (Threading platform call) (WarbleCall.body platform head) w := by
  cases call with
  | read request =>
    refine (readBody_climbs undoes threading).bind kept fun _ _ _ _ threading' => ?_
    exact fun _ after _ => Threading.later threading' after
  | _ => exact threading.elim

theorem warbleService_threads (undoes : platform.Undoes) {server : KeyValueStoreImpl}
    (empty : server.storage = ∅) (events : List (Event WarbleCall)) :
    System.Guaranteed (warbleService platform) (Kept platform) (Threading platform)
      ((warbleService platform).run (System.initial server) events) := by
  refine System.guarantee (fun call w kept => program_climbs undoes call kept) ?_ ?_ events
  · intro call result prog w kept threading resumed
    rcases result with head | result
    · obtain rfl := Option.some.inj resumed
      exact body_climbs undoes kept threading
    · contradiction
  · exact ⟨⟨.nil, empty⟩, fun _ _ _ member => nomatch member⟩

/-- Every `Read` that succeeds among other calls returns a thread, as long as no call names a key of
usernames as an id: the first warble put under the id asked for and its ancestors in order, none of
them twice, up to a root or to an id under which more than one warble is stored. -/
theorem concurrent_threads (undoes : platform.Undoes) {server : KeyValueStoreImpl}
    (empty : server.storage = ∅) {events : List (Event WarbleCall)}
    (names : ∀ call, .invoke call ∈ events → NamesNoList call) :
    let last := (warbleService platform).run (System.initial server) events
    ∀ request reply, (⟨.read request, .ret (.inr (Status.OK, .read reply))⟩ : ServiceTask) ∈
        last.tasks →
      (reply.warbles.map Warble.id).Nodup ∧
        ∃ stop, Climbed (entriesIn platform last.world) request.warbleId stop reply.warbles ∧
          (stop = [] ∨ 1 < (last.world.state.storage.get stop).length) := by
  intro last request reply returned
  obtain ⟨kept, tasks⟩ := warbleService_threads undoes empty events
  obtain ⟨calls, performed⟩ := @System.run_calls _ _ _ _ _ (warbleService platform) NamesNoList
    server events names
  obtain ⟨stop, climbed, reason⟩ := tasks _ returned _ (System.Later.refl _) kept rfl performed
    (calls _ returned)
  rw [Shared, ← kept.held.store] at reason
  exact ⟨climbed.nodup kept.held.typed, stop, climbed, reason⟩

/-- A reply is read while its root is posted once more between two look-ups. -/
def rootPostedAgain : List (Event WarbleCall) :=
  readStarts ++ [.advance 3, .advance 3, .invoke (.warble rootPost ⟨0, 0⟩), .advance 4, .advance 3,
    .advance 3, .advance 4, .advance 3, .advance 3, .advance 3]

private theorem rootPostedAgain_names {call : WarbleCall}
    (member : .invoke call ∈ rootPostedAgain) : NamesNoList call := by
  rcases List.mem_append.mp member with early | late
  · obtain ⟨k, found⟩ := List.getElem?_of_mem early
    exact readAmongPosts_names (show readAmongPosts k = _ by rw [readAmongPosts, found])
  · simp only [List.mem_cons, Event.invoke.injEq, reduceCtorEq, List.not_mem_nil, false_or,
      or_false] at late
    subst late
    rintro ⟨kind, owner, same⟩
    exact nameKey_ne_nil kind owner same.symm

private theorem rootPostedAgain_done : (.read ⟨answerWarble.id, str "a"⟩,
    Status.OK, .read ⟨[answerWarble, rootWarble]⟩) ∈ doneIn ((warbleService protobufPlatform).run
      (System.initial ⟨∅, [], false, none⟩) rootPostedAgain) := by
  decide +kernel

theorem concurrent_threads_example :
    let last := (warbleService protobufPlatform).run (System.initial ⟨∅, [], false, none⟩)
      rootPostedAgain
    (⟨.read ⟨answerWarble.id, str "a"⟩,
        .ret (.inr (Status.OK, .read ⟨[answerWarble, rootWarble]⟩))⟩ : ServiceTask) ∈ last.tasks ∧
      ([answerWarble, rootWarble].map Warble.id).Nodup ∧
        ∃ stop, Climbed (entriesIn protobufPlatform last.world) answerWarble.id stop
          [answerWarble, rootWarble] ∧
            (stop = [] ∨ 1 < (last.world.state.storage.get stop).length) := by
  have returned := mem_doneIn.mp rootPostedAgain_done
  exact ⟨returned, concurrent_threads protobufPlatform_undoes rfl
    (fun call member => rootPostedAgain_names member) _ _ returned⟩

end FuncWarble.Proofs
