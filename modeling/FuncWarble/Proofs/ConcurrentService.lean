import Mathlib
import FuncWarble.Machine.Guarantee
import FuncWarble.Proofs.SequentialCalls
import FuncWarble.Proofs.ThreadOrder

/-! # The service under concurrent calls

Between the check of a call and its puts other calls may change the store, but they only add to
it, so what was found is still there. The puts of a run, read off its trace, therefore stay a list
of justified entries, and the store is the store of these entries, in every interleaving of the
`Get`s and `Put`s. For `Read` the invariant of its loop survives the other calls as well: from each
key of a warble it went on to the parent of the first warble put there.
-/

namespace FuncWarble.Proofs

open Text Model Machine

abbrev ServiceWorld := World ClientOp WarbleCall KeyValueStoreImpl

abbrev ServiceProgram := ClientProgram (WarbleService.ReadLoop ⊕ WarbleResult)

abbrev ServiceTask := Task ClientOp.Answer WarbleCall (WarbleService.ReadLoop ⊕ WarbleResult)

abbrev ServiceConfig :=
  Config ClientOp.Answer WarbleCall (WarbleService.ReadLoop ⊕ WarbleResult) KeyValueStoreImpl

/-- The entry that a `Put` of a call stores. -/
def entryOf (platform : Platform) : WarbleCall × ClientOp → Option Entry
  | (.registerUser request, .put _ _) => some (.name .user request.username request.username)
  | (.warble request tv, .put _ _) => some (.warble (WarbleService.newWarble platform request tv))
  | (.follow request, .put key _) =>
    if key = nameKey .following request.username then
      some (.name .following request.username request.toFollow)
    else some (.name .followedBy request.toFollow request.username)
  | _ => none

def entriesIn (platform : Platform) (w : ServiceWorld) : List Entry :=
  w.trace.filterMap (entryOf platform)

/-- The operations of a call: it looks up single keys and puts entries of its own. -/
inductive OwnOp (platform : Platform) (call : WarbleCall) : ClientOp → Prop
  | get (key : Bytes) : OwnOp platform call (.get [key])
  | put (entry : Entry)
    (own : entryOf platform (call, .put entry.key (entry.value platform)) = some entry) :
    OwnOp platform call (.put entry.key (entry.value platform))

/-- The store holds the entries of the trace, and each `Put` went to the key of its entry. -/
structure Kept (platform : Platform) (w : ServiceWorld) : Prop where
  held : HoldsEntries platform (entriesIn platform w) w.state
  written : ∀ call key val, (call, .put key val) ∈ w.trace →
    ∃ entry, entryOf platform (call, .put key val) = some entry ∧ entry.key = key

/-- The keys that were looked up one after the other: each is the parent of the warble before it,
and for a key of warbles that is the first warble put there. -/
def Walked (entries : List Entry) (keys : List Bytes) : Prop :=
  keys.IsChain fun key parent => IsNameKey key ∨ RepliesTo entries key parent

/-- The keys that `Read` has looked up when its reply holds these warbles. -/
def lookedUp (start : Bytes) (warbles : List Warble) : List Bytes :=
  start :: warbles.map Warble.parentId

/-- What `Read` knows at the head of its loop, whatever other calls do. -/
structure Walking (platform : Platform) (entries : List Entry) (start : Bytes)
    (head : WarbleService.ReadLoop) : Prop where
  walked : Walked entries (lookedUp start head.reply.warbles)
  last : (lookedUp start head.reply.warbles).getLast? = some head.warbleId
  found : ∀ serialized, head.serializedWarbles = some [serialized] → IsNameKey head.warbleId ∨
    RepliesTo entries head.warbleId (platform.parseFromString serialized).2.parentId

/-- What a call that has returned, or is at the head of its loop, has done. The walk of `Read` is
known where parsing undoes serializing. -/
def Returned (platform : Platform) (call : WarbleCall)
    (result : WarbleService.ReadLoop ⊕ WarbleResult) (w : ServiceWorld) : Prop :=
  match call, result with
  | .read request, .inl head =>
    platform.Undoes → Walking platform (entriesIn platform w) request.warbleId head
  | .read request, .inr (_, .read reply) =>
    platform.Undoes → Walked (entriesIn platform w) (lookedUp request.warbleId reply.warbles)
  | _, .inl _ => False
  | _, .inr _ => True

theorem entryOf_follow (platform : Platform) (request : FollowRequest) (val : Bytes) :
    entryOf platform (.follow request, .put (nameKey .following request.username) val) =
        some (.name .following request.username request.toFollow) ∧
      entryOf platform (.follow request, .put (nameKey .followedBy request.toFollow) val) =
        some (.name .followedBy request.toFollow request.username) := by
  have other : nameKey .followedBy request.toFollow ≠ nameKey .following request.username :=
    nameKey_ne (by decide)
  simp [entryOf, other]

private theorem registerUser_uses (platform : Platform) (request : RegisteruserRequest) :
    (WarbleService.registerUser request).Uses (OwnOp platform (.registerUser request)) := by
  refine ⟨.get _, fun found => ?_⟩
  cases found with
  | some values => trivial
  | none => exact ⟨.put (.name .user request.username request.username) rfl, fun _ => trivial⟩

private theorem storeWarble_uses (platform : Platform) (request : WarbleRequest)
    (tv : Timestamp) : (WarbleService.storeWarble platform request tv).Uses
      (OwnOp platform (.warble request tv)) :=
  ⟨.put (.warble (WarbleService.newWarble platform request tv)) rfl, fun _ => trivial⟩

private theorem warbleMethod_uses (platform : Platform) (request : WarbleRequest)
    (tv : Timestamp) : (WarbleService.warbleMethod platform request tv).Uses
      (OwnOp platform (.warble request tv)) := by
  refine ⟨.get _, fun user => ?_⟩
  cases user with
  | none => trivial
  | some values =>
    change Program.Uses _ (if request.parentId.length ≠ 0 then _ else _)
    split
    · refine ⟨.get _, fun parent => ?_⟩
      cases parent with
      | none => trivial
      | some others => exact storeWarble_uses platform request tv
    · exact storeWarble_uses platform request tv

private theorem follow_uses (platform : Platform) (request : FollowRequest) :
    (WarbleService.follow request).Uses (OwnOp platform (.follow request)) := by
  refine ⟨.get _, fun user => ⟨.get _, fun toFollow => ?_⟩⟩
  change Program.Uses _ (if user = none ∨ toFollow = none then _ else _)
  split_ifs
  · trivial
  · trivial
  · have isEntry := entryOf_follow platform request
    exact ⟨.put (.name .following request.username request.toFollow) (isEntry _).1,
      fun _ => ⟨.put (.name .followedBy request.toFollow request.username) (isEntry _).2,
        fun _ => trivial⟩⟩

private theorem read_uses (platform : Platform) (request : ReadRequest) :
    (WarbleService.read request).Uses (OwnOp platform (.read request)) := by
  refine ⟨.get _, fun user => ?_⟩
  cases user with
  | none => trivial
  | some values =>
    refine ⟨.get _, fun found => ?_⟩
    cases found <;> trivial

private theorem profile_uses (platform : Platform) (request : ProfileRequest) :
    (WarbleService.profile request).Uses (OwnOp platform (.profile request)) := by
  refine ⟨.get _, fun user => ?_⟩
  cases user with
  | none => trivial
  | some values => exact ⟨.get _, fun _ => ⟨.get _, fun _ => trivial⟩⟩

theorem program_uses (platform : Platform) (call : WarbleCall) :
    (call.program platform).Uses (OwnOp platform call) := by
  cases call with
  | registerUser request => exact (registerUser_uses platform request).bind fun _ => trivial
  | warble request tv => exact (warbleMethod_uses platform request tv).bind fun _ => trivial
  | follow request => exact (follow_uses platform request).bind fun _ => trivial
  | read request => exact (read_uses platform request).bind fun _ => trivial
  | profile request => exact (profile_uses platform request).bind fun _ => trivial

theorem body_uses (platform : Platform) (call : WarbleCall) (head : WarbleService.ReadLoop) :
    (WarbleCall.body platform head).Uses (OwnOp platform call) := by
  obtain ⟨reply, id, found⟩ := head
  rcases found with _ | _ | ⟨serialized, _ | ⟨second, more⟩⟩
  · trivial
  · trivial
  · exact ⟨.get _, fun _ => trivial⟩
  · trivial

variable {platform : Platform} {call : WarbleCall} {w w' : ServiceWorld}

theorem entriesIn_later (later : System.Later w w') :
    entriesIn platform w <+: entriesIn platform w' := later.filterMap _

theorem Kept.present_of_lookup (kept : Kept platform w) {key : Bytes} {values : List Bytes}
    (looked : lookup w.state key = some values) : Present (entriesIn platform w) key := by
  obtain ⟨rfl, found⟩ := lookup_eq_some_iff.mp looked
  exact (kept.held.found_iff key).mp found

theorem Kept.get (kept : Kept platform w) (call : WarbleCall) (key : Bytes) :
    Kept platform ((warbleService platform).perform call (.get [key]) w) := by
  have entries : entriesIn platform ((warbleService platform).perform call (.get [key]) w) =
      entriesIn platform w := by
    rw [entriesIn, System.perform, List.filterMap_append]
    cases call <;> exact List.append_nil _
  have state : ((warbleService platform).perform call (.get [key]) w).state = w.state :=
    KeyValueClient.handler_get_snd [key] w.state
  constructor
  · rw [entries, state]
    exact kept.held
  · intro other key' val member
    rcases List.mem_append.mp member with old | new
    · exact kept.written other key' val old
    · exact nomatch congrArg Prod.snd (List.mem_singleton.mp new)

theorem Kept.put (kept : Kept platform w) {entry : Entry}
    (isEntry : entryOf platform (call, .put entry.key (entry.value platform)) = some entry)
    (justified : Justified platform (entriesIn platform w) entry) :
    Kept platform
      ((warbleService platform).perform call (.put entry.key (entry.value platform)) w) := by
  have entries : entriesIn platform
      ((warbleService platform).perform call (.put entry.key (entry.value platform)) w) =
      entriesIn platform w ++ [entry] := by
    rw [entriesIn, System.perform, List.filterMap_append, List.filterMap_cons_some isEntry]
    rfl
  constructor
  · rw [entries]
    exact kept.held.put justified
  · intro other key' val member
    rcases List.mem_append.mp member with old | new
    · exact kept.written other key' val old
    · obtain ⟨rfl, same⟩ := Prod.mk.inj (List.mem_singleton.mp new)
      obtain ⟨rfl, rfl⟩ := ClientOp.put.inj same
      exact ⟨entry, isEntry, rfl⟩

/-- The program of a call keeps the entries, whatever the other calls do. -/
abbrev Keeping {τ : Type} (platform : Platform) (call : WarbleCall) (post : τ → ServiceWorld → Prop)
    (prog : ClientProgram τ) (w : ServiceWorld) : Prop :=
  (warbleService platform).Keeps (Kept platform) call post prog w

section Rules

variable {τ : Type} {post : τ → ServiceWorld → Prop}

theorem keeps_get {key : Bytes} {next : Option (List Bytes) → ClientProgram τ}
    (rest : ∀ w', System.Later w w' → Kept platform w' →
      Keeping platform call post (next (lookup w'.state key)) w') :
    Keeping platform call post (.call (.get [key]) next) w := by
  intro w' later kept
  refine ⟨kept.get call key, ?_⟩
  exact (rest w' later kept).later (System.later_perform ..)

theorem keeps_put (entry : Entry) {next : Bool → ClientProgram τ}
    (isEntry : entryOf platform (call, .put entry.key (entry.value platform)) = some entry)
    (justified : Justified platform (entriesIn platform w) entry)
    (rest : ∀ answer w', System.Later w w' → Kept platform w' →
      Keeping platform call post (next answer) w') :
    Keeping platform call post (.call (.put entry.key (entry.value platform)) next) w := by
  intro w' later kept
  have performed := kept.put isEntry (justified.mono (entriesIn_later later))
  exact ⟨performed, rest _ _ (later.trans (System.later_perform ..)) performed⟩

end Rules

private theorem registerUser_keeps (request : RegisteruserRequest) :
    Keeping platform (.registerUser request) (fun _ _ => True)
      (WarbleService.registerUser request) w := by
  rw [WarbleService.registerUser, Program.perform_bind]
  refine keeps_get fun w₁ _ kept => ?_
  cases lookup w₁.state (str "user_" ++ request.username) with
  | some values => exact fun _ _ _ => trivial
  | none =>
    let entry : Entry := .name .user request.username request.username
    have justified : Justified platform (entriesIn platform w₁) entry := rfl
    exact keeps_put entry rfl justified fun _ _ _ _ _ _ _ => trivial

private theorem storeWarble_keeps {request : WarbleRequest} {tv : Timestamp}
    (user : Registered (entriesIn platform w) request.username)
    (parent : request.parentId = [] ∨ Present (entriesIn platform w) request.parentId) :
    Keeping platform (.warble request tv) (fun _ _ => True)
      (WarbleService.storeWarble platform request tv) w := by
  let entry : Entry := .warble (WarbleService.newWarble platform request tv)
  have justified : Justified platform (entriesIn platform w) entry :=
    ⟨newWarble_id request tv, user, parent⟩
  exact keeps_put entry rfl justified fun _ _ _ _ _ _ _ => trivial

private theorem warbleMethod_keeps (request : WarbleRequest) (tv : Timestamp) :
    Keeping platform (.warble request tv) (fun _ _ => True)
      (WarbleService.warbleMethod platform request tv) w := by
  rw [WarbleService.warbleMethod, Program.perform_bind]
  refine keeps_get fun w₁ _ kept₁ => ?_
  cases user : lookup w₁.state (str "user_" ++ request.username) with
  | none => exact fun _ _ _ => trivial
  | some values =>
    have user : Registered (entriesIn platform w₁) request.username := kept₁.present_of_lookup user
    simp only [ne_eq, List.length_eq_zero_iff, Program.perform_bind]
    split_ifs with root
    · exact storeWarble_keeps user (.inl root)
    · refine keeps_get fun w₂ later kept₂ => ?_
      cases parent : lookup w₂.state request.parentId with
      | none => exact fun _ _ _ => trivial
      | some others =>
        exact storeWarble_keeps (user.mono (entriesIn_later later))
          (.inr (kept₂.present_of_lookup parent))

private theorem follow_keeps (request : FollowRequest) :
    Keeping platform (.follow request) (fun _ _ => True) (WarbleService.follow request) w := by
  simp only [WarbleService.follow, Program.perform_bind]
  refine keeps_get fun w₁ _ kept₁ => keeps_get fun w₂ later kept₂ => ?_
  cases user : lookup w₁.state (str "user_" ++ request.username) with
  | none => exact fun _ _ _ => trivial
  | some values =>
    cases toFollow : lookup w₂.state (str "user_" ++ request.toFollow) with
    | none => exact fun _ _ _ => trivial
    | some others =>
      have user : Registered (entriesIn platform w₂) request.username :=
        (kept₁.present_of_lookup user).mono (entriesIn_later later)
      have toFollow : Registered (entriesIn platform w₂) request.toFollow :=
        kept₂.present_of_lookup toFollow
      simp only [reduceCtorEq, or_self, ↓reduceIte]
      split_ifs with own
      · exact fun _ _ _ => trivial
      · let first : Entry := .name .following request.username request.toFollow
        let second : Entry := .name .followedBy request.toFollow request.username
        have following : Justified platform (entriesIn platform w₂) first :=
          ⟨user, toFollow, own⟩
        have followedBy : Justified platform (entriesIn platform w₂) second :=
          ⟨toFollow, user, Ne.symm own⟩
        have isEntry := entryOf_follow platform request
        refine keeps_put first (isEntry _).1 following fun _ w₃ later₃ _ => ?_
        exact keeps_put second (isEntry _).2 (followedBy.mono (entriesIn_later later₃))
          fun _ _ _ _ _ _ _ => trivial

private theorem profile_keeps (request : ProfileRequest) :
    Keeping platform (.profile request) (fun _ _ => True) (WarbleService.profile request) w := by
  rw [WarbleService.profile, Program.perform_bind]
  refine keeps_get fun w₁ _ _ => ?_
  cases lookup w₁.state (str "user_" ++ request.username) with
  | none => exact fun _ _ _ => trivial
  | some values => exact keeps_get fun _ _ _ => keeps_get fun _ _ _ _ _ _ => trivial

theorem Walked.mono {entries more : List Entry} {keys : List Bytes} (walked : Walked entries keys)
    (extended : entries <+: more) : Walked more keys :=
  walked.imp fun _ _ => Or.imp_right (RepliesTo.mono · extended)

theorem Walking.mono {entries more : List Entry} {start : Bytes} {head : WarbleService.ReadLoop}
    (walking : Walking platform entries start head) (extended : entries <+: more) :
    Walking platform more start head where
  walked := walking.walked.mono extended
  last := walking.last
  found serialized single := (walking.found serialized single).imp_right (·.mono extended)

/-- What a single value found under a key says about the entries. -/
theorem Kept.repliesTo_of_lookup (undoes : platform.Undoes) (kept : Kept platform w)
    {key serialized : Bytes} (looked : lookup w.state key = some [serialized]) : IsNameKey key ∨
      RepliesTo (entriesIn platform w) key (platform.parseFromString serialized).2.parentId := by
  refine or_iff_not_imp_left.mpr fun notName => ?_
  have single := (lookup_eq_some_iff.mp looked).1
  rw [kept.held.store] at single
  exact repliesTo_of_single undoes notName single

/-- `Read` returns, or is at the head of its loop, with this result. -/
def ReadReturned (platform : Platform) (request : ReadRequest)
    (result : WarbleService.ReadLoop ⊕ (Status × ReadReply)) (w : ServiceWorld) : Prop :=
  Returned platform (.read request) (result.map id fun (status, reply) => (status, .read reply)) w

private theorem read_keeps (request : ReadRequest) :
    Keeping platform (.read request) (ReadReturned platform request) (WarbleService.read request)
      w := by
  rw [WarbleService.read, Program.perform_bind]
  refine keeps_get fun w₁ _ _ => ?_
  cases lookup w₁.state (str "user_" ++ request.username) with
  | none => exact fun _ _ _ _ => List.isChain_singleton _
  | some values =>
    refine keeps_get fun w₂ _ kept => ?_
    cases looked : lookup w₂.state request.warbleId with
    | none => exact fun _ _ _ _ => List.isChain_singleton _
    | some others =>
      intro w₃ later _ undoes
      have walking : Walking platform (entriesIn platform w₂) request.warbleId
          ⟨⟨[]⟩, request.warbleId, some others⟩ := by
        refine ⟨List.isChain_singleton _, rfl, fun serialized single => ?_⟩
        exact kept.repliesTo_of_lookup undoes (looked.trans single)
      exact walking.mono (entriesIn_later later)

private theorem readBody_keeps {request : ReadRequest} {head : WarbleService.ReadLoop}
    (walking : platform.Undoes →
      Walking platform (entriesIn platform w) request.warbleId head) :
    Keeping platform (.read request) (ReadReturned platform request)
      (WarbleService.readBody platform head) w := by
  have ended : ∀ w', System.Later w w' → platform.Undoes →
      Walked (entriesIn platform w') (lookedUp request.warbleId head.reply.warbles) :=
    fun w' later undoes => (walking undoes).walked.mono (entriesIn_later later)
  obtain ⟨⟨warbles⟩, id, found⟩ := head
  rcases found with _ | _ | ⟨serialized, _ | ⟨second, more⟩⟩
  · exact fun w' later _ => ended w' later
  · exact fun w' later _ => ended w' later
  · let parent := (platform.parseFromString serialized).2.parentId
    refine keeps_get fun w₁ later kept w₂ later₂ _ undoes => ?_
    have before := (walking undoes).mono (entriesIn_later later)
    have onward : Walking platform (entriesIn platform w₁) request.warbleId
        ⟨⟨warbles ++ [(platform.parseFromString serialized).2]⟩, parent,
          lookup w₁.state parent⟩ := by
      have keys : lookedUp request.warbleId
          (warbles ++ [(platform.parseFromString serialized).2]) =
          lookedUp request.warbleId warbles ++ [parent] := by
        simp [lookedUp, parent]
      constructor
      · rw [keys]
        apply before.walked.append (List.isChain_singleton _)
        intro key last parent' isParent
        obtain rfl := Option.mem_unique isParent rfl
        obtain rfl := Option.mem_unique last before.last
        exact before.found serialized rfl
      · rw [keys, List.getLast?_concat]
      · exact fun other single => kept.repliesTo_of_lookup undoes single
    exact onward.mono (entriesIn_later later₂)
  · exact fun w' later _ => ended w' later

theorem Returned.later {result : WarbleService.ReadLoop ⊕ WarbleResult}
    (returned : Returned platform call result w) (later : System.Later w w') :
    Returned platform call result w' := by
  cases call with
  | read request =>
    rcases result with head | ⟨status, answer⟩
    · exact fun undoes => Walking.mono (returned undoes) (entriesIn_later later)
    · cases answer with
      | read reply => exact fun undoes => Walked.mono (returned undoes) (entriesIn_later later)
      | _ => trivial
  | _ => cases result <;> exact returned

theorem program_keeps (call : WarbleCall) (kept : Kept platform w) :
    Keeping platform call (Returned platform call) (call.program platform) w := by
  cases call with
  | registerUser request =>
    exact (registerUser_keeps request).bind kept fun _ _ _ _ _ _ _ _ => trivial
  | warble request tv =>
    exact (warbleMethod_keeps request tv).bind kept fun _ _ _ _ _ _ _ _ => trivial
  | follow request =>
    exact (follow_keeps request).bind kept fun _ _ _ _ _ _ _ _ => trivial
  | profile request =>
    exact (profile_keeps request).bind kept fun _ _ _ _ _ _ _ _ => trivial
  | read request =>
    refine (read_keeps request).bind kept fun _ _ _ _ returned => ?_
    exact fun _ after _ => Returned.later returned after

theorem body_keeps {head : WarbleService.ReadLoop}
    (kept : Kept platform w) (returned : Returned platform call (.inl head) w) :
    Keeping platform call (Returned platform call) (WarbleCall.body platform head) w := by
  cases call with
  | read request =>
    refine (readBody_keeps returned).bind kept fun _ _ _ _ returned' => ?_
    exact fun _ after _ => Returned.later returned' after
  | _ => exact returned.elim

/-- In every interleaving the store holds the justified entries of the trace, and every `Read` has
walked from warbles to the parents of warbles. -/
theorem warbleService_guaranteed {server : KeyValueStoreImpl}
    (empty : server.storage = ∅) (events : List (Event WarbleCall)) :
    System.Guaranteed (warbleService platform) (Kept platform) (Returned platform)
      ((warbleService platform).run (System.initial server) events) := by
  refine System.guarantee (fun call w kept => program_keeps call kept) ?_ ?_ events
  · intro call result prog w kept returned resumed
    rcases result with head | result
    · obtain rfl := Option.some.inj resumed
      exact body_keeps kept returned
    · contradiction
  · exact ⟨⟨.nil, empty⟩, fun _ _ _ member => nomatch member⟩

end FuncWarble.Proofs
