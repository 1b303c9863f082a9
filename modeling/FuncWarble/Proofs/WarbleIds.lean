import Mathlib
import FuncWarble.Proofs.AncestorChain
import FuncWarble.Proofs.ReplyIntegrity

/-! # One id for each warble

The id of a warble is the hash of its content with the time of the post. As long as the hash does
not collide on what a run has hashed, ids are given out twice exactly when the same user posts the
same text to the same parent twice at one reading of the clock. The second `Put` then adds to the
first one, and `Read` takes two values under a key for the end of the thread.
-/

namespace FuncWarble.Proofs

open Text Model Machine

variable {platform : Platform} {past before after : List Exchange} {exchange : Exchange}
  {server server' : KeyValueStoreImpl}

/-- What is hashed for the id of a warble. -/
def hashed (platform : Platform) (warble : Warble) : Bytes :=
  platform.serializeToString { warble with id := [] }

/-- The hash does not collide on what the successful posts have hashed. -/
def NoCollision (platform : Platform) (past : List Exchange) : Prop :=
  ∀ first ∈ postedWarbles past, ∀ second ∈ postedWarbles past,
    platform.hash (hashed platform first) = platform.hash (hashed platform second) →
      hashed platform first = hashed platform second

instance (platform : Platform) (past : List Exchange) : Decidable (NoCollision platform past) :=
  inferInstanceAs (Decidable (∀ first ∈ postedWarbles past, ∀ second ∈ postedWarbles past, _ → _))

/-- No two posts returned the same id, and each id holds its warble and nothing else. -/
def StaysReadable (platform : Platform) (past : List Exchange) (server : KeyValueStoreImpl) :
    Prop :=
  ((postedWarbles past).map Warble.id).Nodup ∧ ∀ warble ∈ postedWarbles past,
    server.storage.get warble.id = [platform.serializeToString warble]

/-- The post does not repeat an earlier one: another user, text, parent or time. -/
def Fresh (before : List Exchange) : WarbleCall → Prop
  | .warble request tv => ∀ warble ∈ postedWarbles before,
      { warble with id := [] } ≠ WarbleService.warbleToReply request tv
  | _ => True

theorem decimal_inj {m n : ℕ} : decimal m = decimal n ↔ m = n := by
  refine ⟨fun same => ?_, congrArg decimal⟩
  rw [← digitsValue_decimal m, same, digitsValue_decimal]

/-- The id of a posted warble is the printed hash of its content. -/
theorem Run.id_eq (run : Run platform past server) {warble : Warble}
    (posted : warble ∈ postedWarbles past) :
    warble.id = decimal (platform.hash (hashed platform warble)).toNat :=
  (run.holdsEntries.typed.justified_of_mem (posted_iff.mp (mem_postedWarbles.mp posted))).1

/-- Two posted warbles have one id exactly when they have the same content. -/
theorem Run.id_eq_iff (undoes : platform.Undoes) (run : Run platform past server)
    (noCollision : NoCollision platform past) {first second : Warble}
    (posted : first ∈ postedWarbles past) (other : second ∈ postedWarbles past) :
    first.id = second.id ↔ { first with id := [] } = { second with id := [] } := by
  rw [run.id_eq posted, run.id_eq other, decimal_inj, UInt64.toNat_inj]
  constructor
  · intro same
    have serialized := congrArg platform.parseFromString (noCollision _ posted _ other same)
    rw [hashed, hashed, undoes, undoes] at serialized
    exact (Prod.mk.inj serialized).2
  · intro same
    rw [hashed, hashed, same]

/-- A list built by a partial function repeats nothing when no element gives what an earlier one
gave. -/
private theorem nodup_filterMap_iff {α β : Type} {f : α → Option β} {xs : List α} :
    (xs.filterMap f).Nodup ↔ ∀ before x after, xs = before ++ x :: after →
      ∀ y, f x = some y → y ∉ before.filterMap f := by
  induction xs using List.reverseRecOn with
  | nil => simp
  | append_singleton xs last ih =>
    have ends : (xs ++ [last]).filterMap f = xs.filterMap f ++ (f last).toList := by
      rw [List.filterMap_append]
      cases same : f last <;> simp [same]
    rw [ends, List.nodup_append, ih]
    constructor
    · rintro ⟨nodup, _, apart⟩ before x after split y same member
      rcases split_concat split with ⟨rfl, rfl⟩ | ⟨rest, earlier⟩
      · exact apart y member y (by simp [same]) rfl
      · exact nodup before x rest earlier y same member
    · intro all
      refine ⟨fun before x after split => all before x (after ++ [last]) (by simp [split]), ?_, ?_⟩
      · cases f last <;> simp
      · rintro y member _ isLast rfl
        exact all xs last [] rfl y (by simpa using isLast) member

/-- A successful post returns the warble of its request. -/
theorem exists_request_of_posted
    (served : Serves platform exchange.call server (exchange.status, exchange.answer) server')
    {warble : Warble} (posted : exchange.posted = some warble) : ∃ request tv,
      exchange.call = .warble request tv ∧
        warble = WarbleService.newWarble platform request tv := by
  have inside : Posted [exchange] warble := by
    rw [← mem_postedWarbles, postedWarbles, List.filterMap_cons_some posted]
    exact List.mem_cons_self
  obtain ⟨request, tv, isCall, same, _⟩ := posted_of_serves served inside
  exact ⟨request, tv, isCall, same⟩

/-- A post that repeats an earlier one is accepted. -/
theorem posted_of_repeated (run : Run platform before server) {request : WarbleRequest}
    {tv : Timestamp} (isCall : exchange.call = .warble request tv)
    (served : Serves platform exchange.call server (exchange.status, exchange.answer) server')
    {warble : Warble} (posted : warble ∈ postedWarbles before)
    (repeated : { warble with id := [] } = WarbleService.warbleToReply request tv) :
    exchange.posted = some (WarbleService.newWarble platform request tv) := by
  have held := run.holdsEntries
  obtain ⟨_, author, parent⟩ :=
    held.typed.justified_of_mem (posted_iff.mp (mem_postedWarbles.mp posted))
  have username : warble.username = request.username := congrArg Warble.username repeated
  have parentId : warble.parentId = request.parentId := congrArg Warble.parentId repeated
  rw [username] at author
  rw [parentId] at parent
  rw [isCall] at served
  obtain ⟨ok, answered⟩ := Prod.mk.inj (serves_accepted ((held.found_iff _).mpr author)
    (fun reply => (held.found_iff _).mpr (parent.resolve_left reply)) served)
  simp only [Exchange.posted, isCall, ok, answered, ↓reduceIte]

/-- One post gives out an id of its own exactly when it is fresh. -/
theorem Run.id_notMem_iff (undoes : platform.Undoes) (run : Run platform past server)
    (noCollision : NoCollision platform past) (split : past = before ++ exchange :: after) :
    (∀ id, exchange.posted.map Warble.id = some id →
        id ∉ before.filterMap fun exchange => exchange.posted.map Warble.id) ↔
      Fresh before exchange.call := by
  obtain ⟨server₁, server₂, earlier, served⟩ := run.split split
  have ids : (before.filterMap fun exchange => exchange.posted.map Warble.id) =
      (postedWarbles before).map Warble.id := by
    rw [postedWarbles, List.map_filterMap]
  have old : ∀ warble ∈ postedWarbles before, warble ∈ postedWarbles past := by
    intro warble posted
    rw [split, postedWarbles, List.filterMap_append]
    exact List.mem_append_left _ posted
  have own : ∀ warble, exchange.posted = some warble → warble ∈ postedWarbles past := by
    intro warble posted
    rw [split, postedWarbles, List.filterMap_append, List.filterMap_cons_some posted]
    exact List.mem_append_right _ List.mem_cons_self
  rw [ids]
  constructor
  · intro distinct
    cases isCall : exchange.call with
    | warble request tv =>
      intro warble posted repeated
      have accepted := posted_of_repeated earlier isCall served posted repeated
      have same := (run.id_eq_iff undoes noCollision (old _ posted) (own _ accepted)).mpr repeated
      exact distinct _ (by rw [accepted]; rfl) (List.mem_map.mpr ⟨warble, posted, same⟩)
    | _ => trivial
  · intro fresh id isId member
    obtain ⟨warble, isPosted, rfl⟩ := Option.map_eq_some_iff.mp isId
    obtain ⟨request, tv, isCall, rfl⟩ := exists_request_of_posted served isPosted
    obtain ⟨other, posted, same⟩ := List.mem_map.mp member
    rw [isCall] at fresh
    exact fresh other posted
      ((run.id_eq_iff undoes noCollision (old _ posted) (own _ isPosted)).mp same)

/-- Posted warbles stay readable exactly without repeated posts: then and only then no two posts
have returned one id and the store holds each warble alone under its id. -/
theorem warbles_stay_readable_iff (undoes : platform.Undoes) (run : Run platform past server)
    (noCollision : NoCollision platform past) :
    StaysReadable platform past server ↔ ∀ before exchange after,
      past = before ++ exchange :: after → Fresh before exchange.call := by
  have distinct : ((postedWarbles past).map Warble.id).Nodup ↔ ∀ before exchange after,
      past = before ++ exchange :: after → Fresh before exchange.call := by
    rw [postedWarbles, List.map_filterMap, nodup_filterMap_iff]
    exact forall₄_congr fun before exchange after split =>
      run.id_notMem_iff undoes noCollision split
  rw [← distinct]
  refine ⟨And.left, fun nodup => ⟨nodup, fun warble posted => ?_⟩⟩
  have once : (postedWarbles past).countP (fun other => other.id = warble.id) = 1 := by
    have counted := List.count_eq_one_of_mem nodup (List.mem_map_of_mem posted)
    rw [List.count, List.countP_map] at counted
    rw [← counted]
    exact List.countP_congr fun other _ => by simp
  exact PostedOnce.get_id run ⟨mem_postedWarbles.mp posted, once⟩

theorem warbles_stay_readable_example : ∃ server, Run protobufPlatform threadHistory server ∧
    (StaysReadable protobufPlatform threadHistory server ↔ ∀ before exchange after,
      threadHistory = before ++ exchange :: after → Fresh before exchange.call) := by
  have served : (serveAll protobufPlatform 0 (threadHistory.map Exchange.call) []
      ⟨∅, [], false, none⟩).map Prod.fst = some threadHistory := by decide
  obtain ⟨server, run⟩ := exists_run_of_serveAll served
  have noCollision : NoCollision protobufPlatform threadHistory := by decide
  exact ⟨server, run, warbles_stay_readable_iff protobufPlatform_undoes run noCollision⟩

/-- The user "a" posts the same text twice at one reading of the clock. -/
def repeatedHistory : List Exchange :=
  [⟨.registerUser ⟨str "a"⟩, Status.OK, .registerUser {}⟩,
    ⟨.warble ⟨str "a", str "hi", []⟩ ⟨0, 0⟩, Status.OK, .warble ⟨some firstWarble⟩⟩,
    ⟨.warble ⟨str "a", str "hi", []⟩ ⟨0, 0⟩, Status.OK, .warble ⟨some firstWarble⟩⟩]

/-- Both posts return the same warble, and a `Read` of its id returns nothing. -/
theorem warbles_stay_readable_fails : ∃ server, Run protobufPlatform repeatedHistory server ∧
    NoCollision protobufPlatform repeatedHistory ∧
    ¬ StaysReadable protobufPlatform repeatedHistory server ∧
    Serves protobufPlatform (.read ⟨firstWarble.id, str "a"⟩) server (Status.OK, .read ⟨[]⟩)
      server := by
  have served : (serveAll protobufPlatform 0 (repeatedHistory.map Exchange.call) []
      ⟨∅, [], false, none⟩).map Prod.fst = some repeatedHistory := by decide
  obtain ⟨server, run⟩ := exists_run_of_serveAll served
  have noCollision : NoCollision protobufPlatform repeatedHistory := by decide
  have posted : postedWarbles repeatedHistory = [firstWarble, firstWarble] := by decide
  have values : server.storage.get firstWarble.id =
      [protobufPlatform.serializeToString firstWarble,
        protobufPlatform.serializeToString firstWarble] := by
    have member : Posted repeatedHistory firstWarble :=
      mem_postedWarbles.mp (posted ▸ List.mem_cons_self)
    rw [run.get_id (member.not_isNameKey run), posted]
    simp
  have found : Found server firstWarble.id := by
    rw [Found, values]
    exact List.cons_ne_nil _ _
  have user : Found server (nameKey .user (str "a")) :=
    (run.found_user_iff _).mpr ⟨_, List.mem_cons_self, rfl, rfl⟩
  refine ⟨server, run, noCollision, fun readable => ?_, ?_⟩
  · have nodup := readable.1
    rw [posted] at nodup
    simp at nodup
  · rw [serves_read, if_neg (not_not.mpr user), if_neg (not_not.mpr found), values]
    apply Loop.yields_of_inr
    rw [readBody_turn]

end FuncWarble.Proofs
