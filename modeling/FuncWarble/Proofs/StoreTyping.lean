import Mathlib
import FuncWarble.Model.WarbleMessage
import FuncWarble.Proofs.ConcurrentService

/-! # The store is typed

Four kinds of keys share the store, and every key is of exactly one of them. In every interleaving
each value is what its kind of key is for: names are those of registered users, and a warble lies
under the id that its own content hashes to.
-/

namespace FuncWarble.Proofs

open Text Model Machine

inductive KeyKind where
  | name (kind : NameKind)
  | warble
deriving DecidableEq, Repr

/-- The keys of a kind: those with its tag, or the strings of decimal digits. -/
def KeyKind.Has : KeyKind → Bytes → Prop
  | name kind, key => ∃ owner, key = nameKey kind owner
  | warble, key => key ≠ [] ∧ ∀ b ∈ key, isDigit b = true

/-- The user's own key is present. -/
def RegisteredAt (server : KeyValueStoreImpl) (username : Bytes) : Prop :=
  Found server (nameKey .user username)

/-- What a key of the kind may hold. -/
def WellFormed (platform : Platform) (server : KeyValueStoreImpl) (key : Bytes) : KeyKind → Prop
  | .name .user => ∀ u, key = nameKey .user u → ∀ value ∈ server.storage.get key, value = u
  | .name .following => ∀ u, key = nameKey .following u → RegisteredAt server u ∧
      ∀ value ∈ server.storage.get key, RegisteredAt server value ∧ value ≠ u
  | .name .followedBy => ∀ v, key = nameKey .followedBy v → RegisteredAt server v ∧
      ∀ value ∈ server.storage.get key, RegisteredAt server value ∧ value ≠ v
  | .warble => ∀ value ∈ server.storage.get key, ∃ warble,
      value = platform.serializeToString warble ∧ warble.id = key ∧
        RegisteredAt server warble.username ∧
        decimal (platform.hash (platform.serializeToString { warble with id := [] })).toNat = key

variable {platform : Platform} {entries : List Entry} {server : KeyValueStoreImpl}

/-- No key is of two kinds. -/
theorem KeyKind.Has.unique {kind other : KeyKind} {key : Bytes} (first : kind.Has key)
    (second : other.Has key) : kind = other := by
  cases kind with
  | name kind =>
    obtain ⟨owner, rfl⟩ := first
    cases other with
    | name other =>
      obtain ⟨name, same⟩ := second
      rw [(nameKey_inj.mp same).1]
    | warble =>
      obtain ⟨b, member, letter⟩ := exists_not_isDigit_of_nameKey kind owner
      exact absurd (second.2 b member) (by simp [letter])
  | warble =>
    cases other with
    | name other =>
      obtain ⟨owner, rfl⟩ := second
      obtain ⟨b, member, letter⟩ := exists_not_isDigit_of_nameKey other owner
      exact absurd (first.2 b member) (by simp [letter])
    | warble => rfl

/-- Every entry has a key of one of the kinds. -/
theorem Typed.exists_kind (typed : Typed platform entries) {entry : Entry}
    (member : entry ∈ entries) : ∃ kind : KeyKind, kind.Has entry.key := by
  cases entry with
  | name kind owner value => exact ⟨.name kind, owner, rfl⟩
  | warble posted =>
    obtain ⟨n, decimalId⟩ := typed.warble_id member
    refine ⟨.warble, ?_⟩
    rw [Entry.key, decimalId]
    exact ⟨decimal_ne_nil n, fun b digit => isDigit_of_mem_decimal digit⟩

theorem HoldsEntries.mem_get_iff (held : HoldsEntries platform entries server)
    {key value : Bytes} : value ∈ server.storage.get key ↔
      ∃ entry ∈ entries, entry.key = key ∧ entry.value platform = value := by
  rw [held.store, stored_get, List.mem_map]
  simp [and_assoc]

/-- The entries of a list of names are names of that list. -/
theorem HoldsEntries.mem_name (held : HoldsEntries platform entries server) {kind : NameKind}
    {owner value : Bytes} (member : value ∈ server.storage.get (nameKey kind owner)) :
    Justified platform entries (.name kind owner value) := by
  obtain ⟨entry, inside, same, rfl⟩ := held.mem_get_iff.mp member
  cases entry with
  | name other name text =>
    obtain ⟨rfl, rfl⟩ := nameKey_inj.mp same
    exact held.typed.justified_of_mem inside
  | warble posted =>
    exact absurd ⟨kind, owner, same⟩ (held.typed.warble_id_not_isNameKey inside)

private theorem HoldsEntries.followList (held : HoldsEntries platform entries server)
    {kind : NameKind} (follows : kind ≠ .user) {owner : Bytes}
    (found : Found server (nameKey kind owner)) : RegisteredAt server owner ∧
      ∀ value ∈ server.storage.get (nameKey kind owner),
        RegisteredAt server value ∧ value ≠ owner := by
  have justified : ∀ value ∈ server.storage.get (nameKey kind owner),
      RegisteredAt server owner ∧ RegisteredAt server value ∧ value ≠ owner := by
    intro value member
    simp only [RegisteredAt, held.found_iff]
    have named := held.mem_name member
    cases kind with
    | user => contradiction
    | following => exact ⟨named.1, named.2.1, named.2.2.symm⟩
    | followedBy => exact ⟨named.1, named.2.1, named.2.2.symm⟩
  obtain ⟨value, member⟩ := List.exists_mem_of_ne_nil _ found
  exact ⟨(justified value member).1, fun value member => (justified value member).2⟩

/-- Justified entries make well-formed keys. -/
theorem HoldsEntries.wellFormed (held : HoldsEntries platform entries server) {key : Bytes}
    (found : Found server key) {kind : KeyKind} (has : kind.Has key) :
    WellFormed platform server key kind := by
  cases kind with
  | name kind =>
    cases kind with
    | user =>
      rintro u rfl value member
      exact held.mem_name member
    | following =>
      rintro u rfl
      exact held.followList (by decide) found
    | followedBy =>
      rintro v rfl
      exact held.followList (by decide) found
  | warble =>
    intro value member
    obtain ⟨entry, inside, rfl, rfl⟩ := held.mem_get_iff.mp member
    cases entry with
    | name other owner text =>
      have isName : (KeyKind.name other).Has (nameKey other owner) := ⟨owner, rfl⟩
      exact nomatch isName.unique has
    | warble posted =>
      obtain ⟨own, author, _⟩ := held.typed.justified_of_mem inside
      exact ⟨posted, rfl, rfl, (held.found_iff _).mpr author, own.symm⟩

/-- Store typing and ownership. In every interleaving of calls on an empty store, every key that
is present is of exactly one kind and holds what that kind of key is for. -/
theorem store_typed {server : KeyValueStoreImpl} (empty : server.storage = ∅)
    (events : List (Event WarbleCall)) :
    let c := (warbleService platform).run (System.initial server) events
    ∀ key, Found c.world.state key → (∃! kind : KeyKind, kind.Has key) ∧
      ∀ kind : KeyKind, kind.Has key → WellFormed platform c.world.state key kind := by
  intro c key found
  have held := (@warbleService_guaranteed platform server empty events).1.held
  refine ⟨?_, fun kind has => held.wellFormed found has⟩
  obtain ⟨entry, member, rfl⟩ := (held.found_iff key).mp found
  obtain ⟨kind, has⟩ := held.typed.exists_kind member
  exact ⟨kind, has, fun other second => second.unique has⟩

/-- "bob" follows "ada" while she posts a warble. -/
def followDuringPost : List (Event WarbleCall) :=
  [.invoke (.registerUser ⟨str "ada"⟩), .invoke (.registerUser ⟨str "bob"⟩), .advance 0, .advance 1,
    .advance 1, .advance 0, .invoke (.warble ⟨str "ada", str "hi", []⟩ ⟨0, 0⟩),
    .invoke (.follow ⟨str "bob", str "ada"⟩), .advance 3, .advance 2, .advance 3, .advance 3,
    .advance 2, .advance 3]

/-- Keys of all four kinds are there. -/
theorem store_typed_example :
    let c := (warbleService protobufPlatform).run (System.initial ⟨∅, [], false, none⟩)
      followDuringPost
    let posted := WarbleService.newWarble protobufPlatform ⟨str "ada", str "hi", []⟩ ⟨0, 0⟩
    (Found c.world.state (nameKey .user (str "ada")) ∧
      Found c.world.state (nameKey .following (str "bob")) ∧
      Found c.world.state (nameKey .followedBy (str "ada")) ∧ Found c.world.state posted.id) ∧
    ∀ key, Found c.world.state key → (∃! kind : KeyKind, kind.Has key) ∧
      ∀ kind : KeyKind, kind.Has key → WellFormed protobufPlatform c.world.state key kind :=
  ⟨by decide +kernel, store_typed rfl _⟩

end FuncWarble.Proofs
