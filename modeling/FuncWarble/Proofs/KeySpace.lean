import Mathlib
import FuncWarble.Model.WarbleService

/-! # One key space for four kinds of data

Registrations, both follow lists and warbles share one flat multimap. Their keys never collide:
the three tags of the name keys differ within their first seven bytes, and a warble id starts
with a digit. A store is described by the entries put into it, oldest first; in a `Typed` list
every entry is justified by the entries before it, which is what the checks of the service
establish for each `Put`.
-/

namespace FuncWarble.Proofs

open Text Model

/-- The families of keys that hold usernames. -/
inductive NameKind where
  | user
  | following
  | followedBy
deriving DecidableEq, Repr

def NameKind.tag : NameKind → Bytes
  | user => str "user_"
  | following => str "following_"
  | followedBy => str "followed_by_"

def nameKey (kind : NameKind) (owner : Bytes) : Bytes := kind.tag ++ owner

private theorem nameKey_front (kind : NameKind) (owner : Bytes) :
    (nameKey kind owner).take 1 = kind.tag.take 1 ∧
      (kind ≠ .user → (nameKey kind owner).take 7 = kind.tag.take 7) := by
  cases kind
  · exact ⟨rfl, fun other => absurd rfl other⟩
  · exact ⟨rfl, fun _ => rfl⟩
  · exact ⟨rfl, fun _ => rfl⟩

/-- Equal name keys are of one kind and of one owner, whatever the usernames contain. -/
theorem nameKey_inj {kind other : NameKind} {owner name : Bytes} :
    nameKey kind owner = nameKey other name ↔ kind = other ∧ owner = name := by
  constructor
  · intro same
    have first := congrArg (List.take 1) same
    have seven := congrArg (List.take 7) same
    rw [(nameKey_front kind owner).1, (nameKey_front other name).1] at first
    have kinds : kind = other := by
      cases kind <;> cases other <;> first
        | rfl
        | exact absurd first (by decide)
        | (rw [(nameKey_front _ owner).2 (by decide), (nameKey_front _ name).2 (by decide)] at seven
           exact absurd seven (by decide))
    subst kinds
    exact ⟨rfl, List.append_cancel_left same⟩
  · rintro ⟨rfl, rfl⟩
    rfl

theorem nameKey_ne {kind other : NameKind} (different : kind ≠ other) {owner name : Bytes} :
    nameKey kind owner ≠ nameKey other name := fun same => different (nameKey_inj.mp same).1

/-- The tag of a name key starts with a letter. -/
theorem exists_not_isDigit_of_nameKey (kind : NameKind) (owner : Bytes) :
    ∃ b ∈ nameKey kind owner, isDigit b = false := by
  cases kind
  · exact ⟨0x75, List.mem_append_left _ (by decide), by decide⟩
  · exact ⟨0x66, List.mem_append_left _ (by decide), by decide⟩
  · exact ⟨0x66, List.mem_append_left _ (by decide), by decide⟩

/-- A warble id is no name key. -/
theorem decimal_ne_nameKey (n : ℕ) (kind : NameKind) (owner : Bytes) :
    decimal n ≠ nameKey kind owner := by
  intro same
  obtain ⟨b, member, letter⟩ := exists_not_isDigit_of_nameKey kind owner
  rw [← same] at member
  exact absurd (isDigit_of_mem_decimal member) (by simp [letter])

def IsNameKey (key : Bytes) : Prop := ∃ kind owner, key = nameKey kind owner

theorem nameKey_ne_nil (kind : NameKind) (owner : Bytes) : nameKey kind owner ≠ [] := by
  cases kind <;> exact List.cons_ne_nil _ _

/-- What one `Put` of the service stores: a username in one of the lists of `owner`, or a warble. -/
inductive Entry where
  | name (kind : NameKind) (owner value : Bytes)
  | warble (posted : Warble)
deriving DecidableEq, Repr

namespace Entry

def key : Entry → Bytes
  | name kind owner _ => nameKey kind owner
  | warble posted => posted.id

def value (platform : Platform) : Entry → Bytes
  | name _ _ text => text
  | warble posted => platform.serializeToString posted

/-- The username that the entry adds to a list. -/
def nameIn (kind : NameKind) (owner : Bytes) : Entry → Option Bytes
  | name other who text => if other = kind ∧ who = owner then some text else none
  | warble _ => none

end Entry

def Present (entries : List Entry) (key : Bytes) : Prop := ∃ entry ∈ entries, entry.key = key

instance (entries : List Entry) (key : Bytes) : Decidable (Present entries key) :=
  inferInstanceAs (Decidable (∃ entry ∈ entries, entry.key = key))

/-- The username has an entry of its own. -/
def Registered (entries : List Entry) (username : Bytes) : Prop :=
  Present entries (nameKey .user username)

/-- What the entries before it say about an entry that is put. -/
def Justified (platform : Platform) (before : List Entry) : Entry → Prop
  | .name .user owner value => value = owner
  | .name _ owner value => Registered before owner ∧ Registered before value ∧ owner ≠ value
  | .warble warble => warble.id = WarbleService.warbleId platform warble ∧
      Registered before warble.username ∧ (warble.parentId = [] ∨ Present before warble.parentId)

/-- Every entry is justified by the entries before it. -/
inductive Typed (platform : Platform) : List Entry → Prop
  | nil : Typed platform []
  | concat {before : List Entry} {entry : Entry} (typed : Typed platform before)
    (justified : Justified platform before entry) : Typed platform (before ++ [entry])

theorem Present.mono {entries more : List Entry} {key : Bytes} (present : Present entries key)
    (extended : entries <+: more) : Present more key := by
  obtain ⟨entry, member, same⟩ := present
  exact ⟨entry, extended.subset member, same⟩

/-- Further entries do not take a justification away. -/
theorem Justified.mono {platform : Platform} {before more : List Entry} {entry : Entry}
    (justified : Justified platform before entry) (extended : before <+: more) :
    Justified platform more entry := by
  cases entry with
  | name kind owner value =>
    cases kind with
    | user => exact justified
    | following => exact ⟨justified.1.mono extended, justified.2.1.mono extended, justified.2.2⟩
    | followedBy => exact ⟨justified.1.mono extended, justified.2.1.mono extended, justified.2.2⟩
  | warble warble =>
    exact ⟨justified.1, justified.2.1.mono extended, justified.2.2.imp_right (·.mono extended)⟩

/-- An element of a list with one more element at its end is that element or one before it. -/
theorem split_concat {α : Type} {front before after : List α} {last x : α}
    (split : front ++ [last] = before ++ x :: after) :
    (front = before ∧ last = x) ∨ ∃ rest, front = before ++ x :: rest := by
  rcases List.eq_nil_or_concat after with rfl | ⟨rest, final, rfl⟩
  · obtain ⟨same, ends⟩ := List.append_inj' split rfl
    exact .inl ⟨same, (List.cons.inj ends).1⟩
  · have moved : front ++ [last] = (before ++ x :: rest) ++ [final] := by
      rw [split, List.concat_eq_append, List.append_assoc, List.cons_append]
    exact .inr ⟨rest, (List.append_inj' moved rfl).1⟩

theorem Typed.justified {platform : Platform} {entries before after : List Entry} {entry : Entry}
    (typed : Typed platform entries) (split : entries = before ++ entry :: after) :
    Justified platform before entry := by
  induction typed generalizing after with
  | nil => simp at split
  | @concat front last _ justified ih =>
    rcases split_concat split with ⟨rfl, rfl⟩ | ⟨rest, earlier⟩
    · exact justified
    · exact ih earlier

theorem Typed.justified_of_mem {platform : Platform} {entries : List Entry} {entry : Entry}
    (typed : Typed platform entries) (member : entry ∈ entries) :
    Justified platform entries entry := by
  obtain ⟨before, after, split⟩ := List.append_of_mem member
  exact (typed.justified split).mono (split ▸ List.prefix_append _ _)

/-- The id of a stored warble is a decimal number. -/
theorem Typed.warble_id {platform : Platform} {entries : List Entry} {warble : Warble}
    (typed : Typed platform entries) (member : .warble warble ∈ entries) :
    ∃ n, warble.id = decimal n :=
  ⟨_, (typed.justified_of_mem member).1⟩

theorem Typed.warble_id_not_isNameKey {platform : Platform} {entries : List Entry}
    {warble : Warble} (typed : Typed platform entries) (member : .warble warble ∈ entries) :
    ¬ IsNameKey warble.id := by
  rintro ⟨kind, owner, same⟩
  obtain ⟨n, decimalId⟩ := typed.warble_id member
  exact decimal_ne_nameKey n kind owner (decimalId.symm.trans same)

/-- The store after putting the entries one after the other. -/
def stored (platform : Platform) (entries : List Entry) : Storage :=
  entries.foldl (fun storage entry => storage.pushBack entry.key (entry.value platform)) ∅

variable {platform : Platform} {entries : List Entry}

theorem stored_concat (entries : List Entry) (entry : Entry) :
    stored platform (entries ++ [entry]) =
      (stored platform entries).pushBack entry.key (entry.value platform) := by
  simp [stored]

/-- A key holds the values of its entries, in the order of the puts. -/
theorem stored_get (entries : List Entry) (key : Bytes) : (stored platform entries).get key =
    (entries.filter fun entry => entry.key = key).map (Entry.value platform) := by
  induction entries using List.reverseRecOn with
  | nil => exact Storage.get_empty key
  | append_singleton entries entry ih =>
    rw [stored_concat, List.filter_append, List.map_append, ← ih]
    rcases eq_or_ne entry.key key with rfl | same
    · simp
    · rw [Storage.get_pushBack_of_ne _ _ (Ne.symm same)]
      simp [same]

theorem stored_get_eq_nil_iff (key : Bytes) :
    (stored platform entries).get key = [] ↔ ¬ Present entries key := by
  rw [stored_get, List.map_eq_nil_iff, List.filter_eq_nil_iff]
  simp [Present]

/-- A list of names holds the names that the entries add to it. -/
theorem Typed.get_nameKey (typed : Typed platform entries) (kind : NameKind) (owner : Bytes) :
    (stored platform entries).get (nameKey kind owner) =
      entries.filterMap (Entry.nameIn kind owner) := by
  rw [stored_get, ← List.filterMap_eq_map, List.filterMap_filter]
  refine List.filterMap_congr fun entry member => ?_
  cases entry with
  | name other name value =>
    by_cases same : other = kind ∧ name = owner <;>
      simp [Entry.key, Entry.nameIn, Entry.value, nameKey_inj, same]
  | warble warble =>
    obtain ⟨n, decimalId⟩ := typed.warble_id member
    simp [Entry.key, Entry.nameIn, decimalId, decimal_ne_nameKey]

/-- No entry has the empty key. -/
theorem Typed.not_present_nil (typed : Typed platform entries) : ¬ Present entries [] := by
  rintro ⟨entry, member, same⟩
  cases entry with
  | name kind owner value => exact nameKey_ne_nil kind owner same
  | warble warble =>
    obtain ⟨n, decimalId⟩ := typed.warble_id member
    exact decimal_ne_nil n (decimalId.symm.trans same)

/-- A user is registered exactly when the user's own entry has been put. -/
theorem Typed.registered_iff (typed : Typed platform entries) (username : Bytes) :
    Registered entries username ↔ .name .user username username ∈ entries := by
  constructor
  · rintro ⟨entry, member, same⟩
    cases entry with
    | name kind owner value =>
      obtain ⟨rfl, rfl⟩ := nameKey_inj.mp same
      obtain rfl : value = owner := typed.justified_of_mem member
      exact member
    | warble warble =>
      obtain ⟨n, decimalId⟩ := typed.warble_id member
      exact absurd (decimalId.symm.trans same) (decimal_ne_nameKey n _ _)
  · exact fun member => ⟨_, member, rfl⟩

end FuncWarble.Proofs
