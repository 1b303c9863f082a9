import Mathlib
import FuncWarble.Machine.Walk
import FuncWarble.Proofs.KeySpace

/-! # Parent links and the order of the puts

`Read` follows a link from every key that holds a single value to the parent named in that value.
A warble that is alone under its id was the first one put there, and its parent was there before
it. Among warbles every link therefore leads back in the order of the first puts, and a cycle of
links passes through a key that holds usernames.
-/

namespace FuncWarble.Proofs

open Text Model Machine

/-- The key that `Read` looks up after `key`, if it looks up another one. -/
def parentLink (platform : Platform) (storage : Storage) (key : Bytes) : Option Bytes :=
  match storage.get key with
  | [serialized] => some (platform.parseFromString serialized).2.parentId
  | _ => none

theorem parentLink_eq_some_iff {platform : Platform} {storage : Storage} {key parent : Bytes} :
    parentLink platform storage key = some parent ↔ ∃ serialized, storage.get key = [serialized] ∧
      (platform.parseFromString serialized).2.parentId = parent := by
  unfold parentLink
  split
  · next serialized same => simp [same]
  · next several =>
    simp only [reduceCtorEq, false_iff, not_exists, not_and]
    exact fun serialized same => absurd same (several serialized)

/-- Only finitely many keys have a link. -/
theorem finite_links (platform : Platform) (storage : Storage) :
    {key | parentLink platform storage key ≠ none}.Finite := by
  refine storage.storageMap.keys.finite_toSet.subset fun key linked => ?_
  rw [Finset.mem_coe, Finmap.mem_keys, ← Finmap.lookup_isSome]
  by_contra absent
  have empty : storage.get key = [] := by
    rw [Storage.get_eq_nil_iff, Storage.find]
    exact Option.not_isSome_iff_eq_none.mp absent
  exact linked (by simp [parentLink, empty])

variable {platform : Platform} {entries : List Entry}

/-- The first entry put under the key is this warble. -/
def FirstUnder (entries : List Entry) (key : Bytes) (warble : Warble) : Prop :=
  ∃ before after, entries = before ++ .warble warble :: after ∧ warble.id = key ∧
    ¬ Present before key

/-- The first entry put under `key` is a warble with that parent. -/
def RepliesTo (entries : List Entry) (key parent : Bytes) : Prop :=
  ∃ warble, FirstUnder entries key warble ∧ warble.parentId = parent

/-- The place of the key in the order of the first puts; zero for a key that was never put. -/
def rank (entries : List Entry) (key : Bytes) : ℕ :=
  if Present entries key then entries.findIdx (fun entry => entry.key = key) + 1 else 0

theorem RepliesTo.mono {more : List Entry} {key parent : Bytes}
    (replies : RepliesTo entries key parent) (extended : entries <+: more) :
    RepliesTo more key parent := by
  obtain ⟨warble, ⟨before, after, rfl, isKey, fresh⟩, isParent⟩ := replies
  obtain ⟨rest, rfl⟩ := extended
  exact ⟨warble, ⟨before, after ++ rest, by simp, isKey, fresh⟩, isParent⟩

theorem rank_of_not_present {key : Bytes} (absent : ¬ Present entries key) :
    rank entries key = 0 := if_neg absent

theorem rank_le_of_present {before : List Entry} {key : Bytes} (present : Present before key)
    (after : List Entry) : rank (before ++ after) key ≤ before.length := by
  obtain ⟨entry, member, same⟩ := present
  have inside : before.findIdx (fun other => other.key = key) < before.length :=
    List.findIdx_lt_length_of_exists ⟨entry, member, decide_eq_true same⟩
  rw [rank, if_pos ⟨entry, List.mem_append_left after member, same⟩, List.findIdx_append,
    if_pos inside]
  exact inside

theorem rank_of_fresh {before after : List Entry} {entry : Entry}
    (fresh : ¬ Present before entry.key) :
    rank (before ++ entry :: after) entry.key = before.length + 1 := by
  have none : before.findIdx (fun other => other.key = entry.key) = before.length := by
    rw [List.findIdx_eq_length]
    intro other member
    exact decide_eq_false fun same => fresh ⟨other, member, same⟩
  have present : Present (before ++ entry :: after) entry.key := ⟨entry, by simp, rfl⟩
  rw [rank, if_pos present, List.findIdx_append, none, if_neg (lt_irrefl _), List.findIdx_cons]
  simp

/-- A parent comes before its replies. -/
theorem Typed.rank_lt_of_repliesTo (typed : Typed platform entries) {key parent : Bytes}
    (replies : RepliesTo entries key parent) : rank entries parent < rank entries key := by
  obtain ⟨warble, ⟨before, after, split, rfl, fresh⟩, rfl⟩ := replies
  have own : rank entries warble.id = before.length + 1 := by
    rw [split]
    exact @rank_of_fresh before after (.warble warble) fresh
  rw [own, Nat.lt_succ_iff]
  rcases (typed.justified split).2.2 with root | present
  · rw [root, rank_of_not_present typed.not_present_nil]
    exact Nat.zero_le _
  · rw [split]
    exact rank_le_of_present present _

theorem Typed.rank_lt_of_path (typed : Typed platform entries) {key last : Bytes}
    (path : Relation.TransGen (RepliesTo entries) key last) :
    rank entries last < rank entries key := by
  induction path with
  | single replies => exact typed.rank_lt_of_repliesTo replies
  | tail _ replies ih => exact (typed.rank_lt_of_repliesTo replies).trans ih

theorem Typed.acyclic (typed : Typed platform entries) (key : Bytes) :
    ¬ Relation.TransGen (RepliesTo entries) key key :=
  fun cycle => lt_irrefl _ (typed.rank_lt_of_path cycle)

/-- A single value under a key is the value of the one entry of that key. -/
theorem exists_entry_of_single {key serialized : Bytes}
    (single : (stored platform entries).get key = [serialized]) :
    ∃ before entry after, entries = before ++ entry :: after ∧ entry.value platform = serialized ∧
      ¬ Present before key ∧ ∀ other ∈ entries, other.key = key ↔ other = entry := by
  rw [stored_get, List.map_eq_singleton_iff] at single
  obtain ⟨entry, filtered, same⟩ := single
  obtain ⟨before, after, split, others, isKey, _⟩ := List.filter_eq_cons_iff.mp filtered
  refine ⟨before, entry, after, split, same, ?_, fun other member => ⟨fun otherKey => ?_, ?_⟩⟩
  · rintro ⟨other, member, otherKey⟩
    exact others other member (decide_eq_true otherKey)
  · have kept : other ∈ entries.filter fun entry => entry.key = key :=
      List.mem_filter.mpr ⟨member, decide_eq_true otherKey⟩
    rw [filtered] at kept
    exact List.mem_singleton.mp kept
  · rintro rfl
    exact of_decide_eq_true isKey

/-- A single value under a key that holds no usernames is the first warble of that key. -/
theorem exists_warble_of_single {key serialized : Bytes} (notName : ¬ IsNameKey key)
    (single : (stored platform entries).get key = [serialized]) :
    ∃ warble, FirstUnder entries key warble ∧ platform.serializeToString warble = serialized := by
  obtain ⟨before, entry, after, split, same, fresh, only⟩ := exists_entry_of_single single
  have isKey : entry.key = key := (only entry (by simp [split])).mpr rfl
  cases entry with
  | name kind owner value => exact absurd ⟨kind, owner, isKey.symm⟩ notName
  | warble warble => exact ⟨warble, ⟨before, after, split, isKey, fresh⟩, same⟩

theorem repliesTo_of_single (undoes : platform.Undoes) {key serialized : Bytes}
    (notName : ¬ IsNameKey key) (single : (stored platform entries).get key = [serialized]) :
    RepliesTo entries key (platform.parseFromString serialized).2.parentId := by
  obtain ⟨warble, first, rfl⟩ := exists_warble_of_single notName single
  exact ⟨warble, first, by rw [undoes warble]⟩

/-- A cycle of links passes through a key of usernames. -/
theorem Typed.exists_nameKey_of_cycle (undoes : platform.Undoes) (typed : Typed platform entries)
    {key : Bytes} (cycle : Walk.OnCycle (parentLink platform (stored platform entries)) key) :
    ∃ other, Walk.Reaches (parentLink platform (stored platform entries)) key other ∧
      IsNameKey other := by
  by_contra none
  have replies : ∀ {middle last},
      Walk.Reaches (parentLink platform (stored platform entries)) key middle →
      Walk.Link (parentLink platform (stored platform entries)) middle last →
      RepliesTo entries middle last := by
    intro middle last reaches link
    obtain ⟨serialized, single, rfl⟩ := parentLink_eq_some_iff.mp link
    exact repliesTo_of_single undoes (fun isName => none ⟨middle, reaches, isName⟩) single
  have path : ∀ {last},
      Relation.TransGen (Walk.Link (parentLink platform (stored platform entries))) key last →
      Relation.TransGen (RepliesTo entries) key last := by
    intro last linked
    induction linked with
    | single link => exact .single (replies .refl link)
    | tail before link ih => exact ih.tail (replies before.to_reflTransGen link)
  exact typed.acyclic key (path cycle)

end FuncWarble.Proofs
