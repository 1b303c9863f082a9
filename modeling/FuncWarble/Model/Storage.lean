import Mathlib
import FuncWarble.Text.Decimal

/-! # The in-memory multimap

`kvstorage::Storage` maps a key to the values put under it, oldest first. Its three methods hold
`storage_mutex_` throughout, so each is one function of the map. `Put` is the only method that
creates a key and it leaves a value under it: no stored key has an empty list, which is what lets
`Get` return the empty vector for an absent key.
-/

namespace FuncWarble.Model

open Text

/-- `Storage`: the contents of `storage_map_`. -/
structure Storage where
  storageMap : Finmap fun _ : Bytes => List Bytes
  /-- A key is created together with its first value. -/
  nonempty : ∀ key, storageMap.lookup key ≠ some []
deriving DecidableEq

namespace Storage

/-- The values stored under a key, if `storage_map_.find` finds it. -/
def find (storage : Storage) (key : Bytes) : Option (List Bytes) := storage.storageMap.lookup key

instance : EmptyCollection Storage :=
  ⟨⟨∅, fun key => by rw [Finmap.lookup_empty]; exact fun same => nomatch same⟩⟩

/-- The map after `storage_map_[key].push_back(val)`, the key being created when it is missing. -/
def pushBack (storage : Storage) (key val : Bytes) : Storage where
  storageMap := storage.storageMap.insert key ((storage.find key).getD [] ++ [val])
  nonempty other := by
    rcases eq_or_ne other key with rfl | same
    · rw [Finmap.lookup_insert]
      simp
    · rw [Finmap.lookup_insert_of_ne _ same]
      exact storage.nonempty other

/-- The map after `storage_map_.erase(key)`. -/
def erase (storage : Storage) (key : Bytes) : Storage where
  storageMap := storage.storageMap.erase key
  nonempty other := by
    rcases eq_or_ne other key with rfl | same
    · rw [Finmap.lookup_erase]
      exact fun same => nomatch same
    · rw [Finmap.lookup_erase_ne same]
      exact storage.nonempty other

/-- `Storage::Put`. It has no way to fail. -/
def put (storage : Storage) (key val : Bytes) : Bool × Storage := (true, storage.pushBack key val)

/-- `Storage::Get`: the vector under the key, or the shared empty vector. -/
def get (storage : Storage) (key : Bytes) : List Bytes := (storage.find key).getD []

/-- `Storage::DeleteKey`: an absent key counts as deleted, and a present one is erased. -/
def deleteKey (storage : Storage) (key : Bytes) : Bool × Storage :=
  match storage.find key with
  | none => (true, storage)
  | some _ => (true, storage.erase key)

theorem ext_find {left right : Storage} (same : ∀ key, left.find key = right.find key) :
    left = right := by
  cases left
  cases right
  congr
  exact Finmap.ext_lookup same

@[simp] theorem find_empty (key : Bytes) : (∅ : Storage).find key = none :=
  Finmap.lookup_empty key

theorem find_ne_nil {storage : Storage} {key : Bytes} {values : List Bytes}
    (found : storage.find key = some values) : values ≠ [] := by
  rintro rfl
  exact storage.nonempty key found

@[simp] theorem find_pushBack_self (storage : Storage) (key val : Bytes) :
    (storage.pushBack key val).find key = some (storage.get key ++ [val]) :=
  Finmap.lookup_insert _

theorem find_pushBack_of_ne (storage : Storage) {key other : Bytes} (val : Bytes)
    (ne : other ≠ key) : (storage.pushBack key val).find other = storage.find other :=
  Finmap.lookup_insert_of_ne _ ne

@[simp] theorem find_erase_self (storage : Storage) (key : Bytes) :
    (storage.erase key).find key = none := Finmap.lookup_erase _ _

theorem find_erase_of_ne (storage : Storage) {key other : Bytes} (ne : other ≠ key) :
    (storage.erase key).find other = storage.find other := Finmap.lookup_erase_ne ne

@[simp] theorem put_fst (storage : Storage) (key val : Bytes) : (storage.put key val).1 = true :=
  rfl

@[simp] theorem put_snd (storage : Storage) (key val : Bytes) :
    (storage.put key val).2 = storage.pushBack key val := rfl

@[simp] theorem deleteKey_fst (storage : Storage) (key : Bytes) :
    (storage.deleteKey key).1 = true := by
  unfold deleteKey
  split <;> rfl

/-- Deleting an absent key and erasing it are the same map. -/
@[simp] theorem deleteKey_snd (storage : Storage) (key : Bytes) :
    (storage.deleteKey key).2 = storage.erase key := by
  unfold deleteKey
  split
  · next absent =>
    apply ext_find
    intro other
    rcases eq_or_ne other key with rfl | same
    · rw [find_erase_self, absent]
    · rw [find_erase_of_ne storage same]
  · rfl

/-- The empty vector stands for absence and for nothing else. -/
theorem get_eq_nil_iff (storage : Storage) (key : Bytes) :
    storage.get key = [] ↔ storage.find key = none := by
  cases found : storage.find key with
  | none => simp [get, found]
  | some values => simpa [get, found] using find_ne_nil found

theorem find_eq_of_get (storage : Storage) (key : Bytes) :
    storage.find key = if storage.get key = [] then none else some (storage.get key) := by
  split
  · next empty => exact (get_eq_nil_iff storage key).mp empty
  · next stored =>
    cases found : storage.find key with
    | none => exact absurd ((get_eq_nil_iff storage key).mpr found) stored
    | some values => simp [get, found]

/-- A storage is known once `Get` is known at every key. -/
theorem ext_get {left right : Storage} (same : ∀ key, left.get key = right.get key) :
    left = right :=
  ext_find fun key => by rw [find_eq_of_get, find_eq_of_get, same]

@[simp] theorem get_empty (key : Bytes) : (∅ : Storage).get key = [] := by simp [get]

@[simp] theorem get_pushBack_self (storage : Storage) (key val : Bytes) :
    (storage.pushBack key val).get key = storage.get key ++ [val] := by
  simp [get]

theorem get_pushBack_of_ne (storage : Storage) {key other : Bytes} (val : Bytes)
    (ne : other ≠ key) : (storage.pushBack key val).get other = storage.get other := by
  simp only [get, find_pushBack_of_ne storage val ne]

@[simp] theorem get_erase_self (storage : Storage) (key : Bytes) :
    (storage.erase key).get key = [] := by
  simp [get]

theorem get_erase_of_ne (storage : Storage) {key other : Bytes} (ne : other ≠ key) :
    (storage.erase key).get other = storage.get other := by
  simp only [get, find_erase_of_ne storage ne]

/-- A push is visible, and so is what was pushed. -/
theorem pushBack_ne_self (storage : Storage) (key val : Bytes) :
    storage.pushBack key val ≠ storage := by
  intro same
  have lengths := congrArg (fun s => (s.get key).length) same
  simp only [get_pushBack_self, List.length_append, List.length_singleton] at lengths
  omega

theorem pushBack_inj {storage : Storage} {key val other : Bytes} :
    storage.pushBack key val = storage.pushBack key other ↔ val = other := by
  constructor
  · intro same
    have values := congrArg (fun s => s.get key) same
    simp only [get_pushBack_self, List.append_cancel_left_eq, List.cons.injEq, and_true] at values
    exact values
  · rintro rfl
    rfl

/-- Erasing is invisible exactly where nothing is stored. -/
theorem erase_eq_self_iff {storage : Storage} {key : Bytes} :
    storage.erase key = storage ↔ storage.get key = [] := by
  constructor
  · intro same
    rw [← same, get_erase_self]
  · intro empty
    apply ext_get
    intro other
    rcases eq_or_ne other key with rfl | same
    · rw [get_erase_self, empty]
    · exact get_erase_of_ne storage same

end Storage

end FuncWarble.Model
