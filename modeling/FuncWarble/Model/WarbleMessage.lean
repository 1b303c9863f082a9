import Mathlib
import FuncWarble.Text.Wire
import FuncWarble.Model.WarbleService

/-! # The wire form of a warble

The generated code of the message `Warble` on the protocol buffer wire format: fields at their
defaults are left out, a field that is read replaces the value it had, a timestamp is merged into
the one that is there, and fields of other numbers or wire types are skipped. The validity of the
UTF-8 in `string` fields is not checked. With libstdc++'s hash this is a platform that the
service can run on.
-/

namespace FuncWarble.Model

open Text

/-- An `int64` as a varint: its two's complement. -/
def int64Value (n : Int64) : ℕ := n.toUInt64.toNat

def int64OfValue (value : ℕ) : Int64 := (UInt64.ofNat value).toInt64

theorem int64OfValue_int64Value (n : Int64) : int64OfValue (int64Value n) = n := by
  rw [int64OfValue, int64Value, UInt64.ofNat_toNat]
  exact Int64.toInt64_toUInt64 n

/-- A `varint` field, which is left out when it has its default. -/
def int64Field (number : ℕ) (n : Int64) : Bytes :=
  if n = 0 then [] else Wire.varintField number (int64Value n)

/-- A `string`, `bytes` or message field, which is left out when it is empty. -/
def stringField (number : ℕ) (data : Bytes) : Bytes :=
  if data = [] then [] else Wire.bytesField number data

namespace Timestamp

def serialize (timestamp : Timestamp) : Bytes :=
  int64Field 1 timestamp.seconds ++ int64Field 2 timestamp.useconds

def merge (timestamp : Timestamp) (number : ℕ) (payload : Wire.Payload) : Bool × Timestamp :=
  match number, payload with
  | 1, .varint value => (true, { timestamp with seconds := int64OfValue value })
  | 2, .varint value => (true, { timestamp with useconds := int64OfValue value })
  | _, _ => (true, timestamp)

end Timestamp

namespace Warble

/-- `SerializeToString`. -/
def serialize (warble : Warble) : Bytes :=
  stringField 1 warble.username ++ (stringField 2 warble.text ++ (stringField 3 warble.id ++
    (stringField 4 warble.parentId ++
      match warble.timestamp with
      | none => []
      | some timestamp => Wire.bytesField 5 timestamp.serialize)))

def merge (warble : Warble) (number : ℕ) (payload : Wire.Payload) : Bool × Warble :=
  match number, payload with
  | 1, .lengthDelimited data => (true, { warble with username := data })
  | 2, .lengthDelimited data => (true, { warble with text := data })
  | 3, .lengthDelimited data => (true, { warble with id := data })
  | 4, .lengthDelimited data => (true, { warble with parentId := data })
  | 5, .lengthDelimited data =>
    let (understood, timestamp) :=
      Wire.mergeFrom Timestamp.merge (warble.timestamp.getD ⟨0, 0⟩) data
    (understood, { warble with timestamp := some timestamp })
  | _, _ => (true, warble)

/-- `ParseFromString`: the message is cleared and the fields of the bytes are merged into it. -/
def parse (bytes : Bytes) : Bool × Warble := Wire.mergeFrom merge Warble.empty bytes

end Warble

/-- A string field is merged, also when it was left out because the field is empty already. -/
theorem mergeFrom_stringField {M : Type} {merge : M → ℕ → Wire.Payload → Bool × M}
    {message : M} (merged : M) {number : ℕ} (positive : 0 < number) {data : Bytes}
    (understood : merge message number (.lengthDelimited data) = (true, merged))
    (default : data = [] → merged = message) (rest : Bytes) :
    Wire.mergeFrom merge message (stringField number data ++ rest) =
      Wire.mergeFrom merge merged rest := by
  rw [stringField]
  split
  · next empty => rw [List.nil_append, default empty]
  · exact Wire.mergeFrom_field merged (Wire.readField_bytesField positive data rest) understood

theorem mergeFrom_int64Field {M : Type} {merge : M → ℕ → Wire.Payload → Bool × M}
    {message : M} (merged : M) {number : ℕ} (positive : 0 < number) {n : Int64}
    (understood : merge message number (.varint (int64Value n)) = (true, merged))
    (default : n = 0 → merged = message) (rest : Bytes) :
    Wire.mergeFrom merge message (int64Field number n ++ rest) =
      Wire.mergeFrom merge merged rest := by
  rw [int64Field]
  split
  · next zero => rw [List.nil_append, default zero]
  · exact Wire.mergeFrom_field merged (Wire.readField_varintField positive _ rest) understood

theorem Timestamp.merge_serialize (timestamp : Timestamp) :
    Wire.mergeFrom Timestamp.merge ⟨0, 0⟩ timestamp.serialize = (true, timestamp) := by
  obtain ⟨seconds, useconds⟩ := timestamp
  rw [serialize, ← List.append_nil (int64Field 2 _)]
  refine (mergeFrom_int64Field ⟨seconds, 0⟩ (by decide) ?_ ?_ _).trans ?_
  · simp [merge, int64OfValue_int64Value]
  · rintro rfl
    rfl
  refine (mergeFrom_int64Field ⟨seconds, useconds⟩ (by decide) ?_ ?_ _).trans ?_
  · simp [merge, int64OfValue_int64Value]
  · rintro rfl
    rfl
  exact Wire.mergeFrom_nil _ _

/-- Parsing undoes serializing. -/
theorem Warble.parse_serialize (warble : Warble) :
    Warble.parse warble.serialize = (true, warble) := by
  obtain ⟨username, text, id, parentId, timestamp⟩ := warble
  rw [parse, serialize, Warble.empty]
  refine (mergeFrom_stringField ⟨username, [], [], [], none⟩ (by decide) rfl ?_
    _).trans ?_
  · rintro rfl
    rfl
  refine (mergeFrom_stringField ⟨username, text, [], [], none⟩ (by decide) rfl ?_
    _).trans ?_
  · rintro rfl
    rfl
  refine (mergeFrom_stringField ⟨username, text, id, [], none⟩ (by decide) rfl ?_
    _).trans ?_
  · rintro rfl
    rfl
  refine (mergeFrom_stringField ⟨username, text, id, parentId, none⟩ (by decide) rfl
    ?_ _).trans ?_
  · rintro rfl
    rfl
  cases timestamp with
  | none => exact Wire.mergeFrom_nil _ _
  | some timestamp =>
    have read := Wire.readField_bytesField (show 0 < 5 by decide) timestamp.serialize []
    rw [List.append_nil] at read
    refine (Wire.mergeFrom_field ⟨username, text, id, parentId, some timestamp⟩ read
      ?_).trans (Wire.mergeFrom_nil _ _)
    simp [merge, Timestamp.merge_serialize]

/-- The mixing step of libstdc++'s `_Hash_bytes`. -/
def shiftMix (v : UInt64) : UInt64 := v ^^^ (v >>> 47)

/-- Little-endian load of at most eight bytes. -/
def loadBytes (bytes : Bytes) : UInt64 :=
  bytes.foldr (fun b high => high <<< 8 + b.toUInt64) 0

def hashMultiplier : UInt64 := 0xc6a4a7935bd1e995

/-- The loop of `_Hash_bytes` over `count` aligned words, and the bytes behind them. -/
def hashWords : ℕ → Bytes → UInt64 → UInt64
  | 0, bytes, hash => if bytes = [] then hash else (hash ^^^ loadBytes bytes) * hashMultiplier
  | count + 1, bytes, hash =>
    let data := shiftMix (loadBytes (bytes.take 8) * hashMultiplier) * hashMultiplier
    hashWords count (bytes.drop 8) ((hash ^^^ data) * hashMultiplier)

/-- `std::hash<std::string>` of libstdc++ on a 64-bit machine. -/
def stdHash (bytes : Bytes) : UInt64 :=
  let hash := 0xc70f6907 ^^^ (UInt64.ofNat bytes.length * hashMultiplier)
  shiftMix (shiftMix (hashWords (bytes.length / 8) bytes hash) * hashMultiplier)

def protobufPlatform : Platform where
  hash := stdHash
  serializeToString := Warble.serialize
  parseFromString := Warble.parse

theorem protobufPlatform_undoes : protobufPlatform.Undoes := Warble.parse_serialize

end FuncWarble.Model
