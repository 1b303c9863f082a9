import Mathlib
import FuncWarble.Machine.Loop
import FuncWarble.Text.Decimal

/-! # The protocol buffer wire format

A message is a sequence of fields, each a tag with a payload. The writer emits base-128 numbers
and counted byte strings; the reader takes one field after the other off the bytes and merges it
into the message, leaving behind what it has merged when a field cannot be read. Reading what was
written merges the same fields in the same order. Numbers are not limited to 64 bits here, and
groups, which no current writer emits, are not read.
-/

namespace FuncWarble.Text

open Machine

namespace Wire

private def varintDigits : ℕ → ℕ → Bytes
  | 0, n => [UInt8.ofNat n]
  | fuel + 1, n =>
    if n < 128 then [UInt8.ofNat n]
    else UInt8.ofNat (n % 128 + 128) :: varintDigits fuel (n / 128)

/-- Base-128 digits, lowest first; every byte but the last has its top bit set. -/
def varint (n : ℕ) : Bytes := varintDigits n n

/-- Take one number off the front. -/
def readVarint : Bytes → Option (ℕ × Bytes)
  | [] => none
  | b :: rest =>
    if b.toNat < 128 then some (b.toNat, rest)
    else (readVarint rest).map fun (high, rest) => (b.toNat - 128 + 128 * high, rest)

private theorem readVarint_digits {fuel n : ℕ} (enough : n ≤ fuel) (rest : Bytes) :
    readVarint (varintDigits fuel n ++ rest) = some (n, rest) := by
  induction fuel generalizing n with
  | zero =>
    obtain rfl : n = 0 := by omega
    rfl
  | succ fuel ih =>
    rw [varintDigits]
    split
    · next small =>
      have byte : (UInt8.ofNat n).toNat = n := by
        rw [UInt8.toNat_ofNat']
        omega
      rw [List.singleton_append, readVarint, byte, if_pos small]
    · have byte : (UInt8.ofNat (n % 128 + 128)).toNat = n % 128 + 128 := by
        rw [UInt8.toNat_ofNat']
        omega
      rw [List.cons_append, readVarint, byte, if_neg (by omega), ih (by omega)]
      simp only [Option.map_some, Option.some.injEq, Prod.mk.injEq, and_true]
      omega

/-- A written number is read back, whatever follows it. -/
theorem readVarint_varint (n : ℕ) (rest : Bytes) : readVarint (varint n ++ rest) = some (n, rest) :=
  readVarint_digits le_rfl rest

theorem readVarint_shortens {bytes rest : Bytes} {n : ℕ}
    (read : readVarint bytes = some (n, rest)) : rest.length < bytes.length := by
  induction bytes generalizing n with
  | nil => contradiction
  | cons b bytes ih =>
    rw [readVarint] at read
    split at read
    · obtain ⟨_, rfl⟩ := Prod.mk.inj (Option.some.inj read)
      exact Nat.lt_succ_self _
    · obtain ⟨⟨high, tail⟩, inner, same⟩ := Option.map_eq_some_iff.mp read
      obtain ⟨_, rfl⟩ := Prod.mk.inj same
      exact (ih inner).trans (Nat.lt_succ_self _)

inductive Payload where
  | varint (value : ℕ)
  | fixed64 (bytes : Bytes)
  | lengthDelimited (bytes : Bytes)
  | fixed32 (bytes : Bytes)
deriving DecidableEq, Repr

def varintField (number value : ℕ) : Bytes := varint (8 * number) ++ varint value

def bytesField (number : ℕ) (data : Bytes) : Bytes :=
  varint (8 * number + 2) ++ (varint data.length ++ data)

/-- Take `count` bytes off the front. -/
def readBytes (count : ℕ) (bytes : Bytes) : Option (Bytes × Bytes) :=
  if count ≤ bytes.length then some (bytes.take count, bytes.drop count) else none

/-- The payload of a wire type. -/
def readPayload (wireType : ℕ) (bytes : Bytes) : Option (Payload × Bytes) :=
  match wireType with
  | 0 => (readVarint bytes).map fun (value, rest) => (.varint value, rest)
  | 1 => (readBytes 8 bytes).map fun (data, rest) => (.fixed64 data, rest)
  | 2 => do
    let (count, bytes) ← readVarint bytes
    let (data, rest) ← readBytes count bytes
    return (.lengthDelimited data, rest)
  | 5 => (readBytes 4 bytes).map fun (data, rest) => (.fixed32 data, rest)
  | _ => none

/-- Take one field off the front: its number, its payload and the rest. -/
def readField (bytes : Bytes) : Option (ℕ × Payload × Bytes) := do
  let (tag, bytes) ← readVarint bytes
  if tag / 8 = 0 then none
  else (readPayload (tag % 8) bytes).map fun (payload, rest) => (tag / 8, payload, rest)

private theorem readBytes_length_le {count : ℕ} {bytes data rest : Bytes}
    (read : readBytes count bytes = some (data, rest)) : rest.length ≤ bytes.length := by
  rw [readBytes] at read
  split at read
  · obtain ⟨_, rfl⟩ := Prod.mk.inj (Option.some.inj read)
    rw [List.length_drop]
    exact Nat.sub_le _ _
  · contradiction

private theorem readPayload_length_le {wireType : ℕ} {bytes rest : Bytes} {payload : Payload}
    (read : readPayload wireType bytes = some (payload, rest)) : rest.length ≤ bytes.length := by
  unfold readPayload at read
  split at read
  · obtain ⟨⟨value, tail⟩, inner, same⟩ := Option.map_eq_some_iff.mp read
    obtain ⟨_, rfl⟩ := Prod.mk.inj same
    exact (readVarint_shortens inner).le
  · obtain ⟨⟨data, tail⟩, inner, same⟩ := Option.map_eq_some_iff.mp read
    obtain ⟨_, rfl⟩ := Prod.mk.inj same
    exact readBytes_length_le inner
  · obtain ⟨⟨count, middle⟩, counted, read⟩ := Option.bind_eq_some_iff.mp read
    obtain ⟨⟨data, tail⟩, inner, same⟩ := Option.bind_eq_some_iff.mp read
    obtain ⟨_, rfl⟩ := Prod.mk.inj (Option.some.inj same)
    exact (readBytes_length_le inner).trans (readVarint_shortens counted).le
  · obtain ⟨⟨data, tail⟩, inner, same⟩ := Option.map_eq_some_iff.mp read
    obtain ⟨_, rfl⟩ := Prod.mk.inj same
    exact readBytes_length_le inner
  · contradiction

theorem readField_shortens {bytes rest : Bytes} {number : ℕ} {payload : Payload}
    (read : readField bytes = some (number, payload, rest)) : rest.length < bytes.length := by
  obtain ⟨⟨tag, middle⟩, tagged, read⟩ := Option.bind_eq_some_iff.mp read
  simp only at read
  split_ifs at read
  · obtain ⟨⟨found, tail⟩, inner, same⟩ := Option.map_eq_some_iff.mp read
    simp only [Prod.mk.injEq] at same
    obtain ⟨_, _, rfl⟩ := same
    exact (readPayload_length_le inner).trans_lt (readVarint_shortens tagged)

private theorem readField_tag {number wireType : ℕ} (positive : 0 < number) (small : wireType < 8)
    (bytes : Bytes) : readField (varint (8 * number + wireType) ++ bytes) =
      (readPayload wireType bytes).map fun (payload, rest) => (number, payload, rest) := by
  rw [readField, readVarint_varint, Option.bind_eq_bind, Option.bind_some]
  simp only
  rw [show (8 * number + wireType) / 8 = number by omega,
    show (8 * number + wireType) % 8 = wireType by omega, if_neg (by omega)]

theorem readField_varintField {number : ℕ} (positive : 0 < number) (value : ℕ) (rest : Bytes) :
    readField (varintField number value ++ rest) = some (number, .varint value, rest) := by
  rw [varintField, List.append_assoc]
  apply (@readField_tag number 0 positive (by decide) _).trans
  simp only [readPayload, readVarint_varint, Option.map_some]

theorem readField_bytesField {number : ℕ} (positive : 0 < number) (data rest : Bytes) :
    readField (bytesField number data ++ rest) = some (number, .lengthDelimited data, rest) := by
  rw [bytesField, List.append_assoc, List.append_assoc]
  apply (@readField_tag number 2 positive (by decide) _).trans
  simp [readPayload, readVarint_varint, readBytes]

variable {M : Type}

/-- Merge the next field into the message, or stop at the end or at an unreadable field. A merge
reports whether the payload of the field could be understood. -/
def mergeStep (merge : M → ℕ → Payload → Bool × M) : Bytes × M → (Bytes × M) ⊕ (Bool × M)
  | (bytes, message) =>
    if bytes = [] then .inr (true, message)
    else
      match readField bytes with
      | none => .inr (false, message)
      | some (number, payload, rest) =>
        match merge message number payload with
        | (true, message) => .inl (rest, message)
        | (false, message) => .inr (false, message)

theorem mergeStep_shortens (merge : M → ℕ → Payload → Bool × M) (s next : Bytes × M)
    (stepped : mergeStep merge s = .inl next) : next.1.length < s.1.length := by
  obtain ⟨bytes, message⟩ := s
  simp only [mergeStep] at stepped
  split_ifs at stepped
  split at stepped
  · contradiction
  · next number payload rest read =>
    split at stepped
    · obtain rfl := Sum.inl.inj stepped
      exact readField_shortens read
    · contradiction

/-- `MergeFromString`: whether all bytes could be merged, and the message in the end. -/
def mergeFrom (merge : M → ℕ → Payload → Bool × M) (message : M) (bytes : Bytes) : Bool × M :=
  Loop.total (mergeStep merge) (fun s => s.1.length) (mergeStep_shortens merge) (bytes, message)

@[simp] theorem mergeFrom_nil (merge : M → ℕ → Payload → Bool × M) (message : M) :
    mergeFrom merge message [] = (true, message) := by
  rw [mergeFrom, Loop.total_eq]
  rfl

/-- A readable field is merged, and the rest is read on from there. -/
theorem mergeFrom_field {merge : M → ℕ → Payload → Bool × M} {message : M} (merged : M)
    {bytes rest : Bytes} {number : ℕ} {payload : Payload}
    (read : readField bytes = some (number, payload, rest))
    (understood : merge message number payload = (true, merged)) :
    mergeFrom merge message bytes = mergeFrom merge merged rest := by
  have nonempty : bytes ≠ [] := by
    rintro rfl
    contradiction
  rw [mergeFrom, Loop.total_eq]
  simp only [mergeStep, nonempty, ↓reduceIte, read, understood]
  rfl

end Wire

end FuncWarble.Text
