import Mathlib
import FuncWarble.Text.Decimal

/-! # C++ output streams

A stream that is opened for appending adds what is sent to it until the device under the file
takes no more. From then on it is in a failed state and every output does nothing, and nobody is
told who does not ask. A stream whose file could not be opened has failed from the start. What a
series of outputs leaves in the file is therefore a prefix of their concatenation.
-/

namespace FuncWarble.Text

/-- What one opening of a file for appending meets: it is refused, or the device has room for so
many more bytes. -/
inductive Device where
  | refuses
  | takes (room : ℕ)
deriving DecidableEq, Repr

namespace Device

/-- The file after `bytes` have been sent to it; opening it creates it. -/
def append (file : Option Bytes) (bytes : Bytes) : Device → Option Bytes
  | refuses => file
  | takes room => some (file.getD [] ++ bytes.take room)

/-- All of `bytes` reach the file. -/
def Completes (bytes : Bytes) : Device → Prop
  | refuses => False
  | takes room => bytes.length ≤ room

instance (bytes : Bytes) (device : Device) : Decidable (device.Completes bytes) := by
  cases device <;> simp only [Completes] <;> infer_instance

theorem append_of_completes {bytes : Bytes} {device : Device} (completes : device.Completes bytes)
    (file : Option Bytes) : device.append file bytes = some (file.getD [] ++ bytes) := by
  cases device with
  | refuses => contradiction
  | takes room => rw [append, List.take_of_length_le completes]

/-- The file shows whether it got everything. -/
theorem append_eq_iff {bytes : Bytes} (nonempty : bytes ≠ []) (device : Device)
    (file : Option Bytes) :
    device.append file bytes = some (file.getD [] ++ bytes) ↔ device.Completes bytes := by
  refine ⟨fun same => ?_, fun completes => append_of_completes completes file⟩
  have positive := List.length_pos_iff.mpr nonempty
  cases device with
  | refuses =>
    have lengths := congrArg (fun file => (file.getD []).length) same
    simp only [append, Option.getD_some, List.length_append] at lengths
    omega
  | takes room =>
    have lengths := congrArg (fun file => (file.getD []).length) same
    simp only [append, Option.getD_some, List.length_append, List.length_take] at lengths
    exact (show bytes.length ≤ room by omega)

end Device

/-- `std::ofstream`: the file (`none` when missing), the room under it, and the error bits. -/
structure OFStream where
  file : Option Bytes
  room : ℕ
  fail : Bool
deriving DecidableEq, Repr

namespace OFStream

/-- Open with `std::ios_base::app`; a missing file is created. -/
def openApp (file : Option Bytes) : Device → OFStream
  | .refuses => ⟨file, 0, true⟩
  | .takes room => ⟨some (file.getD []), room, false⟩

/-- `os << text`. -/
def write (os : OFStream) (text : Bytes) : OFStream :=
  if os.fail then os
  else if text.length ≤ os.room then
    ⟨os.file.map (· ++ text), os.room - text.length, false⟩
  else ⟨os.file.map (· ++ text.take os.room), 0, true⟩

theorem foldl_write_of_fail {os : OFStream} (failed : os.fail = true) (texts : List Bytes) :
    texts.foldl write os = os := by
  induction texts with
  | nil => rfl
  | cons text texts ih => rw [List.foldl_cons, write, if_pos failed, ih]

/-- The file ends with the part of the outputs that the device had room for. -/
theorem foldl_write_file {old : Bytes} (room : ℕ) (texts : List Bytes) :
    (texts.foldl write ⟨some old, room, false⟩).file = some (old ++ texts.flatten.take room) := by
  induction texts generalizing old room with
  | nil => simp
  | cons text texts ih =>
    rw [List.foldl_cons, write, if_neg Bool.false_ne_true, List.flatten_cons, List.take_append]
    split
    · next fits =>
      rw [Option.map_some, ih, List.take_of_length_le fits, List.append_assoc]
    · next large =>
      have beyond : room ≤ text.length := (Nat.lt_of_not_le large).le
      rw [foldl_write_of_fail rfl, Nat.sub_eq_zero_of_le beyond, List.take_zero, List.append_nil]
      rfl

/-- A series of outputs appends their concatenation, as far as the device lets it. -/
theorem openApp_file (file : Option Bytes) (device : Device) (texts : List Bytes) :
    (texts.foldl write (openApp file device)).file = device.append file texts.flatten := by
  cases device with
  | refuses => rw [openApp, foldl_write_of_fail rfl, Device.append]
  | takes room => exact foldl_write_file room texts

end OFStream

end FuncWarble.Text
