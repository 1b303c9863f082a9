import Mathlib
import FuncWarble.Text.Stream

/-! # Printed signed numbers

`std::to_string` of a 64-bit number and `atoi`. `strtol` clamps what it reads to a `long` of 64
bits, so it reads a printed number back whatever follows it. `atoi` converts the `long` to an
`int`, which keeps the low 32 bits: the number comes back exactly if it fits them.
-/

namespace FuncWarble.Text

/-- `std::to_string(n)`. -/
def toStringInt64 (n : Int64) : Bytes :=
  if n.toInt < 0 then 45 :: decimal n.toInt.natAbs else decimal n.toInt.natAbs

/-- `strtol(s, nullptr, 10)`: zero without a conversion, and clamped to a `long`. -/
def strtolLong (s : Bytes) : Int64 := Int64.ofIntClamp ((strtol s).getD 0)

/-- `atoi(s)`: `strtol` converted to an `int` of 32 bits. -/
def atoi (s : Bytes) : Int32 := (strtolLong s).toInt32

theorem strtol_toStringInt64 (n : Int64) {rest : Bytes}
    (stop : ∀ b ∈ rest.head?, isDigit b = false) :
    strtol (toStringInt64 n ++ rest) = some n.toInt := by
  have nonempty := decimal_ne_nil n.toInt.natAbs
  have all : ∀ b ∈ decimal n.toInt.natAbs, isDigit b = true :=
    fun _ member => isDigit_of_mem_decimal member
  rw [toStringInt64]
  split
  · next negative =>
    rw [List.cons_append, strtol_minus nonempty all stop, digitsValue_decimal]
    apply congrArg some
    omega
  · next nonnegative =>
    rw [strtol_digits nonempty all stop, digitsValue_decimal]
    apply congrArg some
    omega

/-- Every 64-bit number is read back by `strtol`. -/
theorem strtolLong_toStringInt64 (n : Int64) {rest : Bytes}
    (stop : ∀ b ∈ rest.head?, isDigit b = false) :
    strtolLong (toStringInt64 n ++ rest) = n := by
  rw [strtolLong, strtol_toStringInt64 n stop, Option.getD_some]
  apply Int64.toInt_inj.mp
  exact Int64.toInt_ofIntClamp n.le_toInt (Int.le_of_lt_add_one n.toInt_lt)

theorem atoi_toStringInt64 (n : Int64) {rest : Bytes}
    (stop : ∀ b ∈ rest.head?, isDigit b = false) :
    atoi (toStringInt64 n ++ rest) = n.toInt32 := by
  rw [atoi, strtolLong_toStringInt64 n stop]

/-- A number survives the conversion to 32 bits exactly when it fits them. -/
theorem toInt64_toInt32_eq_iff (n : Int64) :
    n.toInt32.toInt64 = n ↔ -2 ^ 31 ≤ n.toInt ∧ n.toInt < 2 ^ 31 := by
  rw [← Int64.toInt_inj, Int32.toInt_toInt64]
  constructor
  · intro same
    rw [← same]
    exact ⟨Int32.le_toInt _, Int32.toInt_lt _⟩
  · rintro ⟨above, below⟩
    rw [Int64.toInt_toInt32]
    apply Int.bmod_eq_of_le <;> omega

end FuncWarble.Text
