import Mathlib

/-! # Byte strings and decimal numbers

`std::string`, the protobuf `string` and the protobuf `bytes` are all byte strings here. Printing
is core's `Nat.toDigits` in bytes. The facts a reader of such text needs are that the printed
number consists of digits only, that reading its digits gives the number back, and that cutting
it short reads as the number divided by a power of ten.
-/

namespace FuncWarble.Text

abbrev Byte := UInt8
abbrev Bytes := List Byte

/-- The bytes of an ASCII literal. -/
def str (literal : String) : Bytes := literal.toList.map fun c => UInt8.ofNat c.toNat

def newline : Byte := 10

def isDigit (b : Byte) : Bool := 48 ≤ b.toNat && b.toNat ≤ 57

def digitsValue (digits : Bytes) : ℕ :=
  digits.foldl (fun value b => 10 * value + (b.toNat - 48)) 0

/-- Decimal text without padding, as `operator<<` and `std::to_string` print it. -/
def decimal (n : ℕ) : Bytes := (Nat.toDigits 10 n).map fun c => UInt8.ofNat c.toNat

/-- The byte of a single digit. -/
def digitByte (d : ℕ) : Byte := UInt8.ofNat (48 + d)

theorem digitByte_toNat {d : ℕ} (small : d < 10) : (digitByte d).toNat = 48 + d := by
  simp only [digitByte, UInt8.toNat_ofNat']
  omega

theorem isDigit_digitByte {d : ℕ} (small : d < 10) : isDigit (digitByte d) = true := by
  simp only [isDigit, digitByte_toNat small, Bool.and_eq_true, decide_eq_true_eq]
  omega

theorem isDigit_newline : isDigit newline = false := by decide

private theorem digitChar_byte {d : ℕ} (small : d < 10) :
    UInt8.ofNat (Nat.digitChar d).toNat = digitByte d := by
  rw [Nat.toNat_digitChar_of_lt_ten small, digitByte]

theorem decimal_of_lt {n : ℕ} (small : n < 10) : decimal n = [digitByte n] := by
  simp only [decimal, Nat.toDigits_of_lt_base small, List.map_cons, List.map_nil,
    digitChar_byte small]

theorem decimal_of_le {n : ℕ} (large : 10 ≤ n) :
    decimal n = decimal (n / 10) ++ [digitByte (n % 10)] := by
  rw [decimal, Nat.toDigits_of_base_le (by decide) large, List.map_append, List.map_cons,
    List.map_nil, digitChar_byte (Nat.mod_lt n (by decide)), ← decimal]

/-- Numbers are read off the end of their text, one digit at a time. -/
theorem decimal_induction {motive : ℕ → Prop} (digit : ∀ n < 10, motive n)
    (step : ∀ n, 10 ≤ n → motive (n / 10) → motive n) (n : ℕ) : motive n := by
  induction n using Nat.strong_induction_on with
  | _ n ih =>
    rcases Nat.lt_or_ge n 10 with small | small
    · exact digit n small
    · exact step n (by omega) (ih (n / 10) (by omega))

theorem decimal_ne_nil (n : ℕ) : decimal n ≠ [] := by simp [decimal]

theorem isDigit_of_mem_decimal {n : ℕ} {b : Byte} (member : b ∈ decimal n) : isDigit b = true := by
  induction n using decimal_induction with
  | digit n small =>
    rw [decimal_of_lt small, List.mem_singleton] at member
    exact member ▸ isDigit_digitByte small
  | step n large ih =>
    rw [decimal_of_le large, List.mem_append, List.mem_singleton] at member
    rcases member with member | rfl
    · exact ih member
    · exact isDigit_digitByte (Nat.mod_lt n (by decide))

theorem newline_notMem_decimal (n : ℕ) : newline ∉ decimal n := by
  intro member
  have digit := isDigit_of_mem_decimal member
  rw [isDigit_newline] at digit
  contradiction

theorem digitsValue_append_singleton (digits : Bytes) (b : Byte) :
    digitsValue (digits ++ [b]) = 10 * digitsValue digits + (b.toNat - 48) := by
  simp only [digitsValue, List.foldl_append, List.foldl_cons, List.foldl_nil]

/-- Reading the printed digits gives the number back. -/
@[simp] theorem digitsValue_decimal (n : ℕ) : digitsValue (decimal n) = n := by
  induction n using decimal_induction with
  | digit n small =>
    rw [decimal_of_lt small]
    simp only [digitsValue, List.foldl_cons, List.foldl_nil, digitByte_toNat small]
    omega
  | step n large ih =>
    rw [decimal_of_le large, digitsValue_append_singleton, ih,
      digitByte_toNat (Nat.mod_lt n (by decide))]
    omega

/-- What is left of a printed number after a cut is the number without its last digits. -/
theorem decimal_take {n cut : ℕ} (positive : 0 < cut) (inside : cut ≤ (decimal n).length) :
    ∃ dropped, (decimal n).take cut = decimal (n / 10 ^ dropped) := by
  induction n using decimal_induction with
  | digit n small =>
    rw [decimal_of_lt small, List.length_singleton] at inside
    refine ⟨0, ?_⟩
    rw [pow_zero, Nat.div_one, List.take_of_length_le]
    rw [decimal_of_lt small, List.length_singleton]
    omega
  | step n large ih =>
    rw [decimal_of_le large, List.length_append, List.length_singleton] at inside
    rcases le_or_gt cut (decimal (n / 10)).length with whole | whole
    · obtain ⟨dropped, taken⟩ := ih whole
      refine ⟨dropped + 1, ?_⟩
      rw [decimal_of_le large, List.take_append_of_le_length whole, taken, Nat.div_div_eq_div_mul,
        pow_succ, Nat.mul_comm]
    · refine ⟨0, ?_⟩
      rw [pow_zero, Nat.div_one, List.take_of_length_le]
      rw [decimal_of_le large, List.length_append, List.length_singleton]
      omega

/-- A positive number keeps a positive value however its text is cut. -/
theorem decimal_take_pos {n cut : ℕ} (nonzero : 0 < n) (positive : 0 < cut) :
    0 < digitsValue ((decimal n).take cut) := by
  induction n using decimal_induction with
  | digit n small =>
    rw [List.take_of_length_le (by rw [decimal_of_lt small, List.length_singleton]; omega),
      digitsValue_decimal]
    exact nonzero
  | step n large ih =>
    have shorter := ih (by omega)
    rcases le_or_gt cut (decimal (n / 10)).length with whole | whole
    · rwa [decimal_of_le large, List.take_append_of_le_length whole]
    · rw [List.take_of_length_le, digitsValue_decimal]
      · exact nonzero
      · rw [decimal_of_le large, List.length_append, List.length_singleton]
        omega

end FuncWarble.Text
