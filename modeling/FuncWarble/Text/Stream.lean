import Mathlib
import FuncWarble.Text.Decimal

/-! # C++ input streams and `std::stoi`

An input stream is the unread bytes with its two error bits. `getline` and `get` follow the
library: they do nothing but set `failbit` on a stream that is not good, `getline` leaves the
delimiter out of the line, and a failed `get` leaves its argument as it was. `stoi` is `strtol`
in base ten followed by the check that the value fits an `int`.
-/

namespace FuncWarble.Text

/-- `std::ifstream` after opening: the unread bytes, `eofbit` and `failbit`. -/
structure IFStream where
  rest : Bytes
  eof : Bool
  fail : Bool
deriving DecidableEq, Repr

namespace IFStream

/-- A file that has just been opened. -/
def ofBytes (rest : Bytes) : IFStream := ⟨rest, false, false⟩

def good (is : IFStream) : Bool := !is.eof && !is.fail

/-- `std::getline(is, line)`: the stream afterwards and the new value of `line`. -/
def getline (is : IFStream) (line : Bytes) : IFStream × Bytes :=
  if is.good then
    let taken := is.rest.takeWhile (· != newline)
    match is.rest.dropWhile (· != newline) with
    | [] => (⟨[], true, taken.isEmpty⟩, taken)
    | _ :: rest => (⟨rest, false, false⟩, taken)
  else ({ is with fail := true }, line)

/-- `is.get(ch)`: the stream afterwards and the new value of `ch`. -/
def get (is : IFStream) (ch : Byte) : IFStream × Byte :=
  if is.good then
    match is.rest with
    | [] => (⟨[], true, true⟩, ch)
    | b :: rest => (⟨rest, false, false⟩, b)
  else ({ is with fail := true }, ch)

/-- A stream that has met the end of its file, or a failure, gives nothing more. -/
def Spent (is : IFStream) : Prop := is.good = false

theorem getline_of_spent {is : IFStream} (spent : is.Spent) (line : Bytes) :
    is.getline line = ({ is with fail := true }, line) := by
  simp only [getline, show is.good = false from spent, Bool.false_eq_true, ↓reduceIte]

theorem get_of_spent {is : IFStream} (spent : is.Spent) (ch : Byte) :
    is.get ch = ({ is with fail := true }, ch) := by
  simp only [get, show is.good = false from spent, Bool.false_eq_true, ↓reduceIte]

theorem Spent.failed (is : IFStream) : ({ is with fail := true } : IFStream).Spent := by
  simp [Spent, good]

@[simp] theorem good_ofBytes (rest : Bytes) : (ofBytes rest).good = true := rfl

theorem get_ofBytes_cons (b : Byte) (rest : Bytes) (ch : Byte) :
    (ofBytes (b :: rest)).get ch = (ofBytes rest, b) := rfl

theorem get_ofBytes_nil (ch : Byte) : (ofBytes []).get ch = (⟨[], true, true⟩, ch) := rfl

/-- A complete line is read up to its delimiter, which is dropped. -/
theorem getline_line {line : Bytes} (single : newline ∉ line) (rest old : Bytes) :
    (ofBytes (line ++ newline :: rest)).getline old = (ofBytes rest, line) := by
  have stays : ∀ b ∈ line, (b != newline) = true := by
    intro b member
    exact bne_iff_ne.mpr (fun same => single (same ▸ member))
  rw [getline, if_pos (good_ofBytes _)]
  simp only [ofBytes, List.takeWhile_append_of_pos stays, List.dropWhile_append_of_pos stays,
    List.takeWhile_cons, List.dropWhile_cons, bne_self_eq_false, Bool.false_eq_true, ↓reduceIte,
    List.append_nil]

/-- The last line of a file may lack its delimiter; only an empty one fails. -/
theorem getline_last {line : Bytes} (single : newline ∉ line) (old : Bytes) :
    (ofBytes line).getline old = (⟨[], true, line.isEmpty⟩, line) := by
  have stays : ∀ b ∈ line, (b != newline) = true := by
    intro b member
    exact bne_iff_ne.mpr (fun same => single (same ▸ member))
  have taken : line.takeWhile (· != newline) = line := List.takeWhile_eq_self_iff.mpr stays
  have dropped : line.dropWhile (· != newline) = [] := List.dropWhile_eq_nil_iff.mpr stays
  rw [getline, if_pos (good_ofBytes _)]
  simp only [ofBytes, taken, dropped]

/-- A line that is read without failure takes at least one byte off the stream. -/
theorem getline_shortens {is : IFStream} {old : Bytes} (read : (is.getline old).1.fail = false) :
    (is.getline old).1.rest.length < is.rest.length := by
  unfold getline at read ⊢
  split at read
  · next good =>
    simp only [good, ↓reduceIte] at read ⊢
    have parts := congrArg List.length
      (List.takeWhile_append_dropWhile (p := (· != newline)) (l := is.rest))
    rw [List.length_append] at parts
    split at read
    · next whole =>
      rw [whole, List.length_nil, Nat.add_zero] at parts
      simp only [List.isEmpty_eq_false_iff] at read
      have := List.length_pos_iff.mpr read
      simp only [List.length_nil]
      omega
    · next head rest whole =>
      rw [whole, List.length_cons] at parts
      simp only
      omega
  · simp at read

theorem get_length_le (is : IFStream) (ch : Byte) :
    (is.get ch).1.rest.length ≤ is.rest.length := by
  unfold get
  split
  · split
    · exact Nat.zero_le _
    · next same => rw [same, List.length_cons]; exact Nat.le_succ _
  · exact le_rfl

theorem getline_length_le (is : IFStream) (old : Bytes) :
    (is.getline old).1.rest.length ≤ is.rest.length := by
  by_cases read : (is.getline old).1.fail = false
  · exact (getline_shortens read).le
  · unfold getline
    split
    · split
      · exact Nat.zero_le _
      · next head rest whole =>
        have parts := congrArg List.length
          (List.takeWhile_append_dropWhile (p := (· != newline)) (l := is.rest))
        rw [List.length_append, whole, List.length_cons] at parts
        simp only
        omega
    · exact le_rfl

end IFStream

/-- The exceptions of `std::stoi`. -/
inductive StoiError where
  | invalidArgument
  | outOfRange
deriving DecidableEq, Repr

/-- `std::isspace` in the C locale. -/
def isSpace (b : Byte) : Bool := b == 32 || (9 ≤ b.toNat && b.toNat ≤ 13)

/-- The digits at the front of `s`, as `strtol` reads them after its optional sign. -/
def strtolDigits (negative : Bool) (s : Bytes) : Option ℤ :=
  let digits := s.takeWhile isDigit
  if digits = [] then none
  else some (if negative then -(digitsValue digits : ℤ) else digitsValue digits)

/-- `strtol(s, nullptr, 10)` before any saturation; `none` means that no conversion was made. -/
def strtol (s : Bytes) : Option ℤ :=
  match s.dropWhile isSpace with
  | [] => none
  | sign :: rest =>
    if sign = 45 then strtolDigits true rest
    else if sign = 43 then strtolDigits false rest
    else strtolDigits false (sign :: rest)

/-- `std::stoi(s)` on a platform whose `int` has 32 bits. -/
def stoi (s : Bytes) : Except StoiError ℤ :=
  match strtol s with
  | none => .error .invalidArgument
  | some value => if -2 ^ 31 ≤ value ∧ value < 2 ^ 31 then .ok value else .error .outOfRange

theorem stoi_nil : stoi [] = .error .invalidArgument := rfl

private theorem digit_neither {b : Byte} (digit : isDigit b = true) :
    isSpace b = false ∧ b ≠ 45 ∧ b ≠ 43 := by
  simp only [isDigit, Bool.and_eq_true, decide_eq_true_eq] at digit
  refine ⟨?_, ?_, ?_⟩
  · have notBlank : b ≠ 32 := by rintro rfl; exact absurd digit (by decide)
    simp only [isSpace, Bool.or_eq_false_iff, beq_eq_false_iff_ne, ne_eq, notBlank,
      not_false_eq_true, true_and, Bool.and_eq_false_iff, decide_eq_false_iff_not]
    omega
  · rintro rfl
    exact absurd digit (by decide)
  · rintro rfl
    exact absurd digit (by decide)

private theorem strtolDigits_append (negative : Bool) {digits rest : Bytes}
    (nonempty : digits ≠ []) (all : ∀ b ∈ digits, isDigit b = true)
    (stop : ∀ b ∈ rest.head?, isDigit b = false) :
    strtolDigits negative (digits ++ rest) =
      some (if negative then -(digitsValue digits : ℤ) else digitsValue digits) := by
  have front : (digits ++ rest).takeWhile isDigit = digits := by
    rw [List.takeWhile_append_of_pos all]
    cases rest with
    | nil => simp
    | cons b rest => rw [List.takeWhile_cons_of_neg (by simp [stop b (by simp)]), List.append_nil]
  simp only [strtolDigits, front, nonempty, ↓reduceIte]

/-- A number is read up to its last digit; what follows does not matter. -/
theorem strtol_digits {digits rest : Bytes} (nonempty : digits ≠ [])
    (all : ∀ b ∈ digits, isDigit b = true) (stop : ∀ b ∈ rest.head?, isDigit b = false) :
    strtol (digits ++ rest) = some (digitsValue digits : ℤ) := by
  have read := strtolDigits_append false nonempty all stop
  obtain ⟨first, others, rfl⟩ := List.exists_cons_of_ne_nil nonempty
  obtain ⟨notSpace, notMinus, notPlus⟩ := digit_neither (all first List.mem_cons_self)
  rw [strtol, List.cons_append, List.dropWhile_cons_of_neg (by simp [notSpace])]
  simp only [notMinus, notPlus, ↓reduceIte]
  exact read

/-- A minus sign negates the number behind it. -/
theorem strtol_minus {digits rest : Bytes} (nonempty : digits ≠ [])
    (all : ∀ b ∈ digits, isDigit b = true) (stop : ∀ b ∈ rest.head?, isDigit b = false) :
    strtol (45 :: (digits ++ rest)) = some (-(digitsValue digits : ℤ)) := by
  rw [strtol, List.dropWhile_cons_of_neg (by decide)]
  exact strtolDigits_append true nonempty all stop

/-- A length line is read as its leading digits; what follows them does not matter. -/
theorem stoi_digits {digits rest : Bytes} (nonempty : digits ≠ [])
    (all : ∀ b ∈ digits, isDigit b = true) (stop : ∀ b ∈ rest.head?, isDigit b = false) :
    stoi (digits ++ rest) =
      if digitsValue digits < 2 ^ 31 then .ok (digitsValue digits) else .error .outOfRange := by
  simp only [stoi, strtol_digits nonempty all stop]
  refine if_congr ?_ rfl rfl
  constructor
  · rintro ⟨_, above⟩
    exact_mod_cast above
  · intro small
    exact ⟨by omega, by exact_mod_cast small⟩

/-- `stoi` undoes the printing of a length that fits an `int`. -/
theorem stoi_decimal {n : ℕ} (small : n < 2 ^ 31) : stoi (decimal n) = .ok n := by
  have read := @stoi_digits _ [] (decimal_ne_nil n) (fun b member => isDigit_of_mem_decimal member)
    (by simp)
  rwa [List.append_nil, digitsValue_decimal, if_pos small] at read

/-- A length that does not fit an `int` throws. -/
theorem stoi_decimal_of_le {n : ℕ} (large : 2 ^ 31 ≤ n) :
    stoi (decimal n) = .error .outOfRange := by
  have read := @stoi_digits _ [] (decimal_ne_nil n) (fun b member => isDigit_of_mem_decimal member)
    (by simp)
  rwa [List.append_nil, digitsValue_decimal, if_neg (by omega)] at read

/-- A length that is cut short is still read as a number. -/
theorem stoi_decimal_take {n cut : ℕ} (positive : 0 < cut) {rest : Bytes}
    (stop : ∀ b ∈ rest.head?, isDigit b = false) :
    stoi ((decimal n).take cut ++ rest) =
      if digitsValue ((decimal n).take cut) < 2 ^ 31 then .ok (digitsValue ((decimal n).take cut))
      else .error .outOfRange := by
  refine stoi_digits ?_ (fun b member => isDigit_of_mem_decimal (List.mem_of_mem_take member)) stop
  intro empty
  rcases List.take_eq_nil_iff.mp empty with zero | none
  · omega
  · exact decimal_ne_nil n none

end FuncWarble.Text
