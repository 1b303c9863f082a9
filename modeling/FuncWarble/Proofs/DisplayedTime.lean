import Mathlib
import FuncWarble.Model.CommandLine
import FuncWarble.Model.WarbleService

/-! # The time on a printed warble

`PrintWarble` prints the seconds of the timestamp into a text and reads them back with `atoi`. The
text ends the number with a colon, so nothing of the microseconds is read. What is lost are the
bits of the seconds that an `int` has no room for.
-/

namespace FuncWarble.Proofs

open Text Model

/-- The displayed time is the low half of the stored seconds. -/
theorem printedTime_eq (warble : Warble) :
    CommandHelper.printedTime warble = warble.getTimestamp.seconds.toInt32.toInt64 := by
  have colon : ∀ b ∈ (str ":" ++ toStringInt64 warble.getTimestamp.useconds).head?,
      isDigit b = false := by
    rintro b ⟨⟩
    decide
  rw [CommandHelper.printedTime, List.append_assoc]
  exact congrArg Int32.toInt64 (atoi_toStringInt64 warble.getTimestamp.seconds colon)

/-- A warble is shown with the low half of the seconds at which it was posted. -/
theorem printedTime_newWarble (platform : Platform) (request : WarbleRequest) (tv : Timestamp) :
    CommandHelper.printedTime (WarbleService.newWarble platform request tv) =
      tv.seconds.toInt32.toInt64 :=
  printedTime_eq (WarbleService.newWarble platform request tv)

/-- A warble whose seconds fit an `int` is printed with the text of its stored time. -/
theorem printWarble_stored (asctime : Int64 → Bytes) {warble : Warble}
    (above : -2 ^ 31 ≤ warble.getTimestamp.seconds.toInt)
    (below : warble.getTimestamp.seconds.toInt < 2 ^ 31) :
    CommandHelper.printWarble asctime warble =
      CommandHelper.printWarble (fun _ => asctime warble.getTimestamp.seconds) warble := by
  have shown := (toInt64_toInt32_eq_iff _).mpr ⟨above, below⟩
  simp only [CommandHelper.printWarble, printedTime_eq, shown]

/-- The displayed time is the stored time exactly when the stored seconds fit an `int`. -/
theorem displayed_time_iff (warble : Warble) :
    CommandHelper.printedTime warble = warble.getTimestamp.seconds ↔
      -2 ^ 31 ≤ warble.getTimestamp.seconds.toInt ∧
        warble.getTimestamp.seconds.toInt < 2 ^ 31 := by
  rw [printedTime_eq, toInt64_toInt32_eq_iff]

/-- A warble of the first second that does not fit is shown 136 years too early. -/
theorem displayed_time_fails : ¬ ∀ warble : Warble, 0 ≤ warble.getTimestamp.seconds →
    0 ≤ warble.getTimestamp.useconds → warble.getTimestamp.useconds < 1000000 →
    CommandHelper.printedTime warble = warble.getTimestamp.seconds := by
  intro claim
  have shown := claim ⟨str "a", str "hi", str "1", [], some ⟨2147483648, 5⟩⟩ (by decide) (by decide)
    (by decide)
  revert shown
  decide

end FuncWarble.Proofs
