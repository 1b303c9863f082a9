import Mathlib
import FuncWarble.Text.SignedDecimal
import FuncWarble.Model.Messages

/-! # Printing a warble

`PrintWarble` of the command line tool. The text of a point in time depends on the time zone of the
machine and is a parameter.
-/

namespace FuncWarble.Model

open Text

/-- `warble.timestamp()`: an absent timestamp reads as the default message. -/
def Warble.getTimestamp (warble : Warble) : Timestamp := warble.timestamp.getD ⟨0, 0⟩

namespace CommandHelper

/-- A line as `std::endl` ends it. -/
def line (text : Bytes) : Bytes := text ++ [newline]

/-- The `time_t` that `PrintWarble` hands to `localtime`. -/
def printedTime (warble : Warble) : Int64 :=
  let seconds := toStringInt64 warble.getTimestamp.seconds
  let useconds := toStringInt64 warble.getTimestamp.useconds
  (atoi (seconds ++ str ":" ++ useconds)).toInt64

/-- `PrintWarble`: what it sends to `std::cout`, where `asctime` is the text of `localtime`. -/
def printWarble (asctime : Int64 → Bytes) (warble : Warble) : Bytes :=
  line (str "=====================warble=====================") ++
  line (str "Username : " ++ warble.username) ++
  line (str "Text : " ++ warble.text) ++
  line (str "Warble id : " ++ warble.id) ++
  (if 0 < warble.parentId.length then
    line (str "This warble replies to Parent id : " ++ warble.parentId)
  else []) ++
  str "This warble is posted on : " ++ asctime (printedTime warble) ++
  line (str "=====================warble=====================")

end CommandHelper

end FuncWarble.Model
