import Mathlib
import FuncWarble.Proofs.DurableStore

/-! # Replaying a log whose last record is torn

A crash may leave any prefix of the record being appended. What `PersistentLoad` makes of it
depends on where the cut falls. Inside the command word the tail is skipped; up to the last field
the load ends with an exception of `std::stoi`; inside the last field `ReadNCharacter` completes
the field with the last byte it has read. The tail is never cut off the file: the next record is
appended behind it and no longer starts a line.
-/

namespace FuncWarble.Proofs

open Text Model

/-- The storage that the server has after loading an existing log. -/
def reload (ch : Byte) (bytes : Bytes) : Except StoiError Storage :=
  (KeyValueStoreImpl.persistentLoad ch (str "log") (some bytes)).map (·.storage)

theorem reload_eq (ch : Byte) (bytes : Bytes) : reload ch bytes = replay ch ∅ (.ofBytes bytes) := by
  rw [reload, KeyValueStoreImpl.persistentLoad_some ch (by decide)]
  cases replay ch ∅ (.ofBytes bytes) <;> rfl

namespace LogRecord

/-- The word on the command line of the record. -/
def command : LogRecord → Bytes
  | put _ _ => str "put"
  | remove _ => str "remove"

/-- The bytes in front of the record's last field. -/
def front : LogRecord → Bytes
  | put key _ => str "put" ++ newline :: fieldBytes key
  | remove _ => str "remove" ++ [newline]

def lastField : LogRecord → Bytes
  | put _ value => value
  | remove key => key

/-- The lengths in front of the last field fit an `int`. -/
def ShortFront : LogRecord → Prop
  | put key _ => key.length < 2 ^ 31
  | remove _ => True

theorem Short.front {record : LogRecord} (short : record.Short) : record.ShortFront := by
  cases record with
  | put key value => exact short.1
  | remove key => trivial

theorem Short.lastField {record : LogRecord} (short : record.Short) :
    record.lastField.length < 2 ^ 31 := by
  cases record with
  | put key value => exact short.2
  | remove key => exact short

/-- The record with another text in its last field. -/
def withLast (record : LogRecord) (text : Bytes) : LogRecord :=
  match record with
  | put key _ => put key text
  | remove _ => remove text

theorem bytes_eq (record : LogRecord) :
    record.bytes = record.front ++ fieldBytes record.lastField := by
  cases record <;> simp [bytes_put, bytes_remove, front, lastField]

theorem command_length_lt_front (record : LogRecord) :
    record.command.length < record.front.length := by
  cases record <;> simp [command, front]

end LogRecord

/-- The log of `records` with the first `cut` bytes of `last` behind it. -/
def tornLog (records : List LogRecord) (last : LogRecord) (cut : ℕ) : Bytes :=
  logBytes records ++ last.bytes.take cut

/-- The length that is read for a field of which only the first `cut` bytes are in the file; a
count that is cut itself is read as a smaller number. -/
def counted (text : Bytes) (cut : ℕ) : ℕ := digitsValue ((decimal text.length).take cut)

/-- What becomes of such a field: the missing bytes are padded. -/
def completed (ch : Byte) (text : Bytes) (cut : ℕ) : Bytes :=
  if cut ≤ (decimal text.length).length then padded ch [] (counted text cut)
  else padded ch (text.take (cut - (decimal text.length).length - 1)) text.length

theorem fieldBytes_length (text : Bytes) :
    (fieldBytes text).length = (decimal text.length).length + text.length + 2 := by
  simp only [fieldBytes, List.length_append, List.length_cons, List.length_nil]
  omega

theorem fieldBytes_take_count {text : Bytes} {cut : ℕ}
    (inCount : cut ≤ (decimal text.length).length) :
    (fieldBytes text).take cut = (decimal text.length).take cut := by
  rw [fieldBytes, List.take_append_of_le_length inCount]

theorem fieldBytes_take_text {text : Bytes} {cut : ℕ}
    (behind : (decimal text.length).length < cut) (inside : cut < (fieldBytes text).length) :
    (fieldBytes text).take cut = decimal text.length ++ newline ::
      text.take (cut - (decimal text.length).length - 1) := by
  rw [fieldBytes_length] at inside
  obtain ⟨more, rfl⟩ := Nat.exists_eq_add_of_lt behind
  rw [fieldBytes, List.take_append, List.take_of_length_le (by omega),
    show (decimal text.length).length + more + 1 - (decimal text.length).length = more + 1 by omega,
    List.take_succ_cons, List.take_append_of_le_length (by omega), Nat.add_sub_cancel]

/-- The number read from a cut length line never exceeds the length. -/
theorem counted_le (text : Bytes) {cut : ℕ} (positive : 0 < cut) :
    counted text cut ≤ text.length := by
  rcases le_or_gt cut (decimal text.length).length with inside | inside
  · obtain ⟨dropped, taken⟩ := decimal_take positive inside
    rw [counted, taken, digitsValue_decimal]
    exact Nat.div_le_self _ _
  · rw [counted, List.take_of_length_le (by omega), digitsValue_decimal]

private theorem newline_notMem_take (n cut : ℕ) : newline ∉ (decimal n).take cut :=
  fun member => newline_notMem_decimal n (List.mem_of_mem_take member)

private theorem stoi_count (text : Bytes) {cut : ℕ} (positive : 0 < cut) :
    stoi ((decimal text.length).take cut) =
      if counted text cut < 2 ^ 31 then .ok (counted text cut) else .error .outOfRange := by
  have count := @stoi_decimal_take text.length cut positive [] (by simp)
  rwa [List.append_nil] at count

private theorem getline_count (text : Bytes) {cut : ℕ} (positive : 0 < cut) (old : Bytes) :
    (IFStream.ofBytes ((decimal text.length).take cut)).getline old =
      (⟨[], true, false⟩, (decimal text.length).take cut) := by
  have nonempty : ((decimal text.length).take cut).isEmpty = false := by
    rw [List.isEmpty_eq_false_iff]
    intro empty
    rcases List.take_eq_nil_iff.mp empty with zero | none
    · omega
    · exact decimal_ne_nil _ none
  rw [IFStream.getline_last (newline_notMem_take _ _), nonempty]

theorem counted_of_behind {text : Bytes} {cut : ℕ} (behind : (decimal text.length).length < cut) :
    counted text cut = text.length := by
  rw [counted, List.take_of_length_le behind.le, digitsValue_decimal]

/-- At the end of the file a torn field is completed, and the stream is spent. -/
theorem readField_torn (ch : Byte) {text : Bytes} {cut : ℕ} (positive : 0 < cut)
    (inside : cut < (fieldBytes text).length) (short : counted text cut < 2 ^ 31) :
    ∃ spentFile : IFStream, spentFile.Spent ∧
      readField ch (.ofBytes ((fieldBytes text).take cut)) =
        .ok (spentFile, completed ch text cut) := by
  rcases le_or_gt cut (decimal text.length).length with inCount | inCount
  · obtain ⟨spentFile, spent, read⟩ := readNCharacter_spent ch
      (show (⟨[], true, false⟩ : IFStream).Spent from rfl) (counted text cut)
    refine ⟨spentFile, spent, ?_⟩
    rw [fieldBytes_take_count inCount, readField, getline_count text positive,
      stoi_count text positive, if_pos short, completed, if_pos inCount]
    exact congrArg Except.ok read
  · obtain ⟨spentFile, spent, read⟩ := readNCharacter_torn ch
      (text.take (cut - (decimal text.length).length - 1)) (n := text.length)
      (List.length_take_le' _ _)
    refine ⟨spentFile, spent, ?_⟩
    rw [counted_of_behind (by omega)] at short
    rw [fieldBytes_take_text (by omega) inside, readField,
      IFStream.getline_line (newline_notMem_decimal _), stoi_decimal short, completed,
      if_neg (not_le.mpr inCount)]
    exact congrArg Except.ok read

/-- A torn field whose count is too large throws. -/
theorem readField_torn_long (ch : Byte) {text : Bytes} {cut : ℕ} (positive : 0 < cut)
    (inside : cut < (fieldBytes text).length) (long : ¬ counted text cut < 2 ^ 31) :
    readField ch (.ofBytes ((fieldBytes text).take cut)) = .error .outOfRange := by
  rcases le_or_gt cut (decimal text.length).length with inCount | inCount
  · rw [fieldBytes_take_count inCount, readField, getline_count text positive,
      stoi_count text positive, if_neg long]
    rfl
  · rw [counted_of_behind (by omega)] at long
    rw [fieldBytes_take_text (by omega) inside, readField,
      IFStream.getline_line (newline_notMem_decimal _), stoi_decimal_of_le (not_lt.mp long)]
    rfl

/-- With a record behind it a torn field takes its missing bytes from that record, and at least
the first byte of the record's command line is gone. -/
theorem readField_behind (ch : Byte) {text : Bytes} (short : text.length < 2 ^ 31) {cut : ℕ}
    (positive : 0 < cut) (inside : cut < (fieldBytes text).length) {rest : Bytes}
    (enough : text.length < rest.length) :
    ∃ skipped other, 0 < skipped ∧
      readField ch (.ofBytes ((fieldBytes text).take cut ++ (str "put" ++ newline :: rest))) =
        .ok (.ofBytes ((str "put" ++ newline :: rest).drop skipped), other) := by
  rcases le_or_gt cut (decimal text.length).length with inCount | inCount
  · have stop : ∀ b ∈ (str "put").head?, isDigit b = false := by
      intro b member
      obtain rfl : (112 : Byte) = b := Option.some.inj member
      decide
    have bound := counted_le text positive
    have count := @stoi_decimal_take text.length cut positive _ stop
    rw [← counted, if_pos (by omega)] at count
    have single : newline ∉ (decimal text.length).take cut ++ str "put" := by
      rw [List.mem_append, not_or]
      exact ⟨newline_notMem_take _ _, by decide⟩
    generalize counted text cut = n at count bound
    have parts : rest = rest.take n ++ rest[n] :: rest.drop (n + 1) := by
      rw [← List.drop_eq_getElem_cons (by omega), List.take_append_drop]
    have size : (rest.take n).length = n := by rw [List.length_take]; omega
    have read := readNCharacter_whole ch (rest.take n) rest[n] (rest.drop (n + 1))
    rw [← parts, size] at read
    refine ⟨n + 5, rest.take n, by omega, ?_⟩
    rw [fieldBytes_take_count inCount, ← List.append_assoc, readField,
      IFStream.getline_line single, count]
    exact congrArg Except.ok read
  · have inText : cut - (decimal text.length).length - 1 ≤ text.length := by
      rw [fieldBytes_length] at inside
      omega
    rw [fieldBytes_take_text (by omega) inside, List.append_assoc, List.cons_append]
    generalize cut - (decimal text.length).length - 1 = present at inText
    generalize same : str "put" ++ newline :: rest = behind
    have long : text.length + 4 < behind.length := by
      rw [← same, List.length_append, List.length_cons]
      change _ < 3 + _
      omega
    obtain ⟨missing, total⟩ := Nat.exists_eq_add_of_le inText
    have parts : text.take present ++ behind =
        (text.take present ++ behind.take missing) ++
          behind[missing] :: behind.drop (missing + 1) := by
      rw [List.append_assoc, ← List.drop_eq_getElem_cons (by omega), List.take_append_drop]
    have size : (text.take present ++ behind.take missing).length = text.length := by
      rw [List.length_append, List.length_take, List.length_take]
      omega
    have read := readNCharacter_whole ch (text.take present ++ behind.take missing)
      behind[missing] (behind.drop (missing + 1))
    rw [← parts, size] at read
    refine ⟨missing + 1, text.take present ++ behind.take missing, by omega, ?_⟩
    rw [readField, IFStream.getline_line (newline_notMem_decimal _), stoi_decimal short]
    exact congrArg Except.ok read

/-- A stream that is spent ends the replay. -/
theorem replay_spent (ch : Byte) (storage : Storage) {inFile : IFStream} (spent : inFile.Spent) :
    replay ch storage inFile = .ok storage := by
  rw [replay_eq]
  simp only [replayStep, IFStream.getline_of_spent spent, ↓reduceIte]

namespace LogRecord

theorem bytes_take_front {record : LogRecord} {cut : ℕ} (inFront : cut ≤ record.front.length) :
    record.bytes.take cut = record.front.take cut := by
  rw [bytes_eq, List.take_append_of_le_length inFront]

theorem bytes_take_command {record : LogRecord} {cut : ℕ}
    (inCommand : cut ≤ record.command.length) :
    record.bytes.take cut = record.command.take cut := by
  rw [bytes_take_front (inCommand.trans record.command_length_lt_front.le)]
  cases record <;> exact List.take_append_of_le_length inCommand

theorem bytes_take_last {record : LogRecord} {cut : ℕ} (behind : record.front.length ≤ cut) :
    record.bytes.take cut =
      record.front ++ (fieldBytes record.lastField).take (cut - record.front.length) := by
  rw [bytes_eq, List.take_append, List.take_of_length_le behind]

theorem bytes_length (record : LogRecord) :
    record.bytes.length = record.front.length + (fieldBytes record.lastField).length := by
  rw [bytes_eq, List.length_append]

end LogRecord

/-- A torn command word is no command: the tail is skipped. -/
theorem replay_torn_command (ch : Byte) (storage : Storage) {record : LogRecord} {cut : ℕ}
    (inside : cut < record.command.length) :
    replay ch storage (.ofBytes (record.bytes.take cut)) = .ok storage := by
  have inFront := inside.trans record.command_length_lt_front
  rw [LogRecord.bytes_take_front inFront.le, replay_eq]
  cases record with
  | put key value =>
    change cut < 3 at inside
    interval_cases cut <;> rfl
  | remove key =>
    change cut < 6 at inside
    interval_cases cut <;> rfl

/-- A key that is not followed by anything leaves no length line for the value. -/
private theorem readFields_torn (ch : Byte) (key : Bytes) {cut : ℕ}
    (inside : cut ≤ (fieldBytes key).length) {α : Type}
    (f : IFStream × Bytes → IFStream × Bytes → α) :
    ∃ e, (readField ch (.ofBytes ((fieldBytes key).take cut))).bind (fun keyRead =>
      (readField ch keyRead.1).map (f keyRead)) = .error e := by
  rcases Nat.eq_zero_or_pos cut with rfl | positive
  · exact ⟨_, rfl⟩
  · rcases inside.lt_or_eq with torn | whole
    · rcases Nat.lt_or_ge (counted key cut) (2 ^ 31) with short | short
      · obtain ⟨spentFile, spent, read⟩ := readField_torn ch positive torn short
        rw [read]
        simp only [Except.bind, readField_spent ch spent]
        exact ⟨_, rfl⟩
      · rw [readField_torn_long ch positive torn (not_lt.mpr short)]
        exact ⟨_, rfl⟩
    · rw [whole, List.take_length, ← List.append_nil (fieldBytes key)]
      rcases Nat.lt_or_ge key.length (2 ^ 31) with short | short
      · rw [readField_whole ch short]
        exact ⟨_, rfl⟩
      · rw [readField_long ch short]
        exact ⟨_, rfl⟩

/-- From the end of the command word to the start of the last field the load throws. -/
theorem replay_torn_front (ch : Byte) (storage : Storage) {record : LogRecord} {cut : ℕ}
    (behind : record.command.length ≤ cut) (inFront : cut ≤ record.front.length) :
    ∃ e, replay ch storage (.ofBytes (record.bytes.take cut)) = .error e := by
  rw [LogRecord.bytes_take_front inFront, replay_eq]
  cases record with
  | put key value =>
    change 3 ≤ cut at behind
    simp only [LogRecord.front, List.length_append, List.length_cons] at inFront
    change cut ≤ 3 + ((fieldBytes key).length + 1) at inFront
    obtain ⟨rest, rfl⟩ := Nat.exists_eq_add_of_le behind
    cases rest with
    | zero => exact ⟨_, rfl⟩
    | succ rest =>
      have taken : (LogRecord.put key value).front.take (3 + (rest + 1)) =
          str "put" ++ newline :: (fieldBytes key).take rest := by
        simp only [LogRecord.front]
        rw [show 3 = (str "put").length from rfl, List.take_length_add_append, List.take_succ_cons]
      obtain ⟨e, failed⟩ := readFields_torn ch key (show rest ≤ (fieldBytes key).length by omega)
        fun keyRead valueRead => (storage.pushBack keyRead.2 valueRead.2, valueRead.1)
      rw [taken, replayStep_command ch storage (by decide), if_pos rfl, replayPut_eq, failed]
      exact ⟨e, rfl⟩
  | remove key =>
    change 6 ≤ cut at behind
    change cut ≤ 7 at inFront
    interval_cases cut <;> exact ⟨_, rfl⟩

/-- A record is read up to its last field. -/
theorem replay_front (ch : Byte) (storage : Storage) {record : LogRecord}
    (short : record.ShortFront) (rest : Bytes) :
    replay ch storage (.ofBytes (record.front ++ rest)) =
      (readField ch (.ofBytes rest)).bind fun lastRead =>
        replay ch ((record.withLast lastRead.2).apply storage) lastRead.1 := by
  rw [replay_eq]
  cases record with
  | put key value =>
    simp only [LogRecord.front, List.append_assoc, List.cons_append]
    rw [replayStep_command ch storage (by decide), if_pos rfl, replayPut_eq,
      readField_whole ch short]
    simp only [Except.bind]
    cases readField ch (.ofBytes rest) <;> rfl
  | remove key =>
    simp only [LogRecord.front, List.append_assoc, List.cons_append, List.nil_append]
    rw [replayStep_command ch storage (by decide), if_neg (by decide), if_pos rfl, replayRemove_eq]
    cases readField ch (.ofBytes rest) <;> rfl

/-- Inside the last field the record is applied with the completed field. -/
theorem replay_torn_last (ch : Byte) (storage : Storage) {record : LogRecord}
    (shortFront : record.ShortFront) {cut : ℕ} (behind : record.front.length < cut)
    (inside : cut < record.bytes.length)
    (short : counted record.lastField (cut - record.front.length) < 2 ^ 31) :
    replay ch storage (.ofBytes (record.bytes.take cut)) =
      .ok ((record.withLast (completed ch record.lastField (cut - record.front.length))).apply
        storage) := by
  rw [LogRecord.bytes_length] at inside
  obtain ⟨spentFile, spent, read⟩ := readField_torn ch (by omega) (by omega) short
  rw [LogRecord.bytes_take_last behind.le, replay_front ch storage shortFront, read]
  exact replay_spent ch _ spent

/-- Lengths that fit no `int` make the load throw there too. -/
theorem replay_torn_last_long (ch : Byte) (storage : Storage) {record : LogRecord} {cut : ℕ}
    (behind : record.front.length < cut) (inside : cut < record.bytes.length)
    (long : record.ShortFront → ¬ counted record.lastField (cut - record.front.length) < 2 ^ 31) :
    replay ch storage (.ofBytes (record.bytes.take cut)) = .error .outOfRange := by
  rw [LogRecord.bytes_length] at inside
  rw [LogRecord.bytes_take_last behind.le]
  by_cases shortFront : record.ShortFront
  · rw [replay_front ch storage shortFront,
      readField_torn_long ch (by omega) (by omega) (long shortFront)]
    rfl
  · cases record with
    | put key value =>
      rw [replay_eq]
      simp only [LogRecord.front, List.append_assoc, List.cons_append]
      rw [replayStep_command ch storage (by decide), if_pos rfl, replayPut_eq,
        readField_long ch (not_lt.mp shortFront)]
      rfl
    | remove key => exact absurd trivial shortFront

/-- What precedes the torn record is replayed as it stands. -/
theorem reload_tornLog (ch : Byte) {records : List LogRecord}
    (short : ∀ record ∈ records, record.Short) (last : LogRecord) (cut : ℕ) (behind : Bytes) :
    reload ch (tornLog records last cut ++ behind) =
      replay ch (applyAll ∅ records) (.ofBytes (last.bytes.take cut ++ behind)) := by
  rw [reload_eq, tornLog, List.append_assoc, replay_records ch ∅ short]

end FuncWarble.Proofs
