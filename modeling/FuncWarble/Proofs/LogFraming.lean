import Mathlib
import FuncWarble.Model.KeyValueService

/-! # Reading back complete records

The log is a sequence of records. One turn of the replay loop on a complete record applies that
record and leaves the stream at the byte behind it, whatever the keys and values contain and
whatever follows. By induction over the records, replaying a log is applying its records.
-/

namespace FuncWarble.Proofs

open Text Model

/-- What `ReadNCharacter` returns when the file ends before the count: the last byte read, or the
indeterminate initial byte, stands for every missing one. -/
def padded (ch : Byte) (available : Bytes) (n : ℕ) : Bytes :=
  available ++ List.replicate (n - available.length) (available.getLastD ch)

theorem padded_self (ch : Byte) (available : Bytes) :
    padded ch available available.length = available := by
  simp [padded]

private theorem readCharacters_succ (n : ℕ) (inFile : IFStream) (ch : Byte) (result : Bytes) :
    readCharacters (n + 1) inFile ch result =
      readCharacters n (inFile.get ch).1 (inFile.get ch).2 (result ++ [(inFile.get ch).2]) := rfl

private theorem readCharacters_add (m n : ℕ) (inFile : IFStream) (ch : Byte) (result : Bytes) :
    readCharacters (m + n) inFile ch result =
      readCharacters n (readCharacters m inFile ch result).1 (readCharacters m inFile ch result).2.1
        (readCharacters m inFile ch result).2.2 := by
  induction m generalizing inFile ch result with
  | zero => rw [Nat.zero_add]; rfl
  | succ m ih => rw [Nat.add_right_comm, readCharacters_succ, ih, readCharacters_succ]

private theorem readCharacters_spent {inFile : IFStream} (spent : inFile.Spent) (n : ℕ) (ch : Byte)
    (result : Bytes) : ∃ spentFile : IFStream, spentFile.Spent ∧
      readCharacters n inFile ch result = (spentFile, ch, result ++ List.replicate n ch) := by
  induction n generalizing inFile result with
  | zero => exact ⟨inFile, spent, by simp [readCharacters]⟩
  | succ n ih =>
    obtain ⟨spentFile, still, read⟩ := ih (IFStream.Spent.failed inFile) (result ++ [ch])
    refine ⟨spentFile, still, ?_⟩
    rw [readCharacters_succ, IFStream.get_of_spent spent, read, List.replicate_succ,
      List.append_assoc, List.singleton_append]

private theorem readCharacters_whole (text rest : Bytes) (ch : Byte) (result : Bytes) :
    readCharacters text.length (.ofBytes (text ++ rest)) ch result =
      (.ofBytes rest, text.getLastD ch, result ++ text) := by
  induction text generalizing ch result with
  | nil => simp [readCharacters]
  | cons b text ih =>
    rw [List.length_cons, readCharacters_succ, List.cons_append, IFStream.get_ofBytes_cons, ih,
      List.getLastD_cons, List.append_assoc, List.singleton_append]

/-- A counted text is read in full and one byte behind it is skipped, whatever that byte is. -/
theorem readNCharacter_whole (ch : Byte) (text : Bytes) (separator : Byte) (rest : Bytes) :
    readNCharacter ch (.ofBytes (text ++ separator :: rest)) text.length =
      (.ofBytes rest, text) := by
  simp only [readNCharacter, Int.toNat_natCast, readCharacters_whole, List.nil_append]
  rfl

/-- At the end of the file the missing bytes are padded, and the stream is spent. -/
theorem readNCharacter_torn (ch : Byte) (text : Bytes) {n : ℕ} (short : text.length ≤ n) :
    ∃ spentFile : IFStream, spentFile.Spent ∧
      readNCharacter ch (.ofBytes text) n = (spentFile, padded ch text n) := by
  obtain ⟨missing, rfl⟩ := Nat.exists_eq_add_of_le short
  have whole := readCharacters_whole text [] ch []
  rw [List.append_nil, List.nil_append] at whole
  simp only [readNCharacter, Int.toNat_natCast, readCharacters_add, whole, padded,
    Nat.add_sub_cancel_left]
  cases missing with
  | zero =>
    refine ⟨⟨[], true, true⟩, rfl, ?_⟩
    simp [readCharacters, IFStream.get_ofBytes_nil]
  | succ missing =>
    obtain ⟨spentFile, still, read⟩ := readCharacters_spent
      (show (⟨[], true, true⟩ : IFStream).Spent from rfl) missing (text.getLastD ch)
      (text ++ [text.getLastD ch])
    rw [readCharacters_succ, IFStream.get_ofBytes_nil, read, IFStream.get_of_spent still]
    refine ⟨_, IFStream.Spent.failed spentFile, ?_⟩
    rw [List.replicate_succ, List.append_assoc, List.singleton_append]

/-- A spent stream yields nothing but the variable's own value. -/
theorem readNCharacter_spent (ch : Byte) {inFile : IFStream} (spent : inFile.Spent) (n : ℕ) :
    ∃ spentFile : IFStream, spentFile.Spent ∧
      readNCharacter ch inFile n = (spentFile, padded ch [] n) := by
  obtain ⟨spentFile, still, read⟩ := readCharacters_spent spent n ch []
  refine ⟨_, IFStream.Spent.failed spentFile, ?_⟩
  simp only [readNCharacter, Int.toNat_natCast, read, IFStream.get_of_spent still, padded,
    List.nil_append, List.length_nil, Nat.sub_zero, List.getLastD_nil]

/-- A counted field of a record: its length on a line, then the text and a separator. -/
def fieldBytes (text : Bytes) : Bytes := decimal text.length ++ newline :: (text ++ [newline])

/-- The part of the replay that reads one field. -/
def readField (ch : Byte) (inFile : IFStream) : Except StoiError (IFStream × Bytes) :=
  (stoi (inFile.getline []).2).map (readNCharacter ch (inFile.getline []).1)

theorem replayPut_eq (ch : Byte) (storage : Storage) (inFile : IFStream) :
    replayPut ch storage inFile =
      (readField ch inFile).bind fun keyRead =>
        (readField ch keyRead.1).map fun valueRead =>
          (storage.pushBack keyRead.2 valueRead.2, valueRead.1) := by
  simp only [replayPut, readField, bind, Except.bind, Except.map, pure, Except.pure,
    Storage.put_snd]
  cases stoi (inFile.getline []).2 with
  | error e => rfl
  | ok n =>
    cases second : stoi ((readNCharacter ch (inFile.getline []).1 n).1.getline []).2 <;>
      simp only [second]

theorem replayRemove_eq (ch : Byte) (storage : Storage) (inFile : IFStream) :
    replayRemove ch storage inFile =
      (readField ch inFile).map fun keyRead => (storage.erase keyRead.2, keyRead.1) := by
  simp only [replayRemove, readField, bind, Except.bind, Except.map, pure, Except.pure,
    Storage.deleteKey_snd]
  cases stoi (inFile.getline []).2 <;> rfl

/-- A complete field is read as its text, and the stream is left behind it. -/
theorem readField_whole (ch : Byte) {text : Bytes} (short : text.length < 2 ^ 31) (rest : Bytes) :
    readField ch (.ofBytes (fieldBytes text ++ rest)) = .ok (.ofBytes rest, text) := by
  have front : fieldBytes text ++ rest =
      decimal text.length ++ newline :: (text ++ newline :: rest) := by simp [fieldBytes]
  rw [readField, front, IFStream.getline_line (newline_notMem_decimal _), stoi_decimal short]
  exact congrArg Except.ok (readNCharacter_whole ch text newline rest)

/-- The length of a text that is too long for an `int` makes the field unreadable. -/
theorem readField_long (ch : Byte) {text : Bytes} (long : 2 ^ 31 ≤ text.length) (rest : Bytes) :
    readField ch (.ofBytes (fieldBytes text ++ rest)) = .error .outOfRange := by
  have front : fieldBytes text ++ rest =
      decimal text.length ++ newline :: (text ++ newline :: rest) := by simp [fieldBytes]
  rw [readField, front, IFStream.getline_line (newline_notMem_decimal _), stoi_decimal_of_le long]
  rfl

/-- Without a length line there is no field. -/
theorem readField_spent (ch : Byte) {inFile : IFStream} (spent : inFile.Spent) :
    readField ch inFile = .error .invalidArgument := by
  rw [readField, IFStream.getline_of_spent spent, stoi_nil]
  rfl

/-- A record of the log, by the request that wrote it. -/
inductive LogRecord where
  | put (key value : Bytes)
  | remove (key : Bytes)
deriving DecidableEq, Repr

namespace LogRecord

def key : LogRecord → Bytes
  | put key _ => key
  | remove key => key

/-- The bytes that `PersistentStore` writes for the record. -/
def bytes : LogRecord → Bytes
  | put key value => recordBytes (str "put") key value
  | remove key => recordBytes (str "remove") key []

/-- What the request did to the map. -/
def apply (storage : Storage) : LogRecord → Storage
  | put key value => storage.pushBack key value
  | remove key => storage.erase key

/-- The lengths fit the `int` that `std::stoi` returns. -/
def Short : LogRecord → Prop
  | put key value => key.length < 2 ^ 31 ∧ value.length < 2 ^ 31
  | remove key => key.length < 2 ^ 31

instance (record : LogRecord) : Decidable record.Short := by
  cases record <;> simp only [Short] <;> infer_instance

theorem bytes_put (key value : Bytes) :
    (put key value).bytes = str "put" ++ newline :: (fieldBytes key ++ fieldBytes value) := by
  simp [bytes, recordBytes, fieldBytes]

theorem bytes_remove (key : Bytes) :
    (remove key).bytes = str "remove" ++ newline :: fieldBytes key := by
  have other : ¬ str "remove" = str "put" := by decide
  simp [bytes, recordBytes, fieldBytes, other]

theorem bytes_ne_nil (record : LogRecord) : record.bytes ≠ [] := by
  cases record with
  | put key value =>
    rw [bytes_put]
    exact List.append_ne_nil_of_left_ne_nil (by decide) _
  | remove key =>
    rw [bytes_remove]
    exact List.append_ne_nil_of_left_ne_nil (by decide) _

end LogRecord

/-- The log of a sequence of requests. -/
def logBytes (records : List LogRecord) : Bytes := records.flatMap LogRecord.bytes

def applyAll (storage : Storage) (records : List LogRecord) : Storage :=
  records.foldl LogRecord.apply storage

@[simp] theorem logBytes_nil : logBytes [] = [] := rfl

theorem logBytes_concat (records : List LogRecord) (record : LogRecord) :
    logBytes (records ++ [record]) = logBytes records ++ record.bytes := by
  simp [logBytes]

theorem applyAll_concat (storage : Storage) (records : List LogRecord) (record : LogRecord) :
    applyAll storage (records ++ [record]) = record.apply (applyAll storage records) := by
  simp [applyAll]

/-- A command line at the front of the stream selects its branch. -/
theorem replayStep_command (ch : Byte) (storage : Storage) {command : Bytes}
    (single : newline ∉ command) (rest : Bytes) :
    replayStep ch (storage, .ofBytes (command ++ newline :: rest)) =
      if command = str "put" then continueReplay (replayPut ch storage (.ofBytes rest))
      else if command = str "remove" then continueReplay (replayRemove ch storage (.ofBytes rest))
      else .inr (.ok storage) := by
  simp only [replayStep, IFStream.getline_line single]
  rfl

/-- A complete record is applied, and the stream is left at the byte behind it. -/
theorem replayStep_record (ch : Byte) (storage : Storage) {record : LogRecord}
    (short : record.Short) (rest : Bytes) :
    replayStep ch (storage, .ofBytes (record.bytes ++ rest)) =
      .inl (record.apply storage, .ofBytes rest) := by
  cases record with
  | put key value =>
    rw [LogRecord.bytes_put, List.append_assoc, List.cons_append, List.append_assoc,
      replayStep_command ch storage (by decide), if_pos rfl, replayPut_eq,
      readField_whole ch short.1]
    simp only [Except.bind, readField_whole ch short.2, Except.map]
    rfl
  | remove key =>
    rw [LogRecord.bytes_remove, List.append_assoc, List.cons_append,
      replayStep_command ch storage (by decide), if_neg (by decide), if_pos rfl, replayRemove_eq,
      readField_whole ch short]
    rfl

/-- A record with a text that is too long ends the replay with an exception. -/
theorem replay_long (ch : Byte) (storage : Storage) {record : LogRecord}
    (long : ¬ record.Short) (rest : Bytes) :
    replay ch storage (.ofBytes (record.bytes ++ rest)) = .error .outOfRange := by
  rw [replay_eq]
  cases record with
  | put key value =>
    rw [LogRecord.bytes_put, List.append_assoc, List.cons_append, List.append_assoc,
      replayStep_command ch storage (by decide), if_pos rfl, replayPut_eq]
    rcases Nat.lt_or_ge key.length (2 ^ 31) with shortKey | shortKey
    · have longValue : 2 ^ 31 ≤ value.length := not_lt.mp fun short => long ⟨shortKey, short⟩
      rw [readField_whole ch shortKey]
      simp only [Except.bind, readField_long ch longValue]
      rfl
    · rw [readField_long ch shortKey]
      rfl
  | remove key =>
    rw [LogRecord.bytes_remove, List.append_assoc, List.cons_append,
      replayStep_command ch storage (by decide), if_neg (by decide), if_pos rfl, replayRemove_eq,
      readField_long ch (not_lt.mp long)]
    rfl

/-- Nothing that follows a complete record changes how the record is read. -/
theorem replay_record (ch : Byte) (storage : Storage) {record : LogRecord}
    (short : record.Short) (rest : Bytes) :
    replay ch storage (.ofBytes (record.bytes ++ rest)) =
      replay ch (record.apply storage) (.ofBytes rest) := by
  rw [replay_eq, replayStep_record ch storage short]

/-- Complete records in front of any bytes are applied, and the rest is read from there. -/
theorem replay_records (ch : Byte) (storage : Storage) {records : List LogRecord}
    (short : ∀ record ∈ records, record.Short) (rest : Bytes) :
    replay ch storage (.ofBytes (logBytes records ++ rest)) =
      replay ch (applyAll storage records) (.ofBytes rest) := by
  induction records generalizing storage with
  | nil => rfl
  | cons record records ih =>
    have front : logBytes (record :: records) ++ rest =
        record.bytes ++ (logBytes records ++ rest) := by
      simp [logBytes]
    rw [front, replay_record ch storage (short record List.mem_cons_self),
      ih (record.apply storage) (fun other member => short other (List.mem_cons_of_mem _ member))]
    rfl

/-- A complete record that is too long is met by every replay. -/
theorem replay_records_long (ch : Byte) (storage : Storage) {records : List LogRecord}
    (long : ¬ ∀ record ∈ records, record.Short) (rest : Bytes) :
    replay ch storage (.ofBytes (logBytes records ++ rest)) = .error .outOfRange := by
  induction records generalizing storage with
  | nil => exact absurd (fun _ member => nomatch member) long
  | cons record records ih =>
    have front : logBytes (record :: records) ++ rest =
        record.bytes ++ (logBytes records ++ rest) := by
      simp [logBytes]
    rw [front]
    by_cases short : record.Short
    · rw [replay_record ch storage short]
      exact ih _ fun others => long (List.forall_mem_cons.mpr ⟨short, others⟩)
    · exact replay_long ch storage short _

theorem replay_end (ch : Byte) (storage : Storage) :
    replay ch storage (.ofBytes []) = .ok storage := by
  rw [replay_eq]
  rfl

/-- A log of complete records replays to the records applied in order. -/
theorem replay_log (ch : Byte) (storage : Storage) {records : List LogRecord}
    (short : ∀ record ∈ records, record.Short) :
    replay ch storage (.ofBytes (logBytes records)) = .ok (applyAll storage records) := by
  rw [← List.append_nil (logBytes records), replay_records ch storage short, replay_end]

example : replay 0 ∅ (.ofBytes (logBytes [.put (str "a\n") (str "put\n3\n"), .remove (str "b")])) =
    .ok ((∅ : Storage).pushBack (str "a\n") (str "put\n3\n")) := by decide

/-- `PersistentStore` as the handlers call it. -/
def LogRecord.store (server : KeyValueStoreImpl) : LogRecord → KeyValueStoreImpl
  | put key value => server.persistentStore (str "put") key value
  | remove key => server.persistentStore (str "remove") key []

theorem LogRecord.store_disk (server : KeyValueStoreImpl) (record : LogRecord) :
    (record.store server).disk = some (server.disk.getD [] ++ record.bytes) := by
  cases record <;> rfl

/-- Successive calls of `PersistentStore` append the log of their requests. -/
theorem store_records (server : KeyValueStoreImpl) (records : List LogRecord) :
    (records.foldl LogRecord.store server).disk.getD [] =
      server.disk.getD [] ++ logBytes records := by
  induction records generalizing server with
  | nil => exact (List.append_nil _).symm
  | cons record records ih =>
    rw [List.foldl_cons, ih, LogRecord.store_disk, Option.getD_some, List.append_assoc]
    rfl

/-- The framing is self-delimiting. What `PersistentStore` writes for some requests, followed by
any bytes, is read as the requests applied in order and then those bytes alone; with nothing behind
it, it is read as the requests applied in order. -/
theorem log_framing (ch : Byte) (st : Storage) {ops : List LogRecord}
    (short : ∀ record ∈ ops, record.Short) (server : KeyValueStoreImpl) (s : Bytes) :
    ∃ written, (ops.foldl LogRecord.store server).disk.getD [] = server.disk.getD [] ++ written ∧
      replay ch st (.ofBytes (written ++ s)) = replay ch (applyAll st ops) (.ofBytes s) ∧
      replay ch st (.ofBytes written) = .ok (applyAll st ops) :=
  ⟨logBytes ops, store_records server ops, replay_records ch st short s, replay_log ch st short⟩

/-- A put whose texts look like records, in front of a record that is torn. -/
theorem log_framing_example : ∃ written,
    ([LogRecord.put (str "put\n1") (str "remove\n"), .remove []].foldl LogRecord.store
      ⟨∅, str "log", true, none⟩).disk.getD [] = (none : Option Bytes).getD [] ++ written ∧
      replay 7 ∅ (.ofBytes (written ++ str "put\n9")) =
        replay 7 (applyAll ∅ [LogRecord.put (str "put\n1") (str "remove\n"), .remove []])
          (.ofBytes (str "put\n9")) ∧
      replay 7 ∅ (.ofBytes written) =
        .ok (applyAll ∅ [LogRecord.put (str "put\n1") (str "remove\n"), .remove []]) :=
  log_framing 7 ∅ (by decide) ⟨∅, str "log", true, none⟩ (str "put\n9")

end FuncWarble.Proofs
