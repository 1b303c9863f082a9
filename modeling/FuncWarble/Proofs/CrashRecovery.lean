import Mathlib
import FuncWarble.Proofs.TornLog

/-! # Which crashes a load survives

A load of a torn log is clean when it gives the storage before or after the torn request. It is
not clean for most cuts: up to the last field it throws, and inside the last field it stores a
padded text. The cuts that leave no trace are those inside the command word, those whose padding
happens to restore the text, and those of a `remove` whose padded key is not in the storage.
-/

namespace FuncWarble.Proofs

open Text Model

/-- The load of the torn log ends without an exception, in the storage of the records before the
torn one or of all records, whatever the uninitialised variable of `ReadNCharacter` holds. -/
def RecoversCleanly (records : List LogRecord) (last : LogRecord) (cut : ℕ) : Prop :=
  ∀ ch, ∃ storage, reload ch (tornLog records last cut) = .ok storage ∧
    (storage = applyAll ∅ records ∨ storage = applyAll ∅ (records ++ [last]))

/-- The bytes of `text` behind the first `kept` ones repeat the last one that is kept. -/
def Repeats (text : Bytes) (kept : ℕ) : Prop :=
  ∃ last ∈ (text.take kept).getLast?, ∀ b ∈ text.drop kept, b = last

/-- A cut `cut` bytes into a field is made good by padding: the text is empty, or some of it is
left and the rest repeats its last byte. -/
def Restored (text : Bytes) (cut : ℕ) : Prop :=
  text = [] ∨ ∃ kept, cut = (decimal text.length).length + 1 + kept ∧ Repeats text kept

/-- The condition on the storage before the request, the request and the cut under which the
crash leaves no trace. -/
def Harmless (storage : Storage) (record : LogRecord) (cut : ℕ) : Prop :=
  cut < record.command.length ∨ record.front.length < cut ∧
    match record with
    | .put key value =>
      let inValue := cut - record.front.length
      key.length < 2 ^ 31 ∧ counted value inValue < 2 ^ 31 ∧ Restored value inValue
    | .remove key =>
      let inKey := cut - record.front.length
      counted key inKey < 2 ^ 31 ∧
        ∀ ch, completed ch key inKey = key ∨ storage.get (completed ch key inKey) = []

private theorem padded_nil (ch : Byte) (n : ℕ) : padded ch [] n = List.replicate n ch := by
  simp [padded]

private theorem not_forall_replicate {n : ℕ} (positive : 0 < n) (text : Bytes) :
    ¬ ∀ ch, List.replicate n ch = text := by
  intro same
  have equal := (same 0).trans (same 1).symm
  obtain ⟨n, rfl⟩ := Nat.exists_eq_add_of_lt positive
  simp [List.replicate_succ] at equal

private theorem padded_take_eq_iff (text : Bytes) (kept : ℕ) :
    (∀ ch, padded ch (text.take kept) text.length = text) ↔ text = [] ∨ Repeats text kept := by
  have missing : text.length - (text.take kept).length = (text.drop kept).length := by
    rw [List.length_take, List.length_drop]
    omega
  have parts (ch : Byte) : padded ch (text.take kept) text.length = text ↔
      List.replicate (text.drop kept).length ((text.take kept).getLastD ch) = text.drop kept := by
    constructor
    · intro same
      have both := same.trans (List.take_append_drop kept text).symm
      rw [padded, missing] at both
      exact List.append_cancel_left both
    · intro same
      rw [padded, missing, same, List.take_append_drop]
  simp only [parts, Repeats]
  cases final : (text.take kept).getLast? with
  | none =>
    have empty : text.take kept = [] := List.getLast?_eq_none_iff.mp final
    simp only [List.getLastD_eq_getLast?, final, Option.getD_none, Option.mem_def, reduceCtorEq,
      false_and, exists_false, or_false]
    constructor
    · intro same
      by_contra nonempty
      refine not_forall_replicate ?_ _ same
      rcases List.take_eq_nil_iff.mp empty with rfl | none
      · simpa [List.length_pos_iff] using nonempty
      · exact absurd none nonempty
    · rintro rfl ch
      simp
  | some last =>
    have nonempty : text ≠ [] := by
      rintro rfl
      simp at final
    simp only [List.getLastD_eq_getLast?, final, Option.getD_some, Option.mem_def,
      Option.some.injEq, exists_eq_left', nonempty, false_or, forall_const]
    rw [eq_comm, List.eq_replicate_iff]
    simp

/-- Whatever the uninitialised variable holds, the completed field is the text itself. -/
theorem forall_completed_eq_iff {text : Bytes} {cut : ℕ} (positive : 0 < cut) :
    (∀ ch, completed ch text cut = text) ↔ Restored text cut := by
  rcases le_or_gt cut (decimal text.length).length with inCount | inCount
  · simp only [completed, if_pos inCount, padded_nil, Restored]
    constructor
    · intro same
      refine .inl (by_contra fun nonempty => not_forall_replicate ?_ text same)
      exact decimal_take_pos (List.length_pos_iff.mpr nonempty) positive
    · rintro (rfl | ⟨kept, rfl, _⟩) ch
      · have zero := counted_le [] positive
        rw [List.length_nil, Nat.le_zero] at zero
        rw [zero, List.replicate_zero]
      · omega
  · obtain ⟨kept, rfl⟩ := Nat.exists_eq_add_of_lt inCount
    simp only [completed, if_neg (not_le.mpr inCount), Restored]
    rw [show (decimal text.length).length + kept + 1 - (decimal text.length).length - 1 = kept by
      omega, padded_take_eq_iff]
    refine or_congr_right ⟨fun repeats => ⟨kept, by omega, repeats⟩, ?_⟩
    rintro ⟨other, same, repeats⟩
    obtain rfl : kept = other := by omega
    exact repeats

/-- The load leaves no trace of a record that is torn inside its last field. -/
private theorem withLast_harmless_iff (storage : Storage) (record : LogRecord) {cut : ℕ}
    (behind : record.front.length < cut) (shortFront : record.ShortFront)
    (short : counted record.lastField (cut - record.front.length) < 2 ^ 31) :
    (∀ ch, (record.withLast (completed ch record.lastField (cut - record.front.length))).apply
        storage = storage ∨
      (record.withLast (completed ch record.lastField (cut - record.front.length))).apply
        storage = record.apply storage) ↔ Harmless storage record cut := by
  have notCommand : ¬ cut < record.command.length := by
    have := record.command_length_lt_front
    omega
  cases record with
  | put key value =>
    simp only [LogRecord.lastField] at short
    simp only [Harmless, notCommand, behind, true_and, false_or, LogRecord.withLast,
      LogRecord.apply, LogRecord.lastField, Storage.pushBack_ne_self, Storage.pushBack_inj]
    rw [forall_completed_eq_iff (by omega)]
    exact ⟨fun restored => ⟨shortFront, short, restored⟩, fun held => held.2.2⟩
  | remove key =>
    simp only [LogRecord.lastField] at short
    simp only [Harmless, notCommand, behind, short, true_and, false_or, LogRecord.withLast,
      LogRecord.apply, LogRecord.lastField, Storage.erase_eq_self_iff]
    refine forall_congr' fun ch => ?_
    generalize completed ch key (cut - (LogRecord.remove key).front.length) = other
    constructor
    · rintro (empty | same)
      · exact .inr empty
      · rcases eq_or_ne other key with equal | equal
        · exact .inl equal
        · have found := Storage.get_erase_of_ne storage equal
          rw [← same, Storage.get_erase_self] at found
          exact .inr found.symm
    · rintro (rfl | empty)
      · exact .inr rfl
      · exact .inl empty

/-- A record that is in the file as a whole is harmless when it can be read. -/
private theorem harmless_whole (storage : Storage) (record : LogRecord) {cut : ℕ}
    (whole : record.bytes.length ≤ cut) : Harmless storage record cut ↔ record.Short := by
  rw [LogRecord.bytes_length, fieldBytes_length] at whole
  have notCommand : ¬ cut < record.command.length := by
    have := record.command_length_lt_front
    omega
  have behind : record.front.length < cut := by omega
  obtain ⟨kept, same⟩ := Nat.exists_eq_add_of_lt behind
  have inField : cut - record.front.length = kept + 1 := by omega
  have count := @counted_of_behind record.lastField (cut - record.front.length) (by omega)
  have restored : ∀ ch, completed ch record.lastField (cut - record.front.length) =
      record.lastField := by
    intro ch
    rw [completed, if_neg (by omega), List.take_of_length_le (by omega), padded_self]
  cases record with
  | put key value =>
    simp only [LogRecord.lastField] at count restored
    simp only [Harmless, notCommand, behind, true_and, false_or, count, LogRecord.Short]
    rw [← forall_completed_eq_iff (by omega)]
    exact ⟨fun held => ⟨held.1, held.2.1⟩, fun short => ⟨short.1, short.2, restored⟩⟩
  | remove key =>
    simp only [LogRecord.lastField] at count restored
    simp only [Harmless, notCommand, behind, true_and, false_or, count, LogRecord.Short]
    exact ⟨fun held => held.1, fun short => ⟨short, fun ch => .inl (restored ch)⟩⟩

/-- The replay of a torn record leaves no trace exactly when its cut is harmless. -/
theorem replay_harmless_iff (storage : Storage) (record : LogRecord) (cut : ℕ) :
    (∀ ch, ∃ result, replay ch storage (.ofBytes (record.bytes.take cut)) = .ok result ∧
      (result = storage ∨ result = record.apply storage)) ↔ Harmless storage record cut := by
  rcases Nat.lt_or_ge cut record.command.length with inCommand | behindCommand
  · constructor
    · exact fun _ => .inl inCommand
    · exact fun _ ch => ⟨storage, replay_torn_command ch storage inCommand, .inl rfl⟩
  rcases Nat.lt_or_ge record.front.length cut with behind | inFront
  · rcases Nat.lt_or_ge cut record.bytes.length with inside | whole
    · by_cases short : record.ShortFront ∧
        counted record.lastField (cut - record.front.length) < 2 ^ 31
      · rw [← withLast_harmless_iff storage record behind short.1 short.2]
        refine forall_congr' fun ch => ?_
        simp only [replay_torn_last ch storage short.1 behind inside short.2, Except.ok.injEq,
          exists_eq_left']
      · constructor
        · intro clean
          obtain ⟨result, loaded, _⟩ := clean 0
          rw [replay_torn_last_long 0 storage behind inside
            (fun shortFront shortLast => short ⟨shortFront, shortLast⟩)] at loaded
          contradiction
        · rintro (inCommand | ⟨_, held⟩)
          · omega
          · cases record with
            | put key value => exact absurd ⟨held.1, held.2.1⟩ short
            | remove key => exact absurd ⟨trivial, held.1⟩ short
    · rw [List.take_of_length_le whole, harmless_whole storage record whole,
        ← List.append_nil record.bytes]
      constructor
      · intro clean
        by_contra long
        obtain ⟨result, loaded, _⟩ := clean 0
        rw [replay_long 0 storage long] at loaded
        contradiction
      · intro short ch
        refine ⟨record.apply storage, ?_, .inr rfl⟩
        rw [replay_record ch storage short, replay_end]
  · constructor
    · intro clean
      obtain ⟨result, loaded, _⟩ := clean 0
      obtain ⟨e, failed⟩ := replay_torn_front 0 storage behindCommand inFront
      rw [failed] at loaded
      contradiction
    · rintro (inCommand | ⟨behind, _⟩) <;> omega

/-- A crash is recovered from cleanly exactly when the complete records can be read and the cut
is harmless. -/
theorem recoversCleanly_iff (records : List LogRecord) (last : LogRecord) (cut : ℕ) :
    RecoversCleanly records last cut ↔
      (∀ record ∈ records, record.Short) ∧ Harmless (applyAll ∅ records) last cut := by
  by_cases short : ∀ record ∈ records, record.Short
  · rw [← replay_harmless_iff, and_iff_right short, RecoversCleanly]
    refine forall_congr' fun ch => ?_
    have loaded := reload_tornLog ch short last cut []
    rw [List.append_nil, List.append_nil] at loaded
    rw [loaded, applyAll_concat]
  · constructor
    · intro clean
      obtain ⟨storage, loaded, _⟩ := clean 0
      rw [reload_eq, tornLog, replay_records_long 0 ∅ short] at loaded
      contradiction
    · exact fun held => absurd held.1 short

/-- The value "ab" cut after its first byte is recovered as "aa", and a cut behind the command
word ends the load with an exception. -/
theorem recoversCleanly_fails :
    ¬ RecoversCleanly [] (.put (str "k") (str "ab")) 11 ∧
      ¬ RecoversCleanly [] (.put (str "k") (str "ab")) 3 := by
  constructor
  · intro clean
    obtain ⟨storage, loaded, either⟩ := clean 0
    have padded : reload 0 (tornLog [] (.put (str "k") (str "ab")) 11) =
        .ok ((∅ : Storage).pushBack (str "k") (str "aa")) := by decide
    obtain rfl := Except.ok.inj (padded.symm.trans loaded)
    exact absurd either (by decide)
  · intro clean
    obtain ⟨storage, loaded, _⟩ := clean 0
    have thrown : reload 0 (tornLog [] (.put (str "k") (str "ab")) 3) =
        .error .invalidArgument := by decide
    rw [thrown] at loaded
    contradiction

end FuncWarble.Proofs
