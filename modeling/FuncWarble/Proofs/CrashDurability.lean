import Mathlib
import FuncWarble.Machine.Loop
import FuncWarble.Proofs.TornLog

/-! # Appending behind a torn tail

`PersistentLoad` leaves a torn tail in the file, and `PersistentStore` appends behind it. A server
whose crashes all fall on record boundaries stays durable through any number of them. A single
crash inside a record whose log still loads is enough to lose a later acknowledged request: the
tail takes the first byte of the next record with it, and the replay stops there.
-/

namespace FuncWarble.Proofs

open Text Model Machine

/-- What happens to a server that may crash. A crash comes while the record of a request is being
appended: its first `cut` bytes reach the file, and a new server loads that file. -/
inductive CrashEvent where
  | served (event : ServerEvent)
  | crash (record : LogRecord) (cut : ℕ) (ch : Byte)
deriving DecidableEq

/-- The server after one event; every load may end with an exception. -/
def suffer (server : KeyValueStoreImpl) : CrashEvent → Except StoiError KeyValueStoreImpl
  | .served event => serve server event
  | .crash record cut ch => KeyValueStoreImpl.persistentLoad ch server.persistentFile
      (some (server.disk.getD [] ++ record.bytes.take cut))

/-- The event leaves a file of complete, readable records. -/
def CrashEvent.Intact : CrashEvent → Prop
  | served event => event.Short
  | crash record cut _ => cut = 0 ∨ record.Short ∧ record.bytes.length ≤ cut

instance (event : CrashEvent) : Decidable event.Intact := by
  cases event <;> simp only [CrashEvent.Intact] <;> infer_instance

/-- After the events `later`, a clean restart has the storage of `recovered` with the later
requests applied in order. -/
def Durable (recovered : KeyValueStoreImpl) (later : List ServerEvent) : Prop :=
  ∃ server, later.foldlM serve recovered = .ok server ∧
    ∀ ch, ∃ restarted, serve server (.restart ch) = .ok restarted ∧
      restarted.storage = applyAll recovered.storage (history later)

theorem applyAll_append (storage : Storage) (first second : List LogRecord) :
    applyAll storage (first ++ second) = applyAll (applyAll storage first) second :=
  List.foldl_append

/-- A server whose log is made of complete records is durable. -/
theorem Holds.durable {past : List LogRecord} {server : KeyValueStoreImpl}
    (held : Holds past server)
    (short : ∀ record ∈ past, record.Short) {later : List ServerEvent}
    (shortLater : ∀ event ∈ later, event.Short) : Durable server later := by
  obtain ⟨last, ran, heldLast⟩ := run_holds held short shortLater
  refine ⟨last, ran, fun ch => ?_⟩
  have shortAll : ∀ record ∈ past ++ history later, record.Short :=
    List.forall_mem_append.mpr ⟨short, short_history shortLater⟩
  obtain ⟨restarted, served, heldNext⟩ := serve_holds heldLast shortAll (.restart ch)
  refine ⟨restarted, served, ?_⟩
  rw [heldNext.memory, ServerEvent.record?, Option.toList_none, List.append_nil, applyAll_append,
    held.memory]

/-- An intact event keeps memory and log equal to some history of readable records. -/
theorem suffer_holds {past : List LogRecord} {server : KeyValueStoreImpl} (held : Holds past server)
    (short : ∀ record ∈ past, record.Short) {event : CrashEvent} (intact : event.Intact) :
    ∃ next more, suffer server event = .ok next ∧ (∀ record ∈ more, record.Short) ∧
      Holds more next := by
  cases event with
  | served event =>
    obtain ⟨next, served, heldNext⟩ := serve_holds held short event
    have shortEvent : event.Short := intact
    exact ⟨next, _, served, List.forall_mem_append.mpr ⟨short, shortEvent.toList⟩, heldNext⟩
  | crash record cut ch =>
    simp only [suffer, held.log, Option.getD_some]
    rcases intact with rfl | ⟨shortRecord, whole⟩
    · rw [List.take_zero, List.append_nil]
      obtain ⟨next, loaded, heldNext⟩ := persistentLoad_log ch held.named short
      exact ⟨next, past, loaded, short, heldNext⟩
    · have shortAll : ∀ other ∈ past ++ [record], other.Short :=
        List.forall_mem_append.mpr ⟨short, List.forall_mem_singleton.mpr shortRecord⟩
      rw [List.take_of_length_le whole, ← logBytes_concat]
      obtain ⟨next, loaded, heldNext⟩ := persistentLoad_log ch held.named shortAll
      exact ⟨next, _, loaded, shortAll, heldNext⟩

theorem suffer_run_holds {past : List LogRecord} {server : KeyValueStoreImpl}
    (held : Holds past server) (short : ∀ record ∈ past, record.Short) {events : List CrashEvent}
    (intact : ∀ event ∈ events, event.Intact) :
    ∃ last more, events.foldlM suffer server = .ok last ∧ (∀ record ∈ more, record.Short) ∧
      Holds more last := by
  have total : ∃ last, events.foldlM suffer server = .ok last ∧
      ∃ more, (∀ record ∈ more, record.Short) ∧ Holds more last := by
    refine Loop.foldlM_total (fun _ server => ∃ more, (∀ record ∈ more, record.Short) ∧
      Holds more server) ⟨past, short, held⟩ ?_
    rintro _ event middle member ⟨more, shortMore, heldMiddle⟩
    obtain ⟨next, all, suffered, shortAll, heldNext⟩ :=
      suffer_holds heldMiddle shortMore (intact event member)
    exact ⟨next, suffered, all, shortAll, heldNext⟩
  obtain ⟨last, ran, more, shortMore, heldLast⟩ := total
  exact ⟨last, more, ran, shortMore, heldLast⟩

/-- Durability through crashes. Every run whose crashes leave complete records recovers from each
of them, and what is acknowledged afterwards survives the next restart. -/
theorem durable_after_crashes (ch : Byte) {persistentFile : Bytes} (named : persistentFile ≠ [])
    {disk : Option Bytes} (fresh : disk = none ∨ disk = some []) {events : List CrashEvent}
    (intact : ∀ event ∈ events, event.Intact) {later : List ServerEvent}
    (short : ∀ event ∈ later, event.Short) :
    ∃ first recovered, KeyValueStoreImpl.persistentLoad ch persistentFile disk = .ok first ∧
      events.foldlM suffer first = .ok recovered ∧ Durable recovered later := by
  obtain ⟨first, loaded, heldFirst⟩ := persistentLoad_fresh ch named fresh
  obtain ⟨recovered, past, ran, shortPast, held⟩ :=
    suffer_run_holds heldFirst (fun _ member => nomatch member) intact
  exact ⟨first, recovered, loaded, ran, held.durable shortPast short⟩

theorem durable_after_crashes_example : ∃ first recovered,
    KeyValueStoreImpl.persistentLoad 0 (str "log") (some []) = .ok first ∧
      [CrashEvent.served (.put ⟨str "k", str "v"⟩), .crash (.remove (str "k")) 0 7].foldlM suffer
        first = .ok recovered ∧
      Durable recovered [.put ⟨str "k", str "w"⟩, .restart 0] :=
  durable_after_crashes 0 (by decide) (.inr rfl) (by decide) (by decide)

/-- Text that starts like no command ends the replay. -/
theorem replay_other (ch : Byte) (storage : Storage) {rest : Bytes}
    (other : ∀ b ∈ rest.head?, b ≠ 112 ∧ b ≠ 114) :
    replay ch storage (.ofBytes rest) = .ok storage := by
  have line : ((IFStream.ofBytes rest).getline []).2 = rest.takeWhile (· != newline) := by
    rw [IFStream.getline, if_pos (IFStream.good_ofBytes rest)]
    split <;> rfl
  have noCommand : ∀ command : Bytes, command.head? = some 112 ∨ command.head? = some 114 →
      ((IFStream.ofBytes rest).getline []).2 ≠ command := by
    rintro command first rfl
    rw [line] at first
    cases rest with
    | nil => simp at first
    | cons b rest =>
      obtain ⟨notP, notR⟩ := other b rfl
      rw [List.takeWhile_cons] at first
      split at first
      · rcases first with same | same
        · exact notP (Option.some.inj same)
        · exact notR (Option.some.inj same)
      · simp at first
  rw [replay_eq]
  simp only [replayStep, noCommand (str "put") (.inl rfl), noCommand (str "remove") (.inr rfl),
    ↓reduceIte, ite_self]

/-- A request whose record is not seen behind a torn tail: no byte of its record but the first
starts a command. -/
def decoy (size : ℕ) (b : Byte) : LogRecord := .put [] (List.replicate size b)

private theorem decoy_bytes (size : ℕ) (b : Byte) : (decoy size b).bytes =
    str "put" ++ newline :: (str "0\n\n" ++ (decimal size ++ newline ::
      (List.replicate size b ++ [newline]))) := by
  simp only [decoy, LogRecord.bytes_put, fieldBytes, List.length_replicate]
  rfl

private theorem replay_decoy_drop (ch : Byte) (storage : Storage) (size : ℕ) {b : Byte}
    (other : b ≠ 112 ∧ b ≠ 114) {skipped : ℕ} (positive : 0 < skipped) :
    replay ch storage (.ofBytes ((decoy size b).bytes.drop skipped)) = .ok storage := by
  refine replay_other ch storage fun first isFirst => ?_
  obtain ⟨skipped, rfl⟩ := Nat.exists_eq_add_of_lt positive
  rw [decoy_bytes, show 0 + skipped + 1 = 1 + skipped by omega, ← List.drop_drop] at isFirst
  have member := List.mem_of_mem_drop (List.mem_of_mem_head? isFirst)
  change first ∈ str "ut\n0\n\n" ++ _ at member
  rcases List.mem_append.mp member with front | member
  · have fixed : (str "ut\n0\n\n").all (fun b => b != 112 && b != 114) = true := by decide
    simpa using List.all_eq_true.mp fixed first front
  rcases List.mem_append.mp member with digit | member
  · have isDigit := isDigit_of_mem_decimal digit
    refine ⟨?_, ?_⟩ <;> rintro rfl <;> exact absurd isDigit (by decide)
  rcases List.mem_cons.mp member with rfl | member
  · decide
  rcases List.mem_append.mp member with same | same
  · exact List.eq_of_mem_replicate same ▸ other
  · exact List.mem_singleton.mp same ▸ by decide

/-- A torn command word and the command behind it make one line, which is no command. -/
private theorem replay_command_behind (ch : Byte) (storage : Storage) {record : LogRecord} {cut : ℕ}
    (positive : 0 < cut) (inside : cut < record.command.length) (size : ℕ) (b : Byte) :
    replay ch storage (.ofBytes (record.bytes.take cut ++ (decoy size b).bytes)) = .ok storage := by
  rw [LogRecord.bytes_take_command inside.le, decoy_bytes, ← List.append_assoc, replay_eq]
  cases record with
  | put key value =>
    change cut < 3 at inside
    simp only [LogRecord.command]
    interval_cases cut <;> rw [replayStep_command ch storage (by decide)] <;> rfl
  | remove key =>
    change cut < 6 at inside
    simp only [LogRecord.command]
    interval_cases cut <;> rw [replayStep_command ch storage (by decide)] <;> rfl

/-- A torn last field swallows the start of the record behind it, and the replay stops there. -/
private theorem replay_field_behind (ch : Byte) (storage : Storage) {record : LogRecord}
    (short : record.Short) {cut : ℕ} (behind : record.front.length < cut)
    (inside : cut < record.bytes.length) {size : ℕ} (enough : record.lastField.length ≤ size)
    {b : Byte} (other : b ≠ 112 ∧ b ≠ 114) :
    ∃ swallowed, replay ch storage
      (.ofBytes (record.bytes.take cut ++ (decoy size b).bytes)) =
        .ok ((record.withLast swallowed).apply storage) := by
  rw [LogRecord.bytes_length] at inside
  have long : record.lastField.length < (str "0\n\n" ++ (decimal size ++ newline ::
      (List.replicate size b ++ [newline]))).length := by
    simp only [List.length_append, List.length_cons, List.length_replicate]
    omega
  obtain ⟨skipped, swallowed, positive, read⟩ := readField_behind ch short.lastField
    (show 0 < cut - record.front.length by omega) (by omega) long
  refine ⟨swallowed, ?_⟩
  rw [LogRecord.bytes_take_last behind.le, List.append_assoc, replay_front ch storage short.front,
    decoy_bytes, read, ← decoy_bytes]
  exact replay_decoy_drop ch _ _ other positive

/-- What a record with a wrong last field leaves can never be what it leaves with the right one
and one of two further puts. -/
private theorem withLast_ne_pushBack (storage : Storage) (record : LogRecord)
    {completion first second z w : Bytes} (distinct : z ≠ w) :
    ¬ ((record.withLast first).apply storage =
        ((record.withLast completion).apply storage).pushBack [] z ∧
      (record.withLast second).apply storage =
        ((record.withLast completion).apply storage).pushBack [] w) := by
  rintro ⟨left, right⟩
  have atLeft := congrArg (fun s => s.get []) left
  have atRight := congrArg (fun s => s.get []) right
  simp only [Storage.get_pushBack_self] at atLeft atRight
  cases record with
  | put key value =>
    simp only [LogRecord.withLast, LogRecord.apply] at atLeft
    have sizes := congrArg List.length atLeft
    rcases eq_or_ne key [] with rfl | same
    · simp only [Storage.get_pushBack_self, List.length_append, List.length_singleton] at sizes
      omega
    · simp only [Storage.get_pushBack_of_ne _ _ (Ne.symm same), List.length_append,
        List.length_singleton] at sizes
      omega
  | remove key =>
    simp only [LogRecord.withLast, LogRecord.apply] at atLeft atRight
    have kept : ∀ other : Bytes, (storage.erase other).get [] ≠ [] →
        (storage.erase other).get [] = storage.get [] := by
      intro other stored
      apply Storage.get_erase_of_ne storage
      rintro rfl
      exact stored (Storage.get_erase_self storage [])
    rw [kept first (by simp [atLeft])] at atLeft
    rw [kept second (by simp [atRight]), atLeft] at atRight
    exact distinct (List.cons.inj (List.append_cancel_left atRight)).1

/-- What durability of a single further put says about the log. -/
private theorem Durable.replay {server : KeyValueStoreImpl} (named : server.persistentFile ≠ [])
    (mode : server.persistentMode = true) {bytes : Bytes} (log : server.disk = some bytes)
    {key value : Bytes} (durable : Durable server [.put ⟨key, value⟩]) :
    Model.replay 0 ∅ (.ofBytes (bytes ++ (LogRecord.put key value).bytes)) =
      .ok (server.storage.pushBack key value) := by
  obtain ⟨last, ran, restarts⟩ := durable
  obtain ⟨restarted, served, same⟩ := restarts 0
  obtain rfl : (server.put ⟨key, value⟩).2 = last := Except.ok.inj ran
  simp only [serve, KeyValueStoreImpl.put_eq, mode, log, ↓reduceIte, Option.getD_some,
    KeyValueStoreImpl.persistentLoad_some 0 named] at served
  change (Model.replay 0 ∅ (.ofBytes (bytes ++ (LogRecord.put key value).bytes))).map _ = _
    at served
  cases read : Model.replay 0 ∅ (.ofBytes (bytes ++ (LogRecord.put key value).bytes)) with
  | error e => rw [read] at served; contradiction
  | ok storage =>
    rw [read] at served
    obtain rfl := Except.ok.inj served
    exact congrArg Except.ok same

/-- Durability after one crash. When the log with the torn record still loads, every later request
survives the next restart exactly when the crash fell on a record boundary. -/
theorem durable_after_crash_iff {past : List LogRecord} {server recovered : KeyValueStoreImpl}
    (held : Holds past server) (short : ∀ record ∈ past, record.Short) {record : LogRecord}
    (shortRecord : record.Short) {cut : ℕ} {ch : Byte}
    (loaded : suffer server (.crash record cut ch) = .ok recovered) :
    (∀ later, (∀ event ∈ later, event.Short) → Durable recovered later) ↔
      cut = 0 ∨ record.bytes.length ≤ cut := by
  constructor
  · intro durable
    by_contra torn
    obtain ⟨nonzero, inside⟩ := not_or.mp torn
    rw [not_le] at inside
    simp only [suffer, held.log, Option.getD_some,
      KeyValueStoreImpl.persistentLoad_some ch held.named, replay_records ch ∅ short] at loaded
    cases read : replay ch (applyAll ∅ past) (.ofBytes (record.bytes.take cut)) with
    | error e => rw [read] at loaded; contradiction
    | ok storage =>
    rw [read] at loaded
    obtain rfl := Except.ok.inj loaded
    -- The replay of the torn tail with a decoy behind it, as durability would have it.
    let size := max 1 record.lastField.length
    have expected (b : Byte) : replay 0 (applyAll ∅ past)
        (.ofBytes (record.bytes.take cut ++ (decoy size b).bytes)) =
          .ok (storage.pushBack [] (List.replicate size b)) := by
      have shortDecoy : (ServerEvent.put ⟨[], List.replicate size b⟩).Short := by
        intro other same
        obtain rfl := Option.some.inj same
        refine ⟨by simp, ?_⟩
        rw [List.length_replicate]
        have := shortRecord.lastField
        omega
      have whole := (durable [.put ⟨[], List.replicate size b⟩] (by simpa using shortDecoy)).replay
        (by exact held.named) rfl rfl
      rwa [List.append_assoc, replay_records 0 ∅ short] at whole
    rcases Nat.lt_or_ge cut record.command.length with inCommand | behindCommand
    · have same := (replay_command_behind 0 (applyAll ∅ past) (by omega) inCommand
        size 121).symm.trans (expected 121)
      rw [replay_torn_command ch _ inCommand] at read
      obtain rfl := Except.ok.inj read
      exact Storage.pushBack_ne_self _ _ _ (Except.ok.inj same).symm
    rcases Nat.lt_or_ge record.front.length cut with behind | inFront
    · have counted := (counted_le record.lastField
        (show 0 < cut - record.front.length by omega)).trans_lt shortRecord.lastField
      rw [replay_torn_last ch _ shortRecord.front behind inside counted] at read
      obtain rfl := Except.ok.inj read
      obtain ⟨first, left⟩ := replay_field_behind 0 (applyAll ∅ past) shortRecord behind inside
        (le_max_right 1 _) (b := 121) (by decide)
      obtain ⟨second, right⟩ := replay_field_behind 0 (applyAll ∅ past) shortRecord behind inside
        (le_max_right 1 _) (b := 122) (by decide)
      refine withLast_ne_pushBack (applyAll ∅ past) record ?_
        ⟨Except.ok.inj (left.symm.trans (expected 121)),
          Except.ok.inj (right.symm.trans (expected 122))⟩
      rw [Ne, List.replicate_inj]
      simp [size]
    · obtain ⟨e, failed⟩ := replay_torn_front ch (applyAll ∅ past) behindCommand inFront
      rw [failed] at read
      contradiction
  · intro boundary
    have intact : (CrashEvent.crash record cut ch).Intact :=
      boundary.imp_right fun whole => ⟨shortRecord, whole⟩
    obtain ⟨next, more, suffered, shortMore, heldNext⟩ := suffer_holds held short intact
    obtain rfl := Except.ok.inj (suffered.symm.trans loaded)
    exact fun later shortLater => heldNext.durable shortMore shortLater

/-- After a crash two bytes into its first record the server recovers with an empty storage, and
forgets the request that it acknowledges next. -/
theorem durable_after_crashes_fails : ∃ first recovered,
    KeyValueStoreImpl.persistentLoad 0 (str "log") none = .ok first ∧
      [CrashEvent.crash (.put (str "k") (str "v")) 2 0].foldlM suffer first = .ok recovered ∧
      ¬ Durable recovered [.put ⟨str "a", str "1"⟩] := by
  refine ⟨⟨∅, str "log", true, some []⟩, ⟨∅, str "log", true, some (str "pu")⟩, by decide,
    by decide, ?_⟩
  intro durable
  have expected := durable.replay (by decide) rfl rfl
  have hidden : replay 0 ∅ (.ofBytes (str "pu" ++ (LogRecord.put (str "a") (str "1")).bytes)) =
      .ok ∅ := by decide
  exact Storage.pushBack_ne_self _ _ _ (Except.ok.inj (hidden.symm.trans expected)).symm

end FuncWarble.Proofs
