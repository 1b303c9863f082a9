import Mathlib
import FuncWarble.Machine.Loop
import FuncWarble.Proofs.LogFraming

/-! # The durable multimap

The purpose of the server: a key holds the values put under it since its last remove. `valuesSince`
states this over a history of requests, with no map and no log in it. The server's memory is that
function of the history, and so is the replay of its log; a run with restarts therefore cannot be
told from one without.
-/

namespace FuncWarble.Proofs

open Text Model Machine

/-- The value that a request puts under `key`, if it is such a request. -/
def LogRecord.valueUnder (key : Bytes) : LogRecord → Option Bytes
  | .put other value => if other = key then some value else none
  | .remove _ => none

/-- The values put under `key` since its last remove, in the order of the puts. -/
def valuesSince (key : Bytes) (history : List LogRecord) : List Bytes :=
  (history.rtakeWhile (· != .remove key)).filterMap (LogRecord.valueUnder key)

@[simp] theorem valuesSince_nil (key : Bytes) : valuesSince key [] = [] := rfl

theorem valuesSince_put_self (key value : Bytes) (history : List LogRecord) :
    valuesSince key (history ++ [.put key value]) = valuesSince key history ++ [value] := by
  rw [valuesSince, List.rtakeWhile_concat_pos _ _ _ (by simp)]
  simp [LogRecord.valueUnder, valuesSince]

theorem valuesSince_remove_self (key : Bytes) (history : List LogRecord) :
    valuesSince key (history ++ [.remove key]) = [] := by
  rw [valuesSince, List.rtakeWhile_concat_neg _ _ _ (by simp)]
  rfl

theorem valuesSince_of_ne {key : Bytes} {record : LogRecord} (ne : record.key ≠ key)
    (history : List LogRecord) :
    valuesSince key (history ++ [record]) = valuesSince key history := by
  have other : record ≠ .remove key := by rintro rfl; exact ne rfl
  have silent : LogRecord.valueUnder key record = none := by
    cases record with
    | put other value => exact if_neg ne
    | remove other => rfl
  rw [valuesSince, List.rtakeWhile_concat_pos _ _ _ (by simpa using other)]
  simp [silent, valuesSince]

/-- A request changes nothing under the keys it does not name. -/
theorem LogRecord.get_apply_of_ne {key : Bytes} {record : LogRecord} (ne : record.key ≠ key)
    (storage : Storage) : (record.apply storage).get key = storage.get key := by
  cases record with
  | put other value => exact Storage.get_pushBack_of_ne _ value (Ne.symm ne)
  | remove other => exact Storage.get_erase_of_ne _ (Ne.symm ne)

/-- The map reached by a history holds under each key what the history says. -/
theorem applyAll_get (history : List LogRecord) (key : Bytes) :
    (applyAll ∅ history).get key = valuesSince key history := by
  induction history using List.reverseRecOn with
  | nil => exact Storage.get_empty key
  | append_singleton history record ih =>
    rw [applyAll_concat]
    rcases eq_or_ne record.key key with rfl | same
    · cases record with
      | put key value =>
        rw [show (LogRecord.put key value).key = key from rfl] at ih ⊢
        rw [LogRecord.apply, Storage.get_pushBack_self, ih, valuesSince_put_self]
      | remove key =>
        rw [show (LogRecord.remove key).key = key from rfl]
        rw [LogRecord.apply, Storage.get_erase_self, valuesSince_remove_self]
    · rw [valuesSince_of_ne same, ← ih, LogRecord.get_apply_of_ne same]

/-- What happens to the server, one thing after the other. A restart carries the byte that
`ReadNCharacter` finds in its uninitialised variable. -/
inductive ServerEvent where
  | put (request : PutRequest)
  | remove (request : RemoveRequest)
  | get (stream : List GetRequest)
  | restart (ch : Byte)
deriving DecidableEq

namespace ServerEvent

/-- The request in a history, for the events that change the map. -/
def record? : ServerEvent → Option LogRecord
  | put request => some (.put request.key request.value)
  | remove request => some (.remove request.key)
  | get _ => none
  | restart _ => none

def Short (event : ServerEvent) : Prop := ∀ record ∈ event.record?, record.Short

instance (event : ServerEvent) : Decidable event.Short := by
  unfold Short
  infer_instance

end ServerEvent

/-- One event of a run; only a restart can fail. -/
def serve (server : KeyValueStoreImpl) : ServerEvent → Except StoiError KeyValueStoreImpl
  | .put request => .ok (server.put request).2
  | .remove request => .ok (server.remove request).2
  | .get stream => .ok (server.get stream).2
  | .restart ch => KeyValueStoreImpl.persistentLoad ch server.persistentFile server.disk

def history (events : List ServerEvent) : List LogRecord := events.filterMap ServerEvent.record?

theorem history_concat (events : List ServerEvent) (event : ServerEvent) :
    history (events ++ [event]) = history events ++ event.record?.toList := by
  rw [history, List.filterMap_append]
  cases event <;> rfl

theorem short_history {events : List ServerEvent} (short : ∀ event ∈ events, event.Short) :
    ∀ record ∈ history events, record.Short := by
  intro record member
  obtain ⟨event, inEvents, same⟩ := List.mem_filterMap.mp member
  exact short event inEvents record same

theorem ServerEvent.Short.toList {event : ServerEvent} (short : event.Short) :
    ∀ record ∈ event.record?.toList, record.Short :=
  fun record member => short record (Option.mem_toList.mp member)

/-- The answer to a `get` of one key under which `values` are stored. -/
def getAnswer (values : List Bytes) : Status × List GetReply :=
  if values = [] then (⟨.notFound, "Key is not found."⟩, [])
  else (Status.OK, values.map GetReply.mk)

theorem get_single (server : KeyValueStoreImpl) (key : Bytes) :
    (server.get [⟨key⟩]).1 = getAnswer (server.storage.get key) := by
  rw [KeyValueStoreImpl.get_cons, getAnswer]
  split
  · rfl
  · simp [KeyValueStoreImpl.get, KeyValueStoreImpl.getProgram]

/-- The server in persistent mode agrees with a history: memory and log are both made of it. -/
structure Holds (past : List LogRecord) (server : KeyValueStoreImpl) : Prop where
  named : server.persistentFile ≠ []
  mode : server.persistentMode = true
  memory : server.storage = applyAll ∅ past
  log : server.disk = some (logBytes past)

/-- A request that updates the map and appends its record extends the history by itself. -/
theorem Holds.extend {past : List LogRecord} {server : KeyValueStoreImpl} (held : Holds past server)
    (record : LogRecord) :
    Holds (past ++ [record]) { server with
      storage := record.apply server.storage
      disk := some (server.disk.getD [] ++ record.bytes) } where
  named := held.named
  mode := held.mode
  memory := by rw [applyAll_concat, held.memory]
  log := by rw [logBytes_concat, held.log, Option.getD_some]

/-- Loading a log of complete records. -/
theorem persistentLoad_log (ch : Byte) {persistentFile : Bytes} (named : persistentFile ≠ [])
    {past : List LogRecord} (short : ∀ record ∈ past, record.Short) :
    ∃ server, KeyValueStoreImpl.persistentLoad ch persistentFile (some (logBytes past)) =
      .ok server ∧ Holds past server := by
  refine ⟨⟨applyAll ∅ past, persistentFile, true, some (logBytes past)⟩, ?_,
    ⟨named, rfl, rfl, rfl⟩⟩
  rw [KeyValueStoreImpl.persistentLoad_some ch named, replay_log ch ∅ short]
  rfl

/-- The first start, on a missing or an empty log. -/
theorem persistentLoad_fresh (ch : Byte) {persistentFile : Bytes} (named : persistentFile ≠ [])
    {disk : Option Bytes} (fresh : disk = none ∨ disk = some []) :
    ∃ server, KeyValueStoreImpl.persistentLoad ch persistentFile disk = .ok server ∧
      Holds [] server := by
  rcases fresh with rfl | rfl
  · have size : ¬ persistentFile.length = 0 := mt List.length_eq_zero_iff.mp named
    refine ⟨⟨∅, persistentFile, true, some []⟩, ?_, ⟨named, rfl, rfl, rfl⟩⟩
    simp only [KeyValueStoreImpl.persistentLoad, size, ↓reduceIte]
  · exact @persistentLoad_log ch _ named [] (List.forall_mem_nil _)

/-- A log that can be loaded consists of records that can be read. -/
theorem Holds.restart {ch : Byte} {past : List LogRecord} {server next : KeyValueStoreImpl}
    (held : Holds past server)
    (loaded : KeyValueStoreImpl.persistentLoad ch server.persistentFile server.disk = .ok next) :
    Holds past next := by
  rw [held.log] at loaded
  by_cases short : ∀ record ∈ past, record.Short
  · obtain ⟨other, same, heldNext⟩ := persistentLoad_log ch held.named short
    obtain rfl := Except.ok.inj (same.symm.trans loaded)
    exact heldNext
  · have failed := replay_records_long ch ∅ short []
    rw [List.append_nil] at failed
    rw [KeyValueStoreImpl.persistentLoad_some ch held.named, failed] at loaded
    contradiction

/-- One event that does not fail extends the history by what it says. -/
theorem Holds.step {past : List LogRecord} {server next : KeyValueStoreImpl}
    {event : ServerEvent} (held : Holds past server) (served : serve server event = .ok next) :
    Holds (past ++ event.record?.toList) next := by
  cases event with
  | put request =>
    obtain rfl := Except.ok.inj served
    rw [KeyValueStoreImpl.put_eq, if_pos held.mode]
    exact held.extend (.put request.key request.value)
  | remove request =>
    obtain rfl := Except.ok.inj served
    rw [KeyValueStoreImpl.remove_eq, if_pos held.mode]
    exact held.extend (.remove request.key)
  | get stream =>
    obtain rfl := Except.ok.inj served
    rw [KeyValueStoreImpl.get_snd]
    simpa [ServerEvent.record?] using held
  | restart ch => simpa [ServerEvent.record?] using held.restart served

/-- While the texts are short no event fails. -/
theorem serve_holds {past : List LogRecord} {server : KeyValueStoreImpl} (held : Holds past server)
    (short : ∀ record ∈ past, record.Short) (event : ServerEvent) :
    ∃ next, serve server event = .ok next ∧ Holds (past ++ event.record?.toList) next := by
  have served : ∃ next, serve server event = .ok next := by
    cases event with
    | put request => exact ⟨_, rfl⟩
    | remove request => exact ⟨_, rfl⟩
    | get stream => exact ⟨_, rfl⟩
    | restart ch =>
      obtain ⟨next, loaded, _⟩ := persistentLoad_log ch held.named short
      exact ⟨next, by rw [serve, held.log, loaded]⟩
  obtain ⟨next, served⟩ := served
  exact ⟨next, served, held.step served⟩

/-- A whole run keeps memory and log equal to the history of its requests. -/
theorem Holds.run {past : List LogRecord} {server last : KeyValueStoreImpl}
    (held : Holds past server) {events : List ServerEvent}
    (ran : events.foldlM serve server = .ok last) : Holds (past ++ history events) last := by
  refine Loop.foldlM_induct (fun events server => Holds (past ++ history events) server)
    (by rwa [history, List.filterMap_nil, List.append_nil]) ?_ ran
  intro before event middle next heldMiddle served
  rw [history_concat, ← List.append_assoc]
  exact heldMiddle.step served

/-- While the texts are short a whole run does not fail. -/
theorem run_holds {past : List LogRecord} {server : KeyValueStoreImpl} (held : Holds past server)
    (short : ∀ record ∈ past, record.Short) {events : List ServerEvent}
    (shortEvents : ∀ event ∈ events, event.Short) :
    ∃ last, events.foldlM serve server = .ok last ∧ Holds (past ++ history events) last := by
  have total : ∃ last, events.foldlM serve server = .ok last ∧
      ∃ more, (∀ record ∈ more, record.Short) ∧ Holds more last := by
    refine Loop.foldlM_total (fun _ server => ∃ more, (∀ record ∈ more, record.Short) ∧
      Holds more server) ⟨past, short, held⟩ ?_
    rintro _ event middle member ⟨more, shortMore, heldMiddle⟩
    obtain ⟨next, served, heldNext⟩ := serve_holds heldMiddle shortMore event
    exact ⟨next, served, _,
      List.forall_mem_append.mpr ⟨shortMore, (shortEvents event member).toList⟩, heldNext⟩
  obtain ⟨last, ran, _⟩ := total
  exact ⟨last, ran, held.run ran⟩

/-- Durable refinement. Every run of the persistent server, restarts included, answers a `get`
with the values put under the key since its last remove, and a restart leaves the log alone. -/
theorem durable_store (ch : Byte) {persistentFile : Bytes} (named : persistentFile ≠ [])
    {disk : Option Bytes} (fresh : disk = none ∨ disk = some []) {events : List ServerEvent}
    (short : ∀ event ∈ events, event.Short) :
    ∃ first server, KeyValueStoreImpl.persistentLoad ch persistentFile disk = .ok first ∧
      events.foldlM serve first = .ok server ∧
      (∀ key, (server.get [⟨key⟩]).1 = getAnswer (valuesSince key (history events))) ∧
      ∀ ch', ∃ restarted, serve server (.restart ch') = .ok restarted ∧
        restarted.disk = server.disk := by
  obtain ⟨first, loaded, heldFirst⟩ := persistentLoad_fresh ch named fresh
  obtain ⟨server, ran, held⟩ := run_holds heldFirst (fun _ member => nomatch member) short
  rw [List.nil_append] at held
  refine ⟨first, server, loaded, ran, ?_, ?_⟩
  · intro key
    rw [get_single, held.memory, applyAll_get]
  · intro ch'
    obtain ⟨restarted, served, heldNext⟩ := serve_holds held (short_history short) (.restart ch')
    refine ⟨restarted, served, ?_⟩
    rw [heldNext.log, held.log]
    simp [ServerEvent.record?]

theorem durable_store_example : ∃ first server,
    KeyValueStoreImpl.persistentLoad 7 (str "log") none = .ok first ∧
      [ServerEvent.put ⟨str "k\n", str "put\n3\n"⟩, .restart 0, .put ⟨str "k\n", []⟩,
        .remove ⟨str "j"⟩].foldlM serve first = .ok server ∧
      (∀ key, (server.get [⟨key⟩]).1 = getAnswer (valuesSince key
        (history [ServerEvent.put ⟨str "k\n", str "put\n3\n"⟩, .restart 0, .put ⟨str "k\n", []⟩,
          .remove ⟨str "j"⟩]))) ∧
      ∀ ch', ∃ restarted, serve server (.restart ch') = .ok restarted ∧
        restarted.disk = server.disk :=
  durable_store 7 (by decide) (.inl rfl) (by decide)

end FuncWarble.Proofs
