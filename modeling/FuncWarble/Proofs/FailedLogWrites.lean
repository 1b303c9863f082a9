import Mathlib
import FuncWarble.Machine.Loop
import FuncWarble.Model.FaultyLog
import FuncWarble.Proofs.DurableStore

/-! # Log writes that fail

`put` and `remove` change the map, hand the record to `PersistentStore` and answer OK. Whether the
record has reached the log does not matter to them, so the answer is right exactly when it has. As
long as every record reaches the log, memory and log stay made of the same requests.
-/

namespace FuncWarble.Proofs

open Text Model Machine

/-- The RPC of a request, while the log is on a device. -/
def LogRecord.handleOn (device : Device) (server : KeyValueStoreImpl) :
    LogRecord → Status × KeyValueStoreImpl
  | put key value => server.putOn device ⟨key, value⟩
  | remove key => server.removeOn device ⟨key⟩

/-- The request answers OK and changes the map, whatever the device does with its record. -/
theorem LogRecord.handleOn_eq {server : KeyValueStoreImpl} (mode : server.persistentMode = true)
    (record : LogRecord) (device : Device) : record.handleOn device server = (Status.OK,
      { server with
        storage := record.apply server.storage
        disk := device.append server.disk record.bytes }) := by
  cases record with
  | put key value =>
    simp [handleOn, KeyValueStoreImpl.putOn, KeyValueStoreImpl.putProgram, mode,
      KeyValueStoreImpl.handlerOn, KeyValueStoreImpl.handler,
      KeyValueStoreImpl.persistentStoreOn_eq, apply, bytes]
  | remove key =>
    simp [handleOn, KeyValueStoreImpl.removeOn, KeyValueStoreImpl.removeProgram, mode,
      KeyValueStoreImpl.handlerOn, KeyValueStoreImpl.handler,
      KeyValueStoreImpl.persistentStoreOn_eq, apply, bytes]

/-- The complete record has been added to the log. -/
def Logged (server : KeyValueStoreImpl) (record : LogRecord) (device : Device) : Prop :=
  (record.handleOn device server).2.disk = some (server.disk.getD [] ++ record.bytes)

/-- A request answers OK only if its record is in the log, and otherwise it fails and leaves the map
alone. -/
structure Reports (server : KeyValueStoreImpl) (record : LogRecord) (device : Device) : Prop where
  ok : (record.handleOn device server).1.isOk = true → Logged server record device
  otherwise : ¬ Logged server record device →
    (record.handleOn device server).1.isOk = false ∧
      (record.handleOn device server).2.storage = server.storage

theorem logged_iff {server : KeyValueStoreImpl} (mode : server.persistentMode = true)
    (record : LogRecord) (device : Device) :
    Logged server record device ↔ device.Completes record.bytes := by
  rw [Logged, record.handleOn_eq mode]
  exact Device.append_eq_iff record.bytes_ne_nil device server.disk

/-- The answer to a request is right exactly when its record reaches the log. -/
theorem reports_iff {server : KeyValueStoreImpl} (mode : server.persistentMode = true)
    (record : LogRecord) (device : Device) :
    Reports server record device ↔ device.Completes record.bytes := by
  rw [← logged_iff mode]
  constructor
  · intro reports
    apply reports.ok
    rw [record.handleOn_eq mode]
    rfl
  · exact fun logged => ⟨fun _ => logged, fun lost => absurd logged lost⟩

/-- What happens to the server, with the device that each record meets. -/
inductive FaultyEvent where
  | request (record : LogRecord) (device : Device)
  | get (stream : List GetRequest)
  | restart (ch : Byte)
deriving DecidableEq

/-- A request as an event of a run in which nothing fails. -/
def LogRecord.event : LogRecord → ServerEvent
  | put key value => .put ⟨key, value⟩
  | remove key => .remove ⟨key⟩

namespace FaultyEvent

/-- The event without its device. -/
def event : FaultyEvent → ServerEvent
  | request record _ => record.event
  | get stream => .get stream
  | restart ch => .restart ch

/-- The record of the event, if it has one, reaches the log. -/
def Completes : FaultyEvent → Prop
  | request record device => device.Completes record.bytes
  | get _ => True
  | restart _ => True

end FaultyEvent

/-- The requests of a run, in order. -/
def requestsOf (events : List FaultyEvent) : List LogRecord :=
  history (events.map FaultyEvent.event)

/-- One event of a run. -/
def serveFaulty (server : KeyValueStoreImpl) : FaultyEvent → Except StoiError KeyValueStoreImpl
  | .request record device => .ok (record.handleOn device server).2
  | .get stream => .ok (server.get stream).2
  | .restart ch => KeyValueStoreImpl.persistentLoad ch server.persistentFile server.disk

/-- The server was given a file, and keeps to it. -/
structure Persistent (server : KeyValueStoreImpl) : Prop where
  named : server.persistentFile ≠ []
  mode : server.persistentMode = true

theorem Persistent.of_load {ch : Byte} {persistentFile : Bytes} (named : persistentFile ≠ [])
    {disk : Option Bytes} {server : KeyValueStoreImpl}
    (loaded : KeyValueStoreImpl.persistentLoad ch persistentFile disk = .ok server) :
    Persistent server := by
  obtain ⟨file, mode⟩ := KeyValueStoreImpl.persistentLoad_ok loaded
  exact ⟨file ▸ named, mode.mpr named⟩

theorem Persistent.step {server next : KeyValueStoreImpl} {event : FaultyEvent}
    (persistent : Persistent server) (served : serveFaulty server event = .ok next) :
    Persistent next := by
  cases event with
  | request record device =>
    obtain rfl := Except.ok.inj served
    rw [record.handleOn_eq persistent.mode]
    exact ⟨persistent.named, persistent.mode⟩
  | get stream =>
    obtain rfl := Except.ok.inj served
    rw [KeyValueStoreImpl.get_snd]
    exact persistent
  | restart ch => exact .of_load persistent.named served

/-- An event whose record reaches the log goes as if nothing could fail. -/
theorem serveFaulty_of_completes {server : KeyValueStoreImpl} {event : FaultyEvent}
    (persistent : Persistent server) (completes : event.Completes) :
    serveFaulty server event = serve server event.event := by
  cases event with
  | request record device =>
    rw [serveFaulty, record.handleOn_eq persistent.mode, Device.append_of_completes completes]
    cases record with
    | put key value =>
      rw [FaultyEvent.event, LogRecord.event, serve, KeyValueStoreImpl.put_eq,
        if_pos persistent.mode]
      rfl
    | remove key =>
      rw [FaultyEvent.event, LogRecord.event, serve, KeyValueStoreImpl.remove_eq,
        if_pos persistent.mode]
      rfl
  | get stream => rfl
  | restart ch => rfl

/-- A run in which every record reaches the log is a run in which nothing fails. -/
theorem run_of_completes {first last : KeyValueStoreImpl} {events : List FaultyEvent}
    (persistent : Persistent first) (completes : ∀ event ∈ events, event.Completes)
    (ran : events.foldlM serveFaulty first = .ok last) :
    (events.map FaultyEvent.event).foldlM serve first = .ok last := by
  have both : Persistent last ∧ ((∀ event ∈ events, event.Completes) →
      (events.map FaultyEvent.event).foldlM serve first = .ok last) := by
    refine Loop.foldlM_induct (fun events last => Persistent last ∧
      ((∀ event ∈ events, event.Completes) →
        (events.map FaultyEvent.event).foldlM serve first = .ok last))
      ⟨persistent, fun _ => rfl⟩ ?_ ran
    rintro before event middle next ⟨persistentMiddle, ih⟩ served
    refine ⟨persistentMiddle.step served, fun completes => ?_⟩
    obtain ⟨earlier, now⟩ := List.forall_mem_append.mp completes
    rw [serveFaulty_of_completes persistentMiddle (List.forall_mem_singleton.mp now)] at served
    rw [List.map_append]
    exact Loop.foldlM_concat_ok.mpr ⟨middle, ih earlier, served⟩
  exact both.2 completes

/-- Failed log writes. In every state that a persistent server reaches, whatever became of earlier
records, a request reports rightly exactly when its own record reaches the log; and as long as all
records do, memory and log are made of the same requests. -/
theorem failed_log_writes {ch : Byte} {persistentFile : Bytes} (named : persistentFile ≠ [])
    {disk : Option Bytes} {first server : KeyValueStoreImpl}
    (loaded : KeyValueStoreImpl.persistentLoad ch persistentFile disk = .ok first)
    {events : List FaultyEvent} (ran : events.foldlM serveFaulty first = .ok server) :
    (∀ record device, Reports server record device ↔ device.Completes record.bytes) ∧
      ∀ past, Holds past first → (∀ event ∈ events, event.Completes) →
        Holds (past ++ requestsOf events) server := by
  have start : Persistent first := .of_load named loaded
  have persistent : Persistent server :=
    Loop.foldlM_induct (fun _ => Persistent) start (fun _ _ _ _ => Persistent.step) ran
  refine ⟨fun record device => reports_iff persistent.mode record device, ?_⟩
  intro past held completes
  exact held.run (run_of_completes start completes ran)

/-- A put on a disk with room to spare, and a remove whose record just fits. -/
theorem failed_log_writes_example : ∃ first server,
    KeyValueStoreImpl.persistentLoad 7 (str "log") none = .ok first ∧
      [FaultyEvent.request (.put (str "k") (str "v")) (.takes 100), .get [⟨str "k"⟩],
        .request (.remove (str "k")) (.takes 11)].foldlM serveFaulty first = .ok server ∧
      (∀ record device, Reports server record device ↔ device.Completes record.bytes) ∧
      ∀ past, Holds past first → (∀ event ∈ [FaultyEvent.request (.put (str "k") (str "v"))
          (.takes 100), .get [⟨str "k"⟩], .request (.remove (str "k")) (.takes 11)],
          event.Completes) →
        Holds (past ++ requestsOf [FaultyEvent.request (.put (str "k") (str "v")) (.takes 100),
          .get [⟨str "k"⟩], .request (.remove (str "k")) (.takes 11)]) server :=
  ⟨_, _, rfl, rfl, failed_log_writes (by decide) (show KeyValueStoreImpl.persistentLoad 7
    (str "log") none = .ok ⟨∅, str "log", true, some []⟩ from rfl) rfl⟩

/-- The log cannot be opened, and the put answers OK. -/
theorem failed_log_writes_fails : ¬ ∀ (ch : Byte) (persistentFile : Bytes) (disk : Option Bytes)
    (first server : KeyValueStoreImpl) (events : List FaultyEvent), persistentFile ≠ [] →
    KeyValueStoreImpl.persistentLoad ch persistentFile disk = .ok first →
    events.foldlM serveFaulty first = .ok server →
    ∀ record device, Reports server record device := by
  intro claim
  have reports := claim 7 (str "log") none ⟨∅, str "log", true, some []⟩ _ [] (by decide) rfl rfl
    (.put (str "k") (str "v")) .refuses
  exact (reports_iff rfl _ _).mp reports

end FuncWarble.Proofs
