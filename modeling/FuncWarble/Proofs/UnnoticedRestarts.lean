import Mathlib
import FuncWarble.Machine.Resets
import FuncWarble.Model.WarbleMessage
import FuncWarble.Proofs.ConcurrentService
import FuncWarble.Proofs.DurableStore

/-! # Restarts under running calls

The key value server may be stopped between two of its RPCs and started again on its log while
calls of the warble service are under way. As long as the server handles one RPC at a time, so that
its log is in the order of its puts, and nothing too long for the log is put, every start succeeds
and no call can tell that there has been one.
-/

namespace FuncWarble.Proofs

open Text Model Machine

variable {platform : Platform}

/-- Everything that the call may put can be read back from the log. -/
def Fits (platform : Platform) (call : WarbleCall) : Prop :=
  ∀ op entry, entryOf platform (call, op) = some entry →
    (LogRecord.put entry.key (entry.value platform)).Short

/-- What may be left of a call that fits. -/
def Fitting (platform : Platform) (call : WarbleCall) (prog : ServiceProgram) : Prop :=
  Fits platform call ∧ prog.Uses (OwnOp platform call)

/-- The key value server stops and starts on its log; `ch` is the byte that `ReadNCharacter` finds
in its uninitialised variable. -/
def restart (ch : Byte) (server : KeyValueStoreImpl) : Except StoiError KeyValueStoreImpl :=
  KeyValueStoreImpl.persistentLoad ch server.persistentFile server.disk

/-- The first server keeps in a log that can be read back what both have in memory. -/
def Mirrors (server other : KeyValueStoreImpl) : Prop :=
  server.storage = other.storage ∧ ∃ past, (∀ record ∈ past, record.Short) ∧ Holds past server

variable {server other : KeyValueStoreImpl}

theorem Mirrors.put (mirrors : Mirrors server other) {key val : Bytes}
    (short : (LogRecord.put key val).Short) :
    Mirrors (KeyValueClient.put server key val).2 (KeyValueClient.put other key val).2 := by
  obtain ⟨same, past, shorts, held⟩ := mirrors
  refine ⟨?_, past ++ [.put key val], System.forall_mem_concat shorts short, ?_⟩
  · rw [KeyValueClient.put_storage, KeyValueClient.put_storage, same]
  · exact @Holds.step past server _ (.put ⟨key, val⟩) held rfl

theorem Mirrors.restart (mirrors : Mirrors server other) (ch : Byte) :
    ∃ next, Proofs.restart ch server = .ok next ∧ Mirrors next other := by
  obtain ⟨same, past, shorts, held⟩ := mirrors
  obtain ⟨next, loaded, heldNext⟩ := serve_holds held shorts (.restart ch)
  rw [ServerEvent.record?, Option.toList_none, List.append_nil] at heldNext
  refine ⟨next, loaded, ?_, past, shorts, heldNext⟩
  rw [heldNext.memory, ← held.memory, same]

theorem restarts_unnoticed_service (platform : Platform) :
    (warbleService platform).Unnoticed restart (Fits platform) (Fitting platform) Mirrors where
  start call fits := ⟨fits, program_uses platform call⟩
  answered call op next answer fitting := ⟨fitting.1, fitting.2.2 answer⟩
  resumed call result prog fitting resumed := by
    rcases result with head | result
    · obtain rfl := Option.some.inj resumed
      exact ⟨fitting.1, body_uses platform call head⟩
    · contradiction
  answers call op next s t fitting mirrors := by
    obtain ⟨fits, own, _⟩ := fitting
    cases own with
    | get key =>
      change (KeyValueClient.handler (.get [key]) s).1 = (KeyValueClient.handler (.get [key]) t).1 ∧
        Mirrors (KeyValueClient.handler (.get [key]) s).2 (KeyValueClient.handler (.get [key]) t).2
      rw [KeyValueClient.handler_get, KeyValueClient.handler_get, mirrors.1]
      exact ⟨rfl, mirrors⟩
    | put entry isEntry =>
      have same : (KeyValueClient.put s entry.key (entry.value platform)).1 =
          (KeyValueClient.put t entry.key (entry.value platform)).1 := by
        rw [KeyValueClient.put, KeyValueClient.put, KeyValueStoreImpl.put_eq,
          KeyValueStoreImpl.put_eq]
      exact ⟨same, mirrors.put (fits _ entry isEntry)⟩
  resets ch s t mirrors := mirrors.restart ch

/-- Restarts are not noticed. When the key value server handles one RPC at a time and restarts
between any two of them, calls that are under way included, every start succeeds, and the calls are
where they are when the server keeps everything in memory and never stops. -/
theorem restarts_unnoticed (ch : Byte) {persistentFile : Bytes} (named : persistentFile ≠ [])
    {disk : Option Bytes} (fresh : disk = none ∨ disk = some [])
    {occurrences : List (System.Occurrence WarbleCall Byte)}
    (fit : ∀ call, .event (.invoke call) ∈ occurrences → Fits platform call) :
    ∃ first last, KeyValueStoreImpl.persistentLoad ch persistentFile disk = .ok first ∧
      occurrences.foldlM ((warbleService platform).occur restart) (System.initial first) =
        .ok last ∧
      let steady := (warbleService platform).run (System.initial ⟨∅, [], false, none⟩)
        (occurrences.filterMap System.Occurrence.event?)
      last.tasks = steady.tasks ∧ last.world.trace = steady.world.trace ∧
        last.world.state.storage = steady.world.state.storage := by
  obtain ⟨first, loaded, held⟩ := persistentLoad_fresh ch named fresh
  have mirrors : Mirrors first ⟨∅, [], false, none⟩ :=
    ⟨held.memory, [], List.forall_mem_nil _, held⟩
  obtain ⟨last, ran, alike⟩ := (restarts_unnoticed_service platform).run fit mirrors
  exact ⟨first, last, loaded, ran, alike.tasks, alike.trace, alike.state.1⟩

/-- The server restarts between the two RPCs of a registration. -/
theorem restarts_unnoticed_example :
    let occurrences : List (System.Occurrence WarbleCall Byte) :=
      [.event (.invoke (.registerUser ⟨str "a"⟩)), .event (.advance 0), .reset 0,
        .event (.advance 0)]
    ∃ first last, KeyValueStoreImpl.persistentLoad 7 (str "log") none = .ok first ∧
      occurrences.foldlM ((warbleService protobufPlatform).occur restart) (System.initial first) =
        .ok last ∧
      let steady := (warbleService protobufPlatform).run (System.initial ⟨∅, [], false, none⟩)
        (occurrences.filterMap System.Occurrence.event?)
      last.tasks = steady.tasks ∧ last.world.trace = steady.world.trace ∧
        last.world.state.storage = steady.world.state.storage := by
  refine restarts_unnoticed 7 (by decide) (.inl rfl) fun call member => ?_
  obtain rfl : call = .registerUser ⟨str "a"⟩ := by
    simpa using member
  intro op entry isEntry
  cases op with
  | get keys => contradiction
  | put key val =>
    obtain rfl := Option.some.inj isEntry
    decide

end FuncWarble.Proofs
