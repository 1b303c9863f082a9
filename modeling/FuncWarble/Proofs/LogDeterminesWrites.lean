import Mathlib
import FuncWarble.Text.PrefixCode
import FuncWarble.Proofs.DurableStore
import FuncWarble.Proofs.TornLog

/-! # The log determines the writes

The records of the log are a prefix code, although keys and values may contain anything. A log
file therefore comes from one sequence of requests only, even if a crash has torn its last record:
what the reload of a torn log gets wrong is not lost in the file.
-/

namespace FuncWarble.Proofs

open Text Model

/-- The count in front of a field tells where it ends. -/
theorem fieldBytes_code : PrefixCode fieldBytes := by
  intro text text' x y same
  have front (text rest : Bytes) : fieldBytes text ++ rest =
      decimal text.length ++ newline :: (text ++ newline :: rest) := by
    simp [fieldBytes]
  rw [front, front] at same
  have read := congrArg (fun bytes => (IFStream.ofBytes bytes).getline []) same
  simp only [IFStream.getline_line (newline_notMem_decimal _)] at read
  obtain ⟨behind, count⟩ := Prod.mk.inj read
  have length : text.length = text'.length := by
    rw [← digitsValue_decimal text.length, count, digitsValue_decimal]
  obtain ⟨rfl, rest⟩ := List.append_inj (congrArg IFStream.rest behind) length
  exact ⟨rfl, (List.cons.inj rest).2⟩

/-- The command in front of a record tells how many fields follow. -/
theorem record_code : PrefixCode LogRecord.bytes := by
  have puts := (fieldBytes_code.pair fieldBytes_code).behind (str "put" ++ [newline])
  have removes := fieldBytes_code.behind (str "remove" ++ [newline])
  have put (key value : Bytes) : (LogRecord.put key value).bytes =
      str "put" ++ [newline] ++ (fieldBytes key ++ fieldBytes value) := by
    simp [LogRecord.bytes_put]
  have remove (key : Bytes) : (LogRecord.remove key).bytes =
      str "remove" ++ [newline] ++ fieldBytes key := by
    simp [LogRecord.bytes_remove]
  have apart (key value other x y : Bytes) :
      (LogRecord.put key value).bytes ++ x ≠ (LogRecord.remove other).bytes ++ y := by
    rw [put, remove]
    intro same
    have first : (some 0x70 : Option Byte) = some 0x72 := congrArg List.head? same
    exact absurd first (by decide)
  intro record record' x y same
  cases record with
  | put key value =>
    cases record' with
    | put key' value' =>
      rw [put, put] at same
      obtain ⟨fields, rest⟩ := @puts (key, value) (key', value') x y same
      obtain ⟨rfl, rfl⟩ := Prod.mk.inj fields
      exact ⟨rfl, rest⟩
    | remove key' => exact absurd same (apart key value key' x y)
  | remove key =>
    cases record' with
    | put key' value' => exact absurd same.symm (apart key' value' key y x)
    | remove key' =>
      rw [remove, remove] at same
      obtain ⟨rfl, rest⟩ := removes same
      exact ⟨rfl, rest⟩

/-- What a crash leaves of a record that is being written. -/
theorem LogRecord.torn_take {record : LogRecord} {cut : ℕ} (inside : cut < record.bytes.length) :
    Torn LogRecord.bytes (record.bytes.take cut) := by
  refine ⟨record, record.bytes.drop cut, ?_, (List.take_append_drop cut _).symm⟩
  rw [Ne, List.drop_eq_nil_iff]
  omega

/-- A persistent server that was first started on a missing or an empty log and has served the
events. -/
def Reached (events : List ServerEvent) (server : KeyValueStoreImpl) : Prop :=
  ∃ ch persistentFile disk first, persistentFile ≠ [] ∧ (disk = none ∨ disk = some []) ∧
    KeyValueStoreImpl.persistentLoad ch persistentFile disk = .ok first ∧
    events.foldlM serve first = .ok server

theorem Reached.holds {events : List ServerEvent} {server : KeyValueStoreImpl}
    (reached : Reached events server) : Holds (history events) server := by
  obtain ⟨ch, persistentFile, disk, first, named, fresh, loaded, ran⟩ := reached
  obtain ⟨start, same, held⟩ := persistentLoad_fresh ch named fresh
  obtain rfl := Except.ok.inj (same.symm.trans loaded)
  exact held.run ran

variable {events events' : List ServerEvent} {server server' : KeyValueStoreImpl}

/-- The log of one server begins with that of another one just when its writes do. Even a file
that a crash has torn inside a record determines all writes before, and what is torn. -/
theorem log_determines_writes (reached : Reached events server)
    (reached' : Reached events' server') :
    (server.disk.getD [] <+: server'.disk.getD [] ↔ history events <+: history events') ∧
      ∀ (last last' : LogRecord) (cut cut' : ℕ), cut < last.bytes.length →
        cut' < last'.bytes.length →
          (server.disk.getD [] ++ last.bytes.take cut =
              server'.disk.getD [] ++ last'.bytes.take cut' ↔
            history events = history events' ∧ last.bytes.take cut = last'.bytes.take cut') := by
  rw [reached.holds.log, reached'.holds.log, Option.getD_some, Option.getD_some]
  refine ⟨record_code.flatMap_prefix_iff LogRecord.bytes_ne_nil, ?_⟩
  intro last last' cut cut' inside inside'
  apply record_code.flatMap_append_torn
  · exact LogRecord.torn_take inside
  · exact LogRecord.torn_take inside'

/-- A text that looks like a record, with a torn `remove` behind it, is not mistaken for one. -/
theorem log_determines_writes_example :
    let lookalike : List ServerEvent := [.put ⟨str "k", str "\nput\n1\nk\n0\n"⟩]
    let both : List ServerEvent := [.put ⟨str "k", []⟩, .restart 0, .put ⟨str "k", []⟩]
    ∃ server server', Reached lookalike server ∧ Reached both server' ∧
      (server.disk.getD [] <+: server'.disk.getD [] ↔ history lookalike <+: history both) ∧
      (server.disk.getD [] ++ (LogRecord.remove (str "k")).bytes.take 9 =
          server'.disk.getD [] ++ (LogRecord.remove (str "k")).bytes.take 2 ↔
        history lookalike = history both ∧ (LogRecord.remove (str "k")).bytes.take 9 =
          (LogRecord.remove (str "k")).bytes.take 2) := by
  intro lookalike both
  have start (events : List ServerEvent) (short : ∀ event ∈ events, event.Short) :
      ∃ server, Reached events server := by
    obtain ⟨first, loaded, held⟩ :=
      @persistentLoad_fresh 7 (str "log") (by decide) none (.inl rfl)
    obtain ⟨server, ran, _⟩ := run_holds held (List.forall_mem_nil _) short
    exact ⟨server, 7, str "log", none, first, by decide, .inl rfl, loaded, ran⟩
  obtain ⟨server, reached⟩ := start lookalike (by decide)
  obtain ⟨server', reached'⟩ := start both (by decide)
  obtain ⟨whole, torn⟩ := log_determines_writes reached reached'
  exact ⟨server, server', reached, reached', whole, torn _ _ 9 2 (by decide) (by decide)⟩

end FuncWarble.Proofs
