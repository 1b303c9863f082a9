import Mathlib
import FuncWarble.Proofs.DurableStore

/-! # Memory and log under concurrent requests

A put or remove updates the map in one step and appends its record in a later one, and nothing
keeps another request from coming between. The trace of a run gives both orders: that in which
the map was updated and that in which the records were appended. For each key the records owed to
the log are counted by the requests that are between their two steps; when the records of a key
are appended in the order of their updates, the log of a quiet server replays to its map.
-/

namespace FuncWarble.Proofs

open Text Model Machine

abbrev ServerConfig :=
  Config ServerOp.Answer ServerCall (Status × List GetReply) KeyValueStoreImpl

abbrev ServerWorld := World ServerOp ServerCall KeyValueStoreImpl

/-- The request that an operation applies to the map. -/
def memoryRecord? : ServerOp → Option LogRecord
  | .storagePut key val => some (.put key val)
  | .storageDeleteKey key => some (.remove key)
  | .storageGet _ => none
  | .persistentStore _ _ _ => none

/-- The request whose record an operation appends. -/
def logRecord? : ServerOp → Option LogRecord
  | .persistentStore request key value =>
    if request = str "remove" then some (.remove key) else some (.put key value)
  | _ => none

/-- The requests applied to the map, in order, after those of `past`. -/
def applied (past : List LogRecord) (w : ServerWorld) : List LogRecord :=
  past ++ w.trace.filterMap fun entry => memoryRecord? entry.2

/-- The requests whose records are in the log, in order, after those of `past`. -/
def appended (past : List LogRecord) (w : ServerWorld) : List LogRecord :=
  past ++ w.trace.filterMap fun entry => logRecord? entry.2

def onKey (key : Bytes) (records : List LogRecord) : List LogRecord :=
  records.filter fun record => record.key = key

/-- The request whose record a program appends next. -/
def owed {ρ : Type} (prog : ServerProgram ρ) : Option LogRecord := prog.nextOp.bind logRecord?

/-- The RPC has updated the map and has not appended its record yet. -/
def Between (task : Task ServerOp.Answer ServerCall (Status × List GetReply)) : Prop :=
  (owed task.prog).isSome

instance (task : Task ServerOp.Answer ServerCall (Status × List GetReply)) :
    Decidable (Between task) := inferInstanceAs (Decidable (_ = true))

/-- The next step of the run appends, of the requests on its key, the one that updated the map
first among those not yet appended; its texts are short enough to be read back. -/
def InOrder (past : List LogRecord) (c : ServerConfig) : Event ServerCall → Prop
  | .invoke _ => True
  | .advance index => ∀ record ∈ c.tasks[index]?.bind fun task => owed task.prog,
      record.Short ∧ onKey record.key (appended past c.world) ++ [record] <+:
        onKey record.key (applied past c.world)

instance (past : List LogRecord) (c : ServerConfig) (event : Event ServerCall) :
    Decidable (InOrder past c event) := by
  cases event <;> simp only [InOrder] <;> infer_instance

theorem onKey_append (key : Bytes) (first second : List LogRecord) :
    onKey key (first ++ second) = onKey key first ++ onKey key second :=
  List.filter_append ..

/-- What is stored under a key depends on the requests on that key only. -/
theorem valuesSince_onKey (key : Bytes) (history : List LogRecord) :
    valuesSince key (onKey key history) = valuesSince key history := by
  induction history using List.reverseRecOn with
  | nil => rfl
  | append_singleton history record ih =>
    rw [onKey_append]
    by_cases same : record.key = key
    · rw [show onKey key [record] = [record] by simp [onKey, same]]
      subst same
      cases record with
      | put key value =>
        rw [LogRecord.key] at ih ⊢
        rw [valuesSince_put_self, valuesSince_put_self, ih]
      | remove key => rw [LogRecord.key, valuesSince_remove_self, valuesSince_remove_self]
    · rw [show onKey key [record] = [] by simp [onKey, same], List.append_nil, ih,
        valuesSince_of_ne same]

/-- Two histories that agree on every key lead to the same map. -/
theorem applyAll_congr {first second : List LogRecord}
    (same : ∀ key, onKey key first = onKey key second) : applyAll ∅ first = applyAll ∅ second := by
  apply Storage.ext_get
  intro key
  rw [applyAll_get, applyAll_get, ← valuesSince_onKey, same, valuesSince_onKey]

/-- The operation appends no record but those of the two commands. -/
def KnownCommand : ServerOp → Prop
  | .persistentStore request _ _ => request = str "put" ∨ request = str "remove"
  | _ => True

/-- A program that appends exactly what its operations do to the map, right after they did it. -/
def Logs {ρ : Type} : ServerProgram ρ → Prop
  | .ret _ => True
  | .call op next => KnownCommand op ∧ ∀ state : KeyValueStoreImpl,
      let answer := (KeyValueStoreImpl.handler op state).1
      owed (next answer) = memoryRecord? op ∧ Logs (next answer)

theorem owed_bind {ρ τ : Type} {prog : ServerProgram ρ} {f : ρ → ServerProgram τ}
    (rest : ∀ result, owed (f result) = none) : owed (prog >>= f) = owed prog := by
  cases prog with
  | ret result => exact rest result
  | call op next => rfl

theorem Logs.bind {ρ τ : Type} {prog : ServerProgram ρ} {f : ρ → ServerProgram τ}
    (logs : Logs prog) (nothing : ∀ result, owed (f result) = none)
    (rest : ∀ result, Logs (f result)) : Logs (prog >>= f) := by
  induction prog with
  | ret result => exact rest result
  | call op next ih =>
    refine ⟨logs.1, fun state => ⟨?_, ih _ (logs.2 state).2⟩⟩
    exact (owed_bind nothing).trans (logs.2 state).1

private theorem getProgram_owed (stream : List GetRequest) :
    owed (KeyValueStoreImpl.getProgram stream) = none := by
  cases stream <;> rfl

private theorem getProgram_logs (stream : List GetRequest) :
    Logs (KeyValueStoreImpl.getProgram stream) := by
  induction stream with
  | nil => trivial
  | cons request stream ih =>
    refine ⟨trivial, fun state => ?_⟩
    change owed (if (state.storage.get request.key).length = 0 then _ else _) = none ∧
      Logs (if (state.storage.get request.key).length = 0 then _ else _)
    split
    · exact ⟨rfl, trivial⟩
    · exact ⟨(owed_bind fun _ => rfl).trans (getProgram_owed stream),
        ih.bind (fun _ => rfl) fun _ => trivial⟩

/-- Every handler logs what it does, and owes nothing to the log when it starts. -/
theorem program_logs (call : ServerCall) :
    owed (call.program true) = none ∧ Logs (call.program true) := by
  cases call with
  | put request =>
    exact ⟨rfl, trivial, fun _ => ⟨rfl, .inl rfl, fun _ => ⟨rfl, trivial⟩⟩⟩
  | get stream => exact ⟨getProgram_owed stream, getProgram_logs stream⟩
  | remove request =>
    refine ⟨rfl, trivial, fun state => ?_⟩
    rw [show (KeyValueStoreImpl.handler (.storageDeleteKey request.key) state).1 = true from
      Storage.deleteKey_fst _ _]
    exact ⟨rfl, .inr rfl, fun _ => ⟨rfl, trivial⟩⟩

/-- The task owes the log a record on the key. -/
def owes (key : Bytes) (task : Task ServerOp.Answer ServerCall (Status × List GetReply)) : Bool :=
  (owed task.prog).any fun record => record.key = key

/-- What a run keeps true: memory and log are made of the requests of the trace, key by key the
log is a prefix of the memory, and the missing records are owed by tasks. -/
structure LogInvariant (past : List LogRecord) (c : ServerConfig) : Prop where
  named : c.world.state.persistentFile ≠ []
  memory : c.world.state.storage = applyAll ∅ (applied past c.world)
  log : c.world.state.disk = some (logBytes (appended past c.world))
  short : ∀ record ∈ appended past c.world, record.Short
  order : ∀ key, onKey key (appended past c.world) <+: onKey key (applied past c.world)
  debt : ∀ key, (onKey key (applied past c.world)).length =
    (onKey key (appended past c.world)).length + c.tasks.countP (owes key)
  logs : ∀ task ∈ c.tasks, Logs task.prog

theorem applied_perform (past : List LogRecord) (w : ServerWorld) (call : ServerCall)
    (op : ServerOp) : applied past ((server true).perform call op w) =
      applied past w ++ (memoryRecord? op).toList := by
  cases record : memoryRecord? op <;> simp [applied, System.perform, record]

theorem appended_perform (past : List LogRecord) (w : ServerWorld) (call : ServerCall)
    (op : ServerOp) : appended past ((server true).perform call op w) =
      appended past w ++ (logRecord? op).toList := by
  cases record : logRecord? op <;> simp [appended, System.perform, record]

/-- An operation does to the map what its request says. -/
theorem handler_storage (op : ServerOp) (state : KeyValueStoreImpl) :
    (KeyValueStoreImpl.handler op state).2.storage =
      (memoryRecord? op).toList.foldl LogRecord.apply state.storage := by
  cases op with
  | storagePut key val => rfl
  | storageGet key => rfl
  | storageDeleteKey key => exact Storage.deleteKey_snd _ _
  | persistentStore request key value => rfl

/-- An operation appends to the log the record of its request. -/
theorem handler_disk {op : ServerOp} (known : KnownCommand op) {state : KeyValueStoreImpl}
    {bytes : Bytes} (log : state.disk = some bytes) :
    (KeyValueStoreImpl.handler op state).2.disk =
      some (bytes ++ logBytes (logRecord? op).toList) := by
  cases op with
  | storagePut key val => simpa [KeyValueStoreImpl.handler, logRecord?] using log
  | storageGet key => simpa [KeyValueStoreImpl.handler, logRecord?] using log
  | storageDeleteKey key => simpa [KeyValueStoreImpl.handler, logRecord?] using log
  | persistentStore request key value =>
    have other : ¬ str "put" = str "remove" := by decide
    simp only [KeyValueStoreImpl.handler, KeyValueStoreImpl.persistentStore, log, Option.getD_some]
    rcases known with rfl | rfl
    · simp [logRecord?, other, logBytes, LogRecord.bytes]
    · simp [logRecord?, Ne.symm other, logBytes, LogRecord.bytes, recordBytes]

theorem handler_persistentFile (op : ServerOp) (state : KeyValueStoreImpl) :
    (KeyValueStoreImpl.handler op state).2.persistentFile = state.persistentFile := by
  cases op <;> rfl

private theorem length_onKey_toList (key : Bytes) (record : Option LogRecord) :
    (onKey key record.toList).length = if record.any (fun r => r.key = key) then 1 else 0 := by
  cases record with
  | none => rfl
  | some record => by_cases same : record.key = key <;> simp [onKey, same]

/-- Every event in order keeps the invariant. -/
theorem step_logInvariant {past : List LogRecord} {c : ServerConfig} {event : Event ServerCall}
    (inOrder : InOrder past c event) (held : LogInvariant past c) :
    LogInvariant past ((server true).step c event) := by
  have stepped := (server true).step_cases c event
  generalize (server true).step c event = c' at stepped ⊢
  cases stepped with
  | stay => exact held
  | invoke call =>
    obtain ⟨nothing, logs⟩ := program_logs call
    refine { held with debt := fun key => ?_, logs := System.forall_mem_concat held.logs logs }
    have silent : owes key ⟨call, call.program true⟩ = false := by simp [owes, nothing]
    rw [held.debt key, List.countP_append]
    exact congrArg _ (by simp [server, silent])
  | perform index call op next current =>
    have member := List.mem_of_getElem? current
    obtain ⟨known, logs⟩ := held.logs _ member
    obtain ⟨owedNext, logsNext⟩ := logs c.world.state
    have order : ∀ record ∈ logRecord? op, record.Short ∧
        onKey record.key (appended past c.world) ++ [record] <+:
          onKey record.key (applied past c.world) := by
      simpa only [InOrder, current, Option.bind_some, owed, Program.nextOp] using inOrder
    refine ⟨?_, ?_, ?_, ?_, ?_, ?_, ?_⟩
    · exact (handler_persistentFile op _).symm ▸ held.named
    · rw [applied_perform, applyAll, List.foldl_append]
      exact (handler_storage op _).trans (by rw [held.memory]; rfl)
    · rw [appended_perform]
      exact (handler_disk known held.log).trans (by simp [logBytes])
    · rw [appended_perform]
      intro record inLog
      rcases List.mem_append.mp inLog with old | new
      · exact held.short record old
      · exact (order record (Option.mem_toList.mp new)).1
    · intro key
      rw [appended_perform, applied_perform, onKey_append, onKey_append]
      refine List.IsPrefix.trans ?_ (List.prefix_append _ _)
      cases same : logRecord? op with
      | none => simpa [onKey] using held.order key
      | some record =>
        rcases eq_or_ne record.key key with rfl | equal
        · simpa [onKey] using (order record same).2
        · simpa [onKey, equal] using held.order key
    · intro key
      have moved := System.countP_set_add (owes key) current
        ⟨call, next ((server true).answer op c.world)⟩
      have before : owes key ⟨call, .call op next⟩ = (logRecord? op).any fun r => r.key = key := rfl
      have after : owes key ⟨call, next ((server true).answer op c.world)⟩ =
          (memoryRecord? op).any fun r => r.key = key := congrArg (Option.any _) owedNext
      have debt := held.debt key
      rw [before, after] at moved
      change (onKey key (applied past _)).length =
        (onKey key (appended past _)).length + (c.tasks.set index _).countP (owes key)
      rw [appended_perform, applied_perform, onKey_append, onKey_append, List.length_append,
        List.length_append, length_onKey_toList, length_onKey_toList]
      omega
    · exact System.forall_mem_set held.logs logsNext index
  | resume index call result prog current resumed => contradiction

/-- Log and memory agree. In every run in which the records of each key are appended in the order
in which their requests updated the map, whenever no request is between its two steps, a load of
the log gives exactly the map in memory. -/
theorem log_agrees_with_memory {past : List LogRecord} {first : KeyValueStoreImpl}
    (held : Holds past first) (short : ∀ record ∈ past, record.Short)
    {events : List (Event ServerCall)}
    (inOrder : (server true).Along (InOrder past) (System.initial first) events) (ch : Byte) :
    let last := (server true).run (System.initial first) events
    (∀ task ∈ last.tasks, ¬ Between task) →
      ∃ restarted, serve last.world.state (.restart ch) = .ok restarted ∧
        restarted.storage = last.world.state.storage := by
  intro last quiet
  have start : LogInvariant past (System.initial first) := by
    refine ⟨held.named, ?_, ?_, ?_, ?_, ?_, fun _ member => nomatch member⟩
    · simpa [applied, System.initial] using held.memory
    · simpa [appended, System.initial] using held.log
    · simpa [appended, System.initial] using short
    · exact fun key => List.prefix_rfl
    · exact fun key => rfl
  have final : LogInvariant past last :=
    System.run_preserves (fun c event => step_logInvariant) inOrder start
  have same : ∀ key, onKey key (appended past last.world) =
      onKey key (applied past last.world) := by
    intro key
    have settled : last.tasks.countP (owes key) = 0 := by
      rw [List.countP_eq_zero]
      intro task member owing
      obtain ⟨record, isOwed, _⟩ := (Option.any_eq_true _ _).mp owing
      exact quiet task member (Option.isSome_of_mem isOwed)
    apply (final.order key).eq_of_length
    have debt := final.debt key
    omega
  refine ⟨⟨applyAll ∅ (appended past last.world), last.world.state.persistentFile, true,
    some (logBytes (appended past last.world))⟩, ?_, ?_⟩
  · rw [serve, final.log, KeyValueStoreImpl.persistentLoad_some ch final.named,
      replay_log ch ∅ final.short]
    rfl
  · rw [final.memory]
    exact applyAll_congr same

theorem log_agrees_with_memory_example :
    let events : List (Event ServerCall) := [.invoke (.put ⟨str "k", str "a"⟩),
      .invoke (.remove ⟨str "j"⟩), .advance 0, .advance 1, .advance 1, .advance 0]
    let last := (server true).run (System.initial ⟨∅, str "log", true, some []⟩) events
    ∃ restarted, serve last.world.state (.restart 0) = .ok restarted ∧
      restarted.storage = last.world.state.storage :=
  log_agrees_with_memory (show Holds [] _ from ⟨by decide, rfl, rfl, rfl⟩)
    (fun _ member => nomatch member) (by decide) 0 (by decide)

/-- Two puts on one key whose records are appended in the opposite order. -/
theorem log_agrees_with_memory_fails :
    let events : List (Event ServerCall) := [.invoke (.put ⟨str "k", str "a"⟩),
      .invoke (.put ⟨str "k", str "b"⟩), .advance 0, .advance 1, .advance 1, .advance 0]
    let last := (server true).run (System.initial ⟨∅, str "log", true, some []⟩) events
    (∀ task ∈ last.tasks, ¬ Between task) ∧
      ¬ ∃ restarted, serve last.world.state (.restart 0) = .ok restarted ∧
        restarted.storage = last.world.state.storage := by
  intro events last
  refine ⟨by decide, ?_⟩
  rintro ⟨restarted, served, same⟩
  have reversed : (serve last.world.state (.restart 0)).map (·.storage) =
      .ok (((∅ : Storage).pushBack (str "k") (str "b")).pushBack (str "k") (str "a")) := by decide
  have memory : last.world.state.storage =
      ((∅ : Storage).pushBack (str "k") (str "a")).pushBack (str "k") (str "b") := by decide
  rw [served] at reversed
  rw [memory] at same
  exact absurd (same.symm.trans (Except.ok.inj reversed)) (by decide)

end FuncWarble.Proofs
