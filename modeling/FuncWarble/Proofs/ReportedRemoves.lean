import Mathlib
import FuncWarble.Machine.Loop
import FuncWarble.Model.KeyValueClient
import FuncWarble.Proofs.DurableStore

/-! # Removes of absent keys

`Storage::DeleteKey` counts an absent key as deleted, so the branch of `remove` that answers
`NOT_FOUND` is never taken: a remove answers OK and logs its record whether or not there was
anything to remove. In both modes, and across restarts, a remove therefore does what its comment
says exactly when some put of the key has come after its last remove.
-/

namespace FuncWarble.Proofs

open Text Model Machine

/-- Some put of the key has occurred since its last remove. -/
def PutSince (key : Bytes) (past : List LogRecord) : Prop :=
  ∃ value, .put key value ∈ past.rtakeWhile (· != .remove key)

theorem putSince_iff (key : Bytes) (past : List LogRecord) :
    PutSince key past ↔ valuesSince key past ≠ [] := by
  rw [valuesSince, Ne, List.filterMap_eq_nil_iff, not_forall]
  constructor
  · rintro ⟨value, member⟩
    exact ⟨.put key value, fun silent => by simp [LogRecord.valueUnder] at silent; contradiction⟩
  · rintro ⟨record, loud⟩
    obtain ⟨member, valued⟩ := Classical.not_imp.mp loud
    cases record with
    | put other value =>
      have same : other = key := by
        by_contra ne
        exact valued (if_neg ne)
      exact ⟨value, same ▸ member⟩
    | remove other => exact absurd rfl valued

private theorem mem_of_mem_rtakeWhile {α : Type*} {p : α → Bool} {stop x : α}
    (stops : p stop = false) {front back : List α}
    (member : x ∈ (front ++ stop :: back).rtakeWhile p) : x ∈ back := by
  induction back using List.reverseRecOn with
  | nil =>
    rw [List.rtakeWhile_concat_neg _ _ _ (by simp [stops])] at member
    contradiction
  | append_singleton back last ih =>
    rw [← List.cons_append, ← List.append_assoc] at member
    by_cases passes : p last = true
    · rw [List.rtakeWhile_concat_pos _ _ _ passes] at member
      rcases List.mem_append.mp member with earlier | final
      · exact List.mem_append_left _ (ih earlier)
      · exact List.mem_append_right _ final
    · rw [List.rtakeWhile_concat_neg _ _ _ passes] at member
      contradiction

/-- Without a put of the key after it, a remove of the key leaves it absent. -/
theorem not_putSince_of_remove {key : Bytes} {before between : List LogRecord}
    (silent : ∀ value, .put key value ∉ between) :
    ¬ PutSince key (before ++ .remove key :: between) := by
  rintro ⟨value, member⟩
  exact silent value (mem_of_mem_rtakeWhile (by simp) member)

/-- The server agrees with a history: its memory does, and in persistent mode its log as well. -/
structure Remembers (persistentFile : Bytes) (past : List LogRecord) (server : KeyValueStoreImpl) :
    Prop where
  file : server.persistentFile = persistentFile
  mode : server.persistentMode = true ↔ persistentFile ≠ []
  memory : server.storage = applyAll ∅ past
  log : persistentFile ≠ [] → server.disk = some (logBytes past)

variable {persistentFile : Bytes} {past : List LogRecord} {server next : KeyValueStoreImpl}

theorem Remembers.holds (remembers : Remembers persistentFile past server)
    (named : persistentFile ≠ []) : Holds past server :=
  ⟨remembers.file ▸ named, remembers.mode.mpr named, remembers.memory, remembers.log named⟩

theorem serve_file {event : ServerEvent} (served : serve server event = .ok next) :
    next.persistentFile = server.persistentFile := by
  cases event with
  | put request =>
    obtain rfl := Except.ok.inj served
    rw [KeyValueStoreImpl.put_eq]
  | remove request =>
    obtain rfl := Except.ok.inj served
    rw [KeyValueStoreImpl.remove_eq]
  | get stream =>
    obtain rfl := Except.ok.inj served
    rw [KeyValueStoreImpl.get_snd]
  | restart ch => exact (KeyValueStoreImpl.persistentLoad_ok served).1

/-- The first start, without a file or on a missing or empty one. -/
theorem Remembers.of_load {ch : Byte} {disk : Option Bytes}
    (fresh : persistentFile = [] ∨ disk = none ∨ disk = some [])
    (loaded : KeyValueStoreImpl.persistentLoad ch persistentFile disk = .ok server) :
    Remembers persistentFile [] server := by
  obtain ⟨file, mode⟩ := KeyValueStoreImpl.persistentLoad_ok loaded
  rcases eq_or_ne persistentFile [] with rfl | named
  · obtain rfl := Except.ok.inj loaded
    exact ⟨file, mode, rfl, fun named => absurd rfl named⟩
  · obtain ⟨other, same, held⟩ := persistentLoad_fresh ch named (fresh.resolve_left named)
    obtain rfl := Except.ok.inj (same.symm.trans loaded)
    exact ⟨file, mode, held.memory, fun _ => held.log⟩

/-- Without a file only the memory has to follow. -/
theorem Remembers.extend (remembers : Remembers [] past server) (record : LogRecord)
    (disk : Option Bytes) : Remembers [] (past ++ [record])
      { server with storage := record.apply server.storage, disk } where
  file := remembers.file
  mode := remembers.mode
  memory := by rw [applyAll_concat, remembers.memory]
  log named := absurd rfl named

/-- One event extends the history; without a file there is no restart. -/
theorem Remembers.step {event : ServerEvent} (remembers : Remembers persistentFile past server)
    (restarts : persistentFile = [] → ∀ ch, event ≠ .restart ch)
    (served : serve server event = .ok next) :
    Remembers persistentFile (past ++ event.record?.toList) next := by
  rcases eq_or_ne persistentFile [] with rfl | named
  · cases event with
    | put request =>
      obtain rfl := Except.ok.inj served
      rw [KeyValueStoreImpl.put_eq]
      exact remembers.extend (.put request.key request.value) _
    | remove request =>
      obtain rfl := Except.ok.inj served
      rw [KeyValueStoreImpl.remove_eq]
      exact remembers.extend (.remove request.key) _
    | get stream =>
      obtain rfl := Except.ok.inj served
      rw [KeyValueStoreImpl.get_snd]
      simpa [ServerEvent.record?] using remembers
    | restart ch => exact absurd rfl (restarts rfl ch)
  · have held := (remembers.holds named).step served
    have file := (serve_file served).trans remembers.file
    exact ⟨file, by simp [held.mode, named], held.memory, fun _ => held.log⟩

/-- Every state of a run agrees with the history of its requests. -/
theorem Remembers.run {first : KeyValueStoreImpl} {events : List ServerEvent}
    (start : Remembers persistentFile [] first)
    (restarts : persistentFile = [] → ∀ ch, .restart ch ∉ events)
    (ran : events.foldlM serve first = .ok server) :
    Remembers persistentFile (history events) server := by
  refine Loop.foldlM_induct (fun events server =>
    (persistentFile = [] → ∀ ch, .restart ch ∉ events) →
      Remembers persistentFile (history events) server) (fun _ => start) ?_ ran restarts
  intro before event middle next ih served absent
  rw [history_concat]
  refine (ih fun empty ch member => absent empty ch (List.mem_append_left _ member)).step ?_ served
  rintro empty ch rfl
  exact absent empty ch (List.mem_append_right _ List.mem_cons_self)

/-- A remove does what its comment says: it answers OK if there is something to remove, and
`NOT_FOUND`, changing nothing, if there is not; and the client's answer says whether anything was
removed. -/
structure ReportsAbsence (past : List LogRecord) (server : KeyValueStoreImpl) (key : Bytes) :
    Prop where
  ok : (server.remove ⟨key⟩).1 = Status.OK ↔ PutSince key past
  absent : ¬ PutSince key past → (server.remove ⟨key⟩).1.code = .notFound ∧
    (server.remove ⟨key⟩).2.storage = server.storage ∧
    (server.remove ⟨key⟩).2.disk = server.disk
  client : (KeyValueClient.remove server key).1 = true ↔
    (KeyValueClient.remove server key).2.storage ≠ server.storage

/-- A remove does so exactly when its key is present. -/
theorem Remembers.reportsAbsence_iff (remembers : Remembers persistentFile past server)
    (key : Bytes) : ReportsAbsence past server key ↔ PutSince key past := by
  constructor
  · intro reports
    apply reports.ok.mp
    rw [KeyValueStoreImpl.remove_eq]
  · intro present
    refine ⟨?_, fun absent => absurd present absent, ?_⟩
    · rw [KeyValueStoreImpl.remove_eq]
      exact iff_of_true rfl present
    · rw [KeyValueClient.remove, KeyValueStoreImpl.remove_eq]
      refine iff_of_true rfl fun same => ?_
      rw [putSince_iff, ← applyAll_get, ← remembers.memory] at present
      exact present (Storage.erase_eq_self_iff.mp same)

/-- Every remove of a run does what its comment says, and of two removes of a key without a put of
the key between them at most one answers OK. -/
structure RemovesReported (first : KeyValueStoreImpl) (events : List ServerEvent) : Prop where
  each : ∀ before request after server, events = before ++ .remove request :: after →
    before.foldlM serve first = .ok server →
    ReportsAbsence (history before) server request.key
  once : ∀ before request between after server later,
    events = before ++ .remove request :: (between ++ .remove request :: after) →
    (∀ value, .put ⟨request.key, value⟩ ∉ between) →
    before.foldlM serve first = .ok server →
    (before ++ .remove request :: between).foldlM serve first = .ok later →
    ¬ ((server.remove request).1 = Status.OK ∧ (later.remove request).1 = Status.OK)

private theorem history_remove {key : Bytes} {before between : List ServerEvent}
    (silent : ∀ value, .put ⟨key, value⟩ ∉ between) :
    ¬ PutSince key (history (before ++ .remove ⟨key⟩ :: between)) := by
  rw [history, List.filterMap_append]
  refine not_putSince_of_remove fun value member => ?_
  obtain ⟨event, inside, same⟩ := List.mem_filterMap.mp member
  cases event with
  | put request =>
    obtain ⟨rfl, rfl⟩ := LogRecord.put.inj (Option.some.inj same)
    exact silent request.value inside
  | remove request => simp [ServerEvent.record?] at same
  | get stream => simp [ServerEvent.record?] at same
  | restart ch => simp [ServerEvent.record?] at same

/-- Removes report absence over a run, in either mode and across restarts, exactly when the run
removes present keys only. -/
theorem reported_removes_iff {ch : Byte} {disk : Option Bytes} {first last : KeyValueStoreImpl}
    (fresh : persistentFile = [] ∨ disk = none ∨ disk = some [])
    (loaded : KeyValueStoreImpl.persistentLoad ch persistentFile disk = .ok first)
    {events : List ServerEvent} (restarts : persistentFile = [] → ∀ ch, .restart ch ∉ events)
    (ran : events.foldlM serve first = .ok last) :
    RemovesReported first events ↔ ∀ before request after,
      events = before ++ .remove request :: after → PutSince request.key (history before) := by
  have start := Remembers.of_load fresh loaded
  have reached : ∀ before after, events = before ++ after →
      ∃ server, before.foldlM serve first = .ok server ∧
        Remembers persistentFile (history before) server := by
    rintro before after rfl
    obtain ⟨server, reached, _⟩ := Loop.foldlM_append_ok.mp ran
    exact ⟨server, reached, start.run
      (fun empty ch member => restarts empty ch (List.mem_append_left _ member)) reached⟩
  constructor
  · intro reported before request after split
    obtain ⟨server, before_ran, remembers⟩ := reached before _ split
    exact (remembers.reportsAbsence_iff _).mp (reported.each _ _ _ server split before_ran)
  · intro present
    refine ⟨?_, ?_⟩
    · intro before request after server split before_ran
      obtain ⟨other, other_ran, remembers⟩ := reached before _ split
      obtain rfl := Except.ok.inj (other_ran.symm.trans before_ran)
      exact (remembers.reportsAbsence_iff _).mpr (present _ _ _ split)
    · -- the second of two such removes finds its key absent, which the condition excludes
      intro before request between after server later split silent _ _ _
      rw [← List.cons_append, ← List.append_assoc] at split
      exact history_remove silent (present _ _ _ split)

/-- A key that is put, carried over a restart and removed once. -/
theorem reported_removes_example : ∃ first last,
    KeyValueStoreImpl.persistentLoad 7 (str "log") none = .ok first ∧
      [ServerEvent.put ⟨str "k", str "v"⟩, .restart 0, .remove ⟨str "k"⟩].foldlM serve first =
        .ok last ∧
      (RemovesReported first [.put ⟨str "k", str "v"⟩, .restart 0, .remove ⟨str "k"⟩] ↔
        ∀ before request after, [ServerEvent.put ⟨str "k", str "v"⟩, .restart 0,
          .remove ⟨str "k"⟩] = before ++ .remove request :: after →
          PutSince request.key (history before)) := by
  have loaded : KeyValueStoreImpl.persistentLoad 7 (str "log") none =
      .ok ⟨∅, str "log", true, some []⟩ := rfl
  have ran : [ServerEvent.put ⟨str "k", str "v"⟩, .restart 0, .remove ⟨str "k"⟩].foldlM serve
      ⟨∅, str "log", true, some []⟩ = .ok ⟨∅, str "log", true,
        some (logBytes [.put (str "k") (str "v"), .remove (str "k")])⟩ := by decide
  exact ⟨_, _, loaded, ran, reported_removes_iff (.inr (.inl rfl)) loaded
    (fun empty => absurd empty (by decide)) ran⟩

/-- A remove of a key that was never put answers OK. -/
theorem reported_removes_fails : ¬ ∀ (ch : Byte) (persistentFile : Bytes)
    (first last : KeyValueStoreImpl) (events : List ServerEvent),
    KeyValueStoreImpl.persistentLoad ch persistentFile none = .ok first →
    (persistentFile = [] → ∀ ch, .restart ch ∉ events) →
    events.foldlM serve first = .ok last → RemovesReported first events := by
  intro claim
  have reported := claim 7 (str "log") ⟨∅, str "log", true, some []⟩ _ [.remove ⟨str "k"⟩] rfl
    (fun empty => absurd empty (by decide)) rfl
  have present := (reported.each [] ⟨str "k"⟩ [] _ rfl rfl).ok.mp rfl
  exact (putSince_iff _ _).mp present rfl

end FuncWarble.Proofs
