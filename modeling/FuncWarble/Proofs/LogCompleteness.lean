import Mathlib
import FuncWarble.Proofs.ConcurrentLog

/-! # Nothing is lost from the log

Records may reach the log in another order than their requests have reached the map. Where each of
them is appended as a whole, none is lost and none is written twice: at every moment the requests
applied to the map are, up to their order, those in the log and those that a task is about to
append. What a restart loads under a key that was never removed is therefore what memory held there,
up to order.
-/

namespace FuncWarble.Proofs

open Text Model Machine

/-- The requests whose records the tasks are about to append. -/
def unwritten (c : ServerConfig) : List LogRecord := c.tasks.filterMap fun task => owed task.prog

/-- What every run keeps true, whatever the order of its steps. -/
structure NothingLost (past : List LogRecord) (c : ServerConfig) : Prop where
  named : c.world.state.persistentFile ≠ []
  memory : c.world.state.storage = applyAll ∅ (applied past c.world)
  log : c.world.state.disk = some (logBytes (appended past c.world))
  complete : (applied past c.world).Perm (appended past c.world ++ unwritten c)
  logs : ∀ task ∈ c.tasks, Logs task.prog

/-- Exchanging one element of a list exchanges what it contributes to a filtered list. -/
theorem filterMap_set_perm {α β : Type} (f : α → Option β) {xs : List α} {index : ℕ} {x : α}
    (current : xs[index]? = some x) (y : α) :
    ((xs.set index y).filterMap f ++ (f x).toList).Perm (xs.filterMap f ++ (f y).toList) := by
  obtain ⟨inside, rfl⟩ := List.getElem?_eq_some_iff.mp current
  have contribution (z : α) (zs : List α) :
      (z :: zs).filterMap f = (f z).toList ++ zs.filterMap f := by
    cases same : f z <;> simp [same]
  have exchanged := (List.set_perm_cons_eraseIdx inside y).filterMap f
  have original := (List.getElem_cons_eraseIdx_perm inside).filterMap f
  rw [contribution] at exchanged original
  have swapped : ((f y).toList ++ (xs.eraseIdx index).filterMap f ++ (f xs[index]).toList).Perm
      ((f xs[index]).toList ++ (xs.eraseIdx index).filterMap f ++ (f y).toList) := by
    rw [List.append_assoc (f xs[index]).toList]
    exact List.perm_append_comm.trans (List.perm_append_comm.append_left _)
  exact (exchanged.append_right _).trans (swapped.trans (original.append_right _))

/-- Every event keeps the records complete. -/
theorem step_nothingLost {past : List LogRecord} {c : ServerConfig} (event : Event ServerCall)
    (held : NothingLost past c) : NothingLost past ((server true).step c event) := by
  have stepped := (server true).step_cases c event
  generalize (server true).step c event = c' at stepped ⊢
  cases stepped with
  | stay => exact held
  | invoke call =>
    obtain ⟨nothing, logs⟩ := program_logs call
    refine { held with complete := ?_, logs := System.forall_mem_concat held.logs logs }
    have same : unwritten { c with tasks := c.tasks ++ [⟨call, (server true).start call⟩] } =
        unwritten c := by
      simp [unwritten, server, nothing]
    rw [same]
    exact held.complete
  | perform index call op next current =>
    obtain ⟨known, logs⟩ := held.logs _ (List.mem_of_getElem? current)
    obtain ⟨owedNext, logsNext⟩ := logs c.world.state
    refine ⟨?_, ?_, ?_, ?_, System.forall_mem_set held.logs logsNext index⟩
    · exact (handler_persistentFile op _).symm ▸ held.named
    · rw [applied_perform, applyAll, List.foldl_append]
      exact (handler_storage op _).trans (by rw [held.memory]; rfl)
    · rw [appended_perform]
      exact (handler_disk known held.log).trans (by simp [logBytes])
    · have exchanged := filterMap_set_perm (fun task => owed task.prog) current
        ⟨call, next ((server true).answer op c.world)⟩
      change List.Perm (_ ++ (logRecord? op).toList)
        (unwritten c ++ (owed (next ((server true).answer op c.world))).toList) at exchanged
      rw [show owed (next ((server true).answer op c.world)) = memoryRecord? op from owedNext]
        at exchanged
      rw [applied_perform, appended_perform, List.append_assoc]
      refine (held.complete.append_right _).trans ?_
      rw [List.append_assoc]
      exact (exchanged.symm.trans List.perm_append_comm).append_left _
  | resume index call result prog current resumed => contradiction

/-- Under a key that was never removed all values are kept. -/
theorem valuesSince_of_not_mem {key : Bytes} {history : List LogRecord}
    (kept : .remove key ∉ history) :
    valuesSince key history = history.filterMap (LogRecord.valueUnder key) := by
  rw [valuesSince, List.rtakeWhile_eq_self_iff.mpr]
  intro record member
  rw [bne_iff_ne]
  rintro rfl
  exact kept member

/-- Nothing is lost when every record is appended as a whole. In every run of concurrent requests,
whenever no request is between its two steps, the log consists of exactly the records of the
requests that the map has seen, each once. While these are short a restart loads the log, and under
every key that none of them removes it finds the values in memory, up to their order. -/
theorem nothing_lost {past : List LogRecord} {first : KeyValueStoreImpl} (held : Holds past first)
    (events : List (Event ServerCall)) (ch : Byte) :
    let last := (server true).run (System.initial first) events
    (∀ task ∈ last.tasks, ¬ Between task) →
      ∃ records, last.world.state.disk = some (logBytes records) ∧
        records.Perm (applied past last.world) ∧
        last.world.state.storage = applyAll ∅ (applied past last.world) ∧
        ((∀ record ∈ records, record.Short) →
          ∃ restarted, serve last.world.state (.restart ch) = .ok restarted ∧
            ∀ key, .remove key ∉ records →
              (restarted.storage.get key).Perm (last.world.state.storage.get key)) := by
  intro last quiet
  have start : NothingLost past (System.initial first) := by
    refine ⟨held.named, ?_, ?_, ?_, List.forall_mem_nil _⟩
    · simpa [applied, System.initial] using held.memory
    · simpa [appended, System.initial] using held.log
    · simp [applied, appended, unwritten, System.initial]
  have final : NothingLost past last :=
    System.run_invariant (fun _ event => step_nothingLost event) start events
  have settled : unwritten last = [] := by
    rw [unwritten, List.filterMap_eq_nil_iff]
    intro task member
    exact Option.not_isSome_iff_eq_none.mp (quiet task member)
  have complete := final.complete
  rw [settled, List.append_nil] at complete
  refine ⟨appended past last.world, final.log, complete.symm, final.memory, fun short => ?_⟩
  refine ⟨⟨applyAll ∅ (appended past last.world), last.world.state.persistentFile, true,
    some (logBytes (appended past last.world))⟩, ?_, fun key kept => ?_⟩
  · rw [serve, final.log, KeyValueStoreImpl.persistentLoad_some ch final.named,
      replay_log ch ∅ short]
    rfl
  · have keptToo : .remove key ∉ applied past last.world :=
      fun member => kept (complete.subset member)
    rw [final.memory, applyAll_get, applyAll_get, valuesSince_of_not_mem kept,
      valuesSince_of_not_mem keptToo]
    exact complete.symm.filterMap _

/-- Two puts on one key whose records are appended in the opposite order. -/
theorem nothing_lost_example :
    let events : List (Event ServerCall) := [.invoke (.put ⟨str "k", str "a"⟩),
      .invoke (.put ⟨str "k", str "b"⟩), .advance 0, .advance 1, .advance 1, .advance 0]
    let last := (server true).run (System.initial ⟨∅, str "log", true, some []⟩) events
    ∃ records, last.world.state.disk = some (logBytes records) ∧
      records.Perm (applied [] last.world) ∧
      last.world.state.storage = applyAll ∅ (applied [] last.world) ∧
      ((∀ record ∈ records, record.Short) →
        ∃ restarted, serve last.world.state (.restart 0) = .ok restarted ∧
          ∀ key, .remove key ∉ records →
            (restarted.storage.get key).Perm (last.world.state.storage.get key)) :=
  nothing_lost (show Holds [] _ from ⟨by decide, rfl, rfl, rfl⟩) _ 0 (by decide)

end FuncWarble.Proofs
